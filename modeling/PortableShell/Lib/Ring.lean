import Mathlib.Data.List.Range
import Mathlib.Logic.Function.Basic
import Mathlib.Tactic.Common

set_option relaxedAutoImplicit false
set_option autoImplicit false

/-!
# Rings

A ring of `depth` slots keeps the last `depth` values pushed to it: a push fills the next free
slot, and in a full ring it overwrites the oldest value. This file relates such a ring, given by
slot contents and indices, to the list of its values with the newest first.

## Main definitions

* `SlotRing` — slot contents, the slot of the oldest value and the number of values.
* `SlotRing.push` — store a value.
* `SlotRing.toList` — the values, newest first.

## Main results

* `SlotRing.toList_push` — a push conses the value and keeps the first `depth` values.
* `SlotRing.getElem?_toList` — the slot in which the value of a given age is found.
-/

/-- A ring over slots of type `α`. The number of slots is a parameter of its operations. -/
structure SlotRing (α : Type*) where
  /-- The slot contents. Only the slots below the depth belong to the ring. -/
  slots : ℕ → α
  /-- The slot of the oldest value. -/
  start : ℕ
  /-- The number of values. -/
  count : ℕ

namespace SlotRing

variable {α : Type*}

/-- The slot of the value that `i` values are newer than. -/
def index (depth : ℕ) (r : SlotRing α) (i : ℕ) : ℕ := (r.start + (r.count - 1 - i)) % depth

/-- The slot the next value goes to. -/
def target (depth : ℕ) (r : SlotRing α) : ℕ :=
  if r.count < depth then (r.start + r.count) % depth else r.start

/-- Store a value: in the next free slot, or over the oldest value when there is none. -/
def push (depth : ℕ) (r : SlotRing α) (a : α) : SlotRing α where
  slots := Function.update r.slots (r.target depth) a
  start := if r.count < depth then r.start else (r.start + 1) % depth
  count := if r.count < depth then r.count + 1 else r.count

/-- The values, newest first. -/
def toList (depth : ℕ) (r : SlotRing α) : List α :=
  (List.range r.count).map fun i => r.slots (r.index depth i)

/-- The number of values listed. -/
@[simp] theorem length_toList (depth : ℕ) (r : SlotRing α) : (r.toList depth).length = r.count := by
  simp [toList]

/-- The value of a given age. -/
theorem getElem?_toList (depth : ℕ) (r : SlotRing α) (i : ℕ) :
    (r.toList depth)[i]? = if i < r.count then some (r.slots (r.index depth i)) else none := by
  rw [toList, List.getElem?_map]
  split_ifs with hi
  · rw [List.getElem?_range hi]
    rfl
  · rw [List.getElem?_eq_none (by simpa using hi)]
    rfl

/-- A ring is well placed: the oldest value has a slot and there are no more values than
slots. -/
structure Bounded (depth : ℕ) (r : SlotRing α) : Prop where
  start_lt : r.start < depth
  count_le : r.count ≤ depth

/-- A push keeps the ring well placed. -/
theorem Bounded.push {depth : ℕ} {r : SlotRing α} (h : r.Bounded depth) (a : α) :
    (r.push depth a).Bounded depth := by
  obtain ⟨hs, hc⟩ := h
  constructor
  · rw [SlotRing.push]
    dsimp only
    split_ifs
    · exact hs
    · exact Nat.mod_lt _ (by omega)
  · rw [SlotRing.push]
    dsimp only
    split_ifs <;> omega

/-- A value goes to a slot of the ring. -/
theorem Bounded.target_lt {depth : ℕ} {r : SlotRing α} (h : r.Bounded depth) :
    r.target depth < depth := by
  rw [target]
  split_ifs
  · exact Nat.mod_lt _ (by omega)
  · exact h.start_lt

/-- Two positions less than one turn apart are different slots. -/
theorem mod_ne_mod (depth : ℕ) {a b : ℕ} (hab : a < b) (hb : b < a + depth) :
    a % depth ≠ b % depth := by
  intro h
  have hdvd : depth ∣ b - a := Nat.dvd_of_mod_eq_zero (Nat.sub_mod_eq_zero_of_mod_eq h.symm)
  exact absurd (Nat.le_of_dvd (by omega) hdvd) (by omega)

/-- After a push the newest value is in the slot that was written. -/
theorem index_push_zero {depth : ℕ} {r : SlotRing α} (h : r.Bounded depth) (a : α) :
    (r.push depth a).index depth 0 = r.target depth := by
  obtain ⟨hs, hc⟩ := h
  rw [index, target, push]
  dsimp only
  by_cases hlt : r.count < depth
  · rw [if_pos hlt, if_pos hlt, if_pos hlt]
    rfl
  · have hd : r.count = depth := by omega
    rw [if_neg hlt, if_neg hlt, if_neg hlt, hd, Nat.sub_zero, Nat.mod_add_mod,
      show r.start + 1 + (depth - 1) = r.start + depth by omega, Nat.add_mod_right,
      Nat.mod_eq_of_lt hs]

/-- After a push the other values are one place further from the newest, in slots that were not
written.

**Proof sketch.** Without wrapping the slots stay where they are; a full ring moves its start by
one, which the modulus absorbs. The slot written is not among those counted, by `mod_ne_mod`. -/
theorem index_push_succ {depth : ℕ} {r : SlotRing α} (h : r.Bounded depth) (a : α) {i : ℕ}
    (hi : i + 1 < (r.push depth a).count) :
    (r.push depth a).index depth (i + 1) = r.index depth i ∧
      r.index depth i ≠ r.target depth := by
  obtain ⟨hs, hc⟩ := h
  rw [push] at hi
  dsimp only at hi
  constructor
  · rw [index, index, push]
    dsimp only
    by_cases hlt : r.count < depth
    · rw [if_pos hlt] at hi
      rw [if_pos hlt, if_pos hlt, show r.count + 1 - 1 - (i + 1) = r.count - 1 - i by omega]
    · rw [if_neg hlt] at hi
      rw [if_neg hlt, if_neg hlt, Nat.mod_add_mod,
        show r.start + 1 + (r.count - 1 - (i + 1)) = r.start + (r.count - 1 - i) by omega]
  · rw [index, target]
    by_cases hlt : r.count < depth
    · rw [if_pos hlt] at hi ⊢
      exact mod_ne_mod depth (by omega) (by omega)
    · rw [if_neg hlt] at hi ⊢
      have h := mod_ne_mod depth (a := r.start)
        (b := r.start + (r.count - 1 - i)) (by omega) (by omega)
      rw [Nat.mod_eq_of_lt hs] at h
      exact h.symm

/-- After a push the newest value is the one pushed. -/
theorem slots_index_push_zero {depth : ℕ} {r : SlotRing α} (h : r.Bounded depth) (a : α) :
    (r.push depth a).slots ((r.push depth a).index depth 0) = a := by
  rw [index_push_zero h]
  exact Function.update_self _ _ _

/-- After a push the other values are those the ring had. -/
theorem slots_index_push_succ {depth : ℕ} {r : SlotRing α} (h : r.Bounded depth) (a : α) {i : ℕ}
    (hi : i + 1 < (r.push depth a).count) :
    (r.push depth a).slots ((r.push depth a).index depth (i + 1)) =
      r.slots (r.index depth i) := by
  obtain ⟨hidx, hne⟩ := index_push_succ h a hi
  rw [hidx]
  exact Function.update_of_ne hne _ _

/-- **A push, on lists**: the value is consed, and the oldest one falls out of a full ring.

**Proof sketch.** Position `0` is `slots_index_push_zero`; position `i + 1` is
`slots_index_push_succ`, whose slot is not the one written. -/
theorem toList_push {depth : ℕ} {r : SlotRing α} (h : r.Bounded depth) (a : α) :
    (r.push depth a).toList depth = (a :: r.toList depth).take depth := by
  refine List.ext_getElem? fun i => ?_
  have hcount : (r.push depth a).count = min depth (r.count + 1) := by
    have := h.count_le
    rw [push]
    dsimp only
    split_ifs <;> omega
  rw [getElem?_toList, List.getElem?_take]
  cases i with
  | zero =>
    have hd : 0 < depth := Nat.zero_lt_of_lt h.start_lt
    rw [if_pos (by omega), if_pos hd, slots_index_push_zero h]
    rfl
  | succ i =>
    rw [List.getElem?_cons_succ, getElem?_toList]
    by_cases hi : i + 1 < (r.push depth a).count
    · rw [if_pos hi, slots_index_push_succ h a hi, if_pos (by omega), if_pos (by omega)]
    · rw [if_neg hi]
      split_ifs <;> first | rfl | omega

end SlotRing
