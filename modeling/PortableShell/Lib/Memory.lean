import Mathlib.Data.List.Basic
import Mathlib.Data.List.TakeDrop
import Mathlib.Data.List.TakeWhile

set_option relaxedAutoImplicit false
set_option autoImplicit false

/-!
# Lists as memory blocks

A block of memory is the list of its cells, in address order. This file has the block
operations of a C program on such a list (`memcpy`, `memmove`, `memset`) and the reading of a
terminated string out of it.

## Main definitions

* `Mem.store` — overwrite the cells from an offset with a list of values. The block keeps its
  size: values that would fall past the end are lost.
* `Mem.move`, `Mem.fill` — `memmove` and `memset`, as stores.
* `Mem.upto` — the cells before the first terminator.
* `Mem.Holds` — the block starts with a given string and its terminator.

## Main results

* `Mem.store_append` — a store that fits replaces exactly the middle part of a split block.
* `Mem.upto_append` — the string read from `a ++ z :: b` is `a` when `z` does not occur in `a`.
* `Mem.Holds.replace` — a part of the string is replaced in place, by moving what follows it.
* `Mem.upto_eq_of_take_eq` — blocks that agree up to a terminator hold the same string.
-/

namespace Mem

variable {α : Type*}

/-! ## Stores -/

/-- Overwrite the cells `off, off + 1, …` of `m` with `d`, dropping what falls past the end. -/
def store (m : List α) (off : ℕ) (d : List α) : List α :=
  (m.take off ++ d ++ m.drop (off + d.length)).take m.length

/-- Copy the `n` cells from `src` over those from `dst`, as if through a third block. -/
def move (m : List α) (dst src n : ℕ) : List α := store m dst ((m.drop src).take n)

/-- Set the `n` cells from `off` to `v`. -/
def fill (m : List α) (off : ℕ) (v : α) (n : ℕ) : List α := store m off (List.replicate n v)

/-- A store keeps the size of the block. -/
@[simp] theorem length_store (m : List α) (off : ℕ) (d : List α) :
    (store m off d).length = m.length := by
  simp only [store, List.length_take, List.length_append, List.length_drop]
  omega

/-- Moving cells keeps the size of the block. -/
@[simp] theorem length_move (m : List α) (dst src n : ℕ) : (move m dst src n).length = m.length :=
  length_store _ _ _

/-- Filling cells keeps the size of the block. -/
@[simp] theorem length_fill (m : List α) (off : ℕ) (v : α) (n : ℕ) :
    (fill m off v n).length = m.length := length_store _ _ _

/-- A store that fits, written out. -/
theorem store_eq {m d : List α} {off : ℕ} (h : off + d.length ≤ m.length) :
    store m off d = m.take off ++ d ++ m.drop (off + d.length) := by
  refine List.take_of_length_le ?_
  simp only [List.length_append, List.length_take, List.length_drop]
  omega

/-- A store that fits replaces exactly the part of the block it lies on. -/
theorem store_append {a b c d : List α} {off : ℕ} (ha : a.length = off)
    (hb : b.length = d.length) : store (a ++ b ++ c) off d = a ++ d ++ c := by
  subst ha
  rw [store_eq (by simp only [List.length_append]; omega)]
  congr 1
  · rw [List.append_assoc, List.take_left']
    rfl
  · rw [List.append_assoc, ← List.drop_drop, List.drop_left, ← hb, List.drop_left]

/-- The cells before a store are unchanged. -/
theorem take_store {m d : List α} {off k : ℕ} (h : k ≤ off) :
    (store m off d).take k = m.take k := by
  rw [store, List.take_take, List.append_assoc]
  rcases Nat.le_total off m.length with ho | ho
  · rw [Nat.min_eq_left (by omega), List.take_append_of_le_length (by simp; omega),
      List.take_take, Nat.min_eq_left h]
  · rw [List.take_of_length_le (l := m) ho, List.take_append_of_le_length (by omega),
      ← List.take_take, List.take_length]

/-- The cells behind a store are unchanged. -/
theorem drop_store {m d : List α} {off k : ℕ} (h : off + d.length ≤ k) :
    (store m off d).drop k = m.drop k := by
  rcases Nat.le_total (off + d.length) m.length with hm | hm
  · rw [store_eq hm]
    have hlen : (m.take off ++ d).length = off + d.length := by
      simp only [List.length_append, List.length_take]
      omega
    obtain ⟨j, rfl⟩ : ∃ j, k = off + d.length + j := ⟨k - (off + d.length), by omega⟩
    rw [← hlen, ← List.drop_drop, List.drop_left, hlen, List.drop_drop]
  · rw [List.drop_eq_nil_of_le (by simp; omega), List.drop_eq_nil_of_le (by omega)]

/-- What a store that fits leaves from its offset on. -/
theorem drop_store_self {m d : List α} {off : ℕ} (h : off + d.length ≤ m.length) :
    (store m off d).drop off = d ++ m.drop (off + d.length) := by
  rw [store_eq h, List.append_assoc, List.drop_left' (by rw [List.length_take]; omega)]

/-- The cells of a region that a store does not meet are unchanged. -/
theorem take_drop_store {m d : List α} {off k n : ℕ} (h : k + n ≤ off ∨ off + d.length ≤ k) :
    ((store m off d).drop k).take n = (m.drop k).take n := by
  rcases h with h | h
  · rw [List.take_drop, List.take_drop, take_store h]
  · rw [drop_store h]

/-- Two stores in sequence are one. -/
theorem store_store {m a b : List α} (off : ℕ) (h : off + a.length + b.length ≤ m.length) :
    store (store m off a) (off + a.length) b = store m off (a ++ b) := by
  have ha : off + a.length ≤ m.length := by omega
  have hb : off + a.length + b.length ≤ (store m off a).length := by rwa [length_store]
  rw [store_eq hb, drop_store (by omega), store_eq ha,
    store_eq (m := m) (d := a ++ b) (by rw [List.length_append]; omega),
    List.take_left' (by rw [List.length_append, List.length_take]; omega), List.length_append,
    Nat.add_assoc]
  simp only [List.append_assoc]

/-- Filling a whole prefix of the block forgets what it held. -/
theorem fill_zero {m : List α} {v : α} {n : ℕ} (h : n ≤ m.length) :
    fill m 0 v n = List.replicate n v ++ m.drop n := by
  rw [fill, store_eq (by simpa using h)]
  simp

/-! ## Terminated strings -/

variable [DecidableEq α]

/-- The cells before the first terminator `z`. -/
def upto (z : α) (m : List α) : List α := m.takeWhile (· ≠ z)

/-- The terminator is not in the string it ends. -/
theorem not_mem_upto (z : α) (m : List α) : z ∉ upto z m := by
  intro h
  simpa using List.mem_takeWhile_imp h

/-- A string followed by its terminator is read back as it was written. -/
theorem upto_append {z : α} {a b : List α} (h : z ∉ a) : upto z (a ++ z :: b) = a := by
  rw [upto, List.takeWhile_append_of_pos (fun x hx => by
    simpa using fun e : x = z => h (e ▸ hx))]
  simp

/-- A block with a terminator splits into its string, the terminator and the rest. -/
theorem exists_eq_upto_append {z : α} {m : List α} (h : z ∈ m) :
    ∃ r, m = upto z m ++ z :: r := by
  induction m with
  | nil => simp at h
  | cons c m ih =>
    by_cases hc : c = z
    · exact ⟨m, by simp [upto, hc]⟩
    · obtain ⟨r, hr⟩ := ih (by simpa [Ne.symm hc] using h)
      refine ⟨r, ?_⟩
      have hu : upto z (c :: m) = c :: upto z m := by simp [upto, hc]
      rw [hu, List.cons_append, ← hr]

/-- A string whose terminator lies below a bound is shorter than the bound. -/
theorem length_upto_lt {z : α} {m : List α} {n : ℕ} (h : z ∈ m.take n) : (upto z m).length < n := by
  obtain ⟨r, hr⟩ := exists_eq_upto_append (List.mem_of_mem_take h)
  by_contra hle
  rw [hr, List.take_append_of_le_length (by omega)] at h
  exact not_mem_upto z m (List.mem_of_mem_take h)

/-- Two blocks that agree up to and including a terminator hold the same string. -/
theorem upto_eq_of_take_eq {z : α} {m m' : List α} {n : ℕ} (h : m.take n = m'.take n)
    (hz : z ∈ m.take n) : upto z m = upto z m' := by
  obtain ⟨r, hr⟩ := exists_eq_upto_append hz
  have key : ∀ l : List α, l.take n = m.take n → upto z l = upto z (m.take n) := by
    intro l hl
    rw [← List.take_append_drop n l, hl, hr, List.append_assoc, List.cons_append,
      upto_append (not_mem_upto z _), upto_append (not_mem_upto z _)]
  rw [key m rfl, key m' h.symm]

/-! ## Strings at the start of a block -/

section Holds

omit [DecidableEq α]

variable {z : α} {m : List α}

/-- The block `m` starts with the string `text`, terminated by `z`. -/
structure Holds (z : α) (m text : List α) : Prop where
  not_mem : z ∉ text
  exists_rest : ∃ rest, m = text ++ z :: rest

/-- The string and its terminator lie in the block. -/
theorem Holds.length_lt {text : List α} (h : Holds z m text) : text.length < m.length := by
  obtain ⟨rest, rfl⟩ := h.exists_rest
  simp

/-- The cells of the string. -/
theorem Holds.take_eq {text : List α} (h : Holds z m text) : m.take text.length = text := by
  obtain ⟨rest, rfl⟩ := h.exists_rest
  exact List.take_left

/-- The cell behind the string. -/
theorem Holds.getElem?_length {text : List α} (h : Holds z m text) :
    m[text.length]? = some z := by
  obtain ⟨rest, rfl⟩ := h.exists_rest
  simp

/-- The terminator lies among the first cells. -/
theorem Holds.mem_take {text : List α} (h : Holds z m text) {n : ℕ} (hn : text.length < n) :
    z ∈ m.take n := by
  obtain ⟨rest, rfl⟩ := h.exists_rest
  obtain ⟨k, rfl⟩ : ∃ k, n = text.length + (k + 1) := ⟨n - text.length - 1, by omega⟩
  rw [List.take_length_add_append, List.take_succ_cons]
  simp

/-- A string that fits is written with its terminator. -/
theorem holds_store (text : List α) (hz : z ∉ text) (h : text.length < m.length) :
    Holds z (store m 0 (text ++ [z])) text := by
  refine ⟨hz, m.drop (text.length + 1), ?_⟩
  rw [store_eq (by simpa [Nat.succ_le_iff] using h)]
  simp

/-- A block filled with terminators holds the empty string. -/
theorem holds_fill {n : ℕ} (hn : 0 < n) (h : n ≤ m.length) : Holds z (fill m 0 z n) [] := by
  obtain ⟨k, rfl⟩ : ∃ k, n = k + 1 := ⟨n - 1, by omega⟩
  exact ⟨List.not_mem_nil, _, by rw [fill_zero h, List.replicate_succ]; rfl⟩

/-- **Replacing a part of the string**: what follows it is moved with the terminator, and the new
part is written into the gap. -/
theorem Holds.replace {a x b : List α} (h : Holds z m (a ++ x ++ b)) {y : List α} (hy : z ∉ y)
    (hfit : a.length + y.length + b.length < m.length) :
    Holds z (store (move m (a.length + y.length) (a.length + x.length) (b.length + 1)) a.length y)
      (a ++ y ++ b) := by
  obtain ⟨rest, hm⟩ := h.exists_rest
  have htail : (m.drop (a.length + x.length)).take (b.length + 1) = b ++ [z] := by
    rw [hm, List.append_assoc (a ++ x), ← List.length_append, List.drop_left,
      List.take_length_add_append]
    rfl
  have hlen : (b ++ [z]).length = b.length + 1 := by simp
  have hmove : a.length + y.length + (b ++ [z]).length ≤ m.length := by omega
  refine ⟨?_, m.drop (a.length + y.length + (b ++ [z]).length), ?_⟩
  · have := h.not_mem
    simp only [List.mem_append, not_or] at this ⊢
    exact ⟨⟨this.1.1, hy⟩, this.2⟩
  · rw [move, htail, store_eq (by rw [length_store]; omega), take_store (by omega),
      drop_store_self hmove]
    have htake : m.take a.length = a := by
      rw [hm, List.append_assoc, List.append_assoc, List.take_left]
    rw [htake]
    simp

/-- Removing a part of the string. -/
theorem Holds.delete {a x b : List α} (h : Holds z m (a ++ x ++ b)) :
    Holds z (move m a.length (a.length + x.length) (b.length + 1)) (a ++ b) := by
  have hlt := h.length_lt
  rw [List.length_append, List.length_append] at hlt
  have hr := h.replace (y := []) List.not_mem_nil (by simp only [List.length_nil]; omega)
  have hnil : ∀ (l : List α) (off : ℕ), store l off [] = l := fun l off => by simp [store]
  rwa [hnil, List.append_nil, List.length_nil, Nat.add_zero] at hr

/-- Inserting a value into the string. -/
theorem Holds.insert {a b : List α} (h : Holds z m (a ++ b)) {c : α} (hc : c ≠ z)
    (hfit : a.length + b.length + 1 < m.length) :
    Holds z (store (move m (a.length + 1) a.length (b.length + 1)) a.length [c])
      (a ++ [c] ++ b) := by
  have h' : Holds z m (a ++ [] ++ b) := by rwa [List.append_nil]
  exact h'.replace (y := [c]) (by simpa using hc.symm) (by simp only [List.length_singleton]; omega)

end Holds

end Mem
