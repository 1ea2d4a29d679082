import Mathlib.Data.List.Infix
import Mathlib.Tactic.Common

set_option relaxedAutoImplicit false
set_option autoImplicit false

/-!
# Longest common prefixes

The lists that are prefixes of two given lists are the prefixes of one list, the longest of them.
For several lists it can be found by folding them, or by comparing each of them with the first one
and keeping the least length.

## Main definitions

* `CommonPrefix.both` — the longest common prefix of two lists.
* `CommonPrefix.all` — the longest common prefix of several lists.

## Main results

* `CommonPrefix.prefix_both_iff`, `CommonPrefix.prefix_all_iff` — they are greatest lower bounds in
  the prefix order.
* `CommonPrefix.take_foldl_min` — comparing each list with the first one.
-/

namespace CommonPrefix

variable {α : Type*}

/-- Lists with the same prefixes are the same. -/
theorem eq_of_prefix_iff {a b : List α} (h : ∀ y, y <+: a ↔ y <+: b) : a = b := by
  have hab : a <+: b := (h a).mp List.prefix_rfl
  have hba : b <+: a := (h b).mpr List.prefix_rfl
  exact hab.eq_of_length (hab.length_le.antisymm hba.length_le)

variable [DecidableEq α]

/-- The longest common prefix of two lists. -/
def both : List α → List α → List α
  | a :: as, b :: bs => if a = b then a :: both as bs else []
  | _, _ => []

/-- The longest common prefix of several lists. -/
def all : List (List α) → List α
  | [] => []
  | first :: rest => rest.foldl both first

/-- **The common prefixes of two lists** are the prefixes of the longest one. -/
theorem prefix_both_iff {y a b : List α} : y <+: both a b ↔ y <+: a ∧ y <+: b := by
  induction a generalizing y b with
  | nil => exact ⟨fun h => ⟨h, h.trans List.nil_prefix⟩, fun h => h.1⟩
  | cons c a ih =>
    cases b with
    | nil => exact ⟨fun h => ⟨h.trans List.nil_prefix, h⟩, fun h => h.2⟩
    | cons d b =>
      rw [both]
      cases y with
      | nil => simp
      | cons e y =>
        split_ifs with hcd
        · subst hcd
          rw [List.cons_prefix_cons, List.cons_prefix_cons, List.cons_prefix_cons, ih]
          exact ⟨fun ⟨he, hy⟩ => ⟨⟨he, hy.1⟩, he, hy.2⟩, fun ⟨ha, hb⟩ => ⟨ha.1, ha.2, hb.2⟩⟩
        · rw [List.cons_prefix_cons, List.cons_prefix_cons, List.prefix_nil]
          refine ⟨fun h => absurd h (List.cons_ne_nil e y), ?_⟩
          rintro ⟨⟨rfl, -⟩, rfl, -⟩
          exact absurd rfl hcd

/-- **The common prefixes of several lists** are the prefixes of the longest one. -/
theorem prefix_all_iff {y first : List α} {rest : List (List α)} :
    y <+: all (first :: rest) ↔ ∀ l ∈ first :: rest, y <+: l := by
  rw [all, List.forall_mem_cons]
  induction rest generalizing first with
  | nil => simp
  | cons l rest ih => rw [List.foldl_cons, ih, prefix_both_iff, List.forall_mem_cons, and_assoc]

/-- The longest common prefix with a part of a list. -/
theorem both_take (a b : List α) (n : ℕ) :
    both (a.take n) b = a.take (min n (both a b).length) := by
  have htake : a.take (both a b).length = both a b :=
    (List.prefix_iff_eq_take.mp (prefix_both_iff.mp List.prefix_rfl).1).symm
  refine eq_of_prefix_iff fun y => ?_
  rw [← List.take_take, htake, List.prefix_take_iff, prefix_both_iff, prefix_both_iff,
    List.prefix_take_iff]
  exact ⟨fun h => ⟨⟨h.1.1, h.2⟩, h.1.2⟩, fun h => ⟨⟨h.1.1, h.2⟩, h.1.2⟩⟩

/-- What lies behind the length of the first list plays no part. -/
theorem both_take_right {a : List α} {n : ℕ} (h : a.length ≤ n) (b : List α) :
    both a (b.take n) = both a b := by
  refine eq_of_prefix_iff fun y => ?_
  rw [prefix_both_iff, prefix_both_iff, List.prefix_take_iff]
  exact ⟨fun hy => ⟨hy.1, hy.2.1⟩, fun hy => ⟨hy.1, hy.2, hy.1.length_le.trans h⟩⟩

/-- **Comparing each list with the first one** gives the longest common prefix of all. -/
theorem take_foldl_min (first : List α) (rest : List (List α)) :
    first.take (rest.foldl (fun n l => min n (both first l).length) first.length) =
      all (first :: rest) := by
  have hfold : ∀ n, first.take (rest.foldl (fun n l => min n (both first l).length) n) =
      rest.foldl both (first.take n) := by
    induction rest with
    | nil => exact fun n => rfl
    | cons l rest ih =>
      intro n
      rw [List.foldl_cons, List.foldl_cons, ih, both_take]
  rw [hfold, List.take_length, all]

end CommonPrefix
