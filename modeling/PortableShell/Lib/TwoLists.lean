import Mathlib.Data.List.DropRight
import Mathlib.Tactic.Common

set_option relaxedAutoImplicit false
set_option autoImplicit false

/-!
# Editing with two lists

A line with a cursor as two lists: what is before the cursor and what is after it. Every editing
operation works on the ends that meet at the cursor. This file defines the operations and relates
them to a line and a position in it.

## Main definitions

* `TwoLists` — the lists before and after the cursor.
* `TwoLists.insert`, `backspace`, `delete`, `left`, `right`, `home`, `toEnd`, `deleteWordLeft`,
  `clear`, `replaceWord` — the operations.
* `TwoLists.ofCursor` — a line cut at a position.

## Main results

* `TwoLists.insert_ofCursor`, `TwoLists.backspace_ofCursor`, … — the operations on a line that is
  cut at a position.
-/

/-- A line with a cursor. -/
structure TwoLists (α : Type*) where
  /-- The elements before the cursor. -/
  before : List α
  /-- The elements after the cursor. -/
  after : List α
  deriving DecidableEq

namespace TwoLists

variable {α : Type*}

/-- Append to the list before the cursor, unless the line has `max` elements. -/
def insert (max : ℕ) (a : α) (z : TwoLists α) : TwoLists α :=
  if z.before.length + z.after.length < max then ⟨z.before ++ [a], z.after⟩ else z

/-- Drop the last element before the cursor. -/
def backspace (z : TwoLists α) : TwoLists α := ⟨z.before.dropLast, z.after⟩

/-- Drop the first element after the cursor. -/
def delete (z : TwoLists α) : TwoLists α := ⟨z.before, z.after.tail⟩

/-- Move the last element before the cursor across. -/
def left (z : TwoLists α) : TwoLists α := ⟨z.before.dropLast, z.before.getLast?.toList ++ z.after⟩

/-- Move the first element after the cursor across. -/
def right (z : TwoLists α) : TwoLists α := ⟨z.before ++ z.after.head?.toList, z.after.tail⟩

/-- Move everything behind the cursor. -/
def home (z : TwoLists α) : TwoLists α := ⟨[], z.before ++ z.after⟩

/-- Move everything before the cursor. -/
def toEnd (z : TwoLists α) : TwoLists α := ⟨z.before ++ z.after, []⟩

/-- Drop what `blank` holds of at the end of the list before the cursor, and then what it does not
hold of. -/
def deleteWordLeft (blank : α → Bool) (z : TwoLists α) : TwoLists α :=
  ⟨(z.before.rdropWhile blank).rdropWhile fun a => !blank a, z.after⟩

/-- Drop everything. -/
def clear : TwoLists α := ⟨[], []⟩

/-- The part before the cursor of the word around it; a word is what `blank` holds of nowhere. -/
def wordBefore (blank : α → Bool) (z : TwoLists α) : List α :=
  z.before.rtakeWhile fun a => !blank a

/-- Put a list in the place of the word around the cursor, and the cursor behind it. -/
def replaceWord (blank : α → Bool) (l : List α) (z : TwoLists α) : TwoLists α :=
  ⟨(z.before.rdropWhile fun a => !blank a) ++ l, z.after.dropWhile fun a => !blank a⟩

/-! ## Lines and positions -/

/-- A line cut at a position. -/
def ofCursor (l : List α) (i : ℕ) : TwoLists α := ⟨l.take i, l.drop i⟩

section OfCursor

variable {l : List α} {i : ℕ}

/-- A line from which a range was removed is cut at the start of the range. -/
theorem ofCursor_remove {start stop : ℕ} (hstart : start ≤ l.length) :
    ofCursor (l.take start ++ l.drop stop) start = ⟨l.take start, l.drop stop⟩ := by
  have hlength : (l.take start).length = start := List.length_take_of_le hstart
  rw [ofCursor, List.take_left' hlength, List.drop_left' hlength]

/-- An element is inserted at the position. -/
theorem insert_ofCursor (hi : i ≤ l.length) (max : ℕ) (a : α) :
    (ofCursor l i).insert max a =
      if l.length < max then ofCursor (l.take i ++ [a] ++ l.drop i) (i + 1) else ofCursor l i := by
  have hlength : (l.take i).length + (l.drop i).length = l.length := by
    rw [← List.length_append, List.take_append_drop]
  have hbefore : (l.take i ++ [a]).length = i + 1 := by
    rw [List.length_append, List.length_take_of_le hi, List.length_singleton]
  rw [insert, ofCursor, hlength, ofCursor, List.take_left' hbefore, List.drop_left' hbefore]

/-- A prefix without its last element. -/
theorem dropLast_take (hi : i ≤ l.length) : (l.take i).dropLast = l.take (i - 1) := by
  rw [List.dropLast_eq_take, List.length_take_of_le hi, List.take_take,
    Nat.min_eq_left (Nat.sub_le i 1)]

/-- The element before the position is removed. -/
theorem backspace_ofCursor (hi : i ≤ l.length) :
    (ofCursor l i).backspace = ⟨l.take (i - 1), l.drop i⟩ := by
  rw [backspace, ofCursor, dropLast_take hi]

/-- The element after the position is removed. -/
theorem delete_ofCursor : (ofCursor l i).delete = ⟨l.take i, l.drop (i + 1)⟩ := by
  rw [delete, ofCursor, List.tail_drop]

/-- The position moves to the left. -/
theorem left_ofCursor (hi : i ≤ l.length) : (ofCursor l i).left = ofCursor l (i - 1) := by
  rw [left, ofCursor, ofCursor, dropLast_take hi]
  cases i with
  | zero => simp
  | succ i =>
    have hlast : (l.take (i + 1)).getLast? = some l[i] := by
      rw [List.take_succ_eq_append_getElem hi, List.getLast?_concat]
    rw [hlast, Option.toList_some, List.singleton_append, Nat.add_sub_cancel,
      ← List.drop_eq_getElem_cons]

/-- The position moves to the right, up to the end. -/
theorem right_ofCursor :
    (ofCursor l i).right = if i < l.length then ofCursor l (i + 1) else ofCursor l i := by
  rw [right, ofCursor, List.head?_drop, List.tail_drop]
  split_ifs with hi
  · rw [ofCursor, List.getElem?_eq_getElem hi, Option.toList_some,
      ← List.take_succ_eq_append_getElem hi]
  · rw [List.getElem?_eq_none (by omega), Option.toList_none, List.append_nil,
      List.drop_eq_nil_of_le (by omega), List.drop_eq_nil_of_le (by omega)]

/-- The position moves to the start. -/
theorem home_ofCursor : (ofCursor l i).home = ofCursor l 0 := by
  rw [home, ofCursor, List.take_append_drop]
  rfl

/-- The position moves to the end. -/
theorem toEnd_ofCursor : (ofCursor l i).toEnd = ofCursor l l.length := by
  rw [toEnd, ofCursor, List.take_append_drop, ofCursor, List.take_length, List.drop_length]

end OfCursor

end TwoLists
