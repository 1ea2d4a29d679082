import Mathlib.Data.List.Basic
import Mathlib.Tactic.Common

set_option relaxedAutoImplicit false
set_option autoImplicit false

/-!
# Bounded FIFO queues

A queue with a capacity takes as much of an offered list as fits, and gives a bounded number of
its oldest values back.

## Main definitions

* `Fifo` — a capacity and the values held, oldest first; the bound is part of the type.
* `Fifo.send`, `Fifo.receive` — offer a list, and take values.

## Main results

* `Fifo.send_items` — the values sent are a prefix of the list offered.
* `Fifo.receive_append` — the values taken, followed by the values left, are the values held.
-/

/-- A queue of at most `capacity` values. -/
structure Fifo (α : Type*) where
  /-- How many values fit. -/
  capacity : ℕ
  /-- The values held, oldest first. -/
  items : List α
  bounded : items.length ≤ capacity

namespace Fifo

variable {α : Type*}

/-- The queue that holds nothing. -/
def empty (capacity : ℕ) : Fifo α := ⟨capacity, [], Nat.zero_le _⟩

/-- How many values still fit. -/
def free (q : Fifo α) : ℕ := q.capacity - q.items.length

/-- The number of values of an offered list that the queue takes. -/
def accepts (q : Fifo α) (xs : List α) : ℕ := min xs.length q.free

/-- Offer a list: the queue takes the values that fit. -/
def send (q : Fifo α) (xs : List α) : Fifo α where
  capacity := q.capacity
  items := q.items ++ xs.take (q.accepts xs)
  bounded := by
    have hbound := q.bounded
    rw [List.length_append, List.length_take]
    unfold accepts free
    omega

/-- Take at most `n` values: the queue that is left, and the values. -/
def receive (q : Fifo α) (n : ℕ) : Fifo α × List α where
  fst :=
    { capacity := q.capacity
      items := q.items.drop n
      bounded := by
        have hbound := q.bounded
        rw [List.length_drop]
        omega }
  snd := q.items.take n

/-- The values sent are a prefix of the list offered. -/
@[simp] theorem send_items (q : Fifo α) (xs : List α) :
    (q.send xs).items = q.items ++ xs.take (q.accepts xs) := rfl

/-- Nothing is sent of an empty list. -/
@[simp] theorem send_nil (q : Fifo α) : q.send [] = q := by
  unfold send
  simp

/-- **First in, first out**: the values taken, followed by the values left, are the values held. -/
theorem receive_append (q : Fifo α) (n : ℕ) : (q.receive n).2 ++ (q.receive n).1.items = q.items :=
  List.take_append_drop n q.items

/-- The number of values sent. -/
theorem length_take_accepts (q : Fifo α) (xs : List α) :
    (xs.take (q.accepts xs)).length = q.accepts xs := by
  rw [List.length_take]
  unfold accepts
  omega

end Fifo
