import Mathlib.Algebra.BigOperators.Group.List.Basic
import Mathlib.Algebra.Order.Monoid.Canonical.Defs
import Mathlib.Order.Lattice
import Mathlib.Tactic.Common

set_option relaxedAutoImplicit false
set_option autoImplicit false

/-!
# Saturating counters

Counters that add up amounts, stay at a bound instead of passing it, and start again from zero at
some events. What such a counter shows is the exact total since it was cleared last, as far as the
bound lets it.

## Main definitions

* `Saturating.add` — add, but not beyond a bound.
* `Saturating.total` — the exact total since the last event that clears.
* `Saturating.Shows` — a family of counters shows the totals of a log.

## Main results

* `Saturating.add_min` — it makes no difference when a counter saturates.
* `Saturating.Shows.count`, `Saturating.Shows.clear` — what an event does to counters that show a
  log.
* `Saturating.Shows.le` — they do not go down while nothing clears them.
-/

namespace Saturating

section Add

variable {M : Type*} [AddCommMonoid M] [LinearOrder M] [CanonicallyOrderedAdd M]

/-- Add, but not beyond a bound. -/
def add (bound a b : M) : M := min bound (a + b)

/-- **Saturating early or late** is the same. -/
theorem add_min (bound a b : M) : add bound (min bound a) b = min bound (a + b) := by
  unfold add
  rcases le_total a bound with h | h
  · rw [min_eq_right h]
  · have hsum : bound ≤ a + b := h.trans le_self_add
    rw [min_eq_left h, min_eq_left hsum, min_eq_left le_self_add]

end Add

/-! ## Logs -/

section Total

variable {ε : Type*} (clears : ε → Prop) [DecidablePred clears]

/-- The events since the last one that clears, in a log with the newest event first. -/
def recent (log : List ε) : List ε := log.takeWhile fun e => ¬clears e

/-- The exact total since the last event that clears. -/
def total {M : Type*} [AddCommMonoid M] (amount : ε → M) (log : List ε) : M :=
  ((recent clears log).map amount).sum

variable {clears} {M : Type*} [AddCommMonoid M] {amount : ε → M}

/-- An event that clears ends the totals. -/
theorem total_cons_of_clears {e : ε} (h : clears e) (log : List ε) :
    total clears amount (e :: log) = 0 := by
  simp [total, recent, h]

/-- Any other event adds its amount. -/
theorem total_cons {e : ε} (h : ¬clears e) (log : List ε) :
    total clears amount (e :: log) = total clears amount log + amount e := by
  simp [total, recent, h, add_comm]

/-- Events that do not clear only add. -/
theorem total_le_append [LinearOrder M] [CanonicallyOrderedAdd M] {new : List ε}
    (h : ∀ e ∈ new, ¬clears e) (old : List ε) :
    total clears amount old ≤ total clears amount (new ++ old) := by
  induction new with
  | nil => exact le_rfl
  | cons e new ih =>
    have hrest := ih fun e' he' => h e' (List.mem_cons_of_mem e he')
    rw [List.cons_append, total_cons (h e List.mem_cons_self)]
    exact hrest.trans le_self_add

end Total

/-! ## Families of counters -/

section Shows

variable {ε ι M : Type*} [AddCommMonoid M] [LinearOrder M] [CanonicallyOrderedAdd M]
  (clears : ε → Prop) [DecidablePred clears] (bound : M) (amount : ι → ε → M)

/-- The counters show the totals of a log, as far as the bound lets them. -/
def Shows (counters : ι → M) (log : List ε) : Prop :=
  counters = fun i => min bound (total clears (amount i) log)

variable {clears bound amount} {counters : ι → M} {log : List ε}

/-- Cleared counters show a log that was cleared. -/
theorem Shows.clear {e : ε} (h : clears e) (log : List ε) :
    Shows clears bound amount (fun _ => 0) (e :: log) := by
  funext i
  rw [total_cons_of_clears h, min_eq_right zero_le]

/-- Counters at zero show the empty log. -/
theorem Shows.nil : Shows clears bound amount (fun _ => 0) [] := by
  funext i
  exact (min_eq_right zero_le).symm

/-- **Counting an event**: the counters show the log with the event. -/
theorem Shows.count (h : Shows clears bound amount counters log) {e : ε} (he : ¬clears e) :
    Shows clears bound amount (fun i => add bound (counters i) (amount i e)) (e :: log) := by
  subst h
  funext i
  rw [add_min, total_cons he]

/-- **No counter goes down** while nothing clears it. -/
theorem Shows.le {counters' : ι → M} {new : List ε} (h : Shows clears bound amount counters log)
    (h' : Shows clears bound amount counters' (new ++ log)) (hnew : ∀ e ∈ new, ¬clears e) :
    counters ≤ counters' := by
  subst h h'
  intro i
  exact min_le_min_left bound (total_le_append hnew log)

end Shows

end Saturating
