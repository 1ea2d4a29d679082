import Mathlib.Logic.Function.Basic
import PortableShell.Port.FreeRtos
import PortableShell.Acts

set_option relaxedAutoImplicit false
set_option autoImplicit false

/-!
# Tasks on a FreeRTOS port

Any number of tasks use one port, and each critical section is one step. Every call of
`sh_freertos_run` has its own point in the code, and what the shell does inside `sh_prompt` and
`sh_input` is any number of steps between the points around the call. So a step of one task, of a
handler or of the interrupt handler may come between any two others.

## Main definitions

* `PortableShell.CallPoint`, `callStep` — where a call of `sh_freertos_run` is, and its next step.
* `PortableShell.SharedStep` — the steps on the port outside of `sh_freertos_run`.
* `PortableShell.TaskSys.run` — an interleaving.
* `PortableShell.TaskSys.Ownership` — what holds in every state of an interleaving.
* `PortableShell.Interleaves` — ways of running tasks that a shell task can be told in.

## Main results

* `PortableShell.TaskSys.ownership` — one activation at a time, and the stop request is a latch.
* `PortableShell.FreeRtosSys.run_refines` — the runs of a single shell task are interleavings.
-/

namespace PortableShell

variable {W : Type}

/-! ## The steps -/

/-- Where a call of `sh_freertos_run` is. -/
inductive CallPoint
  /-- Before the critical section that takes the port. -/
  | enter
  /-- Before the check that decides about the first prompt. -/
  | first
  /-- Before the call of `sh_prompt`. -/
  | prompt
  /-- Inside of `sh_prompt`. -/
  | prompting
  /-- The condition of the loop. -/
  | loop
  | receive
  /-- The check behind the receive operation. -/
  | recheck (chunk : List Byte)
  /-- Before the chunk is counted as delivered. -/
  | deliver (chunk : List Byte)
  /-- Before the call of `sh_input`. -/
  | input (chunk : List Byte)
  /-- Inside of `sh_input`. -/
  | feeding
  /-- Before the return because of an error of `sh_input`. -/
  | failed (status : Status)
  /-- Behind the loop. -/
  | done
  | returned (status : Status)

/-- What tasks do with a port; `call` tells the calls of `sh_freertos_run` apart. -/
inductive PortEvent
  | acquired (call : ℕ)
  | prompted (call : ℕ)
  /-- A chunk was handed to `sh_input`. -/
  | fed (call : ℕ) (chunk : List Byte)
  | released (call : ℕ)
  | stopRequested
  /-- A call of `sh_freertos_clear_stop` succeeded. -/
  | stopCleared
  /-- A call of `sh_freertos_reset_stats` succeeded. -/
  | statsReset
  deriving DecidableEq

/-- `sh_freertos_reset_stats`. -/
def shFreertosResetStats (w : FreeRtosWorld W) : FreeRtosWorld W × Status :=
  if w.port.running then (w, Status.errBusy)
  else (w.count fun _ => ⟨0, 0, 0, 0, 0, 0, 0⟩, Status.ok)

/-- The checks of `sh_freertos_run`, given a shell that writes to `transport`, and its first
critical section. -/
def callEnter (w : FreeRtosWorld W) (transport : Option Ptr) (call : ℕ) :
    FreeRtosWorld W × CallPoint × Option PortEvent :=
  if w.port.config.rxStream.isNone ∨ w.port.config.txStream.isNone ∨
      w.port.config.readChunkSize = 0 ∨ w.port.config.readChunkSize > freertosMaxReadChunk ∨
      transport ≠ some w.port.transport then
    (w, .returned Status.errInvalidConfig, none)
  else if w.port.running then (w, .returned Status.errBusy, none)
  else (w.setRunning true, .first, some (.acquired call))

/-- The next step of a call of `sh_freertos_run`: the world behind it, the next point, and what was
done. Inside of the shell it waits. -/
def callStep (w : FreeRtosWorld W) (transport : Option Ptr) (call : ℕ) :
    CallPoint → FreeRtosWorld W × CallPoint × Option PortEvent
  | .enter => callEnter w transport call
  | .first => (w, if w.port.stopRequested then .loop else .prompt, none)
  | .prompt => (w, .prompting, some (.prompted call))
  | .prompting => (w, .prompting, none)
  | .loop => (w, if w.port.stopRequested then .done else .receive, none)
  | .receive =>
    let r := w.rxStream.receive w.port.config.readChunkSize
    ({ w with rxStream := r.1 }, .recheck r.2, none)
  | .recheck chunk =>
    (w, if w.port.stopRequested then .done else if chunk.length ≠ 0 then .deliver chunk else .loop,
      none)
  | .deliver chunk =>
    (w.count fun t => { t with rxBytesDelivered := counterAdd t.rxBytesDelivered chunk.length },
      .input chunk, none)
  | .input chunk => (w.hand chunk, .feeding, some (.fed call chunk))
  | .feeding => (w, .feeding, none)
  | .failed status =>
    ((w.count fun t => { t with rxErrors := counterAdd t.rxErrors 1 }).setRunning false,
      .returned status, some (.released call))
  | .done => (w.setRunning false, .returned Status.ok, some (.released call))
  | .returned status => (w, .returned status, none)

/-- Where a call is when the shell has returned `status` to it. -/
def CallPoint.back (status : Status) : CallPoint → CallPoint
  | .prompting => .loop
  | .feeding => if status ≠ Status.ok then .failed status else .loop
  | point => point

/-- A step on the port outside of `sh_freertos_run`. -/
inductive SharedStep (W : Type)
  | port (action : PortAction W)
  | resetStats
  /-- `xStreamBufferSend` of `sh_freertos_transport_write` returns. -/
  | send (data : List Byte)
  /-- The critical section behind it. -/
  | countSent (sent len : ℕ)
  /-- The critical section for invalid arguments. -/
  | countError

/-- What such a step does. -/
def SharedStep.apply (w : FreeRtosWorld W) : SharedStep W → FreeRtosWorld W
  | .port action => action.apply w
  | .resetStats => (shFreertosResetStats w).1
  | .send data => { w with txStream := w.txStream.send data }
  | .countSent sent len => w.count fun s =>
      { s with
        txBytesEnqueued := counterAdd s.txBytesEnqueued sent
        txOverflowBytes :=
          if sent ≠ len then counterAdd s.txOverflowBytes (len - sent) else s.txOverflowBytes }
  | .countError => w.count fun s => { s with txErrors := counterAdd s.txErrors 1 }

/-- What such a step does with the port. -/
def SharedStep.event (w : FreeRtosWorld W) : SharedStep W → Option PortEvent
  | .port .requestStop => some .stopRequested
  | .port .clearStop => if w.port.running then none else some .stopCleared
  | .resetStats => if w.port.running then none else some .statsReset
  | _ => none

/-! ## Interleavings -/

/-- A port and the tasks that use it. -/
structure TaskSys (W : Type) where
  world : FreeRtosWorld W
  /-- The transport of the shell that a call of `sh_freertos_run` is given. -/
  transport : ℕ → Option Ptr
  /-- Where the calls of `sh_freertos_run` are. A call that is yet to come is at its entry. -/
  calls : ℕ → CallPoint
  /-- What was done with the port, newest first. -/
  log : List PortEvent

/-- A step of one of the tasks. -/
inductive TaskAction (W : Type)
  /-- A call of `sh_freertos_run` goes on. -/
  | go (call : ℕ)
  /-- The shell returns to a call of `sh_freertos_run`. -/
  | back (call : ℕ) (status : Status)
  | shared (step : SharedStep W)

namespace TaskSys

/-- What a step does with the port. -/
def event (s : TaskSys W) : TaskAction W → Option PortEvent
  | .go call => (callStep s.world (s.transport call) call (s.calls call)).2.2
  | .back _ _ => none
  | .shared a => a.event s.world

/-- What a step does. -/
def step (s : TaskSys W) (a : TaskAction W) : TaskSys W :=
  match a with
  | .go call =>
    let r := callStep s.world (s.transport call) call (s.calls call)
    ⟨r.1, s.transport, Function.update s.calls call r.2.1, r.2.2.toList ++ s.log⟩
  | .back call status =>
    { s with calls := Function.update s.calls call ((s.calls call).back status) }
  | .shared a => { s with world := a.apply s.world, log := (a.event s.world).toList ++ s.log }

/-- An interleaving. -/
def run (s : TaskSys W) (actions : List (TaskAction W)) : TaskSys W := actions.foldl step s

/-- A port after its initialization, before anything was done with it. -/
structure Fresh (s : TaskSys W) : Prop where
  init : ∃ config transport, shFreertosInit config transport = .ok s.world.port
  calls : ∀ call, s.calls call = .enter
  log : s.log = []

/-- The step is recorded. -/
private theorem step_log (s : TaskSys W) (a : TaskAction W) :
    (s.step a).log = (s.event a).toList ++ s.log := by
  cases a <;> rfl

end TaskSys

/-! ## The owner of the port -/

namespace CallPoint

/-- The call has taken the port and not yet given it back. -/
def active : CallPoint → Bool
  | .enter => false
  | .returned _ => false
  | _ => true

/-- How many chunks a call still hands over when the stop flag is set. -/
def owed : CallPoint → ℕ
  | .deliver _ => 1
  | .input _ => 1
  | _ => 0

/-- A point on the way out that the checks of the stop flag lead along. -/
def leaving : CallPoint → Bool
  | .first => true
  | .loop => true
  | .done => true
  | .returned _ => true
  | _ => false

/-- The way back from the shell stays in the loop. -/
@[simp] theorem active_back (point : CallPoint) (status : Status) :
    (point.back status).active = point.active := by
  cases point with
  | feeding =>
    show (if _ then _ else _ : CallPoint).active = _
    split_ifs <;> rfl
  | _ => rfl

/-- The way back from the shell leads to no chunk. -/
@[simp] theorem owed_back (point : CallPoint) (status : Status) :
    (point.back status).owed = point.owed := by
  cases point with
  | feeding =>
    show (if _ then _ else _ : CallPoint).owed = _
    split_ifs <;> rfl
  | _ => rfl

/-- A call on its way out is not inside of the shell. -/
private theorem back_of_leaving {point : CallPoint} (h : point.leaving = true) (status : Status) :
    point.back status = point := by
  cases point with
  | prompting => cases h
  | feeding => cases h
  | _ => rfl

end CallPoint

/-- What the next step of a call does to the flag `running`. -/
inductive CallMove (call : ℕ) (w w' : FreeRtosWorld W) (point point' : CallPoint) :
    Option PortEvent → Prop
  | acquire (hfree : w.port.running = false) (hrunning : w'.port.running = true)
      (hbefore : point = .enter) (hafter : point' = .first) :
      CallMove call w w' point point' (some (.acquired call))
  | release (hrunning : w'.port.running = false) (hbefore : point.active = true)
      (hafter : point'.active = false) (howed : point'.owed = 0) :
      CallMove call w w' point point' (some (.released call))
  | stay {event : Option PortEvent} (hrunning : w'.port.running = w.port.running)
      (hactive : point'.active = point.active)
      (hevent : ∀ e ∈ event, point.active = true ∧
        (e = .prompted call ∨ ∃ chunk, e = .fed call chunk)) :
      CallMove call w w' point point' event

/-- **The next step of a call**: it takes the port when it is free, gives it back, or stays on its
side of these.

**Proof sketch.** One case per point. Only the first critical section takes the port, and only the
last one gives it back. -/
theorem callStep_move (w : FreeRtosWorld W) (transport : Option Ptr) (call : ℕ)
    (point : CallPoint) :
    CallMove call w (callStep w transport call point).1 point
      (callStep w transport call point).2.1 (callStep w transport call point).2.2 := by
  have hnone : ∀ e ∈ (none : Option PortEvent), point.active = true ∧
      (e = .prompted call ∨ ∃ chunk, e = .fed call chunk) := by
    intro e he
    cases he
  cases point with
  | enter =>
    show CallMove call w (callEnter w transport call).1 .enter (callEnter w transport call).2.1
      (callEnter w transport call).2.2
    unfold callEnter
    split_ifs with hconfig hrunning
    · exact .stay rfl rfl hnone
    · exact .stay rfl rfl hnone
    · exact .acquire (Bool.eq_false_iff.mpr hrunning) rfl rfl rfl
  | first =>
    refine .stay rfl ?_ hnone
    show (if _ then _ else _ : CallPoint).active = true
    split_ifs <;> rfl
  | prompt =>
    refine .stay rfl rfl ?_
    rintro e ⟨⟩
    exact ⟨rfl, .inl rfl⟩
  | prompting => exact .stay rfl rfl hnone
  | loop =>
    refine .stay rfl ?_ hnone
    show (if _ then _ else _ : CallPoint).active = true
    split_ifs <;> rfl
  | receive => exact .stay rfl rfl hnone
  | recheck chunk =>
    refine .stay rfl ?_ hnone
    show (if _ then _ else if _ then _ else _ : CallPoint).active = true
    split_ifs <;> rfl
  | deliver chunk => exact .stay rfl rfl hnone
  | input chunk =>
    refine .stay rfl rfl ?_
    rintro e ⟨⟩
    exact ⟨rfl, .inr ⟨chunk, rfl⟩⟩
  | feeding => exact .stay rfl rfl hnone
  | failed status => exact .release rfl rfl rfl rfl
  | done => exact .release rfl rfl rfl rfl
  | returned status => exact .stay rfl rfl hnone

/-- A step outside of `sh_freertos_run` leaves the port with its owner. -/
private theorem SharedStep.apply_running (w : FreeRtosWorld W) (a : SharedStep W) :
    (a.apply w).port.running = w.port.running := by
  cases a with
  | port action => exact (Receives.action w action).running
  | resetStats =>
    show (shFreertosResetStats w).1.port.running = _
    unfold shFreertosResetStats
    split_ifs <;> rfl
  | send data => rfl
  | countSent sent len => rfl
  | countError => rfl

namespace TaskSys

/-- The port has one owner at most, and the flag `running` says whether it has one. -/
structure Owned (s : TaskSys W) : Prop where
  unique : ∀ i j, (s.calls i).active = true → (s.calls j).active = true → i = j
  running : s.world.port.running = true ↔ ∃ i, (s.calls i).active = true

/-- Where a call is when another one has made a step. -/
private theorem calls_update (s : TaskSys W) (call : ℕ) (point : CallPoint) (i : ℕ) :
    Function.update s.calls call point i = if i = call then point else s.calls i := by
  by_cases h : i = call
  · rw [h, Function.update_self, if_pos rfl]
  · rw [Function.update_of_ne h, if_neg h]

/-- Calls that stay on their side keep the owner. -/
theorem Owned.of_active_eq {s s' : TaskSys W} (h : s.Owned)
    (hrunning : s'.world.port.running = s.world.port.running)
    (hactive : ∀ i, (s'.calls i).active = (s.calls i).active) : s'.Owned := by
  refine ⟨fun i j hi hj => ?_, ?_⟩
  · rw [hactive] at hi hj
    exact h.unique i j hi hj
  · rw [hrunning, h.running]
    simp only [hactive]

/-- One call has moved, and it is on the same side as before. -/
private theorem active_update {s : TaskSys W} {call : ℕ} {point : CallPoint}
    (hpoint : point.active = (s.calls call).active) (i : ℕ) :
    (Function.update s.calls call point i).active = (s.calls i).active := by
  rw [calls_update]
  split_ifs with hi
  · rw [hpoint, hi]
  · rfl

/-- **A step keeps the owner unique.**

**Proof sketch.** A call that takes the port found it free, so nobody else is active; one that gives
it back was the only one. Every other step leaves the flag and the sides alone. -/
theorem Owned.step {s : TaskSys W} (h : s.Owned) (a : TaskAction W) : (s.step a).Owned := by
  cases a with
  | shared a => exact h.of_active_eq (a.apply_running s.world) fun _ => rfl
  | back call status => exact h.of_active_eq rfl (active_update (CallPoint.active_back _ _))
  | go call =>
    have hmove := callStep_move s.world (s.transport call) call (s.calls call)
    unfold TaskSys.step
    dsimp only
    generalize callStep s.world (s.transport call) call (s.calls call) = r at hmove
    obtain ⟨w, point, event⟩ := r
    dsimp only at hmove
    cases hmove with
    | acquire hfree hrunning hbefore hafter =>
      have hnobody : ∀ i, ¬(s.calls i).active = true := by
        intro i hi
        have hrun := h.running.mpr ⟨i, hi⟩
        rw [hfree] at hrun
        cases hrun
      have honly : ∀ i, (Function.update s.calls call point i).active = true → i = call := by
        intro i hi
        by_contra hne
        rw [Function.update_of_ne hne] at hi
        exact hnobody i hi
      refine ⟨fun i j hi hj => (honly i hi).trans (honly j hj).symm, ?_⟩
      refine iff_of_true hrunning ⟨call, ?_⟩
      show (Function.update s.calls call point call).active = true
      rw [Function.update_self, hafter]
      rfl
    | release hrunning hbefore hafter howed =>
      have hnobody : ∀ i, ¬(Function.update s.calls call point i).active = true := by
        intro i hi
        by_cases hne : i = call
        · rw [hne, Function.update_self, hafter] at hi
          cases hi
        · rw [Function.update_of_ne hne] at hi
          exact hne (h.unique i call hi hbefore)
      refine ⟨fun i j hi => absurd hi (hnobody i), ?_⟩
      refine iff_of_false ?_ fun ⟨i, hi⟩ => hnobody i hi
      show ¬w.port.running = true
      rw [hrunning]
      exact Bool.false_ne_true
    | stay hrunning hactive hevent => exact h.of_active_eq hrunning (active_update hactive)

end TaskSys

/-! ## The stop request -/

/-- A chunk was handed to `sh_input`. -/
def PortEvent.isFed : PortEvent → Bool
  | .fed _ _ => true
  | _ => false

/-- The call of `sh_freertos_run` that did something as the owner of the port. -/
def PortEvent.caller : PortEvent → Option ℕ
  | .acquired call => some call
  | .prompted call => some call
  | .fed call _ => some call
  | _ => none

/-- How many chunks were handed to `sh_input`. -/
def feds (log : List PortEvent) : ℕ := (log.filter PortEvent.isFed).length

/-- Chunks handed over one after the other add up. -/
private theorem feds_append (new old : List PortEvent) :
    feds (new ++ old) = feds new + feds old := by
  unfold feds
  rw [List.filter_append, List.length_append]

/-- A call that does not own the port owes nothing. -/
private theorem CallPoint.owed_of_not_active {point : CallPoint} (h : point.active = false) :
    point.owed = 0 := by
  cases point with
  | deliver chunk => cases h
  | input chunk => cases h
  | _ => rfl

/-- A call owes one chunk at most. -/
private theorem CallPoint.owed_le_one (point : CallPoint) : point.owed ≤ 1 := by
  cases point with
  | deliver chunk => exact le_rfl
  | input chunk => exact le_rfl
  | _ => exact Nat.zero_le 1

/-- A call does not touch the stop flag. -/
private theorem callStep_stop (w : FreeRtosWorld W) (transport : Option Ptr) (call : ℕ)
    (point : CallPoint) :
    (callStep w transport call point).1.port.stopRequested = w.port.stopRequested := by
  cases point with
  | enter =>
    show (callEnter w transport call).1.port.stopRequested = _
    unfold callEnter
    split_ifs <;> rfl
  | _ => rfl

/-- **While the stop flag is set** a call hands over no more than it owes. -/
theorem callStep_owed {w : FreeRtosWorld W} (hstop : w.port.stopRequested = true)
    (transport : Option Ptr) (call : ℕ) (point : CallPoint) :
    feds (callStep w transport call point).2.2.toList +
      (callStep w transport call point).2.1.owed ≤ point.owed := by
  cases point with
  | enter =>
    show feds (callEnter w transport call).2.2.toList + (callEnter w transport call).2.1.owed ≤ 0
    unfold callEnter
    split_ifs <;> exact le_rfl
  | first =>
    show 0 + (if _ then _ else _ : CallPoint).owed ≤ 0
    rw [if_pos hstop]
    exact le_rfl
  | loop =>
    show 0 + (if _ then _ else _ : CallPoint).owed ≤ 0
    rw [if_pos hstop]
    exact le_rfl
  | recheck chunk =>
    show 0 + (if _ then _ else _ : CallPoint).owed ≤ 0
    rw [if_pos hstop]
    exact le_rfl
  | _ => exact le_rfl

/-- **While the stop flag is set** a call on its way out stays on it. -/
theorem callStep_leaving {w : FreeRtosWorld W} (hstop : w.port.stopRequested = true)
    (transport : Option Ptr) (call : ℕ) {point : CallPoint} (hpoint : point.leaving = true) :
    (callStep w transport call point).2.1.leaving = true ∧
      ∀ e ∈ (callStep w transport call point).2.2, e = .released call := by
  have hnone : ∀ e ∈ (none : Option PortEvent), e = .released call := by
    intro e he
    cases he
  cases point with
  | first =>
    refine ⟨?_, hnone⟩
    show (if _ then _ else _ : CallPoint).leaving = true
    rw [if_pos hstop]
    rfl
  | loop =>
    refine ⟨?_, hnone⟩
    show (if _ then _ else _ : CallPoint).leaving = true
    rw [if_pos hstop]
    rfl
  | done =>
    refine ⟨rfl, ?_⟩
    rintro e ⟨⟩
    rfl
  | returned status => exact ⟨rfl, hnone⟩
  | _ => cases hpoint

/-- What a step outside of `sh_freertos_run` does with the port.

**Proof sketch.** One case per step. Stopping, clearing the request and resetting are the only ones
that have an event, the last two only without an owner. -/
private theorem SharedStep.event_cases {w : FreeRtosWorld W} {a : SharedStep W} {e : PortEvent}
    (h : a.event w = some e) :
    (e = .stopRequested ∧ (a.apply w).port.stopRequested = true) ∨ e = .stopCleared ∨
      e = .statsReset := by
  cases a with
  | port action =>
    cases action with
    | requestStop =>
      cases h
      exact .inl ⟨rfl, rfl⟩
    | clearStop =>
      by_cases hrunning : w.port.running = true
      · rw [show event w (.port .clearStop) = none from if_pos hrunning] at h
        cases h
      · rw [show event w (.port .clearStop) = some .stopCleared from if_neg hrunning] at h
        cases h
        exact .inr (.inl rfl)
    | rxFromIsr data => cases h
    | txReceive n => cases h
    | effect f => cases h
  | resetStats =>
    by_cases hrunning : w.port.running = true
    · rw [show event w .resetStats = none from if_pos hrunning] at h
      cases h
    · rw [show event w .resetStats = some .statsReset from if_neg hrunning] at h
      cases h
      exact .inr (.inr rfl)
  | send data => cases h
  | countSent sent len => cases h
  | countError => cases h

/-- The interrupt handler does not touch the stop flag. -/
private theorem shFreertosRxFromIsr_stop (w : FreeRtosWorld W) (data : CArray Byte) :
    (shFreertosRxFromIsr w data).1.port.stopRequested = w.port.stopRequested := by
  unfold shFreertosRxFromIsr
  dsimp only
  split_ifs <;> rfl

/-- **A latch**: only a successful `sh_freertos_clear_stop` clears the stop flag.

**Proof sketch.** One case per step. Clearing the request is refused while the port runs, and else
it is the event that `hclear` excludes. -/
theorem SharedStep.apply_stop {w : FreeRtosWorld W} {a : SharedStep W}
    (hstop : w.port.stopRequested = true) (hclear : a.event w ≠ some .stopCleared) :
    (a.apply w).port.stopRequested = true := by
  cases a with
  | port action =>
    cases action with
    | rxFromIsr data => exact (shFreertosRxFromIsr_stop w data).trans hstop
    | requestStop => rfl
    | clearStop =>
      have hrunning : w.port.running = true := by
        by_contra hrunning
        exact hclear (if_neg hrunning)
      show (shFreertosClearStop w).1.port.stopRequested = true
      unfold shFreertosClearStop
      rw [if_pos hrunning]
      exact hstop
    | txReceive n => exact hstop
    | effect f => exact hstop
  | resetStats =>
    show (shFreertosResetStats w).1.port.stopRequested = true
    unfold shFreertosResetStats
    split_ifs <;> exact hstop
  | send data => exact hstop
  | countSent sent len => exact hstop
  | countError => exact hstop

/-- What a step of a call does is done by this call. -/
private theorem CallMove.caller_ne {call i : ℕ} {w w' : FreeRtosWorld W} {point point' : CallPoint}
    {event : Option PortEvent} (h : CallMove call w w' point point' event) (hi : i ≠ call) :
    ∀ e ∈ event, e.caller ≠ some i := by
  have hcall : some call ≠ some i := fun h => hi (Option.some.inj h).symm
  cases h with
  | acquire hfree hrunning hbefore hafter =>
    rintro e ⟨⟩
    exact hcall
  | release hrunning hbefore hafter howed =>
    rintro e ⟨⟩
    exact (Option.some_ne_none i).symm
  | stay hrunning hactive hevent =>
    intro e he
    rcases (hevent e he).2 with rfl | ⟨chunk, rfl⟩ <;> exact hcall

namespace TaskSys

/-- A call that has done something has left its entry. -/
def Recorded (s : TaskSys W) : Prop :=
  ∀ e ∈ s.log, ∀ i, e.caller = some i → s.calls i ≠ .enter

/-- What holds when a stop request was made and `new` has happened since, without a successful
`sh_freertos_clear_stop`. -/
structure Latched (s : TaskSys W) (new : List PortEvent) : Prop where
  stop : s.world.port.stopRequested = true
  once : ∀ i, feds new + (s.calls i).owed ≤ 1
  late : ∀ i, .acquired i ∈ new → (s.calls i).leaving = true ∧ (∀ chunk, .fed i chunk ∉ new) ∧
    .prompted i ∉ new

/-- A call does not come back to its entry. -/
private theorem callStep_ne_enter (w : FreeRtosWorld W) (transport : Option Ptr) (call : ℕ)
    {point : CallPoint} (h : point ≠ .enter) : (callStep w transport call point).2.1 ≠ .enter := by
  cases point with
  | enter => exact absurd rfl h
  | first =>
    show (if _ then _ else _ : CallPoint) ≠ .enter
    split_ifs <;> exact CallPoint.noConfusion
  | loop =>
    show (if _ then _ else _ : CallPoint) ≠ .enter
    split_ifs <;> exact CallPoint.noConfusion
  | recheck chunk =>
    show (if _ then _ else if _ then _ else _ : CallPoint) ≠ .enter
    split_ifs <;> exact CallPoint.noConfusion
  | _ => exact CallPoint.noConfusion

/-- The way back from the shell does not lead to the entry. -/
private theorem back_ne_enter {point : CallPoint} (h : point ≠ .enter) (status : Status) :
    point.back status ≠ .enter := by
  cases point with
  | enter => exact absurd rfl h
  | feeding =>
    show (if _ then _ else _ : CallPoint) ≠ .enter
    split_ifs <;> exact CallPoint.noConfusion
  | _ => exact CallPoint.noConfusion

/-- No step leads a call back to its entry. -/
private theorem step_ne_enter {s : TaskSys W} (a : TaskAction W) {i : ℕ} (h : s.calls i ≠ .enter) :
    (s.step a).calls i ≠ .enter := by
  cases a with
  | shared a => exact h
  | go call =>
    show Function.update s.calls call _ i ≠ .enter
    rw [calls_update]
    split_ifs with hi
    · rw [hi] at h
      exact callStep_ne_enter s.world (s.transport call) call h
    · exact h
  | back call status =>
    show Function.update s.calls call _ i ≠ .enter
    rw [calls_update]
    split_ifs with hi
    · rw [hi] at h
      exact back_ne_enter h status
    · exact h

/-- What a call does is done by a call that is past its entry.

**Proof sketch.** A call has an event when it takes the port, prompts or feeds. The first leaves the
entry, and for the others the call is active and so past it. -/
private theorem event_ne_enter {s : TaskSys W} {a : TaskAction W} {i : ℕ} {e : PortEvent}
    (h : s.event a = some e) (he : e.caller = some i) : (s.step a).calls i ≠ .enter := by
  cases a with
  | back call status => cases h
  | shared a => rcases SharedStep.event_cases h with ⟨rfl, -⟩ | rfl | rfl <;> cases he
  | go call =>
    have hmove := callStep_move s.world (s.transport call) call (s.calls call)
    have hnext := fun hpoint : s.calls call ≠ .enter =>
      callStep_ne_enter s.world (s.transport call) call hpoint
    unfold TaskSys.event at h
    unfold TaskSys.step
    dsimp only at h ⊢
    generalize callStep s.world (s.transport call) call (s.calls call) = r at h hmove hnext
    obtain ⟨w, point, event⟩ := r
    dsimp only at h hmove hnext ⊢
    have hcall : call = i → point ≠ .enter → Function.update s.calls call point i ≠ .enter := by
      rintro rfl hpoint
      rw [Function.update_self]
      exact hpoint
    subst h
    cases hmove with
    | acquire hfree hrunning hbefore hafter =>
      refine hcall (Option.some.inj he) ?_
      rw [hafter]
      exact CallPoint.noConfusion
    | release hrunning hbefore hafter howed => cases he
    | stay hrunning hactive hevent =>
      obtain ⟨hbefore, hkind⟩ := hevent e rfl
      have hpoint : s.calls call ≠ .enter := by
        intro henter
        rw [henter] at hbefore
        cases hbefore
      refine hcall ?_ (hnext hpoint)
      rcases hkind with rfl | ⟨chunk, rfl⟩ <;> exact Option.some.inj he

/-- **A step keeps the calls recorded.** -/
theorem Recorded.step {s : TaskSys W} (h : s.Recorded) (a : TaskAction W) : (s.step a).Recorded :=
  by
  intro e hmem i he
  rw [step_log, List.mem_append, Option.mem_toList] at hmem
  rcases hmem with hnow | hbefore
  · exact event_ne_enter hnow he
  · exact step_ne_enter a (h e hbefore i he)

/-- What was done by a call was done before, when the step at hand was made by no call or by another
one. -/
private theorem mem_of_caller {event : Option PortEvent} {new : List PortEvent} {e : PortEvent}
    {i : ℕ} (he : e.caller = some i) (hevent : ∀ e' ∈ event, e'.caller ≠ some i)
    (hmem : e ∈ event.toList ++ new) : e ∈ new := by
  rw [List.mem_append, Option.mem_toList] at hmem
  refine hmem.resolve_left fun hnow => ?_
  exact hevent e hnow he

/-- A call that has made its way out keeps its promise, when it stays on it and does nothing. -/
private theorem Latched.late_of {s : TaskSys W} {new : List PortEvent} (h : s.Latched new)
    {event : Option PortEvent} {i : ℕ} (hevent : ∀ e ∈ event, e.caller ≠ some i) {point : CallPoint}
    (hpoint : (s.calls i).leaving = true → point.leaving = true)
    (hi : .acquired i ∈ event.toList ++ new) :
    point.leaving = true ∧ (∀ chunk, .fed i chunk ∉ event.toList ++ new) ∧
      .prompted i ∉ event.toList ++ new := by
  obtain ⟨hleaving, hfed, hprompted⟩ := h.late i (mem_of_caller rfl hevent hi)
  exact ⟨hpoint hleaving, fun chunk hmem => hfed chunk (mem_of_caller rfl hevent hmem),
    fun hmem => hprompted (mem_of_caller rfl hevent hmem)⟩

/-- A step that hands no chunk over. -/
private theorem feds_of_not_fed {event : Option PortEvent} (h : ∀ e ∈ event, e.isFed = false)
    (new : List PortEvent) : feds (event.toList ++ new) = feds new := by
  cases event with
  | none => rfl
  | some e =>
    show ((e :: new).filter PortEvent.isFed).length = _
    rw [List.filter_cons_of_neg (by rw [h e rfl]; exact Bool.false_ne_true)]
    rfl

/-- The way back from the shell keeps a stop request latched. -/
theorem Latched.back {s : TaskSys W} {new : List PortEvent} (h : s.Latched new) (call : ℕ)
    (status : Status) : (s.step (.back call status)).Latched new := by
  refine ⟨h.stop, fun i => ?_, fun i hi => ?_⟩
  · show feds new + (Function.update s.calls call _ i).owed ≤ 1
    rw [calls_update]
    split_ifs with hcall
    · rw [CallPoint.owed_back, ← hcall]
      exact h.once i
    · exact h.once i
  · refine ⟨?_, (h.late i hi).2⟩
    show (Function.update s.calls call _ i).leaving = true
    rw [calls_update]
    split_ifs with hcall
    · rw [← hcall, CallPoint.back_of_leaving (h.late i hi).1]
      exact (h.late i hi).1
    · exact (h.late i hi).1

/-- A step outside of `sh_freertos_run` keeps a stop request latched. -/
theorem Latched.shared {s : TaskSys W} {new : List PortEvent} (h : s.Latched new)
    (a : SharedStep W) (hclear : a.event s.world ≠ some .stopCleared) :
    (s.step (.shared a)).Latched ((a.event s.world).toList ++ new) := by
  have hevent : ∀ e ∈ a.event s.world, e.caller = none ∧ e.isFed = false := by
    intro e he
    rcases SharedStep.event_cases he with ⟨rfl, -⟩ | rfl | rfl <;> exact ⟨rfl, rfl⟩
  refine ⟨a.apply_stop h.stop hclear, fun i => ?_, fun i hi => ?_⟩
  · rw [feds_of_not_fed fun e he => (hevent e he).2]
    exact h.once i
  · refine h.late_of (fun e he => ?_) id hi
    rw [(hevent e he).1]
    exact Option.some_ne_none i |>.symm

/-- The next step of a call keeps a stop request latched.

**Proof sketch.** What the call owes goes down as it feeds, and another active call does not exist,
so at most one chunk is fed behind the request. A call that is leaving stays so until it gives the
port back. -/
theorem Latched.go {s : TaskSys W} {new : List PortEvent} (h : s.Latched new) (howned : s.Owned)
    (hrecorded : s.Recorded) (hnew : new ⊆ s.log) (call : ℕ) :
    (s.step (.go call)).Latched ((s.event (.go call)).toList ++ new) := by
  have hmove := callStep_move s.world (s.transport call) call (s.calls call)
  have hstop := (callStep_stop s.world (s.transport call) call (s.calls call)).trans h.stop
  have howed := callStep_owed h.stop (s.transport call) call (s.calls call)
  have hleaving := fun hpoint : (s.calls call).leaving = true =>
    callStep_leaving h.stop (s.transport call) call hpoint
  unfold TaskSys.event TaskSys.step
  dsimp only
  generalize callStep s.world (s.transport call) call (s.calls call) = r at *
  obtain ⟨w, point, event⟩ := r
  dsimp only at *
  refine ⟨hstop, fun i => ?_, fun i hi => ?_⟩
  · have honce := h.once call
    show feds (event.toList ++ new) + (Function.update s.calls call point i).owed ≤ 1
    rw [feds_append]
    by_cases hcall : i = call
    · rw [hcall, Function.update_self]
      omega
    · rw [Function.update_of_ne hcall]
      by_cases hactive : (s.calls i).active = true
      · have hother : (s.calls call).active = false := by
          rw [Bool.eq_false_iff]
          exact fun hcur => hcall (howned.unique i call hactive hcur)
        have honce' := h.once i
        rw [CallPoint.owed_of_not_active hother] at howed
        omega
      · rw [CallPoint.owed_of_not_active (Bool.eq_false_iff.mpr hactive)]
        omega
  · show (Function.update s.calls call point i).leaving = true ∧ _
    by_cases hcall : i = call
    · subst hcall
      rw [Function.update_self]
      cases hmove with
      | acquire hfree hrunning hbefore hafter =>
        have hfirst : ∀ e, e.caller = some i → e ∉ new := by
          intro e he hmem
          exact hrecorded e (hnew hmem) i he hbefore
        rw [hafter]
        refine ⟨rfl, fun chunk hmem => ?_, fun hmem => ?_⟩
        · rcases List.mem_cons.mp hmem with hnow | hbefore
          · cases hnow
          · exact hfirst _ rfl hbefore
        · rcases List.mem_cons.mp hmem with hnow | hbefore
          · cases hnow
          · exact hfirst _ rfl hbefore
      | release hrunning hbefore hafter howed =>
        refine h.late_of ?_ (fun hpoint => (hleaving hpoint).1) hi
        rintro e ⟨⟩
        exact (Option.some_ne_none i).symm
      | stay hrunning hactive hevent =>
        have hold : .acquired i ∈ new := by
          rw [List.mem_append, Option.mem_toList] at hi
          refine hi.resolve_left fun hnow => ?_
          rcases (hevent _ hnow).2 with hkind | ⟨_, hkind⟩ <;> cases hkind
        refine h.late_of ?_ (fun hpoint => (hleaving hpoint).1) hi
        intro e he
        have hreleased := (hleaving (h.late i hold).1).2 e he
        rw [hreleased]
        exact (Option.some_ne_none i).symm
    · rw [Function.update_of_ne hcall]
      exact h.late_of (hmove.caller_ne hcall) id hi

/-- **A step behind a stop request** keeps the request latched. -/
theorem Latched.step {s : TaskSys W} {new : List PortEvent} (h : s.Latched new) (howned : s.Owned)
    (hrecorded : s.Recorded) (hnew : new ⊆ s.log) (a : TaskAction W)
    (hclear : s.event a ≠ some .stopCleared) :
    (s.step a).Latched ((s.event a).toList ++ new) := by
  cases a with
  | go call => exact h.go howned hrecorded hnew call
  | back call status => exact h.back call status
  | shared a => exact h.shared a hclear

/-! ## Runs -/

/-- What holds in every state of an interleaving. -/
structure Invariant (s : TaskSys W) : Prop where
  owned : s.Owned
  recorded : s.Recorded
  latched : ∀ new old, s.log = new ++ .stopRequested :: old → .stopCleared ∉ new → s.Latched new

/-- A stop request that was just made is latched. -/
private theorem Latched.now {s : TaskSys W} {a : TaskAction W}
    (h : s.event a = some .stopRequested) :
    (s.step a).Latched [] := by
  refine ⟨?_, fun i => ?_, fun i hi => absurd hi List.not_mem_nil⟩
  · cases a with
    | back call status => cases h
    | shared a =>
      rcases SharedStep.event_cases h with ⟨-, hstop⟩ | hother | hother
      · exact hstop
      · cases hother
      · cases hother
    | go call =>
      have hmove := callStep_move s.world (s.transport call) call (s.calls call)
      have hevent : (callStep s.world (s.transport call) call (s.calls call)).2.2 =
        some .stopRequested := h
      rw [hevent] at hmove
      cases hmove with
      | stay hrunning hactive hkind => rcases (hkind _ rfl).2 with h | ⟨_, h⟩ <;> cases h
  · rw [feds, List.filter_nil, List.length_nil, Nat.zero_add]
    exact CallPoint.owed_le_one _

/-- **Every step keeps the invariant.**

**Proof sketch.** Ownership and the record are step lemmas of their own. The newest event is the
request itself, from which the flag is set, or it comes behind one, and then the latched state is
carried on. -/
theorem Invariant.step {s : TaskSys W} (h : s.Invariant) (a : TaskAction W) :
    (s.step a).Invariant := by
  refine ⟨h.owned.step a, h.recorded.step a, ?_⟩
  intro new old hlog hclear
  rw [step_log] at hlog
  have hmake : ∀ new', s.log = new' ++ .stopRequested :: old →
      new = (s.event a).toList ++ new' → (s.step a).Latched new := by
    rintro new' hlog' rfl
    have hsub : new' ⊆ s.log := by
      rw [hlog']
      exact List.subset_append_left ..
    refine (h.latched new' old hlog' fun hmem => hclear (List.mem_append_right _ hmem)).step
      h.owned h.recorded hsub a fun hnow => hclear ?_
    rw [hnow]
    exact List.mem_append_left _ (List.mem_singleton_self _)
  cases hevent : s.event a with
  | none =>
    rw [hevent] at hlog hmake
    exact hmake new hlog rfl
  | some e =>
    rw [hevent] at hlog hmake
    cases new with
    | nil =>
      obtain ⟨rfl, -⟩ := List.cons.inj hlog
      exact Latched.now hevent
    | cons e' new' =>
      obtain ⟨rfl, hlog'⟩ := List.cons.inj hlog
      exact hmake new' hlog' rfl

/-- A fresh port satisfies the invariant. -/
theorem Fresh.invariant {s : TaskSys W} (h : s.Fresh) : s.Invariant := by
  obtain ⟨config, transport, hinit⟩ := h.init
  have hidle : ∀ i, ¬(s.calls i).active = true := by
    intro i
    rw [h.calls i]
    exact Bool.false_ne_true
  refine ⟨⟨fun i j hi => absurd hi (hidle i), ?_⟩, ?_, ?_⟩
  · unfold shFreertosInit at hinit
    split_ifs at hinit
    injection hinit with hport
    rw [← hport]
    exact iff_of_false Bool.false_ne_true fun ⟨i, hi⟩ => hidle i hi
  · intro e he
    rw [h.log] at he
    cases he
  · intro new old hlog
    rw [h.log] at hlog
    simp at hlog

/-- **An interleaving keeps the invariant.** -/
theorem Invariant.run {s : TaskSys W} (h : s.Invariant) (actions : List (TaskAction W)) :
    (s.run actions).Invariant :=
  List.foldlRecOn (motive := Invariant) actions _ h fun _ hs a _ => hs.step a

end TaskSys

/-! ## The statistics -/

/-- No counter of `t` has gone down in `t'`. -/
structure FreeRtosStats.Le (t t' : FreeRtosStats) : Prop where
  rxBytesEnqueued : t.rxBytesEnqueued ≤ t'.rxBytesEnqueued
  rxBytesDelivered : t.rxBytesDelivered ≤ t'.rxBytesDelivered
  rxOverflowBytes : t.rxOverflowBytes ≤ t'.rxOverflowBytes
  rxErrors : t.rxErrors ≤ t'.rxErrors
  txBytesEnqueued : t.txBytesEnqueued ≤ t'.txBytesEnqueued
  txOverflowBytes : t.txOverflowBytes ≤ t'.txOverflowBytes
  txErrors : t.txErrors ≤ t'.txErrors

/-- The counters are numbers of 32 bits. -/
def FreeRtosStats.Bounded (t : FreeRtosStats) : Prop :=
  t.Le ⟨uint32Max, uint32Max, uint32Max, uint32Max, uint32Max, uint32Max, uint32Max⟩

/-- The counters go up and stay in their range. -/
structure FreeRtosStats.Counts (t t' : FreeRtosStats) : Prop where
  le : t.Bounded → t.Le t'
  bounded : t.Bounded → t'.Bounded

/-- Adding to a counter does not make it smaller, nor larger than 32 bits. -/
private theorem le_counterAdd {current : ℕ} (h : current ≤ uint32Max) (amount : ℕ) :
    current ≤ counterAdd current amount ∧ counterAdd current amount ≤ uint32Max := by
  unfold counterAdd
  split_ifs <;> omega

/-- Adding nothing changes nothing. -/
theorem counterAdd_zero (current : ℕ) : counterAdd current 0 = current :=
  if_neg (Nat.not_lt_zero _)

namespace FreeRtosStats

/-- Nothing was counted. -/
theorem Le.refl (t : FreeRtosStats) : t.Le t :=
  ⟨le_rfl, le_rfl, le_rfl, le_rfl, le_rfl, le_rfl, le_rfl⟩

namespace Counts

/-- Nothing was counted. -/
theorem refl (t : FreeRtosStats) : t.Counts t := ⟨fun _ => .refl t, id⟩

/-- Counting adds to each counter, possibly nothing. -/
private theorem of_add (t : FreeRtosStats) (a b c d e f g : ℕ) :
    t.Counts ⟨counterAdd t.1 a, counterAdd t.2 b, counterAdd t.3 c, counterAdd t.4 d,
      counterAdd t.5 e, counterAdd t.6 f, counterAdd t.7 g⟩ :=
  ⟨fun h => ⟨(le_counterAdd h.1 a).1, (le_counterAdd h.2 b).1, (le_counterAdd h.3 c).1,
      (le_counterAdd h.4 d).1, (le_counterAdd h.5 e).1, (le_counterAdd h.6 f).1,
      (le_counterAdd h.7 g).1⟩,
    fun h => ⟨(le_counterAdd h.1 a).2, (le_counterAdd h.2 b).2, (le_counterAdd h.3 c).2,
      (le_counterAdd h.4 d).2, (le_counterAdd h.5 e).2, (le_counterAdd h.6 f).2,
      (le_counterAdd h.7 g).2⟩⟩

end Counts

end FreeRtosStats

/-- The interrupt handler only counts. -/
private theorem shFreertosRxFromIsr_counts (w : FreeRtosWorld W) (data : CArray Byte) :
    w.port.stats.Counts (shFreertosRxFromIsr w data).1.port.stats := by
  have herror := FreeRtosStats.Counts.of_add w.port.stats 0 0 0 1 0 0 0
  have hsent := FreeRtosStats.Counts.of_add w.port.stats (w.rxStream.accepts data.cells) 0 0 0 0 0 0
  have hlost := FreeRtosStats.Counts.of_add w.port.stats (w.rxStream.accepts data.cells) 0
    (data.count - w.rxStream.accepts data.cells) 0 0 0 0
  simp only [counterAdd_zero] at herror hsent hlost
  unfold shFreertosRxFromIsr
  dsimp only
  split_ifs
  · exact herror
  · exact .refl _
  · exact hlost
  · exact hsent

/-- A step outside of `sh_freertos_run` only counts, or it resets the counters of a port without an
owner.

**Proof sketch.** One case per step. Every counter is written by `sh_freertos_counter_add`, which
never lets it fall, and a reset is refused while the port runs. -/
private theorem SharedStep.apply_counts (w : FreeRtosWorld W) (a : SharedStep W) :
    w.port.stats.Counts (a.apply w).port.stats ∨
      (w.port.running = false ∧ (a.apply w).port.stats = ⟨0, 0, 0, 0, 0, 0, 0⟩) := by
  cases a with
  | port action =>
    refine .inl ?_
    cases action with
    | rxFromIsr data => exact shFreertosRxFromIsr_counts w data
    | requestStop => exact .refl _
    | clearStop =>
      show w.port.stats.Counts (shFreertosClearStop w).1.port.stats
      unfold shFreertosClearStop
      split_ifs <;> exact .refl _
    | txReceive n => exact .refl _
    | effect f => exact .refl _
  | resetStats =>
    show w.port.stats.Counts (shFreertosResetStats w).1.port.stats ∨
      (_ ∧ (shFreertosResetStats w).1.port.stats = _)
    unfold shFreertosResetStats
    split_ifs with hrunning
    · exact .inl (.refl _)
    · exact .inr ⟨Bool.eq_false_iff.mpr hrunning, rfl⟩
  | send data => exact .inl (.refl _)
  | countSent sent len =>
    refine .inl ?_
    have hsent := FreeRtosStats.Counts.of_add w.port.stats 0 0 0 0 sent 0 0
    have hlost := FreeRtosStats.Counts.of_add w.port.stats 0 0 0 0 sent (len - sent) 0
    simp only [counterAdd_zero] at hsent hlost
    show w.port.stats.Counts ⟨_, _, _, _, _, if sent ≠ len then _ else _, _⟩
    split_ifs
    · exact hlost
    · exact hsent
  | countError =>
    refine .inl ?_
    have herror := FreeRtosStats.Counts.of_add w.port.stats 0 0 0 0 0 0 1
    simp only [counterAdd_zero] at herror
    exact herror

/-- A call of `sh_freertos_run` only counts. -/
private theorem callStep_counts (w : FreeRtosWorld W) (transport : Option Ptr) (call : ℕ)
    (point : CallPoint) :
    w.port.stats.Counts (callStep w transport call point).1.port.stats := by
  cases point with
  | enter =>
    show w.port.stats.Counts (callEnter w transport call).1.port.stats
    unfold callEnter
    split_ifs <;> exact .refl _
  | deliver chunk =>
    have hdelivered := FreeRtosStats.Counts.of_add w.port.stats 0 chunk.length 0 0 0 0 0
    simp only [counterAdd_zero] at hdelivered
    exact hdelivered
  | failed status =>
    have herror := FreeRtosStats.Counts.of_add w.port.stats 0 0 0 1 0 0 0
    simp only [counterAdd_zero] at herror
    exact herror
  | _ => exact .refl _

namespace TaskSys

/-- **A step only counts**, or it resets the counters of a port without an owner. -/
theorem step_counts (s : TaskSys W) (a : TaskAction W) :
    s.world.port.stats.Counts (s.step a).world.port.stats ∨
      (s.world.port.running = false ∧ (s.step a).world.port.stats = ⟨0, 0, 0, 0, 0, 0, 0⟩) := by
  cases a with
  | go call => exact .inl (callStep_counts s.world (s.transport call) call (s.calls call))
  | back call status => exact .inl (.refl _)
  | shared a => exact a.apply_counts s.world

/-- The counters of an interleaving stay in their range. -/
private theorem bounded_run {s : TaskSys W} (h : s.world.port.stats.Bounded)
    (actions : List (TaskAction W)) : (s.run actions).world.port.stats.Bounded := by
  refine List.foldlRecOn (motive := fun s : TaskSys W => s.world.port.stats.Bounded) actions _ h ?_
  intro s hs a _
  rcases s.step_counts a with hcounts | ⟨-, hzero⟩
  · exact hcounts.bounded hs
  · rw [hzero]
    exact ⟨Nat.zero_le _, Nat.zero_le _, Nat.zero_le _, Nat.zero_le _, Nat.zero_le _,
      Nat.zero_le _, Nat.zero_le _⟩

/-- The counters of a fresh port are zero. -/
theorem Fresh.bounded {s : TaskSys W} (h : s.Fresh) : s.world.port.stats.Bounded := by
  obtain ⟨config, transport, hinit⟩ := h.init
  unfold shFreertosInit at hinit
  split_ifs at hinit
  injection hinit with hport
  rw [← hport]
  exact ⟨Nat.zero_le _, Nat.zero_le _, Nat.zero_le _, Nat.zero_le _, Nat.zero_le _,
    Nat.zero_le _, Nat.zero_le _⟩

/-! ## Ownership -/

/-- An activation of `sh_freertos_run` owns the port. -/
def Busy (s : TaskSys W) : Prop := ∃ i, (s.calls i).active = true

/-- What holds of the owner of a port and of its stop flag in a state. -/
structure Ownership (s : TaskSys W) : Prop where
  /-- One activation is past its acquire step at most. -/
  unique : ∀ i j, (s.calls i).active = true → (s.calls j).active = true → i = j
  /-- The flag `running` is set exactly while there is one. -/
  running : s.world.port.running = true ↔ s.Busy
  /-- While there is one, no step clears the stop flag. -/
  notCleared : s.Busy → s.world.port.stopRequested = true → ∀ a,
    (s.step a).world.port.stopRequested = true
  /-- While there is one, no step makes a counter smaller. -/
  notReset : s.Busy → ∀ a, s.world.port.stats.Le (s.step a).world.port.stats
  /-- Between a stop request and a successful `sh_freertos_clear_stop`, at most one chunk is
  handed to `sh_input`. -/
  once : ∀ new old, s.log = new ++ .stopRequested :: old → .stopCleared ∉ new → feds new ≤ 1
  /-- In this time, an activation that takes the port feeds no byte and prints no prompt. -/
  late : ∀ new old, s.log = new ++ .stopRequested :: old → .stopCleared ∉ new →
    ∀ i, .acquired i ∈ new → (∀ chunk, .fed i chunk ∉ new) ∧ .prompted i ∉ new

/-- While the port has an owner the stop flag stays set.

**Proof sketch.** One case per step. With an owner the port runs, so clearing the request and
resetting are refused. -/
private theorem Owned.stop_step {s : TaskSys W} (h : s.Owned) (hbusy : s.Busy)
    (hstop : s.world.port.stopRequested = true) (a : TaskAction W) :
    (s.step a).world.port.stopRequested = true := by
  cases a with
  | go call =>
    exact (callStep_stop s.world (s.transport call) call (s.calls call)).trans hstop
  | back call status => exact hstop
  | shared a =>
    refine a.apply_stop hstop fun hclear => ?_
    have hrunning := h.running.mpr hbusy
    cases a with
    | port action =>
      cases action with
      | clearStop =>
        have hnone : SharedStep.event s.world (.port .clearStop) = none := if_pos hrunning
        rw [hnone] at hclear
        cases hclear
      | requestStop => cases hclear
      | rxFromIsr data => cases hclear
      | txReceive n => cases hclear
      | effect f => cases hclear
    | resetStats =>
      have hnone : SharedStep.event s.world .resetStats = none := if_pos hrunning
      rw [hnone] at hclear
      cases hclear
    | send data => cases hclear
    | countSent sent len => cases hclear
    | countError => cases hclear

/-- **Ownership and the stop latch**: in every state of every interleaving of tasks on an
initialized port, one activation of `sh_freertos_run` at most owns the port, the flag `running` says
whether one does, nothing is reset or cleared while one does, and a stop request lets at most one
further chunk through and none for an activation that comes later.

**Proof sketch.** A call takes the port only when the flag is clear and gives it back when it clears
the flag, so the owner is unique (`Owned.step`). For the stop request, the owner owes a chunk only
between its last check of the stop flag and `sh_input`; a step while the flag is set hands over no
more than what is owed, and a call at its first check goes straight to its end (`Latched.step`). -/
theorem ownership {s : TaskSys W} (h : s.Fresh) (actions : List (TaskAction W)) :
    (s.run actions).Ownership := by
  have hinv := h.invariant.run actions
  have hbounded := bounded_run h.bounded actions
  generalize s.run actions = s' at hinv hbounded
  refine
    { unique := hinv.owned.unique
      running := hinv.owned.running
      notCleared := fun hbusy hstop a => hinv.owned.stop_step hbusy hstop a
      notReset := ?_
      once := ?_
      late := fun new old hlog hclear i hi => ((hinv.latched new old hlog hclear).late i hi).2 }
  · intro hbusy a
    rcases s'.step_counts a with hcounts | ⟨hfree, -⟩
    · exact hcounts.le hbounded
    · rw [hinv.owned.running.mpr hbusy] at hfree
      cases hfree
  · intro new old hlog hclear
    exact (Nat.le_add_right _ _).trans ((hinv.latched new old hlog hclear).once 0)

end TaskSys

/-- The small port before any task uses it. -/
def smallTasks : TaskSys Unit :=
  ⟨smallFreeRtos.world, fun _ => some 0, fun _ => .enter, []⟩

/-- It is fresh. -/
theorem smallTasks_fresh : smallTasks.Fresh :=
  ⟨⟨smallFreeRtos.world.port.config, 0, rfl⟩, fun _ => rfl, rfl⟩

/-- Two tasks call `sh_freertos_run`, and one is asked to stop. -/
theorem ownership_small :
    (smallTasks.run [.go 0, .go 1, .go 0, .shared (.port .requestStop), .go 0]).Ownership :=
  TaskSys.ownership smallTasks_fresh _

/-! ## A single shell task -/

/-- Steps on the port lead from one world to another. -/
def SharedReach (w w' : FreeRtosWorld W) : Prop :=
  ∃ steps : List (SharedStep W), steps.foldl SharedStep.apply w = w'

namespace SharedReach

/-- No step. -/
theorem refl (w : FreeRtosWorld W) : SharedReach w w := ⟨[], rfl⟩

/-- One step more. -/
theorem tail {w w' : FreeRtosWorld W} (h : SharedReach w w') (a : SharedStep W) :
    SharedReach w (a.apply w') := by
  obtain ⟨steps, rfl⟩ := h
  exact ⟨steps ++ [a], List.foldl_concat ..⟩

/-- Steps of other contexts. -/
theorem runActions {w w' : FreeRtosWorld W} (h : SharedReach w w')
    (actions : List (PortAction W)) : SharedReach w (w'.runActions actions) :=
  List.foldlRecOn (motive := SharedReach w) actions _ h fun _ hw a _ => hw.tail (.port a)

/-- Output of the shell. -/
theorem transportWrite {w w' : FreeRtosWorld W} (h : SharedReach w w') (app : FreeRtosApp W)
    (data : List Byte) : SharedReach w (shFreertosTransportWrite app w' data).1 := by
  unfold shFreertosTransportWrite
  split_ifs
  · exact h.tail .countError
  · exact h
  · have hwaited := h.runActions (app.duringWrite w'.app)
    exact (hwaited.tail (.send data)).tail
      (.countSent ((w'.runActions (app.duringWrite w'.app)).txStream.accepts data) data.length)

end SharedReach

/-- Ways for tasks to get on: the calls of `sh_freertos_run`, the output of a shell and the steps of
other contexts are among them. -/
structure Interleaves (app : FreeRtosApp W) (R : TaskSys W → TaskSys W → Prop) : Prop where
  refl : ∀ t, R t t
  trans : ∀ {t u v}, R t u → R u v → R t v
  go : ∀ t call, R t (t.step (.go call))
  back : ∀ t call status, R t (t.step (.back call status))
  action : ∀ t action, R t (t.step (.shared (.port action)))
  write : ∀ t data, ∃ u, R t u ∧ u.world = (shFreertosTransportWrite app t.world data).1 ∧
    u.calls = t.calls ∧ u.transport = t.transport

/-- The world is reached without a step of a call of `sh_freertos_run`. -/
def Inside (R : TaskSys W → TaskSys W → Prop) (t : TaskSys W) (w : FreeRtosWorld W) : Prop :=
  ∃ u, R t u ∧ u.world = w ∧ u.calls = t.calls ∧ u.transport = t.transport

/-- **The shell** stays inside of the call. -/
theorem Interleaves.keepsWorld {app : FreeRtosApp W} {R : TaskSys W → TaskSys W → Prop}
    (hR : Interleaves app R) (t : TaskSys W) : KeepsWorld (freertosEnv app) (Inside R t) := by
  refine keepsWorld_of_port app ?_ ?_
  · rintro w action ⟨u, hu, rfl, hcalls, htransport⟩
    exact ⟨u.step (.shared (.port action)), hR.trans hu (hR.action u action), rfl, hcalls,
      htransport⟩
  · rintro w data ⟨u, hu, rfl, hcalls, htransport⟩
    obtain ⟨v, hv, hworld, hcalls', htransport'⟩ := hR.write u data
    exact ⟨v, hR.trans hu hv, hworld, hcalls'.trans hcalls, htransport'.trans htransport⟩

/-- The same point, for one of many calls. -/
def RunPoint.toCall : RunPoint → CallPoint
  | .idle none => .enter
  | .idle (some status) => .returned status
  | .first => .first
  | .prompt => .prompt
  | .loop => .loop
  | .receive => .receive
  | .recheck chunk => .recheck chunk
  | .deliver chunk => .deliver chunk
  | .input chunk => .input chunk
  | .failed status => .failed status
  | .done => .done

namespace FreeRtosSys

/-- A single shell task, seen as the latest of many calls of `sh_freertos_run`. -/
structure Refines (s : FreeRtosSys W) (t : TaskSys W) : Prop where
  world : t.world = s.world
  transport : ∀ i, t.transport i = s.shell.sh.cfg.transport
  current : ∃ i, t.calls i = s.point.toCall ∧ ∀ j, i < j → t.calls j = .enter

/-- Steps on the port only change the world. -/
theorem shared_run (t : TaskSys W) (steps : List (SharedStep W)) :
    (t.run (steps.map .shared)).world = steps.foldl SharedStep.apply t.world ∧
      (t.run (steps.map .shared)).calls = t.calls ∧
      (t.run (steps.map .shared)).transport = t.transport := by
  induction steps generalizing t with
  | nil => exact ⟨rfl, rfl, rfl⟩
  | cons a steps ih => exact ih (t.step (.shared a))

/-- The current call has moved, and the later ones are still at their entry. -/
private theorem current_update {t : TaskSys W} {i : ℕ} (hlater : ∀ j, i < j → t.calls j = .enter)
    {point point' : CallPoint} (hpoint : point = point') :
    ∃ i', Function.update t.calls i point i' = point' ∧
      ∀ j, i' < j → Function.update t.calls i point j = .enter := by
  refine ⟨i, by rw [Function.update_self, hpoint], fun j hj => ?_⟩
  rw [Function.update_of_ne (Nat.ne_of_gt hj)]
  exact hlater j hj

/-- A step of the shell task between two uses of the shell is a step of the current call. -/
theorem Refines.go {s s' : FreeRtosSys W} {t : TaskSys W} (h : s.Refines t) {i : ℕ}
    (hcurrent : t.calls i = s.point.toCall) (hlater : ∀ j, i < j → t.calls j = .enter)
    (hworld : (callStep s.world s.shell.sh.cfg.transport i s.point.toCall).1 = s'.world)
    (hpoint : (callStep s.world s.shell.sh.cfg.transport i s.point.toCall).2.1 = s'.point.toCall)
    (hcfg : s'.shell.sh.cfg = s.shell.sh.cfg) : s'.Refines (t.run [.go i]) := by
  have hstep : callStep t.world (t.transport i) i (t.calls i) =
      callStep s.world s.shell.sh.cfg.transport i s.point.toCall := by
    rw [h.world, h.transport, hcurrent]
  refine ⟨?_, fun j => ?_, ?_⟩
  · show (callStep t.world (t.transport i) i (t.calls i)).1 = _
    rw [hstep]
    exact hworld
  · rw [hcfg]
    exact h.transport j
  · show ∃ i',
      Function.update t.calls i (callStep t.world (t.transport i) i (t.calls i)).2.1 i' = _ ∧
      ∀ j, i' < j → Function.update t.calls i _ j = .enter
    rw [hstep]
    exact current_update hlater hpoint

/-- A step of the shell task through the shell is one into it, steps on the port, and one back.

**Proof sketch.** The call of the task is sent into the shell, `hreach` takes the world where the
shell takes it, and the call is sent back with the status of the shell. Other calls are not
touched. -/
private theorem Refines.through {app : FreeRtosApp W} {R : TaskSys W → TaskSys W → Prop}
    (hR : Interleaves app R) {s s' : FreeRtosSys W} {t : TaskSys W} (h : s.Refines t) {i : ℕ}
    (hcurrent : t.calls i = s.point.toCall) (hlater : ∀ j, i < j → t.calls j = .enter)
    {w : FreeRtosWorld W} {inside : CallPoint} {event : Option PortEvent} (status : Status)
    (hinto : callStep s.world s.shell.sh.cfg.transport i s.point.toCall = (w, inside, event))
    (hreach : ∀ u : TaskSys W, u.world = w → Inside R u s'.world)
    (hpoint : inside.back status = s'.point.toCall)
    (hcfg : s'.shell.sh.cfg = s.shell.sh.cfg) : ∃ u, R t u ∧ s'.Refines u := by
  have hstep : callStep t.world (t.transport i) i (t.calls i) = (w, inside, event) := by
    rw [h.world, h.transport, hcurrent]
    exact hinto
  have hentered : t.step (.go i) = ⟨w, t.transport, Function.update t.calls i inside,
      event.toList ++ t.log⟩ := by
    unfold TaskSys.step
    dsimp only
    rw [hstep]
  obtain ⟨u, hu, hworld, hcalls, htransport⟩ :=
    hreach (t.step (.go i)) (congrArg TaskSys.world hentered)
  rw [hentered] at hcalls htransport
  dsimp only at hcalls htransport
  refine ⟨u.step (.back i status), hR.trans (hR.trans (hR.go t i) hu) (hR.back u i status),
    hworld, fun j => ?_, ?_⟩
  · show u.transport j = _
    rw [htransport, hcfg]
    exact h.transport j
  · show ∃ i', Function.update u.calls i ((u.calls i).back status) i' = _ ∧
      ∀ j, i' < j → Function.update u.calls i ((u.calls i).back status) j = .enter
    rw [hcalls, Function.update_self, Function.update_idem]
    exact current_update hlater hpoint

section Runs

variable {app : FreeRtosApp W} {R : TaskSys W → TaskSys W → Prop} (hR : Interleaves app R)

include hR

/-- **A step of the single shell task** or of another context is a sequence of steps of tasks.

**Proof sketch.** One case per action and, for the shell task, one per point. A start is one step of
a call that has not entered, a point that stays in `sh_freertos_run` one step of the current call,
and a point that enters the shell goes through `Refines.through`. -/
theorem Refines.step {s : FreeRtosSys W} {t : TaskSys W} (h : s.Refines t) (hs : s.Consistent)
    (a : FreeRtosAction W) : ∃ u, R t u ∧ (s.step app a).Refines u := by
  obtain ⟨i, hcurrent, hlater⟩ := h.current
  cases a with
  | other action =>
    refine ⟨t.step (.shared (.port action)), hR.action t action, ?_, h.transport,
      ⟨i, hcurrent, hlater⟩⟩
    show action.apply t.world = action.apply s.world
    rw [h.world]
  | run =>
    show ∃ u, R t u ∧ (shFreertosRun s).1.Refines u
    unfold shFreertosRun
    dsimp only
    split_ifs with hconfig hrunning
    · exact ⟨t, hR.refl t, h⟩
    · exact ⟨t, hR.refl t, h⟩
    · have hidle : s.point.Idle := by
        by_contra hidle
        exact hrunning (hs.running hidle)
      obtain ⟨j, henter, hlater'⟩ : ∃ j, t.calls j = .enter ∧ ∀ k, j < k → t.calls k = .enter := by
        obtain ⟨returned, hpoint⟩ := hidle
        rw [hpoint] at hcurrent
        cases returned with
        | none => exact ⟨i, hcurrent, hlater⟩
        | some status =>
          exact ⟨i + 1, hlater (i + 1) (Nat.lt_succ_self i), fun k hk => hlater k (by omega)⟩
      have hstep : callStep t.world (t.transport j) j (t.calls j) =
          (s.world.setRunning true, .first, some (.acquired j)) := by
        rw [h.world, h.transport, henter]
        show callEnter s.world s.shell.sh.cfg.transport j = _
        unfold callEnter
        rw [if_neg hconfig, if_neg hrunning]
      refine ⟨t.step (.go j), hR.go t j, ?_, h.transport, ?_⟩
      · show (callStep t.world (t.transport j) j (t.calls j)).1 = _
        rw [hstep]
        rfl
      · show ∃ i',
          Function.update t.calls j (callStep t.world (t.transport j) j (t.calls j)).2.1 i' =
          CallPoint.first ∧ ∀ k, i' < k → Function.update t.calls j _ k = .enter
        rw [hstep]
        exact current_update hlater' rfl
  | task =>
    obtain ⟨shell, point⟩ := s
    show ∃ u, R t u ∧ (runStep app ⟨shell, point⟩).Refines u
    cases point with
    | idle returned => exact ⟨t, hR.refl t, h⟩
    | first =>
      refine ⟨_, hR.go t i, h.go hcurrent hlater rfl ?_ rfl⟩
      show (if _ then _ else _ : CallPoint) = (if _ then _ else _ : RunPoint).toCall
      split_ifs <;> rfl
    | prompt =>
      refine h.through hR hcurrent hlater Status.ok rfl ?_ rfl ?_
      · intro u hu
        have hstart : Inside R u shell.io := ⟨u, hR.refl u, hu, rfl, rfl⟩
        exact (hR.keepsWorld u).backendWrite shell.sh.cfg hstart _
      · rfl
    | loop =>
      refine ⟨_, hR.go t i, h.go hcurrent hlater rfl ?_ rfl⟩
      show (if _ then _ else _ : CallPoint) = (if _ then _ else _ : RunPoint).toCall
      split_ifs <;> rfl
    | receive => exact ⟨_, hR.go t i, h.go hcurrent hlater rfl rfl rfl⟩
    | recheck chunk =>
      refine ⟨_, hR.go t i, h.go hcurrent hlater rfl ?_ rfl⟩
      show (if _ then _ else if _ then _ else _ : CallPoint) =
        (if _ then _ else if _ then _ else _ : RunPoint).toCall
      split_ifs <;> rfl
    | deliver chunk => exact ⟨_, hR.go t i, h.go hcurrent hlater rfl rfl rfl⟩
    | input chunk =>
      refine h.through hR hcurrent hlater
        (shInput (freertosEnv app) { shell with io := shell.io.hand chunk } chunk).2 rfl ?_ ?_ ?_
      · intro u hu
        have hhanded : Inside R u (shell.io.hand chunk) := ⟨u, hR.refl u, hu, rfl, rfl⟩
        exact KeepsWorld.shInput (P := Inside R u) (hR.keepsWorld u) hhanded chunk
      · have hsplit : ∀ status : Status,
            (if status ≠ Status.ok then CallPoint.failed status else .loop) =
              (if status ≠ Status.ok then RunPoint.failed status else .loop).toCall := by
          intro status
          split_ifs <;> rfl
        exact hsplit _
      · exact (shInput_steps (freertosEnv app) { shell with io := shell.io.hand chunk }
          chunk).sameSetup.cfg
    | failed status => exact ⟨_, hR.go t i, h.go hcurrent hlater rfl rfl rfl⟩
    | done => exact ⟨_, hR.go t i, h.go hcurrent hlater rfl rfl rfl⟩

/-- A run of the single shell task is a way for tasks to get on. -/
theorem Refines.run {s : FreeRtosSys W} {t : TaskSys W} (h : s.Refines t) (hs : s.Consistent)
    (actions : List (FreeRtosAction W)) : ∃ u, R t u ∧ (s.run app actions).Refines u := by
  induction actions generalizing s t with
  | nil => exact ⟨t, hR.refl t, h⟩
  | cons a actions ih =>
    obtain ⟨u, hu, hfirst⟩ := h.step hR hs a
    obtain ⟨v, hv, hrest⟩ := ih hfirst (hs.step app a)
    exact ⟨v, hR.trans hu hv, hrest⟩

end Runs

/-- Interleavings are such a way. -/
theorem interleaves_run (app : FreeRtosApp W) :
    Interleaves app fun t u => ∃ actions, t.run actions = u where
  refl t := ⟨[], rfl⟩
  trans := by
    rintro t u v ⟨first, rfl⟩ ⟨rest, rfl⟩
    exact ⟨first ++ rest, List.foldl_append ..⟩
  go t call := ⟨[.go call], rfl⟩
  back t call status := ⟨[.back call status], rfl⟩
  action t action := ⟨[.shared (.port action)], rfl⟩
  write t data := by
    obtain ⟨steps, hsteps⟩ := (SharedReach.refl t.world).transportWrite app data
    obtain ⟨hworld, hcalls, htransport⟩ := shared_run t steps
    exact ⟨_, ⟨_, rfl⟩, hworld.trans hsteps, hcalls, htransport⟩

/-- **The runs of a single shell task are interleavings**: what a sequence of actions does to the
port, with the actual shell, is what some interleaving of tasks does.

**Proof sketch.** Between two points of `sh_freertos_run` the shell only makes steps on the port
(`Interleaves.keepsWorld`), and these are steps that tasks can make. -/
theorem run_refines (app : FreeRtosApp W) {s : FreeRtosSys W} {t : TaskSys W} (h : s.Refines t)
    (hs : s.Consistent) (actions : List (FreeRtosAction W)) :
    ∃ actions', (s.run app actions).Refines (t.run actions') := by
  obtain ⟨u, ⟨actions', rfl⟩, hu⟩ := h.run (interleaves_run app) hs actions
  exact ⟨actions', hu⟩

/-- The interleaving that a fresh port starts from. -/
theorem Fresh.refines {s : FreeRtosSys W} (h : s.Fresh) :
    s.Refines ⟨s.world, fun _ => s.shell.sh.cfg.transport, fun _ => .enter, []⟩ := by
  refine ⟨rfl, fun _ => rfl, 0, ?_, fun _ _ => rfl⟩
  rw [h.point]
  rfl

end FreeRtosSys

end PortableShell
