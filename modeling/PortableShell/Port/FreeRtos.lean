import PortableShell.Lib.Fifo
import PortableShell.World

set_option relaxedAutoImplicit false
set_option autoImplicit false

/-!
# The FreeRTOS port

`sh_port_freertos.c`: a task runs the shell on bytes that an interrupt handler puts into a stream
buffer. Another task may ask the loop to stop at any time.

## Main definitions

* `PortableShell.FreeRtosWorld` — a `sh_freertos_port_t` and the two stream buffers it names.
* `PortableShell.shFreertosInit`, `shFreertosRxFromIsr`, `shFreertosRequestStop`,
  `shFreertosClearStop`, `shFreertosTransportWrite` — the functions of the source.
* `PortableShell.RunPoint`, `runStep` — the points of `sh_freertos_run` between which other
  contexts may run, and the step from one to the next.
* `PortableShell.FreeRtosSys.run` — what a sequence of actions does, in the order given.

## Main results

* `PortableShell.FreeRtosSys.Consistent.keeps`, `PortableShell.FreeRtosSys.Discards.loses` — an
  action keeps the bytes of the receive path unless it discards a chunk.
* `PortableShell.conserved_iff_no_discard` — when no accepted byte is ever lost.

## Design

An action is one step of one context: the interrupt handler, a task that stops or restarts the
loop, the TX driver, or the shell task. Between two calls out of the shell core nothing that it
reads or writes is shared, so a call of `sh_input` is one step of the shell task; what other
contexts do meanwhile stands in the scripts of the application, at the call out before which it
happens. The fields `accepted` and `delivered` record the run and are read by no operation.
-/

namespace PortableShell

/-! ## Data -/

/-- `UINT32_MAX`. -/
def uint32Max : ℕ := 2 ^ 32 - 1

/-- `portMAX_DELAY`, for ticks of 32 bits. -/
def portMaxDelay : ℕ := uint32Max

/-- `SH_FREERTOS_MAX_READ_CHUNK`, the size of the input array of `sh_freertos_run`. -/
def freertosMaxReadChunk : ℕ := 64

/-- `sh_freertos_config_t`. -/
structure FreeRtosConfig where
  rxStream : Option Ptr
  txStream : Option Ptr
  readTimeoutTicks : ℕ
  writeTimeoutTicks : ℕ
  readChunkSize : ℕ

/-- `sh_freertos_stats_t`. -/
structure FreeRtosStats where
  rxBytesEnqueued : ℕ
  rxBytesDelivered : ℕ
  rxOverflowBytes : ℕ
  rxErrors : ℕ
  txBytesEnqueued : ℕ
  txOverflowBytes : ℕ
  txErrors : ℕ

/-- `sh_freertos_port_t`; `transport` is the address of the embedded transport. -/
structure FreeRtosPort where
  config : FreeRtosConfig
  transport : Ptr
  stopRequested : Bool
  running : Bool
  stats : FreeRtosStats

/-- A port and the stream buffers behind its handles, with the world of the application. -/
structure FreeRtosWorld (W : Type) where
  port : FreeRtosPort
  rxStream : Fifo Byte
  txStream : Fifo Byte
  app : W
  /-- The bytes that the receive stream took from the interrupt handler. -/
  accepted : List Byte
  /-- The bytes that were handed to `sh_input`. -/
  delivered : List Byte

/-- A step of a context other than the shell task. -/
inductive PortAction (W : Type)
  /-- The interrupt handler calls `sh_freertos_rx_from_isr`. -/
  | rxFromIsr (data : CArray Byte)
  | requestStop
  | clearStop
  /-- The driver takes at most `n` bytes from the transmit stream. -/
  | txReceive (n : ℕ)
  | effect (f : W → W)

/-- A use of the API by a handler or provider, or a step of another context meanwhile. -/
inductive FreeRtosAppCall (W : Type)
  | shell (call : ApiCall W)
  | port (action : PortAction W)

/-- The application code of a port. -/
structure FreeRtosApp (W : Type) where
  shouldMaskArg : Ptr → CStr → ℕ → CStr → Option Ptr → Bool
  handler : Ptr → View → FreeRtosPort → W → List CStr → Option Ptr →
    List (FreeRtosAppCall W) × Status
  completion : Ptr → View → FreeRtosPort → W → ℕ → ℕ → Option Ptr →
    List (FreeRtosAppCall W) × Option CStr
  /-- What other contexts do before and while the shell waits for space in the transmit stream. -/
  duringWrite : W → List (PortAction W)

variable {W : Type}

/-! ## The functions of the port -/

/-- `counter_add`. -/
def counterAdd (current amount : ℕ) : ℕ :=
  if amount > uint32Max - current then uint32Max else current + amount

/-- `sh_freertos_init` of a port whose embedded transport lies at `transport`. -/
def shFreertosInit (config : FreeRtosConfig) (transport : Ptr) : Except Status FreeRtosPort :=
  if config.rxStream.isNone ∨ config.txStream.isNone ∨ config.readTimeoutTicks = 0 ∨
      config.readTimeoutTicks = portMaxDelay ∨ config.readChunkSize = 0 ∨
      config.readChunkSize > freertosMaxReadChunk then
    .error Status.errInvalidConfig
  else .ok ⟨config, transport, false, false, ⟨0, 0, 0, 0, 0, 0, 0⟩⟩

namespace FreeRtosWorld

/-- Update the statistics. -/
def count (w : FreeRtosWorld W) (f : FreeRtosStats → FreeRtosStats) : FreeRtosWorld W :=
  { w with port := { w.port with stats := f w.port.stats } }

/-- Update the flag `running`. -/
def setRunning (w : FreeRtosWorld W) (b : Bool) : FreeRtosWorld W :=
  { w with port := { w.port with running := b } }

/-- Record that a chunk is handed to `sh_input`. -/
def hand (w : FreeRtosWorld W) (chunk : List Byte) : FreeRtosWorld W :=
  { w with delivered := w.delivered ++ chunk }

end FreeRtosWorld

/-- `sh_freertos_request_stop`. -/
def shFreertosRequestStop (w : FreeRtosWorld W) : FreeRtosWorld W :=
  { w with port := { w.port with stopRequested := true } }

/-- `sh_freertos_clear_stop`. -/
def shFreertosClearStop (w : FreeRtosWorld W) : FreeRtosWorld W × Status :=
  if w.port.running then (w, Status.errBusy)
  else ({ w with port := { w.port with stopRequested := false } }, Status.ok)

/-- `sh_freertos_rx_from_isr`; the result tells `pdPASS` from `pdFAIL`. -/
def shFreertosRxFromIsr (w : FreeRtosWorld W) (data : CArray Byte) : FreeRtosWorld W × Bool :=
  if w.port.config.rxStream.isNone ∨ (data.isNull ∧ data.count ≠ 0) then
    (w.count fun s => { s with rxErrors := counterAdd s.rxErrors 1 }, false)
  else if data.count = 0 then (w, true)
  else
    let sent := w.rxStream.accepts data.cells
    let next := { w with
      rxStream := w.rxStream.send data.cells
      accepted := w.accepted ++ data.cells.take sent }
    let counted := next.count fun s =>
      { s with rxBytesEnqueued := counterAdd s.rxBytesEnqueued sent }
    if sent ≠ data.count then
      (counted.count fun s =>
        { s with rxOverflowBytes := counterAdd s.rxOverflowBytes (data.count - sent) }, false)
    else (counted, true)

/-- A step of another context. -/
def PortAction.apply (w : FreeRtosWorld W) : PortAction W → FreeRtosWorld W
  | .rxFromIsr data => (shFreertosRxFromIsr w data).1
  | .requestStop => shFreertosRequestStop w
  | .clearStop => (shFreertosClearStop w).1
  | .txReceive n => { w with txStream := (w.txStream.receive n).1 }
  | .effect f => { w with app := f w.app }

/-- Steps of other contexts, in order. -/
def FreeRtosWorld.runActions (w : FreeRtosWorld W) (actions : List (PortAction W)) :
    FreeRtosWorld W :=
  actions.foldl PortAction.apply w

/-- `sh_freertos_transport_write`. -/
def shFreertosTransportWrite (app : FreeRtosApp W) (w : FreeRtosWorld W) (data : List Byte) :
    FreeRtosWorld W × TransportStatus × ℕ :=
  if w.port.config.txStream.isNone then
    (w.count fun s => { s with txErrors := counterAdd s.txErrors 1 }, .errInvalidArgument, 0)
  else if data.length = 0 then (w, .ok, 0)
  else
    let waited := w.runActions (app.duringWrite w.app)
    let sent := waited.txStream.accepts data
    let counted := { waited with txStream := waited.txStream.send data }.count fun s =>
      { s with
        txBytesEnqueued := counterAdd s.txBytesEnqueued sent
        txOverflowBytes :=
          if sent ≠ data.length then counterAdd s.txOverflowBytes (data.length - sent)
          else s.txOverflowBytes }
    (counted, if sent = data.length then .ok else .wouldBlock, sent)

/-- A use of the API of a shell, as the world of its port sees it. -/
def FreeRtosAppCall.toApiCall : FreeRtosAppCall W → ApiCall (FreeRtosWorld W)
  | .port action => .effect fun w => action.apply w
  | .shell call =>
    match call with
    | .write data => .write data
    | .flush => .flush
    | .historyClear => .historyClear
    | .setEchoEnabled enabled => .setEchoEnabled enabled
    | .registerCommands commands => .registerCommands commands
    | .registerCommandSets sets => .registerCommandSets sets
    | .start => .start
    | .stop => .stop
    | .effect f => .effect fun w => { w with app := f w.app }

/-- The surroundings of the shell of a port. -/
def freertosEnv (app : FreeRtosApp W) : Env (FreeRtosWorld W) where
  output := fun _ _ w _ => w
  transport := fun _ => ⟨some (shFreertosTransportWrite app), none⟩
  shouldMaskArg := app.shouldMaskArg
  handler := fun fn view w argv ctx =>
    let r := app.handler fn view w.port w.app argv ctx
    (r.1.map FreeRtosAppCall.toApiCall, r.2)
  completion := fun fn view w argIndex index ctx =>
    let r := app.completion fn view w.port w.app argIndex index ctx
    (r.1.map FreeRtosAppCall.toApiCall, r.2)

/-! ## The run loop -/

/-- The points of `sh_freertos_run` between two accesses to what other contexts share. -/
inductive RunPoint
  /-- No activation is running; the status that the last one returned. -/
  | idle (returned : Option Status)
  /-- Before the check that decides about the first prompt. -/
  | first
  | prompt
  /-- The condition of the loop. -/
  | loop
  | receive
  /-- The check behind the receive operation. -/
  | recheck (chunk : List Byte)
  /-- Before the chunk is counted as delivered. -/
  | deliver (chunk : List Byte)
  /-- Before the call of `sh_input`. -/
  | input (chunk : List Byte)
  /-- Before the return because of an error of `sh_input`. -/
  | failed (status : Status)
  /-- Behind the loop. -/
  | done

/-- The shell task with the world around it. -/
structure FreeRtosSys (W : Type) where
  shell : Sys (FreeRtosWorld W)
  point : RunPoint

namespace FreeRtosSys

/-- The world around the shell. -/
def world (s : FreeRtosSys W) : FreeRtosWorld W := s.shell.io

/-- Update the world, and go to a point of the loop. -/
def goto (s : FreeRtosSys W) (f : FreeRtosWorld W → FreeRtosWorld W) (point : RunPoint) :
    FreeRtosSys W :=
  ⟨{ s.shell with io := f s.shell.io }, point⟩

end FreeRtosSys

/-- `sh_freertos_run` is called: its checks, up to the first point of the loop. The result is what
it returns at once. -/
def shFreertosRun (s : FreeRtosSys W) : FreeRtosSys W × Option Status :=
  let port := s.world.port
  if port.config.rxStream.isNone ∨ port.config.txStream.isNone ∨ port.config.readChunkSize = 0 ∨
      port.config.readChunkSize > freertosMaxReadChunk ∨
      s.shell.sh.cfg.transport ≠ some port.transport then
    (s, some Status.errInvalidConfig)
  else if port.running then (s, some Status.errBusy)
  else (s.goto (·.setRunning true) .first, none)

/-- The shell task goes on to the next point of `sh_freertos_run`. -/
def runStep (app : FreeRtosApp W) (s : FreeRtosSys W) : FreeRtosSys W :=
  let stop := s.world.port.stopRequested
  match s.point with
  | .idle _ => s
  | .first => { s with point := if stop then .loop else .prompt }
  | .prompt => ⟨shPrompt (freertosEnv app) s.shell, .loop⟩
  | .loop => { s with point := if stop then .done else .receive }
  | .receive =>
    let r := s.world.rxStream.receive s.world.port.config.readChunkSize
    s.goto (fun w => { w with rxStream := r.1 }) (.recheck r.2)
  | .recheck chunk =>
    { s with point := if stop then .done else if chunk.length ≠ 0 then .deliver chunk else .loop }
  | .deliver chunk =>
    s.goto
      (fun w => w.count fun t =>
        { t with rxBytesDelivered := counterAdd t.rxBytesDelivered chunk.length })
      (.input chunk)
  | .input chunk =>
    let r := shInput (freertosEnv app) (s.goto (·.hand chunk) s.point).shell chunk
    ⟨r.1, if r.2 ≠ Status.ok then .failed r.2 else .loop⟩
  | .failed status =>
    s.goto
      (fun w => (w.count fun t => { t with rxErrors := counterAdd t.rxErrors 1 }).setRunning false)
      (.idle (some status))
  | .done => s.goto (·.setRunning false) (.idle (some Status.ok))

/-- One step of one context. -/
inductive FreeRtosAction (W : Type)
  /-- A task calls `sh_freertos_run`. -/
  | run
  /-- The shell task goes on. -/
  | task
  | other (action : PortAction W)

namespace FreeRtosSys

variable (app : FreeRtosApp W)

/-- What an action does. -/
def step (s : FreeRtosSys W) : FreeRtosAction W → FreeRtosSys W
  | .run => (shFreertosRun s).1
  | .task => runStep app s
  | .other action => s.goto (fun w => action.apply w) s.point

/-- What a sequence of actions does. -/
def run (s : FreeRtosSys W) (actions : List (FreeRtosAction W)) : FreeRtosSys W :=
  actions.foldl (step app) s

/-- A port after its initialization, before a byte was received. -/
structure Fresh (s : FreeRtosSys W) : Prop where
  init : ∃ config transport, shFreertosInit config transport = .ok s.world.port
  empty : s.world.rxStream.items = []
  accepted : s.world.accepted = []
  delivered : s.world.delivered = []
  point : s.point = .idle none

end FreeRtosSys

/-! ## What the shell does to the world -/

/-- A step of application code is a step of another context. -/
theorem FreeRtosAppCall.effect_of_toApiCall {P : FreeRtosWorld W → Prop}
    (haction : ∀ w (action : PortAction W), P w → P (action.apply w)) {call : FreeRtosAppCall W}
    {f : FreeRtosWorld W → FreeRtosWorld W} (hf : call.toApiCall = .effect f) {w : FreeRtosWorld W}
    (h : P w) : P (f w) := by
  cases call with
  | port action =>
    cases hf
    exact haction w action h
  | shell call =>
    cases call with
    | effect g =>
      cases hf
      exact haction w (.effect g) h
    | write data => cases hf
    | flush => cases hf
    | historyClear => cases hf
    | setEchoEnabled enabled => cases hf
    | registerCommands commands => cases hf
    | registerCommandSets sets => cases hf
    | start => cases hf
    | stop => cases hf

/-- **The shell** keeps what its output and the steps of other contexts keep. -/
theorem keepsWorld_of_port (app : FreeRtosApp W) {P : FreeRtosWorld W → Prop}
    (haction : ∀ w (action : PortAction W), P w → P (action.apply w))
    (hwrite : ∀ w data, P w → P (shFreertosTransportWrite app w data).1) :
    KeepsWorld (freertosEnv app) P where
  output := fun _ _ _ _ h => h
  write := by
    rintro t write w data hcallback h
    cases hcallback
    exact hwrite w data h
  flush := by
    rintro t flush w hcallback
    cases hcallback
  handler := by
    intro fn view w argv ctx f hf w' hw'
    obtain ⟨call, -, hcall⟩ := List.mem_map.mp hf
    exact FreeRtosAppCall.effect_of_toApiCall haction hcall hw'
  completion := by
    intro fn view w i j ctx f hf w' hw'
    obtain ⟨call, -, hcall⟩ := List.mem_map.mp hf
    exact FreeRtosAppCall.effect_of_toApiCall haction hcall hw'

/-! ## What other contexts and the shell do to the receive path -/

/-- Adding to a counter that saturates adds to the count it stands for. -/
private theorem counterAdd_min (n k : ℕ) :
    counterAdd (min uint32Max n) k = min uint32Max (n + k) := by
  unfold counterAdd
  split_ifs <;> omega

/-- The counter of enqueued bytes is right. -/
def FreeRtosWorld.EnqueuedExact (w : FreeRtosWorld W) : Prop :=
  w.port.stats.rxBytesEnqueued = min uint32Max w.accepted.length

/-- Between two worlds, bytes were added at the end of the receive stream, and nothing else happened
to the receive path. -/
structure Receives (w w' : FreeRtosWorld W) : Prop where
  bytes : ∃ t, w'.accepted = w.accepted ++ t ∧ w'.rxStream.items = w.rxStream.items ++ t
  delivered : w'.delivered = w.delivered
  counted : w'.port.stats.rxBytesDelivered = w.port.stats.rxBytesDelivered
  running : w'.port.running = w.port.running
  enqueued : w.EnqueuedExact → w'.EnqueuedExact

namespace Receives

/-- Nothing happened at all. -/
theorem refl (w : FreeRtosWorld W) : Receives w w :=
  ⟨⟨[], (List.append_nil _).symm, (List.append_nil _).symm⟩, rfl, rfl, rfl, id⟩

/-- One after the other. -/
theorem trans {a b c : FreeRtosWorld W} (h : Receives a b) (k : Receives b c) : Receives a c := by
  obtain ⟨t, haccepted, hitems⟩ := h.bytes
  obtain ⟨u, kaccepted, kitems⟩ := k.bytes
  refine ⟨⟨t ++ u, ?_, ?_⟩, ?_, ?_, ?_, fun hexact => k.enqueued (h.enqueued hexact)⟩
  · rw [kaccepted, haccepted, List.append_assoc]
  · rw [kitems, hitems, List.append_assoc]
  · rw [k.delivered, h.delivered]
  · rw [k.counted, h.counted]
  · rw [k.running, h.running]

/-- A change of anything but the receive path. -/
theorem of_eq {w w' : FreeRtosWorld W} (haccepted : w'.accepted = w.accepted)
    (hitems : w'.rxStream = w.rxStream) (hdelivered : w'.delivered = w.delivered)
    (hcounted : w'.port.stats.rxBytesDelivered = w.port.stats.rxBytesDelivered)
    (hrunning : w'.port.running = w.port.running)
    (henqueued : w'.port.stats.rxBytesEnqueued = w.port.stats.rxBytesEnqueued) :
    Receives w w' := by
  refine ⟨⟨[], ?_, ?_⟩, hdelivered, hcounted, hrunning, ?_⟩
  · rw [haccepted, List.append_nil]
  · rw [hitems, List.append_nil]
  · intro hexact
    unfold FreeRtosWorld.EnqueuedExact
    rw [henqueued, haccepted]
    exact hexact

/-- **The interrupt handler** adds at the end of the stream what the stream accepts.

**Proof sketch.** One case per branch. Bytes are counted as enqueued exactly when the stream accepts
them; the counters of drops and errors that a branch adds are not among those compared. -/
theorem rxFromIsr (w : FreeRtosWorld W) (data : CArray Byte) :
    Receives w (shFreertosRxFromIsr w data).1 := by
  have hsent : ∀ f : FreeRtosStats → FreeRtosStats,
      (∀ t, (f t).rxBytesDelivered = t.rxBytesDelivered) →
      (∀ t, (f t).rxBytesEnqueued =
        counterAdd t.rxBytesEnqueued (w.rxStream.accepts data.cells)) →
      Receives w ({ w with
        rxStream := w.rxStream.send data.cells
        accepted := w.accepted ++ data.cells.take (w.rxStream.accepts data.cells) }.count f) := by
    intro f hdelivered henqueued
    refine ⟨⟨data.cells.take (w.rxStream.accepts data.cells), rfl, rfl⟩, rfl, hdelivered _, rfl, ?_⟩
    intro hexact
    show (f w.port.stats).rxBytesEnqueued = _
    rw [henqueued, hexact, counterAdd_min]
    show _ = min uint32Max
      (w.accepted ++ data.cells.take (w.rxStream.accepts data.cells)).length
    rw [List.length_append, Fifo.length_take_accepts]
  unfold shFreertosRxFromIsr
  dsimp only
  split_ifs
  · exact of_eq rfl rfl rfl rfl rfl rfl
  · exact refl w
  · exact (hsent (fun s => { s with rxBytesEnqueued := counterAdd s.rxBytesEnqueued _ })
      (fun _ => rfl) fun _ => rfl).trans (of_eq rfl rfl rfl rfl rfl rfl)
  · exact hsent (fun s => { s with rxBytesEnqueued := counterAdd s.rxBytesEnqueued _ })
      (fun _ => rfl) fun _ => rfl

/-- A step of another context. -/
theorem action (w : FreeRtosWorld W) (action : PortAction W) : Receives w (action.apply w) := by
  cases action with
  | rxFromIsr data => exact rxFromIsr w data
  | requestStop => exact of_eq rfl rfl rfl rfl rfl rfl
  | clearStop =>
    show Receives w (shFreertosClearStop w).1
    unfold shFreertosClearStop
    split_ifs
    · exact refl w
    · exact of_eq rfl rfl rfl rfl rfl rfl
  | txReceive n => exact of_eq rfl rfl rfl rfl rfl rfl
  | effect f => exact of_eq rfl rfl rfl rfl rfl rfl

/-- Steps of other contexts. -/
theorem runActions (w : FreeRtosWorld W) (actions : List (PortAction W)) :
    Receives w (w.runActions actions) :=
  List.foldlRecOn (motive := Receives w) actions _ (refl w)
    fun w' hw' action' _ => hw'.trans (action w' action')

/-- Output of the shell. -/
theorem transportWrite (app : FreeRtosApp W) (w : FreeRtosWorld W) (data : List Byte) :
    Receives w (shFreertosTransportWrite app w data).1 := by
  unfold shFreertosTransportWrite
  dsimp only
  split_ifs
  · exact of_eq rfl rfl rfl rfl rfl rfl
  · exact refl w
  all_goals exact (runActions w _).trans (of_eq rfl rfl rfl rfl rfl rfl)

/-- The surroundings of the shell. -/
theorem keepsWorld (app : FreeRtosApp W) (w : FreeRtosWorld W) :
    KeepsWorld (freertosEnv app) (Receives w) :=
  keepsWorld_of_port app (fun w' action' h => h.trans (action w' action'))
    fun w' data h => h.trans (transportWrite app w' data)

end Receives

/-! ## The bytes of the receive path -/

namespace RunPoint

/-- The bytes taken from the stream and not yet handed over. -/
def pending : RunPoint → List Byte
  | .recheck chunk => chunk
  | .deliver chunk => chunk
  | .input chunk => chunk
  | _ => []

/-- The bytes counted as delivered and not yet handed over. -/
def counted : RunPoint → List Byte
  | .input chunk => chunk
  | _ => []

/-- No activation is running. -/
def Idle (p : RunPoint) : Prop := ∃ returned, p = .idle returned

end RunPoint

namespace FreeRtosSys

/-- The bytes handed over, those on their way to `sh_input` and those in the stream. -/
def held (s : FreeRtosSys W) : List Byte :=
  s.world.delivered ++ s.point.pending ++ s.world.rxStream.items

/-- What holds on every run: a loop that has not returned owns the port, and the counters are
right. -/
structure Consistent (s : FreeRtosSys W) : Prop where
  running : ¬s.point.Idle → s.world.port.running = true
  enqueued : s.world.EnqueuedExact
  counted : s.world.port.stats.rxBytesDelivered =
    min uint32Max (s.world.delivered.length + s.point.counted.length)

/-- **No accepted byte is lost**: what was handed over, followed by what is pending, is what the
stream accepted, and the counters differ by no more than what is pending. -/
structure Conserved (s : FreeRtosSys W) : Prop where
  bytes : s.held = s.world.accepted
  counters : s.world.port.stats.rxBytesEnqueued ≤
    s.world.port.stats.rxBytesDelivered + s.point.pending.length + s.world.rxStream.items.length

/-- The check behind a receive operation that returned bytes is the next step, and it finds the stop
flag set. -/
def Discards (s : FreeRtosSys W) : FreeRtosAction W → Prop
  | .task => s.world.port.stopRequested = true ∧ ∃ chunk, s.point = .recheck chunk ∧ chunk ≠ []
  | _ => False

variable (app : FreeRtosApp W)

/-- A step that leaves the bytes of the receive path alone but for new ones in the stream. -/
private theorem Consistent.receives {s : FreeRtosSys W} (h : s.Consistent) {w : FreeRtosWorld W}
    (hreceives : Receives s.world w) {shell : Sys (FreeRtosWorld W)} (hshell : shell.io = w)
    {point : RunPoint} (hidle : ¬point.Idle → ¬s.point.Idle)
    (hcounted : point.counted = s.point.counted) : Consistent ⟨shell, point⟩ := by
  subst hshell
  refine ⟨fun hpoint => ?_, hreceives.enqueued h.enqueued, ?_⟩
  · exact hreceives.running.trans (h.running (hidle hpoint))
  · show shell.io.port.stats.rxBytesDelivered =
      min uint32Max (shell.io.delivered.length + point.counted.length)
    rw [hreceives.counted, hreceives.delivered, hcounted]
    exact h.counted

/-- **Every action keeps a system consistent.**

**Proof sketch.** One case per action and, for the task, one per point of `sh_freertos_run`. Each
step is one access of the shared state, so the flag, the bytes enqueued and the bytes counted as
delivered change as `Receives` says or at the point that the step leaves. -/
theorem Consistent.step {s : FreeRtosSys W} (h : s.Consistent) (a : FreeRtosAction W) :
    (s.step app a).Consistent := by
  cases a with
  | run =>
    show (shFreertosRun s).1.Consistent
    unfold shFreertosRun
    dsimp only
    split_ifs with hconfig hrunning
    · exact h
    · exact h
    · have hidle : s.point.Idle := by
        by_contra hidle
        exact hrunning (h.running hidle)
      obtain ⟨returned, hpoint⟩ := hidle
      refine ⟨fun _ => rfl, h.enqueued, ?_⟩
      have hcounted := h.counted
      rw [hpoint] at hcounted
      exact hcounted
  | other action => exact h.receives (Receives.action s.world action) rfl id rfl
  | task =>
    obtain ⟨shell, point⟩ := s
    show (runStep app ⟨shell, point⟩).Consistent
    have hnot : ∀ p : RunPoint, (∀ returned, p ≠ .idle returned) → ¬p.Idle :=
      fun p hp ⟨returned, hreturned⟩ => hp returned hreturned
    cases point with
    | idle returned => exact h
    | first =>
      refine h.receives (Receives.refl _) rfl (fun _ => hnot _ fun _ => nofun) ?_
      show RunPoint.counted (if _ then _ else _) = _
      split_ifs <;> rfl
    | prompt =>
      refine h.receives ?_ rfl (fun _ => hnot _ fun _ => nofun) rfl
      exact (Receives.keepsWorld app shell.io).backendWrite shell.sh.cfg (Receives.refl _) _
    | loop =>
      refine h.receives (Receives.refl _) rfl (fun _ => hnot _ fun _ => nofun) ?_
      show RunPoint.counted (if _ then _ else _) = _
      split_ifs <;> rfl
    | receive =>
      exact ⟨fun _ => h.running (hnot _ fun _ => nofun), h.enqueued, h.counted⟩
    | recheck chunk =>
      refine h.receives (Receives.refl _) rfl (fun _ => hnot _ fun _ => nofun) ?_
      show RunPoint.counted (if _ then _ else if _ then _ else _) = _
      split_ifs <;> rfl
    | deliver chunk =>
      refine ⟨fun _ => h.running (hnot _ fun _ => nofun), h.enqueued, ?_⟩
      show counterAdd shell.io.port.stats.rxBytesDelivered chunk.length = _
      have hcounted : shell.io.port.stats.rxBytesDelivered = _ := h.counted
      rw [hcounted, counterAdd_min]
      rfl
    | input chunk =>
      have hhanded : Consistent ⟨{ shell with io := shell.io.hand chunk }, .loop⟩ := by
        refine ⟨fun _ => h.running (hnot _ fun _ => nofun), h.enqueued, ?_⟩
        show shell.io.port.stats.rxBytesDelivered =
          min uint32Max ((shell.io.delivered ++ chunk).length + 0)
        have hcounted : shell.io.port.stats.rxBytesDelivered = _ := h.counted
        rw [hcounted, List.length_append]
        rfl
      refine hhanded.receives ?_ rfl (fun _ => hnot _ fun _ => nofun) ?_
      · exact (Receives.keepsWorld app _).shInput (Receives.refl _) chunk
      · show RunPoint.counted (if _ then _ else _) = _
        split_ifs <;> rfl
    | failed status =>
      exact ⟨fun hpoint => absurd ⟨_, rfl⟩ hpoint, h.enqueued, h.counted⟩
    | done => exact ⟨fun hpoint => absurd ⟨_, rfl⟩ hpoint, h.enqueued, h.counted⟩

/-- From one system to another, the stream accepted some bytes, and these are held behind those held
before. -/
def Keeps (s s' : FreeRtosSys W) : Prop :=
  ∃ t, s'.world.accepted = s.world.accepted ++ t ∧ s'.held = s.held ++ t

/-- A step that hands nothing over keeps the bytes. -/
private theorem Keeps.of_receives {s : FreeRtosSys W} {w : FreeRtosWorld W} (h : Receives s.world w)
    {shell : Sys (FreeRtosWorld W)} (hshell : shell.io = w) {point : RunPoint}
    (hpending : point.pending = s.point.pending) : s.Keeps ⟨shell, point⟩ := by
  subst hshell
  obtain ⟨t, haccepted, hitems⟩ := h.bytes
  refine ⟨t, haccepted, ?_⟩
  show shell.io.delivered ++ point.pending ++ shell.io.rxStream.items = _
  rw [h.delivered, hpending, hitems, ← List.append_assoc]
  rfl

/-- The points at which a chunk can be discarded. -/
theorem Discards.point {s : FreeRtosSys W} {a : FreeRtosAction W} (h : s.Discards a) :
    a = .task ∧ s.world.port.stopRequested = true ∧
      ∃ chunk, s.point = .recheck chunk ∧ chunk ≠ [] := by
  cases a with
  | run => exact h.elim
  | task => exact ⟨rfl, h⟩
  | other action => exact h.elim

/-- An action that discards nothing keeps the bytes of the receive path.

**Proof sketch.** One case per action and point, as for `Consistent.step`. A chunk passes from the
stream to the call and from there to the shell; it is dropped only at the second look at the stop
flag, which `hkeep` excludes. -/
theorem Consistent.keeps {s : FreeRtosSys W} (h : s.Consistent) (a : FreeRtosAction W)
    (hkeep : ¬s.Discards a) : s.Keeps (s.step app a) := by
  cases a with
  | run =>
    show s.Keeps (shFreertosRun s).1
    unfold shFreertosRun
    dsimp only
    split_ifs with hconfig hrunning
    · exact .of_receives (Receives.refl _) rfl rfl
    · exact .of_receives (Receives.refl _) rfl rfl
    · have hidle : s.point.Idle := by
        by_contra hidle
        exact hrunning (h.running hidle)
      obtain ⟨returned, hpoint⟩ := hidle
      refine ⟨[], (List.append_nil _).symm, ?_⟩
      unfold held
      rw [hpoint, List.append_nil]
      rfl
  | other action => exact .of_receives (Receives.action s.world action) rfl rfl
  | task =>
    obtain ⟨shell, point⟩ := s
    show Keeps _ (runStep app ⟨shell, point⟩)
    cases point with
    | idle returned => exact .of_receives (Receives.refl _) rfl rfl
    | first =>
      refine .of_receives (Receives.refl _) rfl ?_
      show RunPoint.pending (if _ then _ else _) = _
      split_ifs <;> rfl
    | prompt =>
      refine .of_receives ?_ rfl rfl
      exact (Receives.keepsWorld app shell.io).backendWrite shell.sh.cfg (Receives.refl _) _
    | loop =>
      refine .of_receives (Receives.refl _) rfl ?_
      show RunPoint.pending (if _ then _ else _) = _
      split_ifs <;> rfl
    | receive =>
      refine ⟨[], (List.append_nil _).symm, ?_⟩
      show shell.io.delivered ++ (shell.io.rxStream.receive _).2 ++
        (shell.io.rxStream.receive _).1.items =
          shell.io.delivered ++ [] ++ shell.io.rxStream.items ++ []
      rw [List.append_assoc, Fifo.receive_append, List.append_nil, List.append_nil]
    | recheck chunk =>
      refine .of_receives (Receives.refl _) rfl ?_
      show RunPoint.pending (if shell.io.port.stopRequested = true then _ else _) = chunk
      have hnil : chunk.length = 0 → chunk = [] := List.length_eq_zero_iff.mp
      split_ifs with hstop hlength
      · by_contra hchunk
        exact hkeep ⟨hstop, chunk, rfl, fun hnil => hchunk (hnil ▸ rfl)⟩
      · rfl
      · rw [hnil (not_not.mp hlength)]
        rfl
    | deliver chunk => exact ⟨[], (List.append_nil _).symm, (List.append_nil _).symm⟩
    | input chunk =>
      have hinput : Receives (shell.io.hand chunk)
          (runStep app ⟨shell, .input chunk⟩).world := by
        show Receives _
          (shInput (freertosEnv app) { shell with io := shell.io.hand chunk } chunk).1.io
        refine KeepsWorld.shInput (P := Receives (shell.io.hand chunk))
          (Receives.keepsWorld app _) ?_ chunk
        exact Receives.refl _
      obtain ⟨t, haccepted, hitems⟩ := hinput.bytes
      have hpending : (runStep app ⟨shell, .input chunk⟩).point.pending = [] := by
        show RunPoint.pending (if _ then _ else _) = _
        split_ifs <;> rfl
      refine ⟨t, haccepted, ?_⟩
      unfold held
      rw [hinput.delivered, hitems, hpending, List.append_nil, ← List.append_assoc]
      rfl
    | failed status => exact ⟨[], (List.append_nil _).symm, (List.append_nil _).symm⟩
    | done => exact ⟨[], (List.append_nil _).symm, (List.append_nil _).symm⟩

/-- An action that discards a chunk leaves fewer bytes than the stream accepted. -/
theorem Discards.loses {s : FreeRtosSys W} {a : FreeRtosAction W} (h : s.Discards a) :
    (s.step app a).world.accepted = s.world.accepted ∧
      (s.step app a).held.length < s.held.length := by
  obtain ⟨rfl, hstop, chunk, hpoint, hchunk⟩ := h.point
  obtain ⟨shell, point⟩ := s
  subst hpoint
  have hdone : runStep app ⟨shell, .recheck chunk⟩ = ⟨shell, .done⟩ := by
    have hstop' : shell.io.port.stopRequested = true := hstop
    unfold runStep world
    dsimp only
    rw [if_pos hstop']
  show (runStep app ⟨shell, .recheck chunk⟩).world.accepted = _ ∧
    (runStep app ⟨shell, .recheck chunk⟩).held.length < _
  rw [hdone]
  refine ⟨rfl, ?_⟩
  show (shell.io.delivered ++ [] ++ shell.io.rxStream.items).length <
    (shell.io.delivered ++ chunk ++ shell.io.rxStream.items).length
  have hpos := List.length_pos_iff.mpr hchunk
  simp only [List.length_append, List.length_nil]
  omega

/-! ## Runs -/

/-- A fresh system is consistent. -/
theorem Fresh.consistent {s : FreeRtosSys W} (h : s.Fresh) : s.Consistent := by
  obtain ⟨config, transport, hinit⟩ := h.init
  unfold shFreertosInit at hinit
  split_ifs at hinit
  injection hinit with hport
  refine ⟨fun hidle => absurd ⟨none, h.point⟩ hidle, ?_, ?_⟩
  · unfold FreeRtosWorld.EnqueuedExact
    rw [← hport, h.accepted]
    rfl
  · rw [← hport, h.delivered, h.point]
    rfl

/-- Running one more action. -/
private theorem run_concat (s : FreeRtosSys W) (past : List (FreeRtosAction W))
    (a : FreeRtosAction W) :
    s.run app (past ++ [a]) = (s.run app past).step app a :=
  List.foldl_concat ..

/-- A run keeps a system consistent. -/
theorem Consistent.run {s : FreeRtosSys W} (h : s.Consistent) (actions : List (FreeRtosAction W)) :
    (s.run app actions).Consistent :=
  List.foldlRecOn (motive := Consistent) actions _ h fun _ hs a _ => hs.step app a

/-- In a consistent system that holds all accepted bytes the counters differ by no more than what
is pending. -/
theorem Consistent.conserved {s : FreeRtosSys W} (h : s.Consistent)
    (hbytes : s.held = s.world.accepted) : s.Conserved := by
  refine ⟨hbytes, ?_⟩
  have henqueued : s.world.port.stats.rxBytesEnqueued = _ := h.enqueued
  have hlength := congrArg List.length hbytes
  unfold held at hlength
  rw [List.length_append, List.length_append] at hlength
  rw [henqueued, h.counted]
  omega

/-- Before every action of a run, and at its end, all accepted bytes are held, if no action discards
a chunk. -/
private theorem Fresh.held_run {s : FreeRtosSys W} (h : s.Fresh) (actions : List (FreeRtosAction W))
    (hkeep : ∀ past a, past ++ [a] <+: actions → ¬(s.run app past).Discards a) :
    (s.run app actions).held = (s.run app actions).world.accepted := by
  induction actions using List.reverseRecOn with
  | nil =>
    show s.world.delivered ++ s.point.pending ++ s.world.rxStream.items = s.world.accepted
    rw [h.delivered, h.point, h.empty, h.accepted]
    rfl
  | append_singleton past a ih =>
    have hpast := ih fun past' a' hle => hkeep past' a' (hle.trans (List.prefix_append ..))
    have hstep := (h.consistent.run app past).keeps app a (hkeep past a List.prefix_rfl)
    obtain ⟨t, haccepted, hheld⟩ := hstep
    rw [run_concat, haccepted, hheld, hpast]

/-- **No accepted byte is lost** in any state of a run if and only if no activation finds the stop
flag set at its check right behind a receive operation that returned bytes.

**Proof sketch.** Every other step of every context keeps the handed over, the pending and the
stored bytes together in order; the discarding step drops the pending ones. -/
theorem conserved_iff_no_discard {s : FreeRtosSys W} (h : s.Fresh)
    (actions : List (FreeRtosAction W)) :
    (∀ past, past <+: actions → (s.run app past).Conserved) ↔
      ∀ past a, past ++ [a] <+: actions → ¬(s.run app past).Discards a := by
  constructor
  · intro hconserved past a hle hdiscards
    have hbefore := (hconserved past ((List.prefix_append ..).trans hle)).bytes
    have hafter := (hconserved (past ++ [a]) hle).bytes
    obtain ⟨haccepted, hlength⟩ := hdiscards.loses app
    rw [run_concat, haccepted, ← hbefore] at hafter
    rw [hafter] at hlength
    exact lt_irrefl _ hlength
  · intro hkeep past hle
    refine (h.consistent.run app past).conserved (h.held_run app past ?_)
    exact fun past' a hle' => hkeep past' a (hle'.trans hle)

end FreeRtosSys

/-- Application code that does nothing. -/
def idleFreeRtosApp : FreeRtosApp Unit where
  shouldMaskArg := fun _ _ _ _ _ => false
  handler := fun _ _ _ _ _ _ => ([], Status.ok)
  completion := fun _ _ _ _ _ _ _ => ([], none)
  duringWrite := fun _ => []

/-- The small shell on a port that receives four bytes at a time. -/
def smallFreeRtos : FreeRtosSys Unit :=
  ⟨⟨initialShell ({ smallConfig with write := none, transport := some 0 }.completed smallStorage)
      smallStorage,
    ⟨⟨⟨some 1, some 2, 10, 10, 4⟩, 0, false, false, ⟨0, 0, 0, 0, 0, 0, 0⟩⟩, .empty 16, .empty 16,
      (), [], []⟩, [], []⟩, .idle none⟩

/-- It is fresh. -/
private theorem smallFreeRtos_fresh : smallFreeRtos.Fresh :=
  ⟨⟨smallFreeRtos.world.port.config, 0, rfl⟩, rfl, rfl, rfl, rfl⟩

/-- A byte arrives, the loop starts, and it is asked to stop. -/
theorem conserved_iff_no_discard_small :
    (smallFreeRtos.run idleFreeRtosApp
      [.other (.rxFromIsr (.array [chr 'x'])), .run, .other .requestStop]).Conserved := by
  refine (FreeRtosSys.conserved_iff_no_discard idleFreeRtosApp smallFreeRtos_fresh _).mpr ?_ _
    List.prefix_rfl
  intro past a hle hdiscards
  obtain ⟨rfl, -⟩ := hdiscards.point
  have hmem := hle.subset (List.mem_append_right past (List.mem_singleton_self _))
  simp at hmem

/-- **A discarded chunk**: the stop request arrives between the receive operation and the check
behind it. -/
theorem not_conserved_small :
    smallFreeRtos.Fresh ∧
      ¬(smallFreeRtos.run idleFreeRtosApp
        [.run, .task, .task, .task, .other (.rxFromIsr (.array [chr 'x'])), .task,
          .other .requestStop, .task]).Conserved := by
  refine ⟨smallFreeRtos_fresh, ?_⟩
  rintro ⟨hbytes, -⟩
  revert hbytes
  decide +kernel

end PortableShell
