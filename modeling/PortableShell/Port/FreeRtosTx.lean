import PortableShell.Delivery
import PortableShell.Surroundings
import PortableShell.Port.FreeRtos

set_option relaxedAutoImplicit false
set_option autoImplicit false

/-!
# The UART shell under FreeRTOS

`freertos_uart_shell.c`: three contexts share a port. The shell task prints into the transmit
stream, the TX task moves what it finds there to a UART, which takes bytes in pieces or not at all,
and an interrupt handler fills the receive stream. What is printed reaches the UART in order
whatever the contexts do in between, and in bounded time once the TX task gets to run.

## Main definitions

* `PortableShell.UartHooks` — the hooks that the board support package implements.
* `PortableShell.appShellInit`, `appShellTxTask` — the functions of the source; the latter is one
  step of the loop, between two calls of a hook.
* `PortableShell.UartSys` — the shell task in such a world, and what the contexts do.
* `PortableShell.UartHooks.Honest`, `Wakes` — what the hooks are documented to do.
* `PortableShell.UartWorld.onTheWay` — what the UART has, and what is on its way there.

## Main results

* `PortableShell.uart_delivered` — what is on the way, over any run of an initialized application.
* `PortableShell.uart_drained` — how many steps the TX task needs to send what is on the way.
-/

namespace PortableShell

variable {W : Type}

/-! ## The application -/

/-- `APP_SHELL_RX_STREAM_BYTES`. -/
def appShellRxStreamBytes : ℕ := 256

/-- `APP_SHELL_TX_STREAM_BYTES`. -/
def appShellTxStreamBytes : ℕ := 512

/-- `APP_SHELL_IO_CHUNK_BYTES`. -/
def appShellIoChunkBytes : ℕ := 64

/-- `APP_SHELL_READ_TIMEOUT_TICKS`. -/
def appShellReadTimeoutTicks : ℕ := 20

/-- `APP_SHELL_WRITE_TIMEOUT_TICKS`. -/
def appShellWriteTimeoutTicks : ℕ := 20

/-- The buffers of an `app_shell_t`, cleared. -/
def appShellStorage : Storage where
  lineBuffer := .array (List.replicate (shMaxLineLen + 1) 0)
  argvBuffer := .array (List.replicate shMaxArgc none)
  historyBuffer := some (List.replicate (shHistoryDefaultDepth * (shMaxLineLen + 1)) 0)
  historyCapacity := shHistoryDefaultDepth
  historySlotSize := shMaxLineLen + 1
  draftBuffer := .array (List.replicate (shMaxLineLen + 1) 0)

/-- The configuration of the shell, which writes to the port. -/
def appShellConfig (transport : Ptr) : Config :=
  { shDefaultConfig with prompt := some (str "rtos> "), transport := some transport }

/-- `app_shell_init`: `rxStream` and `txStream` are what the creation of the streams returns. -/
def appShellInit (rxStream txStream : Option Ptr) (transport : Ptr) (commands : CArray Cmd) :
    Except Status (FreeRtosPort × Shell) :=
  if commands.isNull ∧ commands.count ≠ 0 then .error Status.errInvalidArg
  else if rxStream.isNone ∨ txStream.isNone then .error Status.errNoMemory
  else do
    let port ← shFreertosInit
      ⟨rxStream, txStream, appShellReadTimeoutTicks, appShellWriteTimeoutTicks,
        appShellIoChunkBytes⟩ transport
    let shell ← shInit (some (appShellConfig transport)) appShellStorage
    let r := shRegisterCommands shell commands
    if r.2 ≠ Status.ok then .error r.2 else .ok (port, r.1)

/-- The port and the shell that are set up, before the commands are registered. -/
def appShellPort (rxStream txStream transport : Ptr) : FreeRtosPort :=
  ⟨⟨some rxStream, some txStream, appShellReadTimeoutTicks, appShellWriteTimeoutTicks,
    appShellIoChunkBytes⟩, transport, false, false, ⟨0, 0, 0, 0, 0, 0, 0⟩⟩

@[inherit_doc appShellPort]
def appShell (transport : Ptr) : Shell :=
  initialShell ((appShellConfig transport).completed appShellStorage) appShellStorage

/-- The hooks of the board: `platform_shell_uart_write` returns how many bytes it took. -/
structure UartHooks (W : Type) where
  uartWrite : W → List Byte → W × ℕ
  uartWaitTxReady : W → W

/-- The points of `app_shell_tx_task` between two accesses to what other contexts share. -/
inductive TxPoint
  /-- Before the receive operation. -/
  | receive
  /-- The condition of the inner loop. -/
  | drain (data : List Byte) (offset : ℕ)
  /-- Before the call of the wait hook. -/
  | wait (data : List Byte) (offset : ℕ) (left : offset < data.length)

/-- The world of the port, and the point at which the TX task stands. -/
structure UartWorld (W : Type) where
  base : FreeRtosWorld W
  tx : TxPoint

/-- A step of a context other than the shell task. The TX task alone takes bytes from the transmit
stream. -/
inductive BoardAction (W : Type)
  /-- `app_shell_uart_rx_from_isr`. -/
  | rxFromIsr (data : CArray Byte)
  | requestStop
  | clearStop
  | txTask
  | effect (f : W → W)

/-- A use of the API by a handler or provider, or a step of another context meanwhile. -/
inductive UartAppCall (W : Type)
  | shell (call : ApiCall W)
  | board (action : BoardAction W)

/-- The application code. -/
structure UartApp (W : Type) where
  shouldMaskArg : Ptr → CStr → ℕ → CStr → Option Ptr → Bool
  handler : Ptr → View → FreeRtosPort → W → List CStr → Option Ptr → List (UartAppCall W) × Status
  completion : Ptr → View → FreeRtosPort → W → ℕ → ℕ → Option Ptr →
    List (UartAppCall W) × Option CStr
  /-- What other contexts do before and while the shell waits for space in the transmit stream. -/
  duringWrite : W → List (BoardAction W)

/-- Application code that does nothing, where no call of the shell is made. -/
def quietFreeRtosApp : FreeRtosApp W where
  shouldMaskArg := fun _ _ _ _ _ => false
  handler := fun _ _ _ _ _ _ => ([], Status.ok)
  completion := fun _ _ _ _ _ _ _ => ([], none)
  duringWrite := fun _ => []

namespace UartWorld

/-- Update the world of the port. -/
def onBase (f : FreeRtosWorld W → FreeRtosWorld W) (w : UartWorld W) : UartWorld W :=
  { w with base := f w.base }

/-- Update the board. -/
def onBoard (f : W → W) : UartWorld W → UartWorld W := onBase fun w => { w with app := f w.app }

end UartWorld

section Task

variable (hooks : UartHooks W)

/-- A step of `app_shell_tx_task`. It blocks while the transmit stream is empty. -/
def appShellTxTask (w : UartWorld W) : UartWorld W :=
  match w.tx with
  | .receive =>
    let r := w.base.txStream.receive appShellIoChunkBytes
    if r.2 = [] then w else ⟨{ w.base with txStream := r.1 }, .drain r.2 0⟩
  | .drain data offset =>
    if left : offset < data.length then
      let remaining := data.length - offset
      let r := hooks.uartWrite w.base.app (data.drop offset)
      ⟨{ w.base with app := r.1 },
        if r.2 = 0 ∨ r.2 > remaining then .wait data offset left else .drain data (offset + r.2)⟩
    else { w with tx := .receive }
  | .wait data offset _ =>
    ⟨{ w.base with app := hooks.uartWaitTxReady w.base.app }, .drain data offset⟩

/-- A step of another context. -/
def BoardAction.apply (w : UartWorld W) : BoardAction W → UartWorld W
  | .rxFromIsr data => w.onBase fun w => (shFreertosRxFromIsr w data).1
  | .requestStop => w.onBase shFreertosRequestStop
  | .clearStop => w.onBase fun w => (shFreertosClearStop w).1
  | .txTask => appShellTxTask hooks w
  | .effect f => w.onBoard f

/-- Steps of other contexts, in order. -/
def UartWorld.runActions (w : UartWorld W) (actions : List (BoardAction W)) : UartWorld W :=
  actions.foldl (BoardAction.apply hooks) w

/-- A use of the API of a shell, as its world sees it. -/
def UartAppCall.toApiCall : UartAppCall W → ApiCall (UartWorld W)
  | .board action => .effect fun w => action.apply hooks w
  | .shell call =>
    match call with
    | .write data => .write data
    | .flush => .flush
    | .historyClear => .historyClear
    | .setEchoEnabled enabled => .setEchoEnabled enabled
    | .registerCommands commands => .registerCommands commands
    | .registerCommandSets sets => .registerCommandSets sets
    | .start => .start
    | .stop => .stop
    | .effect f => .effect (UartWorld.onBoard f)

variable (app : UartApp W)

/-- `sh_freertos_transport_write`, with what other contexts do meanwhile. -/
def uartTransportWrite (w : UartWorld W) (data : List Byte) :
    UartWorld W × TransportStatus × ℕ :=
  let waited := w.runActions hooks (app.duringWrite w.base.app)
  let r := shFreertosTransportWrite quietFreeRtosApp waited.base data
  ({ waited with base := r.1 }, r.2)

/-- The surroundings of the shell. -/
def uartEnv : Env (UartWorld W) where
  output := fun _ _ w _ => w
  transport := fun _ => ⟨some (uartTransportWrite hooks app), none⟩
  shouldMaskArg := app.shouldMaskArg
  handler := fun fn view w argv ctx =>
    let r := app.handler fn view w.base.port w.base.app argv ctx
    (r.1.map (UartAppCall.toApiCall hooks), r.2)
  completion := fun fn view w argIndex index ctx =>
    let r := app.completion fn view w.base.port w.base.app argIndex index ctx
    (r.1.map (UartAppCall.toApiCall hooks), r.2)

/-! ## The contexts -/

/-- The shell task with the world around it. -/
structure UartSys (W : Type) where
  shell : Sys (UartWorld W)
  point : RunPoint

namespace UartSys

/-- The world around the shell. -/
def world (s : UartSys W) : UartWorld W := s.shell.io

/-- The shell task in the world of its port alone. -/
def port (s : UartSys W) : FreeRtosSys W := ⟨s.shell.withIo s.shell.io.base, s.point⟩

/-- What the shell task did to the world of its port and where it stands. -/
def put (s : UartSys W) (t : FreeRtosSys W) : UartSys W :=
  ⟨{ s.shell with io := { s.shell.io with base := t.world } }, t.point⟩

/-- `app_shell_task` goes on: the loop of `sh_freertos_run`, which calls the shell at two of its
points. -/
def task (s : UartSys W) : UartSys W :=
  match s.point with
  | .prompt => ⟨shPrompt (uartEnv hooks app) s.shell, .loop⟩
  | .input chunk =>
    let handed : Sys (UartWorld W) := { s.shell with io := s.shell.io.onBase (·.hand chunk) }
    let r := shInput (uartEnv hooks app) handed chunk
    ⟨r.1, if r.2 ≠ Status.ok then .failed r.2 else .loop⟩
  | _ => s.put (runStep quietFreeRtosApp s.port)

end UartSys

/-- One step of one context. -/
inductive UartAction (W : Type)
  /-- A task calls `app_shell_task`. -/
  | run
  /-- The shell task goes on. -/
  | task
  | other (action : BoardAction W)

/-- The TX task is to run. -/
def UartAction.isTxTask : UartAction W → Bool
  | .other .txTask => true
  | _ => false

namespace UartSys

/-- What an action does. -/
def step (s : UartSys W) : UartAction W → UartSys W
  | .run => s.put (shFreertosRun s.port).1
  | .task => s.task hooks app
  | .other action => ⟨{ s.shell with io := action.apply hooks s.shell.io }, s.point⟩

/-- What a sequence of actions does. -/
def run (s : UartSys W) (actions : List (UartAction W)) : UartSys W :=
  actions.foldl (step hooks app) s

/-- An application after its initialization, on a board in a given state. -/
def initial (port : FreeRtosPort) (shell : Shell) (board : W) : UartSys W :=
  ⟨⟨shell, ⟨⟨port, .empty appShellRxStreamBytes, .empty appShellTxStreamBytes, board, [], []⟩,
    .receive⟩, [], []⟩, .idle none⟩

end UartSys

end Task

/-! ## A small board -/

/-- A UART with a little room, which is made free by waiting. -/
structure SmallUart where
  sent : List Byte
  room : ℕ

/-- Its hooks. -/
def smallHooks : UartHooks SmallUart where
  uartWrite := fun w data =>
    (⟨w.sent ++ data.take (min data.length w.room), w.room - min data.length w.room⟩,
      min data.length w.room)
  uartWaitTxReady := fun w => { w with room := 4 }

/-- Application code that does nothing, while the TX task may run. -/
def smallUartApp : UartApp SmallUart where
  shouldMaskArg := fun _ _ _ _ _ => false
  handler := fun _ _ _ _ _ _ => ([], Status.ok)
  completion := fun _ _ _ _ _ _ _ => ([], none)
  duringWrite := fun _ => [.txTask]

/-- The application on this board, without commands of its own. -/
def smallUartSys : UartSys SmallUart :=
  .initial (appShellPort 1 2 0) ((appShell 0).setCommands []) ⟨[], 0⟩

/-- The prompt is printed and sent in two pieces. -/
def smallUartRun : List (UartAction SmallUart) :=
  [.run, .task, .task] ++ List.replicate 5 (.other .txTask)

/-! ## What the surroundings keep -/

/-- The application acts on the board in the ways of `E` only. -/
structure UartApp.ActsBy (app : UartApp W) (E : (W → W) → Prop) : Prop where
  handler : ∀ fn view port w argv ctx,
    (∀ f, .shell (.effect f) ∈ (app.handler fn view port w argv ctx).1 → E f) ∧
      ∀ f, .board (.effect f) ∈ (app.handler fn view port w argv ctx).1 → E f
  completion : ∀ fn view port w i j ctx,
    (∀ f, .shell (.effect f) ∈ (app.completion fn view port w i j ctx).1 → E f) ∧
      ∀ f, .board (.effect f) ∈ (app.completion fn view port w i j ctx).1 → E f
  duringWrite : ∀ w f, .effect f ∈ app.duringWrite w → E f

section Kept

variable {hooks : UartHooks W} {app : UartApp W} {E : (W → W) → Prop}

/-- What the world sees of a use of the API is a step of another context. -/
theorem UartAppCall.effect_of_toApiCall {call : UartAppCall W} {g : UartWorld W → UartWorld W}
    (h : call.toApiCall hooks = .effect g) (hshell : ∀ f, call = .shell (.effect f) → E f)
    (hboard : ∀ f, call = .board (.effect f) → E f) :
    ∃ action : BoardAction W, (∀ f, action = .effect f → E f) ∧
      g = fun w => action.apply hooks w := by
  cases call with
  | board action =>
    cases h
    exact ⟨action, fun f hf => hboard f (hf ▸ rfl), rfl⟩
  | shell call =>
    cases call with
    | effect f =>
      cases h
      refine ⟨.effect f, ?_, rfl⟩
      intro f' hf'
      cases hf'
      exact hshell f rfl
    | _ => cases h

/-- The surroundings act on the world as the contexts do. -/
theorem UartApp.ActsBy.env (h : app.ActsBy E) :
    (uartEnv hooks app).ActsBy fun g => ∃ action : BoardAction W,
      (∀ f, action = .effect f → E f) ∧ g = fun w => action.apply hooks w where
  handler := by
    intro fn view w argv ctx g hmem
    obtain ⟨call, hcall, heq⟩ := List.mem_map.mp hmem
    obtain ⟨hshell, hboard⟩ := h.handler fn view w.base.port w.base.app argv ctx
    exact UartAppCall.effect_of_toApiCall heq (fun f hf => hshell f (hf ▸ hcall))
      fun f hf => hboard f (hf ▸ hcall)
  completion := by
    intro fn view w i j ctx g hmem
    obtain ⟨call, hcall, heq⟩ := List.mem_map.mp hmem
    obtain ⟨hshell, hboard⟩ := h.completion fn view w.base.port w.base.app i j ctx
    exact UartAppCall.effect_of_toApiCall heq (fun f hf => hshell f (hf ▸ hcall))
      fun f hf => hboard f (hf ▸ hcall)

/-- What the contexts keep, the contexts that run during a write keep. -/
private theorem UartWorld.keeps_runActions {P : UartWorld W → Prop}
    (haction : ∀ action : BoardAction W, (∀ f, action = .effect f → E f) →
      ∀ w, P w → P (action.apply hooks w))
    {actions : List (BoardAction W)} (hactions : ∀ f, .effect f ∈ actions → E f) {w : UartWorld W}
    (hw : P w) : P (w.runActions hooks actions) := by
  refine List.foldlRecOn (motive := P) actions _ hw ?_
  intro w' hw' action hmem
  refine haction action ?_ w' hw'
  rintro f rfl
  exact hactions f hmem

/-- The steps of the shell task outside of the shell do not touch the transmit path. -/
structure FreeRtosWorld.SameTx (w w' : FreeRtosWorld W) : Prop where
  txStream : w'.txStream = w.txStream
  app : w'.app = w.app

/-- Entering the loop. -/
private theorem shFreertosRun_sameTx (s : FreeRtosSys W) :
    s.world.SameTx (shFreertosRun s).1.world := by
  unfold shFreertosRun
  dsimp only
  split_ifs
  all_goals exact ⟨rfl, rfl⟩

/-- The loop, at a point at which it does not call the shell. -/
private theorem runStep_sameTx (app : FreeRtosApp W) (shell : Sys (FreeRtosWorld W))
    {point : RunPoint} (hprompt : point ≠ .prompt) (hinput : ∀ chunk, point ≠ .input chunk) :
    shell.io.SameTx (runStep app ⟨shell, point⟩).world := by
  cases point with
  | prompt => exact absurd rfl hprompt
  | input chunk => exact absurd rfl (hinput chunk)
  | _ => exact ⟨rfl, rfl⟩

end Kept

/-! ## The hooks -/

/-- The hooks take a beginning of what they are offered and report how much: `sent` are the bytes
that the UART has. -/
structure UartHooks.Honest (hooks : UartHooks W) (sent : W → List Byte) : Prop where
  write : ∀ w data, (hooks.uartWrite w data).2 ≤ data.length ∧
    sent (hooks.uartWrite w data).1 = sent w ++ data.take (hooks.uartWrite w data).2
  wait : ∀ w, sent (hooks.uartWaitTxReady w) = sent w

/-- The wait hook returns when another write can make progress. -/
structure UartHooks.Wakes (hooks : UartHooks W) (Ready : W → Prop) : Prop where
  wait : ∀ w, Ready (hooks.uartWaitTxReady w)
  write : ∀ w data, Ready w → data ≠ [] → (hooks.uartWrite w data).2 ≠ 0

/-- What the TX task took from the stream and did not send yet. -/
def TxPoint.pending : TxPoint → List Byte
  | .receive => []
  | .drain data offset => data.drop offset
  | .wait data offset _ => data.drop offset

/-- What the UART has, followed by what the TX task holds and by the transmit stream. -/
def UartWorld.onTheWay (sent : W → List Byte) (w : UartWorld W) : List Byte :=
  sent w.base.app ++ w.tx.pending ++ w.base.txStream.items

section Delivered

variable {hooks : UartHooks W} {app : UartApp W} {sent : W → List Byte}

/-- **The TX task** moves bytes on, in order.

**Proof sketch.** One case per point and branch. A chunk passes from the stream to the task and from
there, piece by piece, to the UART, which reports what it takes, so the concatenation stays the
same. -/
theorem appShellTxTask_onTheWay (hH : hooks.Honest sent) (w : UartWorld W) :
    (appShellTxTask hooks w).onTheWay sent = w.onTheWay sent := by
  obtain ⟨base, tx⟩ := w
  cases tx with
  | receive =>
    unfold appShellTxTask
    dsimp only
    split_ifs with hempty
    · rfl
    · show sent base.app ++ (base.txStream.receive appShellIoChunkBytes).2.drop 0 ++
        (base.txStream.receive appShellIoChunkBytes).1.items = _
      rw [List.drop_zero, List.append_assoc, Fifo.receive_append]
      exact (congrArg (· ++ base.txStream.items) (List.append_nil _)).symm
  | drain data offset =>
    unfold appShellTxTask
    dsimp only
    obtain ⟨hle, hsent⟩ := hH.write base.app (data.drop offset)
    have hlength : (data.drop offset).length = data.length - offset := List.length_drop
    split_ifs with hleft hrefused
    · have hzero : (hooks.uartWrite base.app (data.drop offset)).2 = 0 :=
        hrefused.resolve_right (not_lt.mpr (hlength ▸ hle))
      rw [hzero, List.take_zero, List.append_nil] at hsent
      unfold UartWorld.onTheWay
      dsimp only
      rw [hsent]
      rfl
    · unfold UartWorld.onTheWay TxPoint.pending
      dsimp only
      rw [hsent, ← List.drop_drop, List.append_assoc (sent base.app), List.take_append_drop]
    · have hdone : data.drop offset = [] := List.drop_of_length_le (not_lt.mp hleft)
      unfold UartWorld.onTheWay TxPoint.pending
      dsimp only
      rw [hdone]
  | wait data offset left =>
    unfold UartWorld.onTheWay appShellTxTask
    dsimp only
    rw [hH.wait]
    rfl

/-- Every context keeps what is on the way.

**Proof sketch.** One case per action. Only the TX task moves bytes of the transmit path, and it
keeps them (`appShellTxTask_onTheWay`). -/
theorem BoardAction.onTheWay (hH : hooks.Honest sent) (action : BoardAction W)
    (heffect : ∀ f, action = .effect f → ∀ w, sent (f w) = sent w) (w : UartWorld W) :
    (action.apply hooks w).onTheWay sent = w.onTheWay sent := by
  have hport : ∀ base' : FreeRtosWorld W, w.base.SameTx base' →
      UartWorld.onTheWay sent { w with base := base' } = w.onTheWay sent := by
    intro base' h
    unfold UartWorld.onTheWay
    rw [h.txStream, h.app]
  cases action with
  | rxFromIsr data =>
    refine hport _ ?_
    unfold shFreertosRxFromIsr
    dsimp only
    split_ifs
    all_goals exact ⟨rfl, rfl⟩
  | requestStop => exact hport _ ⟨rfl, rfl⟩
  | clearStop =>
    refine hport _ ?_
    unfold shFreertosClearStop
    dsimp only
    split_ifs
    all_goals exact ⟨rfl, rfl⟩
  | txTask => exact appShellTxTask_onTheWay hH w
  | effect f =>
    show sent (f w.base.app) ++ _ ++ _ = _
    rw [heffect f rfl]
    rfl

/-- What a write of the shell does to the world of the port when no other context runs. -/
structure FreeRtosWorld.Written (w w' : FreeRtosWorld W) (data : List Byte) (n : ℕ) : Prop where
  le : n ≤ data.length
  items : w'.txStream.items = w.txStream.items ++ data.take n
  app : w'.app = w.app

/-- `sh_freertos_transport_write` reports what it puts into the stream. -/
private theorem shFreertosTransportWrite_written (w : FreeRtosWorld W) (data : List Byte) :
    w.Written (shFreertosTransportWrite quietFreeRtosApp w data).1 data
      (shFreertosTransportWrite quietFreeRtosApp w data).2.2 := by
  unfold shFreertosTransportWrite
  dsimp only
  split_ifs
  · exact ⟨Nat.zero_le _, (List.append_nil _).symm, rfl⟩
  · exact ⟨Nat.zero_le _, (List.append_nil _).symm, rfl⟩
  all_goals exact ⟨Nat.min_le_left _ _, rfl, rfl⟩

/-- The port reports what it puts on the way. -/
theorem UartApp.ActsBy.truthful (hA : app.ActsBy fun f => ∀ w, sent (f w) = sent w)
    (hH : hooks.Honest sent) (p : Ptr) :
    Truthful ((uartEnv hooks app).transport p) (UartWorld.onTheWay sent) where
  write := by
    intro write hwrite w data
    obtain rfl := Option.some.inj hwrite
    have hwaited : (w.runActions hooks (app.duringWrite w.base.app)).onTheWay sent =
        w.onTheWay sent :=
      UartWorld.keeps_runActions (P := fun w' => w'.onTheWay sent = w.onTheWay sent)
        (fun action hf w' hw' => (action.onTheWay hH hf w').trans hw') (hA.duringWrite _) rfl
    obtain ⟨hle, hitems, happ⟩ := shFreertosTransportWrite_written
      (w.runActions hooks (app.duringWrite w.base.app)).base data
    refine ⟨hle, ?_⟩
    rw [← hwaited]
    unfold UartWorld.onTheWay uartTransportWrite
    dsimp only
    rw [happ, hitems, ← List.append_assoc]
  flush := fun flush hflush => absurd hflush (Option.some_ne_none _).symm

/-- A step of the world keeps what is on the way. -/
abbrev KeepsTheWay (sent : W → List Byte) (g : UartWorld W → UartWorld W) : Prop :=
  ∀ w, (g w).onTheWay sent = w.onTheWay sent

/-- The surroundings keep what is on the way. -/
private theorem UartApp.ActsBy.keepsTheWay (hA : app.ActsBy fun f => ∀ w, sent (f w) = sent w)
    (hH : hooks.Honest sent) : (uartEnv hooks app).ActsBy (KeepsTheWay sent) where
  handler := by
    intro fn view w argv ctx g hg
    obtain ⟨action, hf, rfl⟩ := hA.env.handler fn view w argv ctx g hg
    exact action.onTheWay hH hf
  completion := by
    intro fn view w i j ctx g hg
    obtain ⟨action, hf, rfl⟩ := hA.env.completion fn view w i j ctx g hg
    exact action.onTheWay hH hf

namespace UartSys

/-- A step of the shell task outside of the shell prints nothing. -/
private theorem put_outputs (s : UartSys W) {t : FreeRtosSys W} (h : s.world.base.SameTx t.world) :
    Outputs (uartEnv hooks app) (KeepsTheWay sent) s.shell (s.put t).shell := by
  have hkeeps : KeepsTheWay sent fun w =>
      { w with base := { t.world with txStream := w.base.txStream, app := w.base.app } } :=
    fun w => rfl
  have hbase : { t.world with
      txStream := s.shell.io.base.txStream, app := s.shell.io.base.app } = t.world := by
    have htx : t.world.txStream = s.shell.io.base.txStream := h.txStream
    have happ : t.world.app = s.shell.io.base.app := h.app
    rw [← htx, ← happ]
  have hact : Outputs (uartEnv hooks app) (KeepsTheWay sent) s.shell _ :=
    (Outputs.refl s.shell).act hkeeps
  rw [hbase] at hact
  exact hact

/-- **Every context** prints, or keeps what is on the way. -/
theorem step_outputs (hA : app.ActsBy fun f => ∀ w, sent (f w) = sent w) (hH : hooks.Honest sent)
    (s : UartSys W) {a : UartAction W}
    (ha : ∀ f, a = .other (.effect f) → ∀ w, sent (f w) = sent w) :
    Outputs (uartEnv hooks app) (KeepsTheWay sent) s.shell (s.step hooks app a).shell := by
  cases a with
  | run => exact s.put_outputs (shFreertosRun_sameTx s.port)
  | other action =>
    refine (Outputs.refl s.shell).act (f := fun w => action.apply hooks w) (action.onTheWay hH ?_)
    rintro f rfl
    exact ha f rfl
  | task =>
    show Outputs _ _ s.shell (s.task hooks app).shell
    obtain ⟨shell, point⟩ := s
    cases point with
    | prompt => exact (Outputs.refl shell).shWrite _
    | input chunk =>
      have hhanded : Outputs (uartEnv hooks app) (KeepsTheWay sent) shell
          { shell with io := shell.io.onBase (·.hand chunk) } :=
        (Outputs.refl shell).act (f := UartWorld.onBase (·.hand chunk)) fun w => rfl
      have hinput : ∀ f, Op.input chunk = .api (.effect f) → KeepsTheWay sent f := nofun
      exact hhanded.apply (hA.keepsTheWay hH) hinput
    | _ => exact put_outputs ⟨shell, _⟩ (runStep_sameTx _ (shell.withIo shell.io.base) nofun nofun)

/-- A run. -/
theorem run_outputs (hA : app.ActsBy fun f => ∀ w, sent (f w) = sent w) (hH : hooks.Honest sent)
    (s : UartSys W) {actions : List (UartAction W)}
    (hactions : ∀ f, .other (.effect f) ∈ actions → ∀ w, sent (f w) = sent w) :
    Outputs (uartEnv hooks app) (KeepsTheWay sent) s.shell (s.run hooks app actions).shell := by
  refine List.foldlRecOn
    (motive := fun s' : UartSys W => Outputs _ (KeepsTheWay sent) s.shell s'.shell)
    actions _ (.refl _) ?_
  intro s' hs' a hmem
  refine hs'.trans (step_outputs hA hH s' ?_)
  rintro f rfl
  exact hactions f hmem

end UartSys

/-- The buffers of the application fit its configuration.

**Proof sketch.** The checks of `sh_init` are evaluated one by one; the lengths of the buffers are
stated first, so that nothing has to unfold them. -/
private theorem shInit_appShell (transport : Ptr) :
    shInit (some (appShellConfig transport)) appShellStorage = .ok (appShell transport) := by
  have hline : appShellStorage.lineBuffer.count = shMaxLineLen + 1 := List.length_replicate
  have hargv : appShellStorage.argvBuffer.count = shMaxArgc := List.length_replicate
  have hdraft : appShellStorage.draftBuffer.count = shMaxLineLen + 1 := List.length_replicate
  have hnull : ¬(appShellStorage.lineBuffer.isNull ∨ appShellStorage.lineBuffer.count = 0 ∨
      appShellStorage.argvBuffer.isNull ∨ appShellStorage.argvBuffer.count = 0) := by
    rw [hline, hargv]
    decide
  have hfits : ((appShellConfig transport).completed appShellStorage).buffersFit
      appShellStorage = true := by
    unfold Config.buffersFit Config.completed
    dsimp only
    rw [hline, hargv]
    rfl
  have hhistory : ((appShellConfig transport).completed appShellStorage).historyFits
      appShellStorage = true := by
    unfold Config.historyFits Config.completed
    dsimp only
    rw [hline, hargv, hdraft]
    rfl
  unfold shInit effectiveConfig
  rw [if_neg hnull]
  dsimp only
  rw [hfits, hhistory]
  rfl

/-- **The initialization** fails only when a stream cannot be created or the table of commands is
not accepted: the values of the application pass the other checks. -/
theorem appShellInit_eq (rxStream txStream transport : Ptr) (commands : CArray Cmd) :
    appShellInit (some rxStream) (some txStream) transport commands =
      if (shRegisterCommands (appShell transport) commands).2 ≠ Status.ok then
        .error (shRegisterCommands (appShell transport) commands).2
      else .ok (appShellPort rxStream txStream transport,
        (shRegisterCommands (appShell transport) commands).1) := by
  by_cases hnull : commands.isNull ∧ commands.count ≠ 0
  · have hrejected : shRegisterCommands (appShell transport) commands =
        (appShell transport, Status.errInvalidArg) := by
      unfold shRegisterCommands
      rw [if_pos hnull]
    unfold appShellInit
    rw [if_pos hnull, hrejected]
    rfl
  · have hstreams : ¬((some rxStream).isNone ∨ (some txStream).isNone) := by simp
    unfold appShellInit
    rw [if_neg hnull, if_neg hstreams, shInit_appShell]
    rfl

/-- The shell of an initialized application writes to the port. -/
private theorem appShellInit_transport {rxStream txStream : Option Ptr} {transport : Ptr}
    {commands : CArray Cmd} {port : FreeRtosPort} {shell : Shell}
    (h : appShellInit rxStream txStream transport commands = .ok (port, shell)) :
    shell.cfg.transport = some transport := by
  by_cases hstreams : rxStream.isNone ∨ txStream.isNone
  · unfold appShellInit at h
    rw [if_pos hstreams] at h
    split_ifs at h
  · obtain ⟨hrx, htx⟩ := not_or.mp hstreams
    obtain ⟨rx, rfl⟩ := Option.ne_none_iff_exists'.mp (mt Option.isNone_iff_eq_none.mpr hrx)
    obtain ⟨tx, rfl⟩ := Option.ne_none_iff_exists'.mp (mt Option.isNone_iff_eq_none.mpr htx)
    rw [appShellInit_eq] at h
    split_ifs at h
    obtain ⟨-, rfl⟩ := Prod.mk.inj (Except.ok.inj h)
    rw [(ShellStep.commands (appShell transport) commands).sameSetup.cfg]
    rfl

/-- **The transmit path.** Whatever the shell task, the TX task, the interrupt handler and other
tasks do, in any order: what the UART has, followed by what the TX task holds and by the transmit
stream, is a beginning of each text that was printed, in order, and nothing else. -/
theorem uart_delivered (hH : hooks.Honest sent)
    (hA : app.ActsBy fun f => ∀ w, sent (f w) = sent w) {rxStream txStream : Option Ptr}
    {transport : Ptr} {commands : CArray Cmd} {port : FreeRtosPort} {shell : Shell}
    (hinit : appShellInit rxStream txStream transport commands = .ok (port, shell)) (board : W)
    {actions : List (UartAction W)}
    (hactions : ∀ f, .other (.effect f) ∈ actions → ∀ w, sent (f w) = sent w)
    {s : UartSys W} (hs : s = (UartSys.initial port shell board).run hooks app actions) :
    ∃ taken, List.Forall₂ (· <+: ·) taken (outputTexts s.shell.trace) ∧
      s.world.onTheWay sent = sent board ++ taken.flatten := by
  subst hs
  have hcfg : (UartSys.initial port shell board).shell.sh.cfg.transport = some transport :=
    appShellInit_transport hinit
  have hdelivers := (hA.truthful hH transport).delivers hcfg (E := KeepsTheWay sent) fun _ hf => hf
  have hsteps := (UartSys.run_outputs hA hH (UartSys.initial port shell board) hactions).steps
  obtain ⟨-, texts, taken, htexts, hall, hsent⟩ := hdelivers.steps hsteps trivial
  refine ⟨taken, ?_, ?_⟩
  · have htexts' : outputTexts ((UartSys.initial port shell board).run hooks app
        actions).shell.trace = [] ++ texts := htexts
    rw [htexts']
    exact hall
  · refine hsent.trans (congrArg (· ++ taken.flatten) ?_)
    show sent board ++ [] ++ [] = sent board
    rw [List.append_nil, List.append_nil]

/-- The hooks of the small board are honest. -/
private theorem honest_small : smallHooks.Honest SmallUart.sent where
  write := fun _ _ => ⟨Nat.min_le_left _ _, rfl⟩
  wait := fun _ => rfl

/-- The application on the small board has no effects. -/
private theorem smallUartApp_actsBy (E : (SmallUart → SmallUart) → Prop) :
    smallUartApp.ActsBy E where
  handler := fun _ _ _ _ _ _ => ⟨nofun, nofun⟩
  completion := fun _ _ _ _ _ _ _ => ⟨nofun, nofun⟩
  duringWrite := fun w f h => by cases List.mem_singleton.mp h

/-- There are no effects in the small run. -/
private theorem effect_notMem_smallUartRun {f : SmallUart → SmallUart} :
    .other (.effect f) ∉ smallUartRun := by
  intro hf
  rcases List.mem_append.mp hf with hf | hf
  · simp at hf
  · cases List.eq_of_mem_replicate hf

/-- What is on the way on the small board. -/
theorem uart_delivered_small :
    ∃ taken, List.Forall₂ (· <+: ·) taken
        (outputTexts (smallUartSys.run smallHooks smallUartApp smallUartRun).shell.trace) ∧
      (smallUartSys.run smallHooks smallUartApp smallUartRun).world.onTheWay SmallUart.sent =
        [] ++ taken.flatten :=
  uart_delivered honest_small (smallUartApp_actsBy _)
    ((appShellInit_eq 1 2 0 (.array [])).trans (if_neg (not_not.mpr rfl))) ⟨[], 0⟩
    (fun _ hf => absurd hf effect_notMem_smallUartRun) rfl

end Delivered

/-! ## Progress -/

/-- With at most `n` steps of the TX task, the UART has `goal` bytes: a step of the task either
sends a byte or brings the task nearer to sending one. -/
def UartWorld.Within (sent : W → List Byte) (Ready : W → Prop) (goal n : ℕ) (w : UartWorld W) :
    Prop :=
  goal ≤ (sent w.base.app).length ∨
    match w.tx with
    | .receive => 5 * (goal - (sent w.base.app).length) + 4 ≤ n
    | .drain data offset =>
      if offset < data.length then
        5 * (goal - (sent w.base.app).length) + 3 ≤ n ∨
          Ready w.base.app ∧ 5 * (goal - (sent w.base.app).length) + 1 ≤ n
      else 5 * (goal - (sent w.base.app).length) + 5 ≤ n
    | .wait _ _ _ => 5 * (goal - (sent w.base.app).length) + 2 ≤ n

/-- Enough steps, wherever the TX task stands. -/
private theorem UartWorld.Within.of_le {sent : W → List Byte} {Ready : W → Prop} {goal n : ℕ}
    {w : UartWorld W} (h : 5 * (goal - (sent w.base.app).length) + 5 ≤ n) :
    w.Within sent Ready goal n := by
  refine .inr ?_
  cases w.tx with
  | receive => exact le_trans (Nat.le_succ _) h
  | drain data offset =>
    show if offset < data.length then _ else _
    split_ifs
    · exact .inl (le_trans (Nat.add_le_add_left (by decide) _) h)
    · exact h
  | wait data offset left => exact le_trans (Nat.add_le_add_left (by decide) _) h

/-- What the UART is to have is on the way, and the TX task needs at most `n` steps to send it. -/
structure UartWorld.Drains (sent : W → List Byte) (Ready : W → Prop) (goal : List Byte) (n : ℕ)
    (w : UartWorld W) : Prop where
  onTheWay : goal <+: w.onTheWay sent
  within : w.Within sent Ready goal.length n

section Drained

variable {hooks : UartHooks W} {app : UartApp W} {sent : W → List Byte} {Ready : W → Prop}
  {goal : List Byte} {n : ℕ}

/-- What another context may do to the board: it leaves the UART to the TX task. -/
structure LeavesUart (sent : W → List Byte) (Ready : W → Prop) (f : W → W) : Prop where
  sent : ∀ w, sent (f w) = sent w
  ready : ∀ w, Ready w → Ready (f w)

/-- A step at the receive operation. -/
private theorem receive_within {m : ℕ} {base : FreeRtosWorld W}
    (hlength : m ≤ (sent base.app).length + base.txStream.items.length)
    (h : UartWorld.Within sent Ready m (n + 1) ⟨base, .receive⟩) :
    (appShellTxTask hooks ⟨base, .receive⟩).Within sent Ready m n := by
  have hitems : (base.txStream.receive appShellIoChunkBytes).2 =
      base.txStream.items.take appShellIoChunkBytes := rfl
  unfold appShellTxTask
  dsimp only
  by_cases hempty : (base.txStream.receive appShellIoChunkBytes).2 = []
  · -- nothing is left, so everything was sent
    rw [if_pos hempty]
    rw [hitems, List.take_eq_nil_iff] at hempty
    have hnil : base.txStream.items = [] := hempty.resolve_left (by decide)
    rw [hnil, List.length_nil] at hlength
    exact .inl hlength
  · rw [if_neg hempty]
    refine h.imp_right fun hn => ?_
    show if 0 < (base.txStream.receive appShellIoChunkBytes).2.length then _ else _
    rw [if_pos (List.length_pos_iff.mpr hempty)]
    exact .inl (Nat.le_of_succ_le_succ hn)

/-- A step in the inner loop.

**Proof sketch.** While bytes are left, a UART that takes some makes the number of bytes to go
smaller. One that takes none was not ready, so the step to the wait hook is the one that the bound
has in reserve. Behind the last byte the task goes back to the stream. -/
private theorem drain_within (hH : hooks.Honest sent) (hR : hooks.Wakes Ready) {m : ℕ}
    {base : FreeRtosWorld W} {data : List Byte} {offset : ℕ}
    (h : UartWorld.Within sent Ready m (n + 1) ⟨base, .drain data offset⟩) :
    (appShellTxTask hooks ⟨base, .drain data offset⟩).Within sent Ready m n := by
  obtain ⟨hle, hsent⟩ := hH.write base.app (data.drop offset)
  have hdrop : (data.drop offset).length = data.length - offset := List.length_drop
  have hmore := congrArg List.length hsent
  rw [List.length_append, List.length_take, min_eq_left hle] at hmore
  unfold appShellTxTask
  dsimp only
  by_cases hleft : offset < data.length
  · rw [dif_pos hleft]
    rcases h with hdone | hn
    · refine .inl (hdone.trans ?_)
      dsimp only
      omega
    · have hn' : 5 * (m - (sent base.app).length) + 3 ≤ n + 1 ∨
          Ready base.app ∧ 5 * (m - (sent base.app).length) + 1 ≤ n + 1 := by
        dsimp only at hn
        rwa [if_pos hleft] at hn
      by_cases hrefused : (hooks.uartWrite base.app (data.drop offset)).2 = 0
      · -- the UART is not ready, so the task goes to the wait hook
        have hslow := hn'.resolve_right fun hready =>
          hR.write base.app (data.drop offset) hready.1
            (List.ne_nil_of_length_pos (by omega)) hrefused
        rw [if_pos (Or.inl hrefused)]
        refine .inr ?_
        dsimp only
        omega
      · rw [if_neg (not_or.mpr ⟨hrefused, not_lt.mpr (hdrop ▸ hle)⟩)]
        by_cases hdone : m ≤ (sent (hooks.uartWrite base.app (data.drop offset)).1).length
        · exact .inl hdone
        · refine .of_le ?_
          dsimp only
          omega
  · rw [dif_neg hleft]
    refine h.imp_right fun hn => ?_
    dsimp only at hn ⊢
    rw [if_neg hleft] at hn
    omega

/-- **A step of the TX task** is progress. -/
theorem appShellTxTask_drains (hH : hooks.Honest sent) (hR : hooks.Wakes Ready) {w : UartWorld W}
    (h : w.Drains sent Ready goal (n + 1)) : (appShellTxTask hooks w).Drains sent Ready goal n := by
  have hway : goal <+: (appShellTxTask hooks w).onTheWay sent := by
    rw [appShellTxTask_onTheWay hH]
    exact h.onTheWay
  refine ⟨hway, ?_⟩
  have hlength := h.onTheWay.length_le
  have hwithin := h.within
  obtain ⟨base, tx⟩ := w
  cases tx with
  | receive =>
    refine receive_within ?_ hwithin
    unfold UartWorld.onTheWay at hlength
    rw [List.length_append, List.length_append] at hlength
    exact hlength
  | drain data offset => exact drain_within hH hR hwithin
  | wait data offset left =>
    have hwait := hH.wait base.app
    unfold appShellTxTask
    unfold UartWorld.Within at hwithin ⊢
    dsimp only at hwithin ⊢
    rw [hwait, if_pos left]
    exact hwithin.imp_right fun hn => .inr ⟨hR.wait _, by omega⟩

/-- More steps. -/
theorem UartWorld.Within.mono {m k l : ℕ} {w : UartWorld W} (h : w.Within sent Ready m k)
    (hle : k ≤ l) : w.Within sent Ready m l := by
  refine h.imp_right ?_
  cases w.tx with
  | receive => exact fun hk => hk.trans hle
  | wait data offset left => exact fun hk => hk.trans hle
  | drain data offset =>
    dsimp only
    split_ifs
    · exact Or.imp (fun hk => hk.trans hle) fun hk => ⟨hk.1, hk.2.trans hle⟩
    · exact fun hk => hk.trans hle

/-- Without steps to go, the UART has what it is to have. -/
theorem UartWorld.Within.done {m : ℕ} {w : UartWorld W} (h : w.Within sent Ready m 0) :
    m ≤ (sent w.base.app).length := by
  refine h.resolve_right ?_
  cases w.tx with
  | receive => exact Nat.not_succ_le_zero _
  | wait data offset left => exact Nat.not_succ_le_zero _
  | drain data offset =>
    dsimp only
    split_ifs
    · rintro (hn | ⟨-, hn⟩)
      · exact Nat.not_succ_le_zero _ hn
      · exact Nat.not_succ_le_zero _ hn
    · exact Nat.not_succ_le_zero _

/-- A step of the port beside the transmit path. -/
private theorem UartWorld.Drains.of_sameTx {w : UartWorld W} (h : w.Drains sent Ready goal n)
    {base : FreeRtosWorld W} (hbase : w.base.SameTx base) :
    UartWorld.Drains sent Ready goal n { w with base := base } := by
  obtain ⟨hway, hwithin⟩ := h
  constructor
  · unfold UartWorld.onTheWay at hway ⊢
    rw [hbase.txStream, hbase.app]
    exact hway
  · unfold UartWorld.Within at hwithin ⊢
    rw [hbase.app]
    exact hwithin

/-- **Another context** does not set the TX task back.

**Proof sketch.** One case per action. The other contexts leave the transmit path alone, the
application leaves the UART as it is, and a step of the TX task counts down. -/
theorem BoardAction.drains (hH : hooks.Honest sent) (hR : hooks.Wakes Ready)
    (action : BoardAction W) (heffect : ∀ f, action = .effect f → LeavesUart sent Ready f)
    (w : UartWorld W) (h : w.Drains sent Ready goal n) :
    (action.apply hooks w).Drains sent Ready goal n := by
  cases action with
  | rxFromIsr data =>
    refine h.of_sameTx ?_
    unfold shFreertosRxFromIsr
    dsimp only
    split_ifs
    all_goals exact ⟨rfl, rfl⟩
  | requestStop => exact h.of_sameTx ⟨rfl, rfl⟩
  | clearStop =>
    refine h.of_sameTx ?_
    unfold shFreertosClearStop
    dsimp only
    split_ifs
    all_goals exact ⟨rfl, rfl⟩
  | txTask => exact appShellTxTask_drains hH hR ⟨h.onTheWay, h.within.mono (Nat.le_succ n)⟩
  | effect f =>
    obtain ⟨hsent, hready⟩ := heffect f rfl
    refine ⟨?_, ?_⟩
    · rw [(BoardAction.effect f).onTheWay hH]
      · exact h.onTheWay
      · intro f' hf'
        cases hf'
        exact hsent
    · have hwithin := h.within
      show _ ∨ _
      unfold UartWorld.Within at hwithin
      dsimp only [BoardAction.apply, UartWorld.onBoard, UartWorld.onBase]
      rw [hsent]
      refine hwithin.imp_right ?_
      cases w.tx with
      | receive => exact id
      | wait data offset left => exact id
      | drain data offset =>
        dsimp only
        split_ifs
        · exact Or.imp_right (And.imp_left (hready _))
        · exact id

/-- Output of the shell does not set the TX task back. -/
private theorem uartTransportWrite_drains (hA : app.ActsBy (LeavesUart sent Ready))
    (hH : hooks.Honest sent) (hR : hooks.Wakes Ready) {w : UartWorld W} (data : List Byte)
    (h : w.Drains sent Ready goal n) :
    (uartTransportWrite hooks app w data).1.Drains sent Ready goal n := by
  obtain ⟨hway, hwithin⟩ := UartWorld.keeps_runActions
    (P := fun w' => w'.Drains sent Ready goal n)
    (fun action hf w' hw' => action.drains hH hR hf w' hw') (hA.duringWrite w.base.app) h
  obtain ⟨-, hitems, happ⟩ := shFreertosTransportWrite_written
    (w.runActions hooks (app.duringWrite w.base.app)).base data
  unfold uartTransportWrite
  dsimp only
  constructor
  · unfold UartWorld.onTheWay at hway ⊢
    rw [happ, hitems, ← List.append_assoc]
    exact hway.trans (List.prefix_append ..)
  · unfold UartWorld.Within at hwithin ⊢
    rw [happ]
    exact hwithin

/-- The surroundings do not set the TX task back. -/
private theorem keepsWorld_drains (hA : app.ActsBy (LeavesUart sent Ready)) (hH : hooks.Honest sent)
    (hR : hooks.Wakes Ready) :
    KeepsWorld (uartEnv hooks app) fun w => w.Drains sent Ready goal n where
  output := fun _ _ _ _ h => h
  write := by
    rintro t write w data hcallback h
    obtain rfl := Option.some.inj hcallback
    exact uartTransportWrite_drains hA hH hR data h
  flush := fun t flush w hcallback => absurd hcallback (Option.some_ne_none _).symm
  handler := by
    intro fn view w argv ctx g hg w' h
    obtain ⟨action, hf, rfl⟩ := hA.env.handler fn view w argv ctx g hg
    exact action.drains hH hR hf w' h
  completion := by
    intro fn view w i j ctx g hg w' h
    obtain ⟨action, hf, rfl⟩ := hA.env.completion fn view w i j ctx g hg
    exact action.drains hH hR hf w' h

namespace UartSys

/-- No context sets the TX task back. -/
private theorem step_drains (hA : app.ActsBy (LeavesUart sent Ready)) (hH : hooks.Honest sent)
    (hR : hooks.Wakes Ready) {s : UartSys W} {a : UartAction W}
    (ha : ∀ f, a = .other (.effect f) → LeavesUart sent Ready f)
    (h : s.world.Drains sent Ready goal n) :
    (s.step hooks app a).world.Drains sent Ready goal n := by
  cases a with
  | run => exact h.of_sameTx (shFreertosRun_sameTx s.port)
  | other action =>
    refine action.drains hH hR ?_ s.world h
    rintro f rfl
    exact ha f rfl
  | task =>
    have hkeeps : KeepsWorld (uartEnv hooks app) fun w => w.Drains sent Ready goal n :=
      keepsWorld_drains hA hH hR
    show (s.task hooks app).world.Drains sent Ready goal n
    obtain ⟨shell, point⟩ := s
    cases point with
    | prompt => exact hkeeps.toKeepsOutput.backendWrite _ h _
    | input chunk =>
      refine hkeeps.shInput ?_ chunk
      have hhanded : shell.io.base.SameTx (shell.io.base.hand chunk) := ⟨rfl, rfl⟩
      exact h.of_sameTx hhanded
    | _ => exact h.of_sameTx (runStep_sameTx _ (shell.withIo shell.io.base) nofun nofun)

/-- **A run**: each step of the TX task counts.

**Proof sketch.** Induction on the actions. A step of the TX task uses up one of the number
(`appShellTxTask_drains`), and any other action none (`step_drains`). -/
theorem run_drains (hA : app.ActsBy (LeavesUart sent Ready)) (hH : hooks.Honest sent)
    (hR : hooks.Wakes Ready) {actions : List (UartAction W)}
    (hactions : ∀ f, .other (.effect f) ∈ actions → LeavesUart sent Ready f) {s : UartSys W}
    (h : s.world.Drains sent Ready goal (n + actions.countP UartAction.isTxTask)) :
    (s.run hooks app actions).world.Drains sent Ready goal n := by
  induction actions generalizing s with
  | nil => exact h
  | cons a actions ih =>
    refine ih (fun f hf => hactions f (List.mem_cons_of_mem a hf)) ?_
    rw [List.countP_cons] at h
    by_cases htx : a.isTxTask = true
    · rw [if_pos htx, ← Nat.add_assoc] at h
      obtain rfl : a = .other .txTask := by
        cases a with
        | run => cases htx
        | task => cases htx
        | other action =>
          cases action with
          | txTask => rfl
          | _ => cases htx
      exact appShellTxTask_drains hH hR h
    · rw [if_neg htx, Nat.add_zero] at h
      refine step_drains hA hH hR ?_ h
      rintro f rfl
      exact hactions f List.mem_cons_self

end UartSys

/-- **Nothing waits for ever.** From any state, once the TX task has made five steps for each byte
that it holds or that is in the transmit stream, and five more, the UART has all of these bytes in
order, whatever the other contexts do between the steps of the task and however much the shell
prints meanwhile. -/
theorem uart_drained (hH : hooks.Honest sent) (hR : hooks.Wakes Ready)
    (hA : app.ActsBy (LeavesUart sent Ready)) (s : UartSys W) {actions : List (UartAction W)}
    (hactions : ∀ f, .other (.effect f) ∈ actions → LeavesUart sent Ready f)
    (hsteps : 5 * (s.world.tx.pending.length + s.world.base.txStream.items.length + 1) ≤
      actions.countP UartAction.isTxTask) :
    s.world.onTheWay sent <+: sent (s.run hooks app actions).world.base.app := by
  have hlength : (s.world.onTheWay sent).length = (sent s.world.base.app).length +
      s.world.tx.pending.length + s.world.base.txStream.items.length := by
    rw [UartWorld.onTheWay, List.length_append, List.length_append]
  have hstart : s.world.Drains sent Ready (s.world.onTheWay sent)
      (0 + actions.countP UartAction.isTxTask) := by
    refine ⟨List.prefix_rfl, .of_le ?_⟩
    rw [hlength]
    omega
  obtain ⟨hway, hwithin⟩ := UartSys.run_drains hA hH hR hactions hstart
  refine List.prefix_of_prefix_length_le hway ?_ hwithin.done
  unfold UartWorld.onTheWay
  rw [List.append_assoc]
  exact List.prefix_append ..

/-- The small board gets ready by waiting. -/
private theorem wakes_small : smallHooks.Wakes fun w => w.room ≠ 0 where
  wait := fun _ => Nat.succ_ne_zero 3
  write := by
    intro w data hready hdata
    have hlength := List.length_pos_iff.mpr hdata
    show min data.length w.room ≠ 0
    omega

/-- The application on the small board, with two bytes in the transmit stream. -/
def filledUartSys : UartSys SmallUart :=
  ⟨{ smallUartSys.shell with io := smallUartSys.shell.io.onBase fun w =>
      { w with txStream := w.txStream.send [chr 'o', chr 'k'] } }, .idle none⟩

/-- What is in the transmit stream is sent, while the shell prints its prompt. -/
theorem uart_drained_small :
    [chr 'o', chr 'k'] <+: (filledUartSys.run smallHooks smallUartApp
      (smallUartRun ++ List.replicate 10 (.other .txTask))).world.base.app.sent := by
  refine uart_drained honest_small wakes_small (smallUartApp_actsBy _) filledUartSys
    (fun f hf => ?_) (by decide)
  rcases List.mem_append.mp hf with hf | hf
  · exact absurd hf effect_notMem_smallUartRun
  · cases List.eq_of_mem_replicate hf

end Drained

end PortableShell
