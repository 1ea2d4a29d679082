import PortableShell.Delivery
import PortableShell.Invariant
import PortableShell.World

set_option relaxedAutoImplicit false
set_option autoImplicit false

/-!
# The bare-metal port

`sh_port_baremetal.c`: a main loop polls a receive callback and hands at most a given number of
bytes to the shell. Interrupts may act on the board at any time.

## Main definitions

* `PortableShell.BaremetalWorld` — a `sh_port_baremetal_t` and the board.
* `PortableShell.shPortBaremetalInit`, `shPortBaremetalPoll`, `shPortBaremetalTransportWrite` — the
  functions of the source.
* `PortableShell.BaremetalOp`, `firmware` — what a main loop and interrupts do, in order.
* `PortableShell.Receiver` — a receive path: receptions arrive and are read once, in order.

## Main results

* `PortableShell.pollAll_eq` — how the work is divided into polls does not matter.
* `PortableShell.firmware_accounts` — every reception is handed on, counted or still pending.
* `PortableShell.firmware_delivered` — what the board has sent.

## Design

A board is arbitrary, and so are the callbacks. What an interrupt does is a step of the board: of
the callback during which it happens, of the application, or of its own. The field `events` records
the run and is read by no operation.
-/

namespace PortableShell

variable {W : Type}

/-! ## Data -/

/-- A `sh_port_baremetal_read_status_t`; `other` is any value outside the enumeration. -/
inductive BaremetalReadStatus
  | byte
  | noData
  | error
  | other (code : ℤ)
  deriving DecidableEq

/-- A `sh_port_baremetal_write_status_t`; `other` is any value outside the enumeration. -/
inductive BaremetalWriteStatus
  | ok
  | wouldBlock
  | error
  | other (code : ℤ)
  deriving DecidableEq

/-- `sh_port_baremetal_status_t`. -/
inductive BaremetalStatus
  | ok
  | noData
  | limitReached
  | errInvalidArgument
  | errRead
  deriving DecidableEq

/-- `sh_port_baremetal_poll_result_t`. -/
structure BaremetalPollResult where
  status : BaremetalStatus
  bytesProcessed : ℕ
  deriving DecidableEq

/-- `sh_port_baremetal_t`, with the embedded transport left out. -/
structure BaremetalPort where
  shell : Option Ptr
  read : Option Ptr
  readCtx : Option Ptr
  write : Option Ptr
  writeCtx : Option Ptr
  readErrorCount : ℕ

/-- What the receive callback can yield: a byte or an error. -/
inductive Reception
  | byte (b : Byte)
  | fault
  deriving DecidableEq

/-- What is recorded of a run. -/
inductive BaremetalEvent
  /-- The receive callback yielded something. -/
  | received (r : Reception)
  /-- `sh_port_baremetal_clear_read_errors` was called. -/
  | cleared
  deriving DecidableEq

/-- A port and the board with the application's state. -/
structure BaremetalWorld (W : Type) where
  port : BaremetalPort
  board : W
  /-- What has happened, newest first. -/
  events : List BaremetalEvent

/-- The callbacks of a board, by address. -/
structure BaremetalCallbacks (W : Type) where
  /-- `sh_port_baremetal_read_fn_t`: function, context, board. The result is the board, the status
  and `*byte_out`. -/
  read : Ptr → Option Ptr → W → W × BaremetalReadStatus × Byte
  /-- `sh_port_baremetal_write_fn_t`: function, context, board, bytes. The result is the board, the
  status and `*written`. -/
  write : Ptr → Option Ptr → W → List Byte → W × BaremetalWriteStatus × ℕ

/-- A use of the API by a handler or provider, or a step of the board. -/
inductive BaremetalAppCall (W : Type)
  | shell (call : ApiCall W)
  /-- `sh_port_baremetal_clear_read_errors`. -/
  | clearReadErrors

/-- The application code over a board. It may look at the error counter. -/
structure BaremetalApp (W : Type) where
  shouldMaskArg : Ptr → CStr → ℕ → CStr → Option Ptr → Bool
  handler : Ptr → View → ℕ → W → List CStr → Option Ptr → List (BaremetalAppCall W) × Status
  completion : Ptr → View → ℕ → W → ℕ → ℕ → Option Ptr →
    List (BaremetalAppCall W) × Option CStr

/-! ## The functions of the port -/

/-- `sh_port_baremetal_init`, for a port that exists. -/
def shPortBaremetalInit (shell read : Option Ptr) (readCtx : Option Ptr) (write : Option Ptr)
    (writeCtx : Option Ptr) : Except BaremetalStatus BaremetalPort :=
  if shell.isNone ∨ read.isNone ∨ write.isNone then .error .errInvalidArgument
  else .ok ⟨shell, read, readCtx, write, writeCtx, 0⟩

/-- What the receive callback yielded. -/
def Reception.of : BaremetalReadStatus → Byte → Option Reception
  | .byte, b => some (.byte b)
  | .noData, _ => none
  | .error, _ => some .fault
  | .other _, _ => some .fault

namespace BaremetalWorld

/-- The board after a call of the receive callback. -/
def afterRead (callbacks : BaremetalCallbacks W) (read : Ptr) (w : BaremetalWorld W) :
    BaremetalWorld W :=
  let r := callbacks.read read w.port.readCtx w.board
  { w with
    board := r.1
    events := ((Reception.of r.2.1 r.2.2).toList.map .received) ++ w.events }

/-- `port->read_error_count++` on a `size_t`. -/
def countError (w : BaremetalWorld W) : BaremetalWorld W :=
  { w with port := { w.port with readErrorCount := (w.port.readErrorCount + 1) % 2 ^ 64 } }

/-- `sh_port_baremetal_clear_read_errors`. -/
def clearReadErrors (w : BaremetalWorld W) : BaremetalWorld W :=
  { w with
    port := { w.port with readErrorCount := 0 }
    events := .cleared :: w.events }

/-- A step of the board. -/
def onBoard (f : W → W) (w : BaremetalWorld W) : BaremetalWorld W := { w with board := f w.board }

end BaremetalWorld

/-- The status of `sh_port_baremetal_transport_write` behind the check of the number of bytes. -/
def BaremetalWriteStatus.toTransport : BaremetalWriteStatus → TransportStatus
  | .ok => .ok
  | .wouldBlock => .wouldBlock
  | .error => .errIo
  | .other _ => .errProtocol

/-- `sh_port_baremetal_transport_write`. -/
def shPortBaremetalTransportWrite (callbacks : BaremetalCallbacks W) (w : BaremetalWorld W)
    (data : List Byte) : BaremetalWorld W × TransportStatus × ℕ :=
  match w.port.write with
  | none => (w, .errInvalidArgument, 0)
  | some write =>
    let r := callbacks.write write w.port.writeCtx w.board data
    let next := w.onBoard fun _ => r.1
    if r.2.2 > data.length then (next, .errProtocol, 0) else (next, r.2.1.toTransport, r.2.2)

/-- A use of the API of a shell, as the world of its port sees it. -/
def BaremetalAppCall.toApiCall : BaremetalAppCall W → ApiCall (BaremetalWorld W)
  | .clearReadErrors => .effect BaremetalWorld.clearReadErrors
  | .shell call =>
    match call with
    | .write data => .write data
    | .flush => .flush
    | .historyClear => .historyClear
    | .setEchoEnabled enabled => .setEchoEnabled enabled
    | .registerCommands commands => .registerCommands commands
    | .registerCommandSets sets => .registerCommandSets sets
    | .start => .start
    | .stop => .stop
    | .effect f => .effect (BaremetalWorld.onBoard f)

/-- The surroundings of the shell of a port. -/
def baremetalEnv (callbacks : BaremetalCallbacks W) (app : BaremetalApp W) :
    Env (BaremetalWorld W) where
  output := fun _ _ w _ => w
  transport := fun _ => ⟨some (shPortBaremetalTransportWrite callbacks), none⟩
  shouldMaskArg := app.shouldMaskArg
  handler := fun fn view w argv ctx =>
    let r := app.handler fn view w.port.readErrorCount w.board argv ctx
    (r.1.map BaremetalAppCall.toApiCall, r.2)
  completion := fun fn view w argIndex index ctx =>
    let r := app.completion fn view w.port.readErrorCount w.board argIndex index ctx
    (r.1.map BaremetalAppCall.toApiCall, r.2)

/-- A port with its shell. -/
abbrev BaremetalSys (W : Type) := Sys (BaremetalWorld W)

/-- Update what lies beside the shell. -/
def BaremetalSys.update (st : BaremetalSys W) (f : BaremetalWorld W → BaremetalWorld W) :
    BaremetalSys W :=
  { st with io := f st.io }

variable (callbacks : BaremetalCallbacks W) (app : BaremetalApp W)

/-- The loop of `sh_port_baremetal_poll` with `n` bytes left to process. -/
def baremetalPollLoop (read : Ptr) : ℕ → ℕ → BaremetalSys W → BaremetalSys W × BaremetalPollResult
  | 0, processed, st => (st, ⟨.limitReached, processed⟩)
  | n + 1, processed, st =>
    let r := callbacks.read read st.io.port.readCtx st.io.board
    let next := BaremetalSys.update st (BaremetalWorld.afterRead callbacks read)
    match r.2.1 with
    | .byte =>
      baremetalPollLoop read n (processed + 1)
        (shInputByte (baremetalEnv callbacks app) next r.2.2).1
    | .noData => (next, ⟨.noData, processed⟩)
    | _ => (BaremetalSys.update next BaremetalWorld.countError, ⟨.errRead, processed⟩)

/-- `sh_port_baremetal_poll`. -/
def shPortBaremetalPoll (st : BaremetalSys W) (maxBytesPerPoll : ℕ) :
    BaremetalSys W × BaremetalPollResult :=
  match st.io.port.read with
  | none => (st, ⟨.errInvalidArgument, 0⟩)
  | some read =>
    if st.io.port.shell.isNone ∨ maxBytesPerPoll = 0 then (st, ⟨.errInvalidArgument, 0⟩)
    else baremetalPollLoop callbacks app read maxBytesPerPoll 0 st

/-- Polls with these numbers of bytes, up to the first that does not reach its limit. -/
def pollAll (st : BaremetalSys W) : List ℕ → BaremetalSys W × BaremetalPollResult
  | [] => (st, ⟨.limitReached, 0⟩)
  | maxBytes :: rest =>
    let r := shPortBaremetalPoll callbacks app st maxBytes
    if r.2.status = .limitReached then
      let after := pollAll r.1 rest
      (after.1, ⟨after.2.status, r.2.bytesProcessed + after.2.bytesProcessed⟩)
    else r

/-! ## Firmware -/

/-- What a main loop does with a port and its shell, or an interrupt with the board. -/
inductive BaremetalOp (W : Type)
  | poll (maxBytesPerPoll : ℕ)
  | act (call : BaremetalAppCall W)
  | executeLine (line : CStr)
  | executeArgv (argv : List CStr)
  | prompt

/-- What it does, and the number of bytes it processes. -/
def BaremetalOp.apply (st : BaremetalSys W) : BaremetalOp W → BaremetalSys W × ℕ
  | .poll maxBytesPerPoll =>
    let r := shPortBaremetalPoll callbacks app st maxBytesPerPoll
    (r.1, r.2.bytesProcessed)
  | .act call => (runCall (baremetalEnv callbacks app) st call.toApiCall, 0)
  | .executeLine line => ((shExecuteLine (baremetalEnv callbacks app) st line).1, 0)
  | .executeArgv argv => ((shExecuteArgv (baremetalEnv callbacks app) st argv).1, 0)
  | .prompt => (shPrompt (baremetalEnv callbacks app) st, 0)

/-- A run of the firmware, with the number of bytes that its polls report. -/
def firmware : BaremetalSys W → List (BaremetalOp W) → BaremetalSys W × ℕ
  | st, [] => (st, 0)
  | st, op :: ops =>
    let r := op.apply callbacks app st
    let rest := firmware r.1 ops
    (rest.1, r.2 + rest.2)

/-! ## A small board -/

/-- A board with a receiver and a transmitter. -/
structure SmallBoard where
  arrived : List Reception
  pending : List Reception
  sent : List Byte

/-- An interrupt brings a reception. -/
def SmallBoard.interrupt (r : Reception) (w : SmallBoard) : SmallBoard :=
  { w with arrived := w.arrived ++ [r], pending := w.pending ++ [r] }

/-- The callbacks: the oldest reception is read, and four bytes at most are sent. -/
def smallCallbacks : BaremetalCallbacks SmallBoard where
  read := fun _ _ w =>
    match w.pending with
    | [] => (w, .noData, 0)
    | .byte b :: rest => ({ w with pending := rest }, .byte, b)
    | .fault :: rest => ({ w with pending := rest }, .error, 0)
  write := fun _ _ w data => ({ w with sent := w.sent ++ data.take 4 }, .ok, min 4 data.length)

/-- Application code that does nothing. -/
def smallApp : BaremetalApp SmallBoard where
  shouldMaskArg := fun _ _ _ _ _ => false
  handler := fun _ _ _ _ _ _ => ([], Status.ok)
  completion := fun _ _ _ _ _ _ _ => ([], none)

/-- The world of a port over this board, when these receptions wait. -/
def smallWorld (waiting : List Reception) : BaremetalWorld SmallBoard :=
  ⟨⟨some 1, some 2, none, some 3, none, 0⟩, ⟨waiting, waiting, []⟩, []⟩

/-- Two bytes, an error and a byte arrive while polls of one byte run. -/
def smallFirmware : List (BaremetalOp SmallBoard) :=
  [.act (.shell (.effect (SmallBoard.interrupt (.byte (chr 'o'))))), .poll 1,
    .act (.shell (.effect (SmallBoard.interrupt (.byte (chr 'k'))))),
    .act (.shell (.effect (SmallBoard.interrupt .fault))), .poll 1, .poll 1,
    .act (.shell (.effect (SmallBoard.interrupt (.byte (chr '\r')))))]

/-- The interrupts of this run. -/
private theorem mem_smallFirmware {f : SmallBoard → SmallBoard}
    (h : .act (.shell (.effect f)) ∈ smallFirmware) : ∃ r, f = SmallBoard.interrupt r := by
  simp only [smallFirmware, List.mem_cons, BaremetalOp.act.injEq, BaremetalAppCall.shell.injEq,
    ApiCall.effect.injEq, reduceCtorEq, List.not_mem_nil, or_false, false_or] at h
  rcases h with rfl | rfl | rfl | rfl <;> exact ⟨_, rfl⟩

/-! ## The calls of a firmware -/

/-- What a call of the receive callback does, with the error counter. -/
def BaremetalWorld.receive (read : Ptr) (w : BaremetalWorld W) : BaremetalWorld W :=
  match (callbacks.read read w.port.readCtx w.board).2.1 with
  | .byte => w.afterRead callbacks read
  | .noData => w.afterRead callbacks read
  | _ => (w.afterRead callbacks read).countError

/-- The calls of the shell core in the loop of a poll, with the steps of the board between them. -/
def pollCalls (read : Ptr) : ℕ → BaremetalSys W → List (Op (BaremetalWorld W))
  | 0, _ => []
  | n + 1, st =>
    let r := callbacks.read read st.io.port.readCtx st.io.board
    let next := BaremetalSys.update st (BaremetalWorld.afterRead callbacks read)
    .api (.effect (BaremetalWorld.receive callbacks read)) ::
      match r.2.1 with
      | .byte =>
        .inputByte r.2.2 :: pollCalls read n (shInputByte (baremetalEnv callbacks app) next r.2.2).1
      | _ => []

/-- The calls of the shell core and the steps of the board in one step of a firmware. -/
def BaremetalOp.calls (st : BaremetalSys W) : BaremetalOp W → List (Op (BaremetalWorld W))
  | .poll maxBytesPerPoll =>
    match st.io.port.read with
    | none => []
    | some read =>
      if st.io.port.shell.isNone ∨ maxBytesPerPoll = 0 then []
      else pollCalls callbacks app read maxBytesPerPoll st
  | .act call => [.api call.toApiCall]
  | .executeLine line => [.executeLine line]
  | .executeArgv argv => [.executeArgv argv]
  | .prompt => [.prompt]

/-- The calls of the shell core and the steps of the board in a run. -/
def firmwareCalls : BaremetalSys W → List (BaremetalOp W) → List (Op (BaremetalWorld W))
  | _, [] => []
  | st, op :: ops => op.calls callbacks app st ++ firmwareCalls (op.apply callbacks app st).1 ops

/-- The bytes that are handed to `sh_input_byte`. -/
def typedBytes {ω : Type} (calls : List (Op ω)) : List Byte :=
  calls.filterMap fun
    | .inputByte byte => some byte
    | _ => none

/-- The bytes of two lists of calls. -/
private theorem typedBytes_append {ω : Type} (a b : List (Op ω)) :
    typedBytes (a ++ b) = typedBytes a ++ typedBytes b := List.filterMap_append

/-- A run of two lists of calls. -/
private theorem run_append_calls {ω : Type} (env : Env ω) (st : Sys ω) (a b : List (Op ω)) :
    run env st (a ++ b) = run env (run env st a) b := List.foldl_append

/-- The loop makes its calls and counts the bytes handed on.

**Proof sketch.** Induction on the budget, with one case per status of the read callback. A byte is
one call of `sh_input_byte` and counts one; every other status ends the loop. -/
private theorem run_pollCalls (read : Ptr) (n processed : ℕ) (st : BaremetalSys W) :
    run (baremetalEnv callbacks app) st (pollCalls callbacks app read n st) =
        (baremetalPollLoop callbacks app read n processed st).1 ∧
      (baremetalPollLoop callbacks app read n processed st).2.bytesProcessed =
        processed + (typedBytes (pollCalls callbacks app read n st)).length := by
  induction n generalizing processed st with
  | zero => exact ⟨rfl, rfl⟩
  | succ n ih =>
    have hreceive : (Op.apply (baremetalEnv callbacks app) st
        (.api (.effect (BaremetalWorld.receive callbacks read)))).1 =
        BaremetalSys.update st (BaremetalWorld.receive callbacks read) := rfl
    unfold pollCalls baremetalPollLoop
    dsimp only
    unfold run
    rw [List.foldl_cons, hreceive]
    cases hstatus : (callbacks.read read st.io.port.readCtx st.io.board).2.1 with
    | byte =>
      have hupdate : BaremetalSys.update st (BaremetalWorld.receive callbacks read) =
          BaremetalSys.update st (BaremetalWorld.afterRead callbacks read) := by
        rw [BaremetalSys.update, BaremetalWorld.receive, hstatus]
        rfl
      obtain ⟨hrun, hcount⟩ := ih (processed + 1)
        (shInputByte (baremetalEnv callbacks app)
          (BaremetalSys.update st (BaremetalWorld.afterRead callbacks read))
          (callbacks.read read st.io.port.readCtx st.io.board).2.2).1
      rw [hupdate]
      refine ⟨hrun, ?_⟩
      dsimp only
      rw [hcount]
      simp only [typedBytes, List.filterMap_cons, List.length_cons]
      omega
    | noData =>
      refine ⟨?_, rfl⟩
      rw [BaremetalSys.update, BaremetalWorld.receive, hstatus]
      rfl
    | error =>
      refine ⟨?_, rfl⟩
      rw [BaremetalSys.update, BaremetalWorld.receive, hstatus]
      rfl
    | other code =>
      refine ⟨?_, rfl⟩
      rw [BaremetalSys.update, BaremetalWorld.receive, hstatus]
      rfl

/-- A step of a firmware makes its calls and reports the bytes handed on. -/
private theorem BaremetalOp.run_calls (op : BaremetalOp W) (st : BaremetalSys W) :
    run (baremetalEnv callbacks app) st (op.calls callbacks app st) =
        (op.apply callbacks app st).1 ∧
      (op.apply callbacks app st).2 = (typedBytes (op.calls callbacks app st)).length := by
  cases op with
  | poll maxBytes =>
    unfold BaremetalOp.calls BaremetalOp.apply shPortBaremetalPoll
    dsimp only
    cases st.io.port.read with
    | none => exact ⟨rfl, rfl⟩
    | some read =>
      dsimp only
      split_ifs
      · exact ⟨rfl, rfl⟩
      · obtain ⟨hrun, hcount⟩ := run_pollCalls callbacks app read maxBytes 0 st
        exact ⟨hrun, hcount.trans (Nat.zero_add _)⟩
  | act call => exact ⟨rfl, rfl⟩
  | executeLine line => exact ⟨rfl, rfl⟩
  | executeArgv argv => exact ⟨rfl, rfl⟩
  | prompt => exact ⟨rfl, rfl⟩

/-- **A firmware** makes its calls of the shell core, and its polls report the bytes handed on. -/
theorem run_firmwareCalls (st : BaremetalSys W) (ops : List (BaremetalOp W)) :
    run (baremetalEnv callbacks app) st (firmwareCalls callbacks app st ops) =
        (firmware callbacks app st ops).1 ∧
      (firmware callbacks app st ops).2 =
        (typedBytes (firmwareCalls callbacks app st ops)).length := by
  induction ops generalizing st with
  | nil => exact ⟨rfl, rfl⟩
  | cons op ops ih =>
    obtain ⟨hop, hopCount⟩ := op.run_calls callbacks app st
    obtain ⟨hrun, hcount⟩ := ih (op.apply callbacks app st).1
    unfold firmwareCalls firmware
    dsimp only
    rw [run_append_calls, hop, hrun, hopCount, hcount, typedBytes_append, List.length_append]
    exact ⟨rfl, rfl⟩

/-! ## What the surroundings keep -/

/-- The application acts on the board in the ways of `E` only. -/
structure BaremetalApp.ActsBy (app : BaremetalApp W) (E : (W → W) → Prop) : Prop where
  handler : ∀ fn view n w argv ctx f,
    .shell (.effect f) ∈ (app.handler fn view n w argv ctx).1 → E f
  completion : ∀ fn view n w i j ctx f,
    .shell (.effect f) ∈ (app.completion fn view n w i j ctx).1 → E f

/-- What the world of a port sees of an application. -/
inductive BaremetalWorld.Act (E : (W → W) → Prop) : (BaremetalWorld W → BaremetalWorld W) → Prop
  | clear : Act E clearReadErrors
  | board {f : W → W} (hf : E f) : Act E (onBoard f)

section Kept

variable {callbacks app} {E : (W → W) → Prop}

/-- The effect behind a use of the API. -/
private theorem BaremetalAppCall.act_of_effect {call : BaremetalAppCall W}
    {g : BaremetalWorld W → BaremetalWorld W} (hcall : call.toApiCall = .effect g)
    (hE : ∀ f, call = .shell (.effect f) → E f) : BaremetalWorld.Act E g := by
  cases call with
  | clearReadErrors =>
    obtain rfl := ApiCall.effect.inj hcall
    exact .clear
  | shell call =>
    cases call with
    | effect f =>
      obtain rfl := ApiCall.effect.inj hcall
      exact .board (hE f rfl)
    | _ => cases hcall

/-- The surroundings act on the world of a port as the application does on the board. -/
theorem BaremetalApp.ActsBy.env (h : app.ActsBy E) :
    (baremetalEnv callbacks app).ActsBy (BaremetalWorld.Act E) where
  handler := by
    intro fn view w argv ctx g hmem
    obtain ⟨call, hcall, heq⟩ := List.mem_map.mp hmem
    exact BaremetalAppCall.act_of_effect heq fun f hf => h.handler _ _ _ _ _ _ f (hf ▸ hcall)
  completion := by
    intro fn view w i j ctx g hmem
    obtain ⟨call, hcall, heq⟩ := List.mem_map.mp hmem
    exact BaremetalAppCall.act_of_effect heq fun f hf => h.completion _ _ _ _ _ _ _ f (hf ▸ hcall)

/-- What a write, a clearing of the counter and the steps of the board keep, the surroundings
keep. -/
private theorem baremetalEnv_keepsWorld (h : app.ActsBy E) {P : BaremetalWorld W → Prop}
    (hwrite : ∀ w data, P w → P (shPortBaremetalTransportWrite callbacks w data).1)
    (hact : ∀ g, BaremetalWorld.Act E g → ∀ w, P w → P (g w)) :
    KeepsWorld (baremetalEnv callbacks app) P where
  output := fun _ _ _ _ hw => hw
  write := by
    intro t write w data heq hw
    obtain rfl := Option.some.inj heq
    exact hwrite w data hw
  flush := fun t flush w heq => absurd heq (Option.some_ne_none _).symm
  handler := fun fn view w argv ctx g hmem => hact g (h.env.handler fn view w argv ctx g hmem)
  completion := fun fn view w i j ctx g hmem =>
    hact g (h.env.completion fn view w i j ctx g hmem)

/-- The pointers of a port. -/
def BaremetalPort.pointers (port : BaremetalPort) : BaremetalPort :=
  { port with readErrorCount := 0 }

variable (callbacks) in
/-- A write goes to the board. -/
private theorem shPortBaremetalTransportWrite_fst (w : BaremetalWorld W) (data : List Byte) :
    ∃ f, (shPortBaremetalTransportWrite callbacks w data).1 = w.onBoard f := by
  unfold shPortBaremetalTransportWrite
  cases w.port.write with
  | none => exact ⟨id, rfl⟩
  | some write =>
    dsimp only
    refine ⟨fun _ => (callbacks.write write w.port.writeCtx w.board data).1, ?_⟩
    split_ifs <;> rfl

/-- The surroundings do not change the pointers. -/
private theorem keepsWorld_pointers (port : BaremetalPort) :
    KeepsWorld (baremetalEnv callbacks app) fun w => w.port.pointers = port := by
  have hany : app.ActsBy fun _ => True := ⟨fun _ _ _ _ _ _ _ _ => trivial,
    fun _ _ _ _ _ _ _ _ _ => trivial⟩
  refine baremetalEnv_keepsWorld hany ?_ ?_
  · intro w data hw
    obtain ⟨f, hf⟩ := shPortBaremetalTransportWrite_fst callbacks w data
    rw [hf]
    exact hw
  · intro g hg w hw
    cases hg with
    | clear => exact hw
    | board hf => exact hw

end Kept

/-! ## How the work is divided -/

section Division

variable {callbacks app}

/-- A loop that starts behind some bytes counts on. -/
private theorem baremetalPollLoop_processed (read : Ptr) (n processed : ℕ) (st : BaremetalSys W) :
    baremetalPollLoop callbacks app read n processed st =
      ((baremetalPollLoop callbacks app read n 0 st).1,
        ⟨(baremetalPollLoop callbacks app read n 0 st).2.status,
          processed + (baremetalPollLoop callbacks app read n 0 st).2.bytesProcessed⟩) := by
  induction n generalizing processed st with
  | zero => rfl
  | succ n ih =>
    rw [baremetalPollLoop, baremetalPollLoop]
    cases (callbacks.read read st.io.port.readCtx st.io.board).2.1 with
    | byte =>
      dsimp only
      rw [ih (processed + 1), ih (0 + 1)]
      dsimp only
      rw [Nat.zero_add, Nat.add_assoc]
    | noData => rfl
    | error => rfl
    | other code => rfl

/-- **A loop in two parts**: the second part begins where the first reached its limit.

**Proof sketch.** Induction on the first budget. A byte is processed in both loops, any other status
ends both, and the number of bytes processed is an offset (`baremetalPollLoop_processed`). -/
theorem baremetalPollLoop_add (read : Ptr) (m n : ℕ) (st : BaremetalSys W) :
    baremetalPollLoop callbacks app read (m + n) 0 st =
      if (baremetalPollLoop callbacks app read m 0 st).2.status = .limitReached then
        baremetalPollLoop callbacks app read n
          (baremetalPollLoop callbacks app read m 0 st).2.bytesProcessed
          (baremetalPollLoop callbacks app read m 0 st).1
      else baremetalPollLoop callbacks app read m 0 st := by
  induction m generalizing st with
  | zero =>
    rw [Nat.zero_add]
    rfl
  | succ m ih =>
    rw [Nat.succ_add, baremetalPollLoop, baremetalPollLoop]
    cases (callbacks.read read st.io.port.readCtx st.io.board).2.1 with
    | byte =>
      dsimp only
      rw [baremetalPollLoop_processed read (m + n), baremetalPollLoop_processed read m, ih]
      dsimp only
      split_ifs with hlimit
      · rw [baremetalPollLoop_processed read n (0 + 1 + _),
          baremetalPollLoop_processed read n (BaremetalPollResult.bytesProcessed _)]
        dsimp only
        rw [Nat.add_assoc (0 + 1)]
      · rfl
    | noData => rfl
    | error => rfl
    | other code => rfl

variable (callbacks app) in
/-- The loop does not change the pointers. -/
private theorem baremetalPollLoop_pointers (read : Ptr) (n processed : ℕ) (st : BaremetalSys W) :
    (baremetalPollLoop callbacks app read n processed st).1.io.port.pointers =
      st.io.port.pointers := by
  induction n generalizing processed st with
  | zero => rfl
  | succ n ih =>
    rw [baremetalPollLoop]
    cases (callbacks.read read st.io.port.readCtx st.io.board).2.1 with
    | byte =>
      dsimp only
      rw [ih]
      have hread : (BaremetalSys.update st
          (BaremetalWorld.afterRead callbacks read)).io.port.pointers = st.io.port.pointers := rfl
      exact (keepsWorld_pointers st.io.port.pointers).shInputByte hread _
    | noData => rfl
    | error => rfl
    | other code => rfl

/-- A poll of a port with a callback and a shell is the loop. -/
private theorem shPortBaremetalPoll_eq_loop {st : BaremetalSys W} {read : Ptr}
    (hread : st.io.port.read = some read) (hshell : st.io.port.shell.isNone = false) {n : ℕ}
    (hn : n ≠ 0) :
    shPortBaremetalPoll callbacks app st n = baremetalPollLoop callbacks app read n 0 st := by
  unfold shPortBaremetalPoll
  rw [hread]
  dsimp only
  rw [if_neg (by simp [hshell, hn])]

/-- A poll of another port does nothing. -/
private theorem shPortBaremetalPoll_invalid {st : BaremetalSys W}
    (h : st.io.port.read = none ∨ st.io.port.shell.isNone = true) (n : ℕ) :
    shPortBaremetalPoll callbacks app st n = (st, ⟨.errInvalidArgument, 0⟩) := by
  unfold shPortBaremetalPoll
  cases hread : st.io.port.read with
  | none => rfl
  | some read =>
    obtain hnone | hshell := h
    · exact absurd (hread.symm.trans hnone) (Option.some_ne_none read)
    · exact if_pos (.inl hshell)

/-- **Two polls** are one, when the first reaches its limit.

**Proof sketch.** The checks of the poll look at pointers that the loop leaves alone, so they have
the same result in both polls. The loops are `baremetalPollLoop_add`. -/
theorem shPortBaremetalPoll_add (st : BaremetalSys W) {m n : ℕ} (hm : m ≠ 0) (hn : n ≠ 0) :
    shPortBaremetalPoll callbacks app st (m + n) =
      let first := shPortBaremetalPoll callbacks app st m
      if first.2.status = .limitReached then
        let second := shPortBaremetalPoll callbacks app first.1 n
        (second.1, ⟨second.2.status, first.2.bytesProcessed + second.2.bytesProcessed⟩)
      else first := by
  dsimp only
  by_cases hvalid : st.io.port.read = none ∨ st.io.port.shell.isNone = true
  · rw [shPortBaremetalPoll_invalid hvalid, shPortBaremetalPoll_invalid hvalid]
    rfl
  · obtain ⟨hread, hshell⟩ := not_or.mp hvalid
    obtain ⟨read, hread⟩ := Option.ne_none_iff_exists'.mp hread
    have hshell := eq_false_of_ne_true hshell
    have hpointers := baremetalPollLoop_pointers callbacks app read m 0 st
    rw [shPortBaremetalPoll_eq_loop hread hshell hm,
      shPortBaremetalPoll_eq_loop hread hshell (by omega), baremetalPollLoop_add]
    refine if_congr Iff.rfl ?_ rfl
    generalize baremetalPollLoop callbacks app read m 0 st = first at hpointers
    have hread' : first.1.io.port.read = some read :=
      (congrArg BaremetalPort.read hpointers).trans hread
    have hshell' : first.1.io.port.pointers.shell.isNone = false := by
      rw [hpointers]
      exact hshell
    rw [baremetalPollLoop_processed, shPortBaremetalPoll_eq_loop hread' hshell' hn]

/-- **How the work is divided into polls does not matter**, whatever the callbacks and the handlers
do: the polls up to the first that does not reach its limit do and report what one poll with all
their bytes does and reports. -/
theorem pollAll_eq (st : BaremetalSys W) {budgets : List ℕ} (hne : budgets ≠ [])
    (hpos : ∀ n ∈ budgets, n ≠ 0) :
    pollAll callbacks app st budgets = shPortBaremetalPoll callbacks app st budgets.sum := by
  induction budgets generalizing st with
  | nil => exact absurd rfl hne
  | cons n rest ih =>
    obtain ⟨hn, hrest⟩ := List.forall_mem_cons.mp hpos
    rw [pollAll, List.sum_cons]
    cases rest with
    | nil =>
      rw [List.sum_nil, Nat.add_zero]
      dsimp only [pollAll]
      split_ifs with hlimit
      · rw [← hlimit, Nat.add_zero]
      · rfl
    | cons n' rest =>
      have hsum : (n' :: rest).sum ≠ 0 := by
        have hn' := hrest n' List.mem_cons_self
        rw [List.sum_cons]
        omega
      rw [shPortBaremetalPoll_add st hn hsum, ih _ (List.cons_ne_nil n' rest) hrest]

/-- Polls of two bytes and of one byte when four receptions wait, of which the third is an error. -/
theorem pollAll_eq_small :
    pollAll smallCallbacks smallApp
        ⟨smallShell, smallWorld [.byte 111, .byte 107, .fault, .byte 13], [], []⟩ [2, 1] =
      shPortBaremetalPoll smallCallbacks smallApp
        ⟨smallShell, smallWorld [.byte 111, .byte 107, .fault, .byte 13], [], []⟩ 3 :=
  pollAll_eq _ (by decide) (by decide)

end Division

/-! ## The receive path -/

/-- The byte of a reception. -/
def Reception.byte? : Reception → Option Byte
  | .byte b => some b
  | .fault => none

/-- The reception that an event records. -/
def BaremetalEvent.reception? : BaremetalEvent → Option Reception
  | .received r => some r
  | .cleared => none

/-- The receive errors since the counter was cleared, newest event first. -/
def faultsSinceClear : List BaremetalEvent → ℕ
  | [] => 0
  | .cleared :: _ => 0
  | .received .fault :: events => faultsSinceClear events + 1
  | .received (.byte _) :: events => faultsSinceClear events

/-- What the receive callback has yielded so far, oldest first. -/
def BaremetalWorld.received (w : BaremetalWorld W) : List Reception :=
  w.events.reverse.filterMap BaremetalEvent.reception?

/-- A step during which receptions may arrive at the board. -/
def Arrives (arrived pending : W → List Reception) (f : W → W) : Prop :=
  ∀ w, ∃ new, arrived (f w) = arrived w ++ new ∧ pending (f w) = pending w ++ new

/-- A receive path: `arrived` are the receptions that have arrived so far and `pending` those not
read yet. A call of the receive callback yields the first of them, or nothing, and during any call
more may arrive. -/
structure Receiver (callbacks : BaremetalCallbacks W) (arrived pending : W → List Reception) :
    Prop where
  read : ∀ fn ctx w, ∃ new, arrived (callbacks.read fn ctx w).1 = arrived w ++ new ∧
    pending w ++ new = (Reception.of (callbacks.read fn ctx w).2.1
      (callbacks.read fn ctx w).2.2).toList ++ pending (callbacks.read fn ctx w).1
  write : ∀ fn ctx data, Arrives arrived pending fun w => (callbacks.write fn ctx w data).1

/-- The receptions are yielded or pending, and the errors are counted. -/
structure BaremetalWorld.Balanced (arrived pending : W → List Reception) (w : BaremetalWorld W) :
    Prop where
  conserved : arrived w.board = w.received ++ pending w.board
  counted : w.port.readErrorCount = faultsSinceClear w.events % 2 ^ 64

section Receive

variable {callbacks app} {arrived pending : W → List Reception}

namespace BaremetalWorld

/-- A step of the board. -/
theorem Balanced.onBoard {w : BaremetalWorld W} (h : w.Balanced arrived pending) {f : W → W}
    (hf : Arrives arrived pending f) : (w.onBoard f).Balanced arrived pending := by
  obtain ⟨new, harrived, hpending⟩ := hf w.board
  refine ⟨?_, h.counted⟩
  show arrived (f w.board) = w.received ++ pending (f w.board)
  rw [harrived, hpending, h.conserved, List.append_assoc]

/-- Clearing the counter yields nothing. -/
private theorem received_clearReadErrors (w : BaremetalWorld W) :
    w.clearReadErrors.received = w.received := by
  rw [received, clearReadErrors, List.reverse_cons, List.filterMap_append]
  exact List.append_nil _

/-- Clearing the counter. -/
private theorem Balanced.clearReadErrors {w : BaremetalWorld W} (h : w.Balanced arrived pending) :
    w.clearReadErrors.Balanced arrived pending := by
  refine ⟨?_, rfl⟩
  rw [received_clearReadErrors]
  exact h.conserved

variable (callbacks) in
/-- A call of the receive callback yields what it reports. -/
private theorem received_receive (read : Ptr) (w : BaremetalWorld W) :
    (w.receive callbacks read).received = w.received ++
      (Reception.of (callbacks.read read w.port.readCtx w.board).2.1
        (callbacks.read read w.port.readCtx w.board).2.2).toList := by
  have hafter : (w.afterRead callbacks read).received = w.received ++
      (Reception.of (callbacks.read read w.port.readCtx w.board).2.1
        (callbacks.read read w.port.readCtx w.board).2.2).toList := by
    unfold received afterRead
    dsimp only
    generalize Reception.of (callbacks.read read w.port.readCtx w.board).2.1
      (callbacks.read read w.port.readCtx w.board).2.2 = r
    cases r with
    | none => exact (List.append_nil _).symm
    | some r =>
      rw [List.reverse_append, List.filterMap_append]
      rfl
  unfold receive
  split <;> exact hafter

/-- A call of the receive callback. -/
theorem Balanced.receive (hR : Receiver callbacks arrived pending) {w : BaremetalWorld W}
    (h : w.Balanced arrived pending) (read : Ptr) :
    (w.receive callbacks read).Balanced arrived pending := by
  obtain ⟨new, harrived, hpending⟩ := hR.read read w.port.readCtx w.board
  have hboard : (w.receive callbacks read).board =
      (callbacks.read read w.port.readCtx w.board).1 := by
    unfold BaremetalWorld.receive
    cases (callbacks.read read w.port.readCtx w.board).2.1 <;> rfl
  refine ⟨?_, ?_⟩
  · rw [hboard, received_receive, harrived, h.conserved, List.append_assoc, List.append_assoc,
      hpending]
  · have hcounted := h.counted
    unfold BaremetalWorld.receive
    cases hstatus : (callbacks.read read w.port.readCtx w.board).2.1 with
    | byte => simpa [afterRead, Reception.of, hstatus, faultsSinceClear] using hcounted
    | noData => simpa [afterRead, Reception.of, hstatus] using hcounted
    | error =>
      simp [countError, afterRead, Reception.of, hstatus, faultsSinceClear, hcounted]
    | other code =>
      simp [countError, afterRead, Reception.of, hstatus, faultsSinceClear, hcounted]

end BaremetalWorld

/-- The surroundings read nothing and keep the balance. -/
private theorem keepsWorld_balanced (hR : Receiver callbacks arrived pending)
    (hA : app.ActsBy (Arrives arrived pending)) (received : List Reception) :
    KeepsWorld (baremetalEnv callbacks app) fun w =>
      w.received = received ∧ w.Balanced arrived pending := by
  refine baremetalEnv_keepsWorld hA ?_ ?_
  · rintro w data ⟨hreceived, hw⟩
    unfold shPortBaremetalTransportWrite
    cases w.port.write with
    | none => exact ⟨hreceived, hw⟩
    | some write =>
      have hwritten := hw.onBoard (hR.write write w.port.writeCtx data)
      dsimp only
      split_ifs
      · exact ⟨hreceived, hwritten⟩
      · exact ⟨hreceived, hwritten⟩
  · rintro g hg w ⟨hreceived, hw⟩
    cases hg with
    | clear => exact ⟨w.received_clearReadErrors.trans hreceived, hw.clearReadErrors⟩
    | board hf => exact ⟨hreceived, hw.onBoard hf⟩

/-- The bytes received so far. -/
def BaremetalWorld.receivedBytes (w : BaremetalWorld W) : List Byte :=
  w.received.filterMap Reception.byte?

/-- The loop hands on the bytes that it reads.

**Proof sketch.** Induction on the budget, with one case per status of the read callback. Each read
keeps the balance, and a byte that was read is typed before the next read. -/
private theorem pollCalls_accounts (hR : Receiver callbacks arrived pending)
    (hA : app.ActsBy (Arrives arrived pending)) (read : Ptr) (n : ℕ) {st : BaremetalSys W}
    (h : st.io.Balanced arrived pending) {st' : BaremetalSys W}
    (hst' : st' = run (baremetalEnv callbacks app) st (pollCalls callbacks app read n st)) :
    st'.io.Balanced arrived pending ∧
      st'.io.receivedBytes =
        st.io.receivedBytes ++ typedBytes (pollCalls callbacks app read n st) := by
  subst hst'
  induction n generalizing st with
  | zero => exact ⟨h, (List.append_nil _).symm⟩
  | succ n ih =>
    have hbalanced := h.receive hR read
    have hreceived : (st.io.receive callbacks read).receivedBytes = st.io.receivedBytes ++
        (Reception.of (callbacks.read read st.io.port.readCtx st.io.board).2.1
          (callbacks.read read st.io.port.readCtx st.io.board).2.2).toList.filterMap
            Reception.byte? := by
      rw [BaremetalWorld.receivedBytes, BaremetalWorld.received_receive, List.filterMap_append,
        BaremetalWorld.receivedBytes]
    have hfirst : ∀ calls, run (baremetalEnv callbacks app) st
        (.api (.effect (BaremetalWorld.receive callbacks read)) :: calls) =
          run (baremetalEnv callbacks app)
            (BaremetalSys.update st (BaremetalWorld.receive callbacks read)) calls :=
      fun calls => rfl
    unfold pollCalls
    dsimp only
    rw [hfirst]
    cases hstatus : (callbacks.read read st.io.port.readCtx st.io.board).2.1 with
    | byte =>
      have hupdate : BaremetalSys.update st (BaremetalWorld.receive callbacks read) =
          BaremetalSys.update st (BaremetalWorld.afterRead callbacks read) := by
        rw [BaremetalSys.update, BaremetalWorld.receive, hstatus]
        rfl
      have hio : (BaremetalSys.update st (BaremetalWorld.receive callbacks read)).io =
          st.io.receive callbacks read := rfl
      rw [← hio, hupdate] at hbalanced hreceived
      obtain ⟨hkept, hfed⟩ := (keepsWorld_balanced hR hA _).shInputByte ⟨rfl, hbalanced⟩
        (callbacks.read read st.io.port.readCtx st.io.board).2.2
      obtain ⟨hend, hbytes⟩ := ih hfed
      rw [hupdate]
      refine ⟨hend, hbytes.trans ?_⟩
      rw [BaremetalWorld.receivedBytes, hkept, ← BaremetalWorld.receivedBytes, hreceived, hstatus,
        List.append_assoc]
      rfl
    | noData =>
      rw [hstatus] at hreceived
      exact ⟨hbalanced, hreceived⟩
    | error =>
      rw [hstatus] at hreceived
      exact ⟨hbalanced, hreceived⟩
    | other code =>
      rw [hstatus] at hreceived
      exact ⟨hbalanced, hreceived⟩

/-- A step of a firmware hands on the bytes that it reads.

**Proof sketch.** A poll is `pollCalls_accounts`. No other step reads anything: the calls of the
application and of the shell act on the board and keep the balance (`keepsWorld_balanced`). -/
theorem BaremetalOp.accounts (hR : Receiver callbacks arrived pending)
    (hA : app.ActsBy (Arrives arrived pending)) {op : BaremetalOp W}
    (hop : ∀ f, op = .act (.shell (.effect f)) → Arrives arrived pending f) {st : BaremetalSys W}
    (h : st.io.Balanced arrived pending) :
    (op.apply callbacks app st).1.io.Balanced arrived pending ∧
      (op.apply callbacks app st).1.io.receivedBytes =
        st.io.receivedBytes ++ typedBytes (op.calls callbacks app st) := by
  have hkeeps := keepsWorld_balanced hR hA st.io.received
  have hquiet : ∀ w : BaremetalWorld W,
      w.received = st.io.received ∧ w.Balanced arrived pending →
      w.Balanced arrived pending ∧ w.receivedBytes = st.io.receivedBytes ++ [] := by
    rintro w ⟨hreceived, hw⟩
    rw [List.append_nil, BaremetalWorld.receivedBytes, hreceived]
    exact ⟨hw, rfl⟩
  cases op with
  | poll maxBytes =>
    rw [← (BaremetalOp.run_calls callbacks app _ st).1]
    unfold BaremetalOp.calls
    cases st.io.port.read with
    | none => exact hquiet st.io ⟨rfl, h⟩
    | some read =>
      dsimp only
      split_ifs
      · exact hquiet st.io ⟨rfl, h⟩
      · exact pollCalls_accounts hR hA read maxBytes h rfl
  | act call =>
    refine hquiet _ (hkeeps.toKeepsOutput.runCall ?_ ⟨rfl, h⟩)
    rintro g hg w ⟨hreceived, hw⟩
    cases BaremetalAppCall.act_of_effect hg fun f hf => hop f (hf ▸ rfl) with
    | clear => exact ⟨w.received_clearReadErrors.trans hreceived, hw.clearReadErrors⟩
    | board hf => exact ⟨hreceived, hw.onBoard hf⟩
  | executeLine line => exact hquiet _ (hkeeps.shExecuteLine ⟨rfl, h⟩ line)
  | executeArgv argv => exact hquiet _ (hkeeps.shExecuteArgv ⟨rfl, h⟩ argv)
  | prompt => exact hquiet _ (hkeeps.toKeepsOutput.backendWrite _ ⟨rfl, h⟩ _)

/-- A run of a firmware hands on the bytes that it reads. -/
private theorem firmware_balanced (hR : Receiver callbacks arrived pending)
    (hA : app.ActsBy (Arrives arrived pending)) {ops : List (BaremetalOp W)}
    (hops : ∀ f, .act (.shell (.effect f)) ∈ ops → Arrives arrived pending f) {st : BaremetalSys W}
    (h : st.io.Balanced arrived pending) :
    (firmware callbacks app st ops).1.io.Balanced arrived pending ∧
      (firmware callbacks app st ops).1.io.receivedBytes =
        st.io.receivedBytes ++ typedBytes (firmwareCalls callbacks app st ops) := by
  induction ops generalizing st with
  | nil => exact ⟨h, (List.append_nil _).symm⟩
  | cons op ops ih =>
    have hop : ∀ f, op = .act (.shell (.effect f)) → Arrives arrived pending f :=
      fun f hf => hops f (hf ▸ List.mem_cons_self)
    obtain ⟨hbalanced, hbytes⟩ := BaremetalOp.accounts hR hA hop h
    obtain ⟨hend, hrest⟩ := ih (fun f hf => hops f (List.mem_cons_of_mem op hf)) hbalanced
    refine ⟨hend, hrest.trans ?_⟩
    rw [hbytes, firmwareCalls, typedBytes_append, List.append_assoc]

/-- The counter of a port starts with 0. -/
private theorem shPortBaremetalInit_count {shell read readCtx write writeCtx : Option Ptr}
    {port : BaremetalPort} (h : shPortBaremetalInit shell read readCtx write writeCtx = .ok port) :
    port.readErrorCount = 0 := by
  unfold shPortBaremetalInit at h
  split_ifs at h
  obtain rfl := Except.ok.inj h
  rfl

/-- **The receive path of a firmware.** Whatever a main loop, its interrupts and the handlers do, in
any order and with any limits of the polls: what has arrived at the board was yielded by the receive
callback or is still pending, in order; the bytes yielded are those handed to `sh_input_byte`, and
the polls report how many; and the counter has the receive errors since it was cleared. -/
theorem firmware_accounts (hR : Receiver callbacks arrived pending)
    (hA : app.ActsBy (Arrives arrived pending)) {s : Shell}
    {shell read readCtx write writeCtx : Option Ptr} {port : BaremetalPort} {board : W}
    (hport : shPortBaremetalInit shell read readCtx write writeCtx = .ok port)
    (hboard : arrived board = pending board)
    {ops : List (BaremetalOp W)}
    (hops : ∀ f, .act (.shell (.effect f)) ∈ ops → Arrives arrived pending f)
    {r : BaremetalSys W × ℕ} (hr : r = firmware callbacks app ⟨s, ⟨port, board, []⟩, [], []⟩ ops)
    {calls : List (Op (BaremetalWorld W))}
    (hcalls : calls = firmwareCalls callbacks app ⟨s, ⟨port, board, []⟩, [], []⟩ ops) :
    r.1 = run (baremetalEnv callbacks app) ⟨s, ⟨port, board, []⟩, [], []⟩ calls ∧
      arrived r.1.io.board = r.1.io.received ++ pending r.1.io.board ∧
      r.1.io.receivedBytes = typedBytes calls ∧ r.2 = (typedBytes calls).length ∧
      r.1.io.port.readErrorCount = faultsSinceClear r.1.io.events % 2 ^ 64 := by
  subst hr hcalls
  have hstart : (⟨s, ⟨port, board, []⟩, [], []⟩ : BaremetalSys W).io.Balanced arrived pending :=
    ⟨hboard, shPortBaremetalInit_count hport⟩
  obtain ⟨hbalanced, hbytes⟩ := firmware_balanced hR hA hops hstart
  obtain ⟨hrun, hcount⟩ := run_firmwareCalls callbacks app ⟨s, ⟨port, board, []⟩, [], []⟩ ops
  exact ⟨hrun.symm, hbalanced.conserved, hbytes, hcount, hbalanced.counted⟩

/-- Application code that does nothing has no effect. -/
private theorem smallApp_actsBy (E : (SmallBoard → SmallBoard) → Prop) : smallApp.ActsBy E where
  handler := by simp [smallApp]
  completion := by simp [smallApp]

/-- The receiver of the small board. -/
private theorem receiver_small : Receiver smallCallbacks SmallBoard.arrived SmallBoard.pending where
  read := by
    intro fn ctx w
    refine ⟨[], ?_⟩
    unfold smallCallbacks
    dsimp only
    split <;> simp_all [Reception.of]
  write := fun fn ctx data w => ⟨[], by simp [smallCallbacks]⟩

/-- The small firmware over a shell. -/
def smallRun : BaremetalSys SmallBoard × ℕ :=
  firmware smallCallbacks smallApp ⟨drippingShell, smallWorld [], [], []⟩ smallFirmware

/-- What has arrived in this run, been handed on, reported and counted. -/
theorem firmware_accounts_small :
    smallRun.1.io.board.arrived = smallRun.1.io.received ++ smallRun.1.io.board.pending ∧
      smallRun.2 = smallRun.1.io.receivedBytes.length ∧
      smallRun.1.io.port.readErrorCount = faultsSinceClear smallRun.1.io.events % 2 ^ 64 := by
  have hops : ∀ f, .act (.shell (.effect f)) ∈ smallFirmware →
      Arrives SmallBoard.arrived SmallBoard.pending f := by
    intro f hf w
    obtain ⟨r, rfl⟩ := mem_smallFirmware hf
    exact ⟨[r], rfl, rfl⟩
  obtain ⟨-, harrived, hbytes, hcount, herrors⟩ :=
    firmware_accounts receiver_small (smallApp_actsBy _) (s := drippingShell)
      (rfl : shPortBaremetalInit (some 1) (some 2) none (some 3) none = .ok (smallWorld []).port)
      (rfl : (smallWorld []).board.arrived = (smallWorld []).board.pending) hops
      (rfl : smallRun = _) rfl
  exact ⟨harrived, hbytes ▸ hcount, herrors⟩

end Receive

/-! ## The transmit path -/

/-- A transmit path: `sent` are the bytes that the board has taken. The transmit callback reports
what it takes. -/
structure Sender (callbacks : BaremetalCallbacks W) (sent : W → List Byte) : Prop where
  write : ∀ fn ctx w data, (callbacks.write fn ctx w data).2.2 ≤ data.length ∧
    sent (callbacks.write fn ctx w data).1 = sent w ++ data.take (callbacks.write fn ctx w data).2.2
  read : ∀ fn ctx w, sent (callbacks.read fn ctx w).1 = sent w

section Transmit

variable {callbacks app} {sent : W → List Byte}

/-- The adapter reports what the board takes. -/
theorem Sender.truthful (hS : Sender callbacks sent) (p : Ptr) :
    Truthful ((baremetalEnv callbacks app).transport p) fun w => sent w.board where
  write := by
    intro write hwrite w data
    obtain rfl := Option.some.inj hwrite
    unfold shPortBaremetalTransportWrite
    cases w.port.write with
    | none => exact ⟨Nat.zero_le _, (List.append_nil _).symm⟩
    | some write =>
      obtain ⟨hle, hsent⟩ := hS.write write w.port.writeCtx w.board data
      dsimp only
      rw [if_neg (not_lt.mpr hle)]
      exact ⟨hle, hsent⟩
  flush := fun flush hflush => absurd hflush (Option.some_ne_none _).symm

/-- The steps of the board between the calls of a poll are calls of the receive callback. -/
private theorem effect_mem_pollCalls {read : Ptr} {n : ℕ} {st : BaremetalSys W}
    {g : BaremetalWorld W → BaremetalWorld W}
    (h : .api (.effect g) ∈ pollCalls callbacks app read n st) :
    g = BaremetalWorld.receive callbacks read := by
  induction n generalizing st with
  | zero => exact absurd h List.not_mem_nil
  | succ n ih =>
    unfold pollCalls at h
    rcases List.mem_cons.mp h with heq | hrest
    · exact ApiCall.effect.inj (Op.api.inj heq)
    · revert hrest
      cases (callbacks.read read st.io.port.readCtx st.io.board).2.1 with
      | byte =>
        intro hrest
        rcases List.mem_cons.mp hrest with heq | hrest
        · cases heq
        · exact ih hrest
      | noData => exact fun hrest => absurd hrest List.not_mem_nil
      | error => exact fun hrest => absurd hrest List.not_mem_nil
      | other code => exact fun hrest => absurd hrest List.not_mem_nil

/-- The steps of the board in a run are calls of the receive callback and those of the
application.

**Proof sketch.** Induction on the steps. A poll calls the receive callback, a call of the
application acts on the board or clears its counter, and no other step has an effect. -/
private theorem effect_mem_firmwareCalls {E : (W → W) → Prop} {ops : List (BaremetalOp W)}
    (hops : ∀ f, .act (.shell (.effect f)) ∈ ops → E f) {st : BaremetalSys W}
    {g : BaremetalWorld W → BaremetalWorld W}
    (h : .api (.effect g) ∈ firmwareCalls callbacks app st ops) :
    (∃ read, g = BaremetalWorld.receive callbacks read) ∨ BaremetalWorld.Act E g := by
  induction ops generalizing st with
  | nil => exact absurd h List.not_mem_nil
  | cons op ops ih =>
    unfold firmwareCalls at h
    rcases List.mem_append.mp h with hop | hrest
    · cases op with
      | poll maxBytes =>
        unfold BaremetalOp.calls at hop
        cases hread : st.io.port.read with
        | none =>
          rw [hread] at hop
          exact absurd hop List.not_mem_nil
        | some read =>
          rw [hread] at hop
          dsimp only at hop
          split_ifs at hop
          · exact absurd hop List.not_mem_nil
          · exact .inl ⟨read, effect_mem_pollCalls hop⟩
      | act call =>
        have hcall := (Op.api.inj (List.mem_singleton.mp hop)).symm
        refine .inr (BaremetalAppCall.act_of_effect hcall ?_)
        rintro f rfl
        exact hops f List.mem_cons_self
      | executeLine line => cases List.mem_singleton.mp hop
      | executeArgv argv => cases List.mem_singleton.mp hop
      | prompt => cases List.mem_singleton.mp hop
    · exact ih (fun f hf => hops f (List.mem_cons_of_mem op hf)) hrest

/-- **The transmit path of a firmware.** Over a transmit callback that may take texts in pieces or
not at all, but reports what it takes, the board has, after any run of a main loop and its
interrupts, a beginning of each text that was printed, in order, and nothing else.

**Proof sketch.** The run is a run of the shell over its calls (`run_firmwareCalls`), whose effects
leave what was sent alone. Over a truthful transport such a run delivers beginnings of the texts
(`Truthful.delivers`). -/
theorem firmware_delivered (hS : Sender callbacks sent)
    (hA : app.ActsBy fun f => ∀ w, sent (f w) = sent w) {s : Shell} {p : Ptr}
    (hp : s.cfg.transport = some p) (w : BaremetalWorld W) {ops : List (BaremetalOp W)}
    (hops : ∀ f, .act (.shell (.effect f)) ∈ ops → ∀ w, sent (f w) = sent w)
    {st : BaremetalSys W} (hst : st = (firmware callbacks app ⟨s, w, [], []⟩ ops).1) :
    ∃ taken, List.Forall₂ (· <+: ·) taken (outputTexts st.trace) ∧
      sent st.io.board = sent w.board ++ taken.flatten := by
  have hact : ∀ {g : BaremetalWorld W → BaremetalWorld W},
      BaremetalWorld.Act (fun f => ∀ w, sent (f w) = sent w) g →
      ∀ w, sent (g w).board = sent w.board := by
    intro g hg w
    cases hg with
    | clear => rfl
    | board hf => exact hf w.board
  have hread : ∀ read (w : BaremetalWorld W),
      sent (w.receive callbacks read).board = sent w.board := by
    intro read w
    have hboard : (w.receive callbacks read).board =
        (callbacks.read read w.port.readCtx w.board).1 := by
      unfold BaremetalWorld.receive
      split <;> rfl
    rw [hboard, hS.read]
  have hstart : (⟨s, w, [], []⟩ : BaremetalSys W).sh.cfg.transport = some p := hp
  have htruthful : Truthful ((baremetalEnv callbacks app).transport p) fun w => sent w.board :=
    hS.truthful p
  have hE : (baremetalEnv callbacks app).ActsBy fun g => ∀ w, sent (g w).board = sent w.board :=
    ⟨fun fn view w argv ctx g hg => hact (hA.env.handler fn view w argv ctx g hg),
      fun fn view w i j ctx g hg => hact (hA.env.completion fn view w i j ctx g hg)⟩
  have heffects : ∀ g, .api (.effect g) ∈ firmwareCalls callbacks app ⟨s, w, [], []⟩ ops →
      ∀ w, sent (g w).board = sent w.board := by
    intro g hg
    rcases effect_mem_firmwareCalls hops hg with ⟨read, rfl⟩ | hg
    · exact hread read
    · exact hact hg
  obtain ⟨-, texts, taken, htexts, hall, hsent⟩ :=
    (htruthful.delivers hstart fun _ hf => hf).run hE trivial _ heffects
  rw [(run_firmwareCalls callbacks app ⟨s, w, [], []⟩ ops).1, ← hst] at htexts hsent
  refine ⟨taken, ?_, hsent⟩
  rw [htexts]
  exact hall

/-- The transmitter of the small board. -/
private theorem sender_small : Sender smallCallbacks SmallBoard.sent where
  write := by
    intro fn ctx w data
    refine ⟨Nat.min_le_right _ _, ?_⟩
    show w.sent ++ data.take 4 = w.sent ++ data.take (min 4 data.length)
    rw [← List.take_eq_take_min]
  read := by
    intro fn ctx w
    unfold smallCallbacks
    dsimp only
    split <;> rfl

/-- What the small board has sent. -/
theorem firmware_delivered_small :
    ∃ taken, List.Forall₂ (· <+: ·) taken (outputTexts smallRun.1.trace) ∧
      smallRun.1.io.board.sent = [] ++ taken.flatten := by
  have hops : ∀ f, .act (.shell (.effect f)) ∈ smallFirmware →
      ∀ w : SmallBoard, (f w).sent = w.sent := by
    intro f hf w
    obtain ⟨r, rfl⟩ := mem_smallFirmware hf
    rfl
  exact firmware_delivered sender_small (smallApp_actsBy _)
    (rfl : drippingShell.cfg.transport = some 3) (smallWorld []) hops rfl

end Transmit

end PortableShell
