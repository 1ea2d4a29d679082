import PortableShell.World

set_option relaxedAutoImplicit false
set_option autoImplicit false

/-!
# The TCP port

`sh_port_tcp.c`: one shell for one connection. The socket lies behind three callbacks of the
owner; the output of the shell comes back to the session through its transport, so that output
may end the session while the shell is at work.

## Main definitions

* `PortableShell.TcpWorld` — a `sh_tcp_session_t` beside its shell, and the owner's world.
* `PortableShell.TcpCallbacks`, `PortableShell.TcpApp` — the code of the owner.
* `PortableShell.shTcpSessionInit`, `shTcpSessionPoll`, `shTcpSessionPrompt`,
  `shTcpSessionTransportWrite` — the functions of the source.
* `PortableShell.TcpReachable` — the sessions that a run of calls reaches.
* `PortableShell.TcpWorld.Invariant` — the properties that every step of a session keeps.

## Main results

* `PortableShell.TcpReachable.consistent` — a session is open exactly as long as the close
  callback has not run, and it runs once.
* `PortableShell.poll_terminal_iff` — when a poll that is told of the end of a connection ends
  the session.

## Design

The session is the outside world of its shell. A callback of the owner is a script: the calls of
`sh_tcp_session_close` and the steps of its own that it makes, and its result.
-/

namespace PortableShell

/-! ## Data -/

/-- A `sh_tcp_io_status_t`; `other` is any value outside the enumeration. -/
inductive TcpIoStatus
  | ok
  | wouldBlock
  | closed
  | error
  | other (code : ℤ)
  deriving DecidableEq

/-- A `sh_tcp_session_state_t`. -/
inductive TcpState
  | uninitialized
  | «open»
  | peerClosed
  | ioError
  | localClosed
  deriving DecidableEq

/-- A `sh_tcp_status_t`. -/
inductive TcpStatus
  | ok
  | idle
  | rxData
  | disconnected
  | errInvalidArgument
  | errClosed
  | errIo
  | errProtocol
  | errShell
  deriving DecidableEq

/-- `SH_TCP_RX_CHUNK_SIZE`, the size of `rx_buffer`. -/
def tcpRxChunkSize : ℕ := 128

/-- `sh_tcp_poll_result_t`. -/
structure TcpPollResult where
  status : TcpStatus
  bytesReceived : ℕ
  shellStatus : Status
  deriving DecidableEq

/-- What happens in the life of a session. -/
inductive TcpEvent
  /-- `sh_tcp_session_init` returned. -/
  | init (status : TcpStatus)
  /-- The read callback was invoked in this state. -/
  | read (state : TcpState)
  /-- The write callback was invoked in this state. -/
  | write (state : TcpState)
  /-- The close callback was invoked in this state. -/
  | close (state : TcpState)
  /-- The state was changed, other than by an initialization. -/
  | change (before after : TcpState)
  deriving DecidableEq

/-- A `sh_tcp_session_t` beside its shell, with the world of its owner. -/
structure TcpWorld (W : Type) where
  state : TcpState
  lastShellStatus : Status
  closeNotified : Bool
  rxBuffer : List Byte
  /-- What the callbacks act on: the connection and the state of the application. -/
  app : W
  /-- How often the close callback was invoked since `sh_tcp_session_init`. -/
  closeCalls : ℕ
  /-- What has happened to the session, newest first. Not part of the source. -/
  events : List TcpEvent

/-- A step of a callback: a call of `sh_tcp_session_close`, or something of its own. -/
inductive TcpCall (W : Type)
  | close
  | effect (f : W → W)

/-- What the read callback does and reports. -/
structure TcpRead (W : Type) where
  calls : List (TcpCall W)
  status : TcpIoStatus
  data : List Byte
  count : ℕ

/-- The callbacks of a session. -/
structure TcpCallbacks (W : Type) where
  /-- `sh_tcp_read_fn_t`, given the capacity of the buffer. -/
  read : W → ℕ → TcpRead W
  /-- `sh_tcp_write_fn_t`: what it does, its status and `*written`. -/
  write : W → List Byte → List (TcpCall W) × TcpIoStatus × ℕ
  /-- `sh_tcp_close_fn_t`. -/
  close : W → List (TcpCall W)

/-- A use of the API by a handler or provider of a session. -/
inductive TcpAppCall (W : Type)
  | shell (call : ApiCall W)
  | close

/-- The application code of a session. It may look at the state of the session. -/
structure TcpApp (W : Type) where
  shouldMaskArg : Ptr → CStr → ℕ → CStr → Option Ptr → Bool
  handler : Ptr → View → TcpState → W → List CStr → Option Ptr → List (TcpAppCall W) × Status
  completion : Ptr → View → TcpState → W → ℕ → ℕ → Option Ptr →
    List (TcpAppCall W) × Option CStr

variable {W : Type}

/-! ## The end of a session -/

namespace TcpWorld

/-- Record an event. -/
def record (w : TcpWorld W) (event : TcpEvent) : TcpWorld W :=
  { w with events := event :: w.events }

/-- Assign the state of an initialized session. -/
def setState (w : TcpWorld W) (state : TcpState) : TcpWorld W :=
  { w.record (.change w.state state) with state := state }

/-- `notify_close`; `onClose` is the invocation of the callback. -/
def notifyClose (onClose : TcpWorld W → TcpWorld W) (w : TcpWorld W) : TcpWorld W :=
  if w.closeNotified then w else onClose { w with closeNotified := true }

/-- `set_terminal_state`. -/
def setTerminalState (onClose : TcpWorld W → TcpWorld W) (w : TcpWorld W) (state : TcpState) :
    TcpWorld W :=
  if w.state = .open then notifyClose onClose (w.setState state) else w

/-- `sh_tcp_session_close`. -/
def sessionClose (onClose : TcpWorld W → TcpWorld W) (w : TcpWorld W) : TcpWorld W × TcpStatus :=
  if w.state = .uninitialized then (w, .errClosed)
  else
    (notifyClose onClose (if w.state = .open then w.setState .localClosed else w), .ok)

/-- A step of a callback. -/
def runCall (onClose : TcpWorld W → TcpWorld W) (w : TcpWorld W) : TcpCall W → TcpWorld W
  | .close => (w.sessionClose onClose).1
  | .effect f => { w with app := f w.app }

/-- `session->close(session->io_ctx)`. When the callback calls `sh_tcp_session_close`, the flag
`close_notified` is set already, and nothing is invoked a second time. -/
def onClose (callbacks : TcpCallbacks W) (w : TcpWorld W) : TcpWorld W :=
  (callbacks.close w.app).foldl (runCall id)
    { w.record (.close w.state) with closeCalls := w.closeCalls + 1 }

/-- The steps of another callback, in order. -/
def runCalls (callbacks : TcpCallbacks W) (w : TcpWorld W) (calls : List (TcpCall W)) :
    TcpWorld W :=
  calls.foldl (runCall (onClose callbacks)) w

end TcpWorld

/-! ## The session as the surroundings of its shell -/

variable (callbacks : TcpCallbacks W) (app : TcpApp W)

/-- The part of `sh_tcp_session_transport_write` behind the call of the write callback. -/
def finishWrite (w : TcpWorld W) (status : TcpIoStatus) (written len : ℕ) :
    TcpWorld W × TransportStatus × ℕ :=
  let terminal := w.setTerminalState (TcpWorld.onClose callbacks)
  if written > len then (terminal .ioError, .errProtocol, 0)
  else
    match status with
    | .ok => if written = 0 then (terminal .ioError, .errNoProgress, written) else (w, .ok, written)
    | .wouldBlock => (w, .wouldBlock, written)
    | .closed => (terminal .peerClosed, .errIo, written)
    | .error => (terminal .ioError, .errIo, written)
    | .other _ => (terminal .ioError, .errProtocol, written)

/-- `sh_tcp_session_transport_write`. -/
def shTcpSessionTransportWrite (w : TcpWorld W) (data : List Byte) :
    TcpWorld W × TransportStatus × ℕ :=
  if w.state ≠ .open then (w, .errIo, 0)
  else if data.length = 0 then (w, .ok, 0)
  else
    let r := callbacks.write w.app data
    finishWrite callbacks
      ((w.record (.write w.state)).runCalls callbacks r.1) r.2.1 r.2.2 data.length

/-- A use of the API of a shell, as its session sees it. -/
def TcpAppCall.toApiCall : TcpAppCall W → ApiCall (TcpWorld W)
  | .close => .effect fun w => (w.sessionClose (TcpWorld.onClose callbacks)).1
  | .shell call =>
    match call with
    | .write data => .write data
    | .flush => .flush
    | .historyClear => .historyClear
    | .setEchoEnabled enabled => .setEchoEnabled enabled
    | .registerCommands commands => .registerCommands commands
    | .registerCommandSets sets => .registerCommandSets sets
    | .start => .start
    | .stop => .stop
    | .effect f => .effect fun w => { w with app := f w.app }

/-- The surroundings of the shell of a session. -/
def tcpEnv : Env (TcpWorld W) where
  output := fun _ _ w _ => w
  transport := fun _ => ⟨some (shTcpSessionTransportWrite callbacks), none⟩
  shouldMaskArg := app.shouldMaskArg
  handler := fun fn view w argv ctx =>
    let r := app.handler fn view w.state w.app argv ctx
    (r.1.map (TcpAppCall.toApiCall callbacks), r.2)
  completion := fun fn view w argIndex index ctx =>
    let r := app.completion fn view w.state w.app argIndex index ctx
    (r.1.map (TcpAppCall.toApiCall callbacks), r.2)

/-- A session: its shell in these surroundings. -/
abbrev TcpSession (W : Type) := Sys (TcpWorld W)

/-- Update what lies beside the shell. -/
def TcpSession.update (st : TcpSession W) (f : TcpWorld W → TcpWorld W) : TcpSession W :=
  { st with io := f st.io }

/-! ## The functions of the port -/

/-- `sh_tcp_session_config_t`. The three callbacks are not NULL. -/
structure TcpConfig where
  shellConfig : Option Config
  storage : Option Storage
  commands : CArray Cmd
  authUserCtx : Option Ptr

/-- The configuration of the shell of a session whose transport lies at `transport`. -/
def TcpConfig.forShell (config : TcpConfig) (transport : Ptr) : Config :=
  { config.shellConfig.getD shDefaultConfig with
    write := none
    writeCtx := none
    transport := some transport
    userCtx := config.authUserCtx }

/-- `sh_tcp_session_init`: a session, or the status and `last_shell_status` of a session that
stays uninitialized. -/
def shTcpSessionInit (config : TcpConfig) (transport : Ptr) (owner : W) :
    Except (TcpStatus × Status) (TcpSession W) :=
  if config.storage.isNone ∨ (config.commands.isNull ∧ config.commands.count ≠ 0) then
    .error (.errInvalidArgument, Status.ok)
  else
    match shInitStatic (some (config.forShell transport)) config.storage with
    | .error status => .error (.errShell, status)
    | .ok shell =>
      let r := shRegisterCommands shell config.commands
      if r.2 ≠ Status.ok then .error (.errShell, r.2)
      else
        .ok ⟨r.1, ⟨.open, Status.ok, false, List.replicate tcpRxChunkSize 0, owner, 0, []⟩, [], []⟩

/-- `sh_tcp_session_prompt`. -/
def shTcpSessionPrompt (st : TcpSession W) : TcpSession W × Status :=
  if st.io.state ≠ .open then (st, Status.errTransport)
  else shPuts (tcpEnv callbacks app) st st.sh.cfg.promptText

/-- `sh_tcp_session_close`. -/
def shTcpSessionClose (st : TcpSession W) : TcpSession W × TcpStatus :=
  let r := st.io.sessionClose (TcpWorld.onClose callbacks)
  (st.update fun _ => r.1, r.2)

/-- What the read callback reports to a poll. -/
def TcpSession.received (st : TcpSession W) : TcpRead W := callbacks.read st.io.app tcpRxChunkSize

/-- The session when the read callback has returned. -/
def TcpSession.afterRead (st : TcpSession W) : TcpSession W :=
  let r := st.received callbacks
  st.update fun w =>
    { (w.record (.read w.state)).runCalls callbacks r.calls with
      rxBuffer := Mem.store w.rxBuffer 0 r.data }

/-- The `switch` of `sh_tcp_session_poll`. -/
def finishPoll (st : TcpSession W) (status : TcpIoStatus) (count : ℕ) (shellStatus : Status) :
    TcpSession W × TcpPollResult :=
  let terminal := fun state =>
    st.update fun w => w.setTerminalState (TcpWorld.onClose callbacks) state
  match status with
  | .ok =>
    if count = 0 then (terminal .ioError, ⟨.errProtocol, 0, shellStatus⟩)
    else (st, ⟨.rxData, count, shellStatus⟩)
  | .wouldBlock =>
    if count = 0 then (st, ⟨.idle, 0, shellStatus⟩) else (st, ⟨.rxData, count, shellStatus⟩)
  | .closed => (terminal .peerClosed, ⟨.disconnected, count, shellStatus⟩)
  | .error => (terminal .ioError, ⟨.errIo, count, shellStatus⟩)
  | .other _ => (terminal .ioError, ⟨.errProtocol, count, shellStatus⟩)

/-- The shell when `sh_input` has processed the confirmed bytes, and its status. -/
def TcpSession.fed (st : TcpSession W) : TcpSession W × Status :=
  let read := st.afterRead callbacks
  shInput (tcpEnv callbacks app) read (read.io.rxBuffer.take (st.received callbacks).count)

/-- `sh_tcp_session_poll`. -/
def shTcpSessionPoll (st : TcpSession W) : TcpSession W × TcpPollResult :=
  if st.io.state ≠ .open then (st, ⟨.errClosed, 0, st.io.lastShellStatus⟩)
  else
    let r := st.received callbacks
    let read := st.afterRead callbacks
    if r.count > tcpRxChunkSize then
      (read.update fun w => w.setTerminalState (TcpWorld.onClose callbacks) .ioError,
        ⟨.errProtocol, 0, read.io.lastShellStatus⟩)
    else if r.count ≠ 0 then
      let fed := st.fed callbacks app
      let next := fed.1.update fun w => { w with lastShellStatus := fed.2 }
      if fed.2 ≠ Status.ok then (next, ⟨.errShell, r.count, fed.2⟩)
      else if next.io.state ≠ .open then (next, ⟨.errIo, r.count, fed.2⟩)
      else finishPoll callbacks next r.status r.count fed.2
    else finishPoll callbacks read r.status r.count Status.ok

/-! ## Runs -/

/-- A call that the owner of a session makes. -/
inductive TcpOp (W : Type)
  | poll
  | prompt
  | close
  /-- A call of the API of the shell. -/
  | shell (call : ApiCall W)

/-- What a call does to the session. -/
def TcpOp.apply (st : TcpSession W) : TcpOp W → TcpSession W
  | .poll => (shTcpSessionPoll callbacks app st).1
  | .prompt => (shTcpSessionPrompt callbacks app st).1
  | .close => (shTcpSessionClose callbacks st).1
  | .shell call => runCall (tcpEnv callbacks app) st ((TcpAppCall.shell call).toApiCall callbacks)

/-- The sessions that a run of calls reaches from a successful initialization. -/
inductive TcpReachable : TcpSession W → Prop
  | init (config : TcpConfig) (transport : Ptr) (owner : W) (st : TcpSession W)
      (h : shTcpSessionInit config transport owner = .ok st) : TcpReachable st
  | step {st : TcpSession W} (op : TcpOp W) (h : TcpReachable st) :
      TcpReachable (op.apply callbacks app st)

/-! ## The life of a session -/

namespace TcpWorld

/-- The state of an initialized session agrees with the close callback: it has run, and once,
exactly when the session is not open any more. -/
structure Consistent (w : TcpWorld W) : Prop where
  initialized : w.state ≠ .uninitialized
  notified : w.closeNotified = true ↔ w.state ≠ .open
  calls : w.closeCalls = if w.closeNotified then 1 else 0

/-- The session has ended and the close callback was invoked. -/
structure Ended (w : TcpWorld W) : Prop where
  terminal : w.state = .peerClosed ∨ w.state = .ioError ∨ w.state = .localClosed
  closed : w.closeCalls = 1

/-- A consistent session has ended exactly when it is not open. -/
private theorem Consistent.ended_iff {w : TcpWorld W} (h : w.Consistent) :
    w.Ended ↔ w.state ≠ .open := by
  constructor
  · rintro ⟨hterminal, -⟩ hopen
    rw [hopen] at hterminal
    rcases hterminal with hs | hs | hs <;> cases hs
  · intro hopen
    refine ⟨?_, ?_⟩
    · have hinit := h.initialized
      cases hs : w.state <;> simp_all
    · rw [h.calls, if_pos (h.notified.mpr hopen)]

/-- An initialized session that has ended. -/
def Over (state : TcpState) : Prop := state ≠ .open ∧ state ≠ .uninitialized

/-- The session when it has ended in `state` and the close callback has returned. -/
def ended (w : TcpWorld W) (state : TcpState) (owner : W) : TcpWorld W where
  state := state
  lastShellStatus := w.lastShellStatus
  closeNotified := true
  rxBuffer := w.rxBuffer
  app := owner
  closeCalls := w.closeCalls + 1
  events := .close state :: .change w.state state :: w.events

/-- What lies beside the state, the flag, the count and the events is not looked at. -/
structure SameLife (w w' : TcpWorld W) : Prop where
  state : w'.state = w.state
  notified : w'.closeNotified = w.closeNotified
  calls : w'.closeCalls = w.closeCalls
  events : w'.events = w.events

/-- A property of sessions that every step of a session keeps: the owner's own steps, the calls of
its callbacks while the session is open, and the end of an open session. -/
structure Invariant (P : TcpWorld W → Prop) : Prop where
  notified : ∀ {w}, P w → (w.closeNotified = true ↔ Over w.state)
  frame : ∀ {w w'}, P w → SameLife w w' → P w'
  read : ∀ {w}, P w → w.state = .open → P (w.record (.read .open))
  write : ∀ {w}, P w → w.state = .open → P (w.record (.write .open))
  ended : ∀ {w}, P w → w.state = .open → ∀ state, Over state → ∀ owner, P (w.ended state owner)

/-- Once the callback was invoked, closing the session again does nothing. -/
private theorem sessionClose_of_notified {w : TcpWorld W} {f : TcpWorld W → TcpWorld W}
    (hnotified : w.closeNotified = true) (hopen : w.state ≠ .open) : (w.sessionClose f).1 = w := by
  unfold sessionClose notifyClose
  split_ifs <;> rfl

/-- The close callback leaves the session alone, but for its own invocation. -/
private theorem onClose_eq (w : TcpWorld W) (hnotified : w.closeNotified = true)
    (hopen : w.state ≠ .open) :
    ∃ owner, w.onClose callbacks =
      { w.record (.close w.state) with closeCalls := w.closeCalls + 1, app := owner } := by
  refine List.foldlRecOn (motive := fun w' : TcpWorld W => ∃ owner, w' =
    { w.record (.close w.state) with closeCalls := w.closeCalls + 1, app := owner }) _ _
    ⟨w.app, rfl⟩ ?_
  rintro _ ⟨owner, rfl⟩ call _
  cases call with
  | close => exact ⟨owner, sessionClose_of_notified hnotified hopen⟩
  | effect f => exact ⟨f owner, rfl⟩

/-- An open session that leaves its state notifies its owner. -/
private theorem notifyClose_setState {w : TcpWorld W} (hnotified : w.closeNotified = false)
    {state : TcpState} (hstate : Over state) :
    ∃ owner, (w.setState state).notifyClose (onClose callbacks) = w.ended state owner := by
  have hnot : ¬(w.setState state).closeNotified = true := by
    show ¬w.closeNotified = true
    rw [hnotified]
    exact Bool.false_ne_true
  unfold notifyClose
  rw [if_neg hnot]
  exact onClose_eq callbacks { w.setState state with closeNotified := true } rfl hstate.1

/-- A broken connection is an end. -/
private theorem over_ioError : Over .ioError := ⟨by decide, by decide⟩

/-- A connection closed by its peer is an end. -/
private theorem over_peerClosed : Over .peerClosed := ⟨by decide, by decide⟩

/-- A connection closed by its owner is an end. -/
private theorem over_localClosed : Over .localClosed := ⟨by decide, by decide⟩

namespace Invariant

variable {P : TcpWorld W → Prop} (hP : Invariant P) {w : TcpWorld W}

include hP

/-- An open session is not notified yet. -/
private theorem not_notified (h : P w) (hopen : w.state = .open) : w.closeNotified = false := by
  rw [Bool.eq_false_iff]
  exact fun hn => ((hP.notified h).mp hn).1 hopen

/-- **Ending a session**: an open session becomes an ended one, another one stays as it is. -/
theorem setTerminalState_cases (h : P w) {state : TcpState} (hstate : Over state) :
    (w.state = .open ∧
        ∃ owner, w.setTerminalState (onClose callbacks) state = w.ended state owner) ∨
      (w.state ≠ .open ∧ w.setTerminalState (onClose callbacks) state = w) := by
  unfold setTerminalState
  split_ifs with hopen
  · exact .inl ⟨hopen, notifyClose_setState callbacks (hP.not_notified h hopen) hstate⟩
  · exact .inr ⟨hopen, rfl⟩

/-- **Closing a session**: an open session becomes an ended one, another one stays as it is. -/
theorem sessionClose_cases (h : P w) :
    (w.state = .open ∧
        ∃ owner, (w.sessionClose (onClose callbacks)).1 = w.ended .localClosed owner) ∨
      (w.state ≠ .open ∧ (w.sessionClose (onClose callbacks)).1 = w) := by
  by_cases hopen : w.state = .open
  · have hinit : w.state ≠ .uninitialized := by rw [hopen]; decide
    refine .inl ⟨hopen, ?_⟩
    unfold sessionClose
    rw [if_neg hinit, if_pos hopen]
    exact notifyClose_setState callbacks (hP.not_notified h hopen) over_localClosed
  · refine .inr ⟨hopen, ?_⟩
    by_cases hinit : w.state = .uninitialized
    · unfold sessionClose
      rw [if_pos hinit]
    · exact sessionClose_of_notified ((hP.notified h).mpr ⟨hopen, hinit⟩) hopen

/-- `set_terminal_state` keeps an invariant. -/
theorem setTerminalState (h : P w) {state : TcpState} (hstate : Over state) :
    P (w.setTerminalState (onClose callbacks) state) := by
  rcases hP.setTerminalState_cases callbacks h hstate with
    ⟨hopen, owner, hw⟩ | ⟨-, hw⟩
  · rw [hw]
    exact hP.ended h hopen state hstate owner
  · rw [hw]
    exact h

/-- `sh_tcp_session_close` keeps an invariant. -/
theorem sessionClose (h : P w) : P (w.sessionClose (onClose callbacks)).1 := by
  rcases hP.sessionClose_cases callbacks h with ⟨hopen, owner, hw⟩ | ⟨-, hw⟩
  · rw [hw]
    exact hP.ended h hopen _ over_localClosed owner
  · rw [hw]
    exact h

/-- A callback keeps an invariant. -/
theorem runCalls (h : P w) (calls : List (TcpCall W)) : P (w.runCalls callbacks calls) := by
  refine List.foldlRecOn (motive := P) calls _ h ?_
  intro w' hw' call _
  cases call with
  | close => exact hP.sessionClose callbacks hw'
  | effect f => exact hP.frame hw' ⟨rfl, rfl, rfl, rfl⟩

/-- Output of the shell keeps an invariant.

**Proof sketch.** The call is recorded, the callback runs, and the answer ends the session or not.
Each of these is a clause of the invariant. -/
theorem transportWrite (h : P w) (data : List Byte) :
    P (shTcpSessionTransportWrite callbacks w data).1 := by
  unfold shTcpSessionTransportWrite
  split_ifs with hopen
  · exact h
  · exact h
  · have hwrite : P (w.record (.write w.state)) := by
      rw [not_not.mp hopen]
      exact hP.write h (not_not.mp hopen)
    have hw := hP.runCalls callbacks hwrite (callbacks.write w.app data).1
    have herror := hP.setTerminalState callbacks hw over_ioError
    have hclosed := hP.setTerminalState callbacks hw over_peerClosed
    unfold finishWrite
    dsimp only
    by_cases hlen : (callbacks.write w.app data).2.2 > data.length
    · rw [if_pos hlen]
      exact herror
    · rw [if_neg hlen]
      cases (callbacks.write w.app data).2.1 with
      | ok =>
        dsimp only
        split_ifs
        · exact herror
        · exact hw
      | wouldBlock => exact hw
      | closed => exact hclosed
      | error => exact herror
      | other code => exact herror

/-- What a handler does to the world keeps an invariant. -/
theorem appCall {call : TcpAppCall W} {f : TcpWorld W → TcpWorld W}
    (hf : call.toApiCall callbacks = .effect f) (h : P w) : P (f w) := by
  cases call with
  | close =>
    cases hf
    exact hP.sessionClose callbacks h
  | shell call =>
    cases call with
    | effect g =>
      cases hf
      exact hP.frame h ⟨rfl, rfl, rfl, rfl⟩
    | write data => cases hf
    | flush => cases hf
    | historyClear => cases hf
    | setEchoEnabled enabled => cases hf
    | registerCommands commands => cases hf
    | registerCommandSets sets => cases hf
    | start => cases hf
    | stop => cases hf

/-- The surroundings of a session keep an invariant. -/
theorem keepsWorld : KeepsWorld (tcpEnv callbacks app) P where
  output := fun _ _ _ _ h => h
  write := by
    rintro t write w data hwrite h
    cases hwrite
    exact hP.transportWrite callbacks h data
  flush := by
    rintro t flush w hflush
    cases hflush
  handler := by
    intro fn view w argv ctx f hf w' hw'
    obtain ⟨call, -, hcall⟩ := List.mem_map.mp hf
    exact hP.appCall callbacks hcall hw'
  completion := by
    intro fn view w i j ctx f hf w' hw'
    obtain ⟨call, -, hcall⟩ := List.mem_map.mp hf
    exact hP.appCall callbacks hcall hw'

/-- Reading keeps an invariant. -/
theorem afterRead {st : TcpSession W} (h : P st.io) (hopen : st.io.state = .open) :
    P (st.afterRead callbacks).io := by
  have hread : P (st.io.record (.read st.io.state)) := by
    rw [hopen]
    exact hP.read h hopen
  exact hP.frame (hP.runCalls callbacks hread (st.received callbacks).calls)
    ⟨rfl, rfl, rfl, rfl⟩

/-- Feeding the confirmed bytes keeps an invariant. -/
theorem fed {st : TcpSession W} (h : P st.io) (hopen : st.io.state = .open) :
    P (st.fed callbacks app).1.io :=
  (hP.keepsWorld callbacks app).shInput (hP.afterRead callbacks h hopen) _

/-- The `switch` of a poll keeps an invariant. -/
theorem finishPoll {st : TcpSession W} (h : P st.io) (status : TcpIoStatus) (count : ℕ)
    (shellStatus : Status) :
    P (PortableShell.finishPoll callbacks st status count shellStatus).1.io := by
  have herror := hP.setTerminalState callbacks h over_ioError
  have hclosed := hP.setTerminalState callbacks h over_peerClosed
  unfold PortableShell.finishPoll
  cases status with
  | ok =>
    dsimp only
    split_ifs
    · exact herror
    · exact h
  | wouldBlock =>
    dsimp only
    split_ifs <;> exact h
  | closed => exact hclosed
  | error => exact herror
  | other code => exact herror

/-- **A poll** keeps an invariant. -/
theorem poll {st : TcpSession W} (h : P st.io) :
    P (shTcpSessionPoll callbacks app st).1.io := by
  unfold shTcpSessionPoll
  split_ifs with hopen
  · exact h
  · have hread := hP.afterRead callbacks h (not_not.mp hopen)
    have hfed := hP.fed callbacks app h (not_not.mp hopen)
    dsimp only
    split_ifs
    · exact hP.setTerminalState callbacks hread over_ioError
    · exact hP.frame hfed ⟨rfl, rfl, rfl, rfl⟩
    · exact hP.frame hfed ⟨rfl, rfl, rfl, rfl⟩
    · refine hP.finishPoll callbacks ?_ _ _ _
      exact hP.frame hfed ⟨rfl, rfl, rfl, rfl⟩
    · exact hP.finishPoll callbacks hread _ _ _

/-- **A call of the owner** keeps an invariant. -/
theorem apply {st : TcpSession W} (op : TcpOp W) (h : P st.io) :
    P (op.apply callbacks app st).io := by
  cases op with
  | poll => exact hP.poll callbacks app h
  | prompt =>
    unfold TcpOp.apply shTcpSessionPrompt
    dsimp only
    split_ifs
    · exact h
    · exact (hP.keepsWorld callbacks app).backendWrite st.sh.cfg h _
  | close => exact hP.sessionClose callbacks h
  | shell call =>
    exact (hP.keepsWorld callbacks app).runCall (fun f hf w hw => hP.appCall callbacks hf hw) h

end Invariant

/-- **Consistency is an invariant.** -/
theorem consistent_invariant : Invariant (W := W) Consistent where
  notified := fun h => ⟨fun hn => ⟨h.notified.mp hn, h.initialized⟩, fun ho => h.notified.mpr ho.1⟩
  frame := by
    intro w w' h hw
    refine ⟨?_, ?_, ?_⟩
    · rw [hw.state]
      exact h.initialized
    · rw [hw.state, hw.notified]
      exact h.notified
    · rw [hw.calls, hw.notified]
      exact h.calls
  read := fun h _ => ⟨h.initialized, h.notified, h.calls⟩
  write := fun h _ => ⟨h.initialized, h.notified, h.calls⟩
  ended := by
    intro w h hopen state hstate owner
    have hnotified : w.closeNotified = false := by
      rw [Bool.eq_false_iff]
      exact fun hn => h.notified.mp hn hopen
    have hcalls : w.closeCalls = 0 := by
      rw [h.calls, hnotified]
      rfl
    refine ⟨hstate.2, ⟨fun _ => hstate.1, fun _ => rfl⟩, ?_⟩
    show w.closeCalls + 1 = 1
    rw [hcalls]

/-- Ending a session leaves it in another state than the open one. -/
private theorem Consistent.setTerminalState_ne_open {w : TcpWorld W} (h : w.Consistent)
    {state : TcpState}
    (hstate : Over state) : (w.setTerminalState (onClose callbacks) state).state ≠ .open := by
  rcases consistent_invariant.setTerminalState_cases callbacks h hstate with
    ⟨-, owner, hw⟩ | ⟨hopen, hw⟩
  · rw [hw]
    exact hstate.1
  · rw [hw]
    exact hopen

end TcpWorld

/-- The `switch` of a poll ends the session when it is told of the end of the connection. -/
private theorem finishPoll_ne_open {st : TcpSession W} (h : st.io.Consistent) {status : TcpIoStatus}
    {count : ℕ} (hblock : status ≠ .wouldBlock) (hzero : status = .ok → count = 0)
    (shellStatus : Status) :
    (finishPoll callbacks st status count shellStatus).1.io.state ≠ .open := by
  have herror := h.setTerminalState_ne_open callbacks TcpWorld.over_ioError
  have hclosed := h.setTerminalState_ne_open callbacks TcpWorld.over_peerClosed
  unfold finishPoll
  cases status with
  | ok =>
    rw [hzero rfl]
    exact herror
  | wouldBlock => exact absurd rfl hblock
  | closed => exact hclosed
  | error => exact herror
  | other code => exact herror

/-- **A reachable session is consistent**: the close callback has run, and once, exactly when the
session is not open any more. -/
theorem TcpReachable.consistent {st : TcpSession W} (h : TcpReachable callbacks app st) :
    st.io.Consistent := by
  induction h with
  | init config transport owner st hinit =>
    unfold shTcpSessionInit at hinit
    split_ifs at hinit
    cases hshell : shInitStatic (some (config.forShell transport)) config.storage with
    | error status =>
      rw [hshell] at hinit
      cases hinit
    | ok shell =>
      rw [hshell] at hinit
      dsimp only at hinit
      split_ifs at hinit
      cases hinit
      exact ⟨TcpState.noConfusion, by simp, rfl⟩
  | step op _ ih => exact TcpWorld.consistent_invariant.apply callbacks app op ih

/-! ## Disconnects -/

/-- The read callback reports the end of the connection, or breaks its contract. -/
def TcpRead.Disconnects (r : TcpRead W) : Prop :=
  r.status = .closed ∨ r.status = .error ∨ (∃ code, r.status = .other code) ∨
    (r.status = .ok ∧ r.count = 0) ∨ r.count > tcpRxChunkSize

/-- The shell fails on the confirmed bytes, and the session is still open after them. -/
def TcpSession.FailsOpen (st : TcpSession W) : Prop :=
  0 < (st.received callbacks).count ∧ (st.received callbacks).count ≤ tcpRxChunkSize ∧
    (st.fed callbacks app).2 ≠ Status.ok ∧ (st.fed callbacks app).1.io.state = .open

/-- **A disconnect that a poll is told of** ends the session, with the close callback invoked, if
and only if the shell does not fail on the confirmed bytes and leave the session open.

**Proof sketch.** Behind the two checks that follow `sh_input` every report of the end of the
connection reaches `set_terminal_state`. The first of them returns when the shell failed, before
the status of the connection is looked at. -/
theorem poll_terminal_iff {st : TcpSession W} (hreach : TcpReachable callbacks app st)
    (hopen : st.io.state = .open) (hreport : (st.received callbacks).Disconnects) :
    (shTcpSessionPoll callbacks app st).1.io.Ended ↔ ¬st.FailsOpen callbacks app := by
  have hconsistent := hreach.consistent
  have hread := TcpWorld.consistent_invariant.afterRead callbacks hconsistent hopen
  have hfed := TcpWorld.consistent_invariant.fed callbacks app hconsistent hopen
  have hnext : ((st.fed callbacks app).1.update fun w =>
      { w with lastShellStatus := (st.fed callbacks app).2 }).io.Consistent :=
    TcpWorld.consistent_invariant.frame hfed ⟨rfl, rfl, rfl, rfl⟩
  rw [(TcpWorld.consistent_invariant.poll callbacks app hconsistent).ended_iff]
  have hblock : (st.received callbacks).count ≤ tcpRxChunkSize →
      (st.received callbacks).status ≠ .wouldBlock := by
    intro hle hstatus
    rcases hreport with h | h | ⟨code, h⟩ | ⟨h, -⟩ | h
    · rw [hstatus] at h
      cases h
    · rw [hstatus] at h
      cases h
    · rw [hstatus] at h
      cases h
    · rw [hstatus] at h
      cases h
    · omega
  have hzero : (st.received callbacks).count ≤ tcpRxChunkSize →
      (st.received callbacks).status = .ok → (st.received callbacks).count = 0 := by
    intro hle hstatus
    rcases hreport with h | h | ⟨code, h⟩ | ⟨-, h⟩ | h
    · rw [hstatus] at h
      cases h
    · rw [hstatus] at h
      cases h
    · rw [hstatus] at h
      cases h
    · exact h
    · omega
  unfold shTcpSessionPoll TcpSession.FailsOpen
  rw [if_neg (not_not.mpr hopen)]
  dsimp only
  split_ifs with hlarge hcount hfail hended
  · have hend := hread.setTerminalState_ne_open callbacks TcpWorld.over_ioError
    exact iff_of_true hend fun h => absurd h.2.1 (by omega)
  · show (st.fed callbacks app).1.io.state ≠ .open ↔ _
    have hpos : 0 < (st.received callbacks).count := Nat.pos_of_ne_zero hcount
    simp [hpos, not_lt.mp hlarge, hfail]
  · exact iff_of_true hended fun h => hended h.2.2.2
  · have hend := finishPoll_ne_open callbacks hnext (hblock (not_lt.mp hlarge))
      (hzero (not_lt.mp hlarge)) (st.fed callbacks app).2
    exact iff_of_true hend fun h => hfail h.2.2.1
  · have hend := finishPoll_ne_open callbacks hread (hblock (not_lt.mp hlarge))
      (hzero (not_lt.mp hlarge)) Status.ok
    exact iff_of_true hend fun h => absurd h.1 (by omega)

/-- A peer that closes the connection behind its last bytes. -/
def lastBytes (data : List Byte) : TcpCallbacks Unit where
  read := fun _ _ => ⟨[], .closed, data, data.length⟩
  write := fun _ data => ([], .ok, data.length)
  close := fun _ => []

/-- Application code that does nothing. -/
def idleTcpApp : TcpApp Unit where
  shouldMaskArg := fun _ _ _ _ _ => false
  handler := fun _ _ _ _ _ _ => ([], Status.ok)
  completion := fun _ _ _ _ _ _ _ => ([], none)

/-- The small shell as the shell of a session. -/
def smallTcpConfig : TcpConfig := ⟨some smallConfig, some smallStorage, .null 0, none⟩

/-- The session that `sh_tcp_session_init` sets up. -/
def smallSession : TcpSession Unit :=
  ⟨(initialShell ((smallTcpConfig.forShell 0).completed smallStorage) smallStorage).setCommands [],
    ⟨.open, Status.ok, false, List.replicate tcpRxChunkSize 0, (), 0, []⟩, [], []⟩

/-- The initialization succeeds. -/
private theorem smallSession_init : shTcpSessionInit smallTcpConfig 0 () = .ok smallSession := rfl

/-- An empty line and the end of the connection. -/
theorem poll_terminal_small :
    (shTcpSessionPoll (lastBytes [chr '\r']) idleTcpApp smallSession).1.io.Ended := by
  refine (poll_terminal_iff (lastBytes [chr '\r']) idleTcpApp
    (.init smallTcpConfig 0 () smallSession smallSession_init) rfl (.inl rfl)).mpr ?_
  intro hfails
  exact hfails.2.2.1 (by decide +kernel)

/-- **A swallowed disconnect**: an unknown command and the end of the connection. -/
theorem poll_not_terminal_small :
    TcpReachable (lastBytes [chr 'x', chr '\r']) idleTcpApp smallSession ∧
      smallSession.io.state = .open ∧
      (smallSession.received (lastBytes [chr 'x', chr '\r'])).Disconnects ∧
      ¬(shTcpSessionPoll (lastBytes [chr 'x', chr '\r']) idleTcpApp smallSession).1.io.Ended := by
  refine ⟨.init smallTcpConfig 0 () smallSession smallSession_init, rfl, .inl rfl, ?_⟩
  intro hended
  have hopen : (shTcpSessionPoll (lastBytes [chr 'x', chr '\r']) idleTcpApp
      smallSession).1.io.closeCalls = 0 := by decide +kernel
  rw [hended.closed] at hopen
  cases hopen

end PortableShell
