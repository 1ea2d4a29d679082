import PortableShell.Devices
import PortableShell.Port.Tcp

set_option relaxedAutoImplicit false
set_option autoImplicit false

/-!
# The byte streams of a TCP session

TCP delivers a stream of bytes in pieces that depend on the network. A session that stays open
cannot be told from one that gets the same bytes in other pieces: only the order of the bytes and
of the calls that its owner makes between them matters. In the other direction the peer gets a
beginning of each text that is printed.

## Main definitions

* `PortableShell.Piece`, `Connection` — what the network delivers, beside the world of an owner.
* `PortableShell.tcpRun` — what the calls of an owner do to a session.
* `PortableShell.typedOps` — the calls of the shell that these calls come to.
* `PortableShell.Alongside` — a session and the shell that gets the bytes directly.
* `PortableShell.TcpCallbacks.Sender` — callbacks that report what the connection takes.

## Main results

* `PortableShell.Alongside.run` — a session runs like the shell that gets the bytes directly.
* `PortableShell.tcp_segmentation` — the pieces in which the bytes come do not matter.
* `PortableShell.tcp_delivered` — what the peer gets over a run.
-/

namespace PortableShell

variable {X : Type}

/-! ## Connections -/

/-- What one call of the read callback delivers. The callback may report with the bytes that
reading on would block. -/
structure Piece where
  data : List Byte
  blocked : Bool
  fits : data.length ≤ tcpRxChunkSize

/-- The status that the read callback reports with a piece. -/
def Piece.status (piece : Piece) : TcpIoStatus :=
  if piece.blocked ∨ piece.data = [] then .wouldBlock else .ok

/-- The world of an owner and the pieces that the network is to deliver. -/
abbrev Connection (X : Type) := X × List Piece

/-- A step of a callback that leaves the network alone. -/
def TcpCall.beside : TcpCall X → TcpCall (Connection X)
  | .close => .close
  | .effect f => .effect (Prod.map f id)

/-- The callbacks of an owner, with a read callback that delivers the pieces of a connection. -/
def TcpCallbacks.beside (callbacks : TcpCallbacks X) : TcpCallbacks (Connection X) where
  read := fun c _ =>
    match c.2 with
    | [] => ⟨[], .wouldBlock, [], 0⟩
    | piece :: rest =>
      ⟨[.effect fun c => (c.1, rest)], piece.status, piece.data, piece.data.length⟩
  write := fun c data =>
    let r := callbacks.write c.1 data
    (r.1.map TcpCall.beside, r.2)
  close := fun c => (callbacks.close c.1).map TcpCall.beside

/-- A use of the API that leaves the network alone. -/
def TcpAppCall.beside : TcpAppCall X → TcpAppCall (Connection X)
  | .shell call => .shell (call.beside (List Piece))
  | .close => .close

/-- Application code that leaves the network to the session. -/
def TcpApp.beside (app : TcpApp X) : TcpApp (Connection X) where
  shouldMaskArg := app.shouldMaskArg
  handler := fun fn view state c argv ctx =>
    let r := app.handler fn view state c.1 argv ctx
    (r.1.map TcpAppCall.beside, r.2)
  completion := fun fn view state c argIndex index ctx =>
    let r := app.completion fn view state c.1 argIndex index ctx
    (r.1.map TcpAppCall.beside, r.2)

/-- A call of an owner that leaves the network to the session. -/
def TcpOp.beside : TcpOp X → TcpOp (Connection X)
  | .poll => .poll
  | .prompt => .prompt
  | .close => .close
  | .shell call => .shell (call.beside (List Piece))

/-- What the calls of an owner do to a session. -/
def tcpRun {W : Type} (callbacks : TcpCallbacks W) (app : TcpApp W) (st : TcpSession W)
    (ops : List (TcpOp W)) : TcpSession W :=
  ops.foldl (fun st op => op.apply callbacks app st) st

/-- The calls of the shell that a call of an owner comes to, and the pieces that are left: a poll
hands the bytes of the next piece to the shell. -/
def TcpOp.typed (callbacks : TcpCallbacks X) (pieces : List Piece) :
    TcpOp X → List (Op (TcpWorld X)) × List Piece
  | .poll =>
    match pieces with
    | [] => ([], [])
    | piece :: rest => (piece.data.map .inputByte, rest)
  | .prompt => ([.prompt], pieces)
  | .close => ([.api (TcpAppCall.close.toApiCall callbacks)], pieces)
  | .shell call => ([.api ((TcpAppCall.shell call).toApiCall callbacks)], pieces)

/-- The calls of the shell that the calls of an owner come to. -/
def typedOps (callbacks : TcpCallbacks X) : List (TcpOp X) → List Piece → List (Op (TcpWorld X))
  | [], _ => []
  | op :: ops, pieces =>
    (op.typed callbacks pieces).1 ++ typedOps callbacks ops (op.typed callbacks pieces).2

/-! ## A session beside its connection -/

/-- The same session in the world of its owner alone and beside its connection. -/
structure TcpWorld.Beside (pieces : List Piece) (w : TcpWorld X) (w' : TcpWorld (Connection X)) :
    Prop where
  state : w'.state = w.state
  notified : w'.closeNotified = w.closeNotified
  calls : w'.closeCalls = w.closeCalls
  app : w'.app = (w.app, pieces)
  buffer : w'.rxBuffer.length = tcpRxChunkSize

namespace TcpWorld.Beside

variable {pieces : List Piece} {w : TcpWorld X} {w' : TcpWorld (Connection X)}

/-- An event. -/
theorem record (h : Beside pieces w w') (e e' : TcpEvent) :
    Beside pieces (w.record e) (w'.record e') := ⟨h.state, h.notified, h.calls, h.app, h.buffer⟩

/-- An assignment of the state. -/
theorem setState (h : Beside pieces w w') (state : TcpState) :
    Beside pieces (w.setState state) (w'.setState state) :=
  ⟨rfl, h.notified, h.calls, h.app, h.buffer⟩

section Close

variable {f : TcpWorld X → TcpWorld X} {f' : TcpWorld (Connection X) → TcpWorld (Connection X)}
  (hf : ∀ {w w'}, Beside pieces w w' → Beside pieces (f w) (f' w'))

include hf

/-- `notify_close`. -/
theorem notifyClose (h : Beside pieces w w') :
    Beside pieces (w.notifyClose f) (w'.notifyClose f') := by
  unfold TcpWorld.notifyClose
  rw [h.notified]
  split_ifs
  · exact h
  · exact hf ⟨h.state, rfl, h.calls, h.app, h.buffer⟩

/-- `set_terminal_state`. -/
theorem setTerminalState (h : Beside pieces w w') (state : TcpState) :
    Beside pieces (w.setTerminalState f state) (w'.setTerminalState f' state) := by
  unfold TcpWorld.setTerminalState
  rw [h.state]
  split_ifs
  · exact (h.setState state).notifyClose hf
  · exact h

/-- `sh_tcp_session_close`. -/
theorem sessionClose (h : Beside pieces w w') :
    Beside pieces (w.sessionClose f).1 (w'.sessionClose f').1 := by
  unfold TcpWorld.sessionClose
  rw [h.state]
  split_ifs
  · exact h
  · exact (h.setState _).notifyClose hf
  · exact h.notifyClose hf

/-- A step of a callback. -/
theorem runCall (h : Beside pieces w w') (call : TcpCall X) :
    Beside pieces (w.runCall f call) (w'.runCall f' call.beside) := by
  cases call with
  | close => exact h.sessionClose hf
  | effect g =>
    refine ⟨h.state, h.notified, h.calls, ?_, h.buffer⟩
    show Prod.map g id w'.app = (g w.app, pieces)
    rw [h.app]
    rfl

/-- The steps of a callback. -/
private theorem foldl_runCall (h : Beside pieces w w') (calls : List (TcpCall X)) :
    Beside pieces (calls.foldl (TcpWorld.runCall f) w)
      ((calls.map TcpCall.beside).foldl (TcpWorld.runCall f') w') := by
  induction calls generalizing w w' with
  | nil => exact h
  | cons call calls ih => exact ih (h.runCall hf call)

end Close

variable (callbacks : TcpCallbacks X)

/-- The close callback. -/
theorem onClose (h : Beside pieces w w') :
    Beside pieces (w.onClose callbacks) (w'.onClose callbacks.beside) := by
  unfold TcpWorld.onClose TcpCallbacks.beside
  dsimp only
  rw [h.app]
  refine foldl_runCall (fun h => h) ?_ (callbacks.close w.app)
  refine ⟨h.state, h.notified, ?_, h.app, h.buffer⟩
  show w'.closeCalls + 1 = w.closeCalls + 1
  rw [h.calls]

/-- The end of a write. -/
theorem finishWrite (h : Beside pieces w w') (status : TcpIoStatus) (written len : ℕ) :
    Beside pieces (PortableShell.finishWrite callbacks w status written len).1
        (PortableShell.finishWrite callbacks.beside w' status written len).1 ∧
      (PortableShell.finishWrite callbacks.beside w' status written len).2 =
        (PortableShell.finishWrite callbacks w status written len).2 := by
  have hterminal := h.setTerminalState (onClose callbacks)
  unfold PortableShell.finishWrite
  dsimp only
  by_cases hlen : written > len
  · rw [if_pos hlen, if_pos hlen]
    exact ⟨hterminal _, rfl⟩
  · rw [if_neg hlen, if_neg hlen]
    cases status with
    | ok =>
      dsimp only
      split_ifs
      · exact ⟨hterminal _, rfl⟩
      · exact ⟨h, rfl⟩
    | wouldBlock => exact ⟨h, rfl⟩
    | closed => exact ⟨hterminal _, rfl⟩
    | error => exact ⟨hterminal _, rfl⟩
    | other code => exact ⟨hterminal _, rfl⟩

/-- **Output** of the shell. -/
theorem transportWrite : WritesTogether (Beside pieces) (shTcpSessionTransportWrite callbacks)
    (shTcpSessionTransportWrite callbacks.beside) := by
  intro w w' data h
  unfold shTcpSessionTransportWrite
  rw [h.state]
  split_ifs
  · exact ⟨h, rfl⟩
  · exact ⟨h, rfl⟩
  · have hcalls : (callbacks.beside.write w'.app data) =
        ((callbacks.write w.app data).1.map TcpCall.beside, (callbacks.write w.app data).2) := by
      unfold TcpCallbacks.beside
      dsimp only
      rw [h.app]
    rw [hcalls]
    exact finishWrite callbacks
      (foldl_runCall (onClose callbacks) (h.record _ _) (callbacks.write w.app data).1) _ _ _

/-- What a handler does to the world. -/
theorem appCall (call : TcpAppCall X) : (call.toApiCall callbacks).Corresponds (Beside pieces)
    (call.beside.toApiCall callbacks.beside) := by
  cases call with
  | close => exact .effect fun _ _ h => h.sessionClose (onClose callbacks)
  | shell call =>
    cases call with
    | effect f => exact .effect fun _ _ h => h.runCall (onClose callbacks) (.effect f)
    | write data => exact .write data
    | flush => exact .flush
    | historyClear => exact .historyClear
    | setEchoEnabled enabled => exact .setEchoEnabled enabled
    | registerCommands commands => exact .registerCommands commands
    | registerCommandSets sets => exact .registerCommandSets sets
    | start => exact .start
    | stop => exact .stop

/-- **The surroundings** of the two sessions answer alike. -/
theorem answersTogether (app : TcpApp X) {cfg : Config} {p : Ptr} (hcfg : cfg.transport = some p) :
    AnswersTogether (tcpEnv callbacks app) (tcpEnv callbacks.beside app.beside) cfg
      (Beside pieces) where
  write := fun _ _ data h => (transportWrite callbacks).backendWrite hcfg rfl rfl h data
  flush := fun _ _ h => WritesTogether.backendFlush hcfg rfl rfl h
  mask := rfl
  handler := by
    intro fn view w w' argv ctx h
    unfold tcpEnv TcpApp.beside
    dsimp only
    rw [h.app, h.state, List.map_map]
    exact ⟨List.forall₂_map_left_iff.mpr (List.forall₂_map_right_iff.mpr
      (List.forall₂_same.mpr fun call _ => appCall callbacks call)), rfl⟩
  completion := by
    intro fn view w w' i j ctx h
    unfold tcpEnv TcpApp.beside
    dsimp only
    rw [h.app, h.state, List.map_map]
    exact ⟨List.forall₂_map_left_iff.mpr (List.forall₂_map_right_iff.mpr
      (List.forall₂_same.mpr fun call _ => appCall callbacks call)), rfl⟩

end TcpWorld.Beside

/-! ## A session and the shell that gets the bytes directly -/

/-- A consistent session that has ended does not open again. -/
private theorem TcpWorld.closed_invariant {W : Type} : Invariant (W := W) fun w =>
    w.Consistent ∧ w.state ≠ .open where
  notified := fun h => consistent_invariant.notified h.1
  frame := fun h hw => ⟨consistent_invariant.frame h.1 hw, by rw [hw.state]; exact h.2⟩
  read := fun h hopen => absurd hopen h.2
  write := fun h hopen => absurd hopen h.2
  ended := fun h hopen _ _ _ => absurd hopen h.2

/-- Bytes handed to the shell one by one, or at once. -/
private theorem run_inputByte {ω : Type} (env : Env ω) (st : Sys ω) (data : List Byte) :
    run env st (data.map .inputByte) = (shInput env st data).1 := by
  rw [shInput_fst, run, List.foldl_map]
  rfl

/-- The calls that a call of an owner comes to keep what a session keeps. -/
theorem TcpWorld.Invariant.typed {P : TcpWorld X → Prop} (hP : TcpWorld.Invariant P)
    (callbacks : TcpCallbacks X) (app : TcpApp X) {st : TcpSession X} (h : P st.io)
    (op : TcpOp X) (pieces : List Piece) :
    P (run (tcpEnv callbacks app) st (op.typed callbacks pieces).1).io := by
  have hkeeps := hP.keepsWorld callbacks app
  cases op with
  | poll =>
    cases pieces with
    | nil => exact h
    | cons piece rest =>
      show P (run (tcpEnv callbacks app) st (piece.data.map .inputByte)).io
      rw [run_inputByte]
      exact hkeeps.shInput h piece.data
  | prompt => exact hkeeps.toKeepsOutput.backendWrite _ h _
  | close => exact hP.sessionClose callbacks h
  | shell call => exact hkeeps.runCall (fun f hf w hw => hP.appCall callbacks hf hw) h

/-- A session and the shell that gets the bytes directly are the same beside the connection, as
long as they are open, and they end together. -/
structure Alongside (cfg : Config) (pieces : List Piece) (st : TcpSession X)
    (st' : TcpSession (Connection X)) : Prop where
  consistent : st.io.Consistent
  consistent' : st'.io.Consistent
  together : st.io.state = .open ∨ st'.io.state = .open →
    Together (TcpWorld.Beside pieces) cfg st st'

section Polls

variable {callbacks : TcpCallbacks X} {app : TcpApp X} {cfg : Config} {p : Ptr}
  (hcfg : cfg.transport = some p) {pieces : List Piece} {st : TcpSession X}
  {st' : TcpSession (Connection X)}

/-- An update of the session that keeps its world beside the connection. -/
theorem Together.update {pieces' : List Piece} (h : Together (TcpWorld.Beside pieces) cfg st st')
    {f : TcpWorld (Connection X) → TcpWorld (Connection X)}
    (hf : TcpWorld.Beside pieces' st.io (f st'.io)) :
    Together (TcpWorld.Beside pieces') cfg st (st'.update f) := by
  refine ⟨h.cfg_eq, hf, ?_⟩
  unfold TcpSession.update
  rw [h.eq]
  rfl

/-- A session with nothing to read stays as it is. -/
private theorem Together.poll_nil (h : Together (TcpWorld.Beside []) cfg st st')
    (hopen : st'.io.state = .open) :
    Together (TcpWorld.Beside []) cfg st (shTcpSessionPoll callbacks.beside app.beside st').1 := by
  have hreceived : st'.received callbacks.beside = ⟨[], .wouldBlock, [], 0⟩ := by
    unfold TcpSession.received TcpCallbacks.beside
    dsimp only
    rw [h.io.app]
  have hpoll : (shTcpSessionPoll callbacks.beside app.beside st').1 =
      st'.afterRead callbacks.beside := by
    unfold shTcpSessionPoll
    rw [if_neg (not_not.mpr hopen)]
    dsimp only
    rw [hreceived, if_neg (Nat.not_lt_zero _), if_neg (not_not.mpr rfl)]
    rfl
  rw [hpoll]
  unfold TcpSession.afterRead
  rw [hreceived]
  refine h.update ⟨h.io.state, h.io.notified, h.io.calls, h.io.app, ?_⟩
  exact (Mem.length_store _ _ _).trans h.io.buffer

/-- What the read callback of a connection reports. -/
private theorem Together.received_cons {piece : Piece}
    (h : Together (TcpWorld.Beside (piece :: pieces)) cfg st st') :
    st'.received callbacks.beside =
      ⟨[.effect fun c => (c.1, pieces)], piece.status, piece.data, piece.data.length⟩ := by
  unfold TcpSession.received TcpCallbacks.beside
  dsimp only
  rw [h.io.app]

/-- Reading a piece leaves the others. -/
private theorem Together.afterRead_cons {piece : Piece}
    (h : Together (TcpWorld.Beside (piece :: pieces)) cfg st st') :
    Together (TcpWorld.Beside pieces) cfg st (st'.afterRead callbacks.beside) := by
  unfold TcpSession.afterRead
  rw [h.received_cons]
  refine h.update ⟨h.io.state, h.io.notified, h.io.calls, ?_, ?_⟩
  · show (st'.io.app.1, pieces) = _
    rw [h.io.app]
  · exact (Mem.length_store _ _ _).trans h.io.buffer

/-- The receive buffer begins with the piece. -/
private theorem Together.rxBuffer_cons {piece : Piece}
    (h : Together (TcpWorld.Beside (piece :: pieces)) cfg st st') :
    (st'.afterRead callbacks.beside).io.rxBuffer.take piece.data.length = piece.data := by
  have hfits : 0 + piece.data.length ≤ st'.io.rxBuffer.length := by
    rw [h.io.buffer, Nat.zero_add]
    exact piece.fits
  have hstore : (st'.afterRead callbacks.beside).io.rxBuffer =
      Mem.store st'.io.rxBuffer 0 piece.data := by
    unfold TcpSession.afterRead
    rw [h.received_cons]
    rfl
  rw [hstore, Mem.store_eq hfits, List.take_zero, List.nil_append, List.take_left']
  rfl

/-- Behind a piece that is not empty neither status ends the session. -/
private theorem finishPoll_piece {piece : Piece} (hempty : piece.data ≠ [])
    (s : TcpSession (Connection X)) (status : Status) :
    (finishPoll callbacks.beside s piece.status piece.data.length status).1 = s := by
  have hlength : piece.data.length ≠ 0 := mt List.length_eq_zero_iff.mp hempty
  unfold finishPoll Piece.status
  by_cases hblocked : piece.blocked = true
  · rw [if_pos (.inl hblocked)]
    dsimp only
    rw [if_neg hlength]
  · rw [if_neg (not_or.mpr ⟨hblocked, hempty⟩)]
    dsimp only
    rw [if_neg hlength]

include hcfg

/-- **A poll** of an open session hands the bytes of a piece to the shell.

**Proof sketch.** The read fills the buffer with the piece and its status. The shell is fed the
piece, and what the poll does behind it depends on the status of the shell alone, as the piece
reports neither end nor error. -/
theorem Together.poll_cons {piece : Piece}
    (h : Together (TcpWorld.Beside (piece :: pieces)) cfg st st') (hopen : st'.io.state = .open) :
    Together (TcpWorld.Beside pieces) cfg (shInput (tcpEnv callbacks app) st piece.data).1
      (shTcpSessionPoll callbacks.beside app.beside st').1 := by
  have hread : Together (TcpWorld.Beside pieces) cfg st (st'.afterRead callbacks.beside) :=
    h.afterRead_cons
  have hfed : TogetherWith (TcpWorld.Beside pieces) cfg
      (shInput (tcpEnv callbacks app) st piece.data) (st'.fed callbacks.beside app.beside) := by
    unfold TcpSession.fed
    rw [h.received_cons]
    dsimp only
    rw [h.rxBuffer_cons]
    exact (TcpWorld.Beside.answersTogether callbacks app hcfg).shInput hread piece.data
  unfold shTcpSessionPoll
  rw [if_neg (not_not.mpr hopen)]
  dsimp only
  rw [h.received_cons]
  dsimp only
  rw [if_neg (not_lt.mpr piece.fits)]
  by_cases hempty : piece.data = []
  · have hstatus : piece.status = .wouldBlock := if_pos (.inr hempty)
    rw [hempty, hstatus, if_neg (not_not.mpr List.length_nil)]
    exact hread
  · obtain ⟨hstate, hnotified, hcalls, happ, hbuffer⟩ := hfed.sys.io
    have hnext : Together (TcpWorld.Beside pieces) cfg
        (shInput (tcpEnv callbacks app) st piece.data).1
        ((st'.fed callbacks.beside app.beside).1.update fun w =>
          { w with lastShellStatus := (st'.fed callbacks.beside app.beside).2 }) :=
      hfed.sys.update ⟨hstate, hnotified, hcalls, happ, hbuffer⟩
    rw [if_pos (mt List.length_eq_zero_iff.mp hempty)]
    split_ifs
    · exact hnext
    · exact hnext
    · rw [finishPoll_piece hempty]
      exact hnext

/-- **A call of the owner** keeps a session alongside the shell that gets the bytes directly.

**Proof sketch.** One case per call of the owner. A session that has ended stays so, so only open
sessions have to be compared, and these were together before. -/
theorem Alongside.step (h : Alongside cfg pieces st st') (op : TcpOp X) :
    Alongside cfg (op.typed callbacks pieces).2
      (run (tcpEnv callbacks app) st (op.typed callbacks pieces).1)
      (op.beside.apply callbacks.beside app.beside st') := by
  refine ⟨TcpWorld.consistent_invariant.typed callbacks app h.consistent op pieces,
    TcpWorld.consistent_invariant.apply _ _ _ h.consistent', ?_⟩
  intro hopen
  have hbefore : st.io.state = .open ∨ st'.io.state = .open := by
    by_contra hclosed
    obtain ⟨hst, hst'⟩ := not_or.mp hclosed
    rcases hopen with hopen | hopen
    · exact (TcpWorld.closed_invariant.typed callbacks app ⟨h.consistent, hst⟩ op pieces).2 hopen
    · exact (TcpWorld.closed_invariant.apply _ _ _ ⟨h.consistent', hst'⟩).2 hopen
  have htogether := h.together hbefore
  have hopen' : st'.io.state = .open := by
    rcases hbefore with hst | hst'
    · exact htogether.io.state.trans hst
    · exact hst'
  have hA : AnswersTogether (tcpEnv callbacks app) (tcpEnv callbacks.beside app.beside) cfg
      (TcpWorld.Beside pieces) := TcpWorld.Beside.answersTogether callbacks app hcfg
  cases op with
  | poll =>
    cases pieces with
    | nil => exact htogether.poll_nil hopen'
    | cons piece rest =>
      show Together _ cfg (run (tcpEnv callbacks app) st (piece.data.map .inputByte)) _
      rw [run_inputByte]
      exact htogether.poll_cons hcfg hopen'
  | prompt =>
    have hprompt : TcpOp.prompt.apply callbacks.beside app.beside st' =
        shPrompt (tcpEnv callbacks.beside app.beside) st' := by
      unfold TcpOp.apply shTcpSessionPrompt
      dsimp only
      rw [if_neg (not_not.mpr hopen')]
      rfl
    show Together _ cfg _ (TcpOp.prompt.apply callbacks.beside app.beside st')
    rw [hprompt]
    exact hA.shPrompt htogether
  | close => exact hA.runCall htogether (TcpWorld.Beside.appCall callbacks .close)
  | shell call => exact hA.runCall htogether (TcpWorld.Beside.appCall callbacks (.shell call))

/-- **A run** of calls. -/
theorem Alongside.run (h : Alongside cfg pieces st st') (ops : List (TcpOp X)) :
    ∃ rest, Alongside cfg rest
      (PortableShell.run (tcpEnv callbacks app) st (typedOps callbacks ops pieces))
      (tcpRun callbacks.beside app.beside st' (ops.map TcpOp.beside)) := by
  induction ops generalizing pieces st st' with
  | nil => exact ⟨pieces, h⟩
  | cons op ops ih =>
    obtain ⟨rest, hrest⟩ := ih (h.step hcfg op)
    refine ⟨rest, ?_⟩
    rw [typedOps, PortableShell.run, List.foldl_append]
    exact hrest

end Polls

/-! ## Sessions over two connections -/

/-- An initialized shell writes to the transport of its configuration. -/
private theorem shInitStatic_transport {cfg : Config} {storage : Option Storage} {s : Shell}
    (h : shInitStatic (some cfg) storage = .ok s) : s.cfg.transport = cfg.transport := by
  unfold shInitStatic at h
  cases storage with
  | none => cases h
  | some storage =>
    dsimp only at h
    unfold shInit at h
    split_ifs at h
    dsimp only at h
    split_ifs at h
    obtain rfl := Except.ok.inj h
    rfl

/-- The session that an initialization sets up around a shell. -/
def freshTcpSession {W : Type} (shell : Shell) (owner : W) : TcpSession W :=
  ⟨shell, ⟨.open, Status.ok, false, List.replicate tcpRxChunkSize 0, owner, 0, []⟩, [], []⟩

/-- An initialized session: its shell writes to the session, and does not depend on the owner. -/
private theorem shTcpSessionInit_ok {W : Type} {config : TcpConfig} {transport : Ptr} {owner : W}
    {st : TcpSession W} (h : shTcpSessionInit config transport owner = .ok st) :
    ∃ shell : Shell, shell.cfg.transport = some transport ∧ st = freshTcpSession shell owner ∧
      ∀ {V : Type} (other : V),
        shTcpSessionInit config transport other = .ok (freshTcpSession shell other) := by
  unfold shTcpSessionInit at h ⊢
  split_ifs at h ⊢ with hinvalid
  cases hshell : shInitStatic (some (config.forShell transport)) config.storage with
  | error status =>
    rw [hshell] at h
    cases h
  | ok shell =>
    rw [hshell] at h
    dsimp only at h ⊢
    split_ifs at h ⊢ with hcommands
    obtain rfl := Except.ok.inj h
    refine ⟨_, ?_, rfl, fun _ => rfl⟩
    rw [(ShellStep.commands shell config.commands).sameSetup.cfg]
    exact shInitStatic_transport hshell

/-- A session beside its connection starts alongside the shell that gets the bytes directly. -/
private theorem alongside_fresh (shell : Shell) (owner : X) (pieces : List Piece) :
    Alongside shell.cfg pieces (freshTcpSession shell owner)
      (freshTcpSession shell (owner, pieces)) := by
  have hconsistent : ∀ {V : Type} (other : V), (freshTcpSession shell other).io.Consistent :=
    fun _ => ⟨TcpState.noConfusion, by simp [freshTcpSession], rfl⟩
  refine ⟨hconsistent _, hconsistent _, fun _ => ⟨rfl, ⟨rfl, rfl, rfl, rfl, ?_⟩, rfl⟩⟩
  exact List.length_replicate

/-- **The pieces do not matter.** Two sessions get the same bytes, and their owners make the same
calls between the same bytes, but the network delivers the bytes in other pieces, to other polls.
If one of them is open in the end, so is the other, with the same shell and the same owner, and
everything that happened in between was the same.

**Proof sketch.** Both sessions run alongside one shell that gets the typed operations directly
(`Alongside.run`). An open session is together with it, so the shell is in the state of an open
session, and then the other one is open too. -/
theorem tcp_segmentation {callbacks : TcpCallbacks X} {app : TcpApp X} {config : TcpConfig}
    {transport : Ptr} {owner : X} {pieces pieces' : List Piece} {ops ops' : List (TcpOp X)}
    (hsame : typedOps callbacks ops pieces = typedOps callbacks ops' pieces')
    {st st' : TcpSession (Connection X)}
    (hst : shTcpSessionInit config transport (owner, pieces) = .ok st)
    (hst' : shTcpSessionInit config transport (owner, pieces') = .ok st')
    {r r' : TcpSession (Connection X)}
    (hr : r = tcpRun callbacks.beside app.beside st (ops.map TcpOp.beside))
    (hr' : r' = tcpRun callbacks.beside app.beside st' (ops'.map TcpOp.beside))
    (hopen : r.io.state = .open) :
    r'.io.state = .open ∧ r'.sh = r.sh ∧ r'.trace = r.trace ∧ r'.io.app.1 = r.io.app.1 := by
  obtain ⟨shell, hcfg, rfl, hinit⟩ := shTcpSessionInit_ok hst
  obtain rfl := Except.ok.inj ((hinit _).symm.trans hst')
  obtain ⟨rest, hrest⟩ : ∃ rest, Alongside shell.cfg rest
      (run (tcpEnv callbacks app) (freshTcpSession shell owner)
        (typedOps callbacks ops pieces)) r :=
    hr ▸ (alongside_fresh shell owner pieces).run hcfg ops
  obtain ⟨rest', hrest'⟩ : ∃ rest, Alongside shell.cfg rest
      (run (tcpEnv callbacks app) (freshTcpSession shell owner)
        (typedOps callbacks ops pieces)) r' :=
    hr' ▸ hsame ▸ (alongside_fresh shell owner pieces').run hcfg ops'
  have hend := hrest.together (.inr hopen)
  have hend' := hrest'.together (.inl (hend.io.state.symm.trans hopen))
  have hopen' : r'.io.state = .open := hend'.io.state.trans (hend.io.state.symm.trans hopen)
  refine ⟨hopen', hend'.sh.trans hend.sh.symm, ?_, ?_⟩
  · rw [hend'.eq, hend.eq]
    rfl
  · rw [hend'.io.app, hend.io.app]

/-- Callbacks that take at most five bytes of a text; the owner keeps the bytes. -/
def fiveBytes : TcpCallbacks (List Byte) where
  read := fun _ _ => ⟨[], .wouldBlock, [], 0⟩
  write := fun _ data => ([.effect (· ++ data.take (min 5 data.length))], .ok, min 5 data.length)
  close := fun _ => []

/-- Application code that does nothing. -/
def quietTcpApp (W : Type) : TcpApp W where
  shouldMaskArg := fun _ _ _ _ _ => false
  handler := fun _ _ _ _ _ _ => ([], Status.ok)
  completion := fun _ _ _ _ _ _ _ => ([], none)

/-- A session over such callbacks. -/
def fiveSession {W : Type} (owner : W) : TcpSession W :=
  freshTcpSession (initialShell ((smallTcpConfig.forShell 0).completed smallStorage) smallStorage)
    owner

/-- It is initialized. -/
private theorem fiveSession_init {W : Type} (owner : W) :
    shTcpSessionInit smallTcpConfig 0 owner = .ok (fiveSession owner) := rfl

/-- A configuration with a command. -/
def ledTcpConfig : TcpConfig := { smallTcpConfig with commands := .array [ledCommand] }

/-- A session with this command. -/
def ledSession {W : Type} (owner : W) : TcpSession W :=
  freshTcpSession ((initialShell ((smallTcpConfig.forShell 0).completed smallStorage)
    smallStorage).setCommands [ledCommand]) owner

/-- It is initialized. -/
private theorem ledSession_init {W : Type} (owner : W) :
    shTcpSessionInit ledTcpConfig 0 owner = .ok (ledSession owner) := rfl

/-- The handler answers. -/
def ledTcpApp : TcpApp (List Byte) :=
  { quietTcpApp _ with
    handler := fun _ _ _ _ _ _ => ([.shell (.write (ascii "ok\r\n"))], Status.ok) }

/-- A prompt and two polls of this session. -/
def ledRun (pieces : List Piece) : TcpSession (Connection (List Byte)) :=
  tcpRun fiveBytes.beside ledTcpApp.beside (ledSession ([], pieces))
    ([.prompt, .poll, .poll].map TcpOp.beside)

/-- A command in one and in two pieces: its handler is called, and answers. -/
theorem tcp_segmentation_small :
    .handler 7 [str "led", str "on"] none ∈ (ledRun [⟨ascii "led on\r", false, by decide⟩]).trace ∧
      (ledRun [⟨ascii "led on\r", false, by decide⟩]).trace =
        (ledRun [⟨ascii "le", true, by decide⟩, ⟨ascii "d on\r", false, by decide⟩]).trace ∧
      (ledRun [⟨ascii "led on\r", false, by decide⟩]).io.app.1 =
        (ledRun [⟨ascii "le", true, by decide⟩, ⟨ascii "d on\r", false, by decide⟩]).io.app.1 := by
  have hsame : typedOps fiveBytes [.prompt, .poll, .poll]
        [⟨ascii "le", true, by decide⟩, ⟨ascii "d on\r", false, by decide⟩] =
      typedOps fiveBytes [.prompt, .poll, .poll] [⟨ascii "led on\r", false, by decide⟩] := rfl
  have hopen : (ledRun [⟨ascii "le", true, by decide⟩,
      ⟨ascii "d on\r", false, by decide⟩]).io.state = .open := by decide +kernel
  obtain ⟨-, -, htrace, happ⟩ := tcp_segmentation hsame (ledSession_init _) (ledSession_init _)
    (by rfl : ledRun _ = _) (by rfl : ledRun _ = _) hopen
  exact ⟨by decide +kernel, htrace, happ⟩

/-! ## What the peer gets -/

/-- The application acts on the world of its owner in the ways of `E` only. -/
structure TcpApp.ActsBy {W : Type} (app : TcpApp W) (E : (W → W) → Prop) : Prop where
  handler : ∀ fn view state w argv ctx f,
    .shell (.effect f) ∈ (app.handler fn view state w argv ctx).1 → E f
  completion : ∀ fn view state w i j ctx f,
    .shell (.effect f) ∈ (app.completion fn view state w i j ctx).1 → E f

/-- Callbacks that report what the connection takes: `sent` are the bytes that it has taken. -/
structure TcpCallbacks.Sender {W : Type} (callbacks : TcpCallbacks W) (sent : W → List Byte) :
    Prop where
  write : ∀ (w : TcpWorld W) data, (callbacks.write w.app data).2.2 ≤ data.length ∧
    sent (w.runCalls callbacks (callbacks.write w.app data).1).app =
      sent w.app ++ data.take (callbacks.write w.app data).2.2
  read : ∀ (w : TcpWorld W) owner capacity,
    sent (w.runCalls callbacks (callbacks.read owner capacity).calls).app = sent w.app
  close : ∀ w : TcpWorld W, sent (w.onClose callbacks).app = sent w.app

section Delivered

variable {W : Type} {callbacks : TcpCallbacks W} {app : TcpApp W} {sent : W → List Byte}
  (hS : callbacks.Sender sent)

/-- A step beside the shell that sends nothing. -/
abbrev SendsNothing (sent : W → List Byte) (g : TcpWorld W → TcpWorld W) : Prop :=
  ∀ w, sent (g w).app = sent w.app

/-- A step beside the shell. -/
theorem Outputs.update {env : Env (TcpWorld W)} {E : (TcpWorld W → TcpWorld W) → Prop}
    {st₀ st : TcpSession W} (h : Outputs env E st₀ st) {f : TcpWorld W → TcpWorld W} (hf : E f) :
    Outputs env E st₀ (st.update f) := h.act hf

include hS

/-- `notify_close` sends nothing. -/
theorem TcpCallbacks.Sender.notifyClose :
    SendsNothing sent fun w => w.notifyClose (TcpWorld.onClose callbacks) := by
  intro w
  dsimp only
  unfold TcpWorld.notifyClose
  split_ifs
  · rfl
  · exact hS.close _

/-- The end of a connection sends nothing. -/
theorem TcpCallbacks.Sender.setTerminalState (state : TcpState) :
    SendsNothing sent fun w => w.setTerminalState (TcpWorld.onClose callbacks) state := by
  intro w
  dsimp only
  unfold TcpWorld.setTerminalState
  split_ifs
  · exact hS.notifyClose _
  · rfl

/-- `sh_tcp_session_close` sends nothing. -/
theorem TcpCallbacks.Sender.sessionClose :
    SendsNothing sent fun w => (w.sessionClose (TcpWorld.onClose callbacks)).1 := by
  intro w
  dsimp only
  unfold TcpWorld.sessionClose
  split_ifs
  · rfl
  · exact hS.notifyClose _
  · exact hS.notifyClose _

/-- The session reports what the connection takes.

**Proof sketch.** Along the branches of the write: a session that is not open takes nothing, and
else the connection takes what it reports. Ending the session sends nothing. -/
theorem TcpCallbacks.Sender.truthful (p : Ptr) :
    Truthful ((tcpEnv callbacks app).transport p) fun w => sent w.app where
  write := by
    intro write hwrite w data
    obtain rfl := Option.some.inj hwrite
    unfold shTcpSessionTransportWrite
    dsimp only
    split_ifs
    · exact ⟨Nat.zero_le _, (List.append_nil _).symm⟩
    · exact ⟨Nat.zero_le _, (List.append_nil _).symm⟩
    · obtain ⟨hle, hsent⟩ := hS.write (w.record (.write w.state)) data
      have happ : (w.record (.write w.state)).app = w.app := rfl
      rw [happ] at hle hsent
      have hterminal := fun state =>
        (hS.setTerminalState state ((w.record (.write w.state)).runCalls callbacks
          (callbacks.write w.app data).1)).trans hsent
      unfold finishWrite
      dsimp only
      rw [if_neg (not_lt.mpr hle)]
      cases (callbacks.write w.app data).2.1 with
      | ok =>
        dsimp only
        split_ifs
        · exact ⟨hle, hterminal _⟩
        · exact ⟨hle, hsent⟩
      | wouldBlock => exact ⟨hle, hsent⟩
      | closed => exact ⟨hle, hterminal _⟩
      | error => exact ⟨hle, hterminal _⟩
      | other code => exact ⟨hle, hterminal _⟩
  flush := fun flush hflush => absurd hflush (Option.some_ne_none _).symm

/-- What a use of the API does beside the shell sends nothing. -/
theorem TcpCallbacks.Sender.appCall {call : TcpAppCall W} {g : TcpWorld W → TcpWorld W}
    (hg : call.toApiCall callbacks = .effect g)
    (hcall : ∀ f, call = .shell (.effect f) → ∀ w, sent (f w) = sent w) : SendsNothing sent g := by
  cases call with
  | close =>
    cases hg
    exact hS.sessionClose
  | shell call =>
    cases call with
    | effect f =>
      cases hg
      exact fun w => hcall f rfl w.app
    | _ => cases hg

variable (hA : app.ActsBy fun f => ∀ w, sent (f w) = sent w)

include hA

/-- The surroundings send nothing but the output of the shell. -/
private theorem TcpApp.ActsBy.sendsNothing : (tcpEnv callbacks app).ActsBy (SendsNothing sent) where
  handler := by
    intro fn view w argv ctx g hg
    obtain ⟨call, hmem, hcall⟩ := List.mem_map.mp hg
    exact hS.appCall hcall fun f hf => hA.handler _ _ _ _ _ _ f (hf ▸ hmem)
  completion := by
    intro fn view w i j ctx g hg
    obtain ⟨call, hmem, hcall⟩ := List.mem_map.mp hg
    exact hS.appCall hcall fun f hf => hA.completion _ _ _ _ _ _ _ f (hf ▸ hmem)

omit hA in
/-- The end of a poll sends nothing. -/
private theorem finishPoll_outputs {st st' : TcpSession W}
    (h : Outputs (tcpEnv callbacks app) (SendsNothing sent) st st') (status : TcpIoStatus)
    (count : ℕ) (shellStatus : Status) :
    Outputs (tcpEnv callbacks app) (SendsNothing sent) st
      (finishPoll callbacks st' status count shellStatus).1 := by
  have hterminal := fun state => h.update (hS.setTerminalState state)
  unfold finishPoll
  cases status with
  | ok =>
    dsimp only
    split_ifs
    · exact hterminal _
    · exact h
  | wouldBlock =>
    dsimp only
    split_ifs
    · exact h
    · exact h
  | closed => exact hterminal _
  | error => exact hterminal _
  | other code => exact hterminal _

/-- **A poll** prints, or sends nothing.

**Proof sketch.** Along the branches of the poll: the read and the end of a session send nothing,
and feeding the shell is a call of it. -/
theorem shTcpSessionPoll_outputs (st : TcpSession W) :
    Outputs (tcpEnv callbacks app) (SendsNothing sent) st
      (shTcpSessionPoll callbacks app st).1 := by
  have hread : Outputs (tcpEnv callbacks app) (SendsNothing sent) st (st.afterRead callbacks) := by
    unfold TcpSession.afterRead
    dsimp only
    refine Outputs.update (.refl st) ?_
    intro w
    exact hS.read (w.record (.read w.state)) st.io.app tcpRxChunkSize
  have hterminal := hread.update (hS.setTerminalState .ioError)
  have hinput : ∀ data f, Op.input data = .api (.effect f) → SendsNothing sent f := nofun
  have hfed : Outputs (tcpEnv callbacks app) (SendsNothing sent) st (st.fed callbacks app).1 :=
    hread.apply (hA.sendsNothing hS) (hinput _)
  have hnext : Outputs (tcpEnv callbacks app) (SendsNothing sent) st
      ((st.fed callbacks app).1.update fun w =>
        { w with lastShellStatus := (st.fed callbacks app).2 }) := hfed.update fun _ => rfl
  unfold shTcpSessionPoll
  split_ifs
  · exact .refl st
  · dsimp only
    split_ifs
    · exact hterminal
    · exact hnext
    · exact hnext
    · exact finishPoll_outputs hS hnext _ _ _
    · exact finishPoll_outputs hS hread _ _ _

/-- **A call of the owner** prints, or sends nothing. -/
theorem TcpOp.outputs {op : TcpOp W}
    (hop : ∀ f, op = .shell (.effect f) → ∀ w, sent (f w) = sent w) (st : TcpSession W) :
    Outputs (tcpEnv callbacks app) (SendsNothing sent) st (op.apply callbacks app st) := by
  cases op with
  | poll => exact shTcpSessionPoll_outputs hS hA st
  | prompt =>
    show Outputs _ _ st (shTcpSessionPrompt callbacks app st).1
    unfold shTcpSessionPrompt
    split_ifs
    · exact .refl st
    · exact (Outputs.refl st).shWrite _
  | close =>
    exact (Outputs.refl st).act (f := fun w => (w.sessionClose (TcpWorld.onClose callbacks)).1)
      hS.sessionClose
  | shell call =>
    refine (Outputs.refl st).runCall ?_
    intro g hg
    refine hS.appCall hg ?_
    rintro f hf
    cases hf
    exact hop f rfl

/-- **What the peer gets.** Over callbacks that may take a text in pieces, refuse it or close the
session, but report what the connection takes, the peer has, after any run of the owner's calls, a
beginning of each text that was printed, in order, and nothing else. -/
theorem tcp_delivered {config : TcpConfig} {transport : Ptr} {owner : W} {st : TcpSession W}
    (hst : shTcpSessionInit config transport owner = .ok st) {ops : List (TcpOp W)}
    (hops : ∀ f, .shell (.effect f) ∈ ops → ∀ w, sent (f w) = sent w) {r : TcpSession W}
    (hr : r = tcpRun callbacks app st ops) :
    ∃ taken, List.Forall₂ (· <+: ·) taken (outputTexts r.trace) ∧
      sent r.io.app = sent owner ++ taken.flatten := by
  have houtputs : Outputs (tcpEnv callbacks app) (SendsNothing sent) st r := by
    rw [hr]
    refine List.foldlRecOn
      (motive := fun st' : TcpSession W => Outputs _ (SendsNothing sent) st st') ops _ (.refl st) ?_
    intro st' hst' op hmem
    refine hst'.trans (TcpOp.outputs hS hA ?_ st')
    rintro f rfl
    exact hops f hmem
  obtain ⟨shell, hcfg, rfl, -⟩ := shTcpSessionInit_ok hst
  have hdelivers := ((hS.truthful transport).delivers hcfg fun _ hf => hf).steps houtputs.steps
  obtain ⟨-, texts, taken, htexts, hall, hsent⟩ := hdelivers trivial
  refine ⟨taken, ?_, hsent⟩
  have htexts' : outputTexts r.trace = [] ++ texts := htexts
  rw [htexts']
  exact hall

end Delivered

/-- These callbacks report what they take. -/
private theorem sender_fiveBytes : fiveBytes.Sender id where
  write := fun _ _ => ⟨Nat.min_le_right _ _, rfl⟩
  read := fun _ _ _ => rfl
  close := fun _ => rfl

/-- Application code that does nothing has no effect. -/
private theorem quietTcpApp_actsBy {W : Type} (E : (W → W) → Prop) : (quietTcpApp W).ActsBy E where
  handler := by simp [quietTcpApp]
  completion := by simp [quietTcpApp]

/-- A prompt that is taken in two pieces, and one behind the end of the session. -/
theorem tcp_delivered_small :
    ∃ taken, List.Forall₂ (· <+: ·) taken (outputTexts (tcpRun fiveBytes (quietTcpApp _)
        (fiveSession []) [.prompt, .poll, .close, .prompt]).trace) ∧
      (tcpRun fiveBytes (quietTcpApp _) (fiveSession [])
        [.prompt, .poll, .close, .prompt]).io.app = [] ++ taken.flatten :=
  tcp_delivered sender_fiveBytes (quietTcpApp_actsBy _) (fiveSession_init []) (by simp) rfl

end PortableShell
