import PortableShell.Port.Tcp

set_option relaxedAutoImplicit false
set_option autoImplicit false

/-!
# The life of a TCP session

A `sh_tcp_session_t` is initialized, used, ended and initialized again. What the callbacks of its
owner see of this is a log of events, and the logs that can occur have a simple grammar: an open
session reads and writes, it leaves the open state once, and the close callback is invoked right
behind. Every run of calls writes such a log, however the callbacks answer and whether or not
they close the session themselves.

## Main definitions

* `PortableShell.TcpSlot`, `TcpAction`, `lifeRun` — a session in memory and its runs.
* `PortableShell.Lawful` — the logs that can occur, with the state they leave.
* `PortableShell.NotOverwritten` — no open session was lost to an initialization that failed.
* `PortableShell.TcpSlot.Lifecycle` — what the log and the state of a session say of its life.

## Main results

* `PortableShell.lifeRun_lawful` — a run writes a lawful log.
* `PortableShell.lifeRun_lifecycle` — one close callback for one session, and no callback outside
  the open state.
-/

namespace PortableShell

variable {W : Type}

/-! ## A session in memory -/

/-- A `sh_t` whose bytes are zero. -/
def zeroShell : Shell where
  cfg := ⟨none, 0, 0, 0, false, false, false, false, none, none, none, 0, none, none, none⟩
  commands := []
  commandSets := none
  line := []
  lineCapacity := 0
  lineLen := 0
  cursor := 0
  argv := []
  argvCapacity := 0
  historyStorage := none
  historyDepth := 0
  historySlotSize := 0
  historyCount := 0
  historyStart := 0
  historyView := 0
  draft := none
  echoEnabled := false
  started := false
  ansi := ⟨.idle, 0, false, false, List.replicate shAnsiCsiMax 0⟩
  lastInputWasCr := false

/-- A `sh_tcp_session_t` in memory; `none` stands for callbacks that are NULL. -/
structure TcpSlot (W : Type) where
  callbacks : Option (TcpCallbacks W)
  session : TcpSession W

namespace TcpSlot

/-- A session whose bytes are zero. -/
def zero (owner : W) : TcpSlot W :=
  ⟨none, zeroShell,
    ⟨.uninitialized, Status.ok, false, List.replicate tcpRxChunkSize 0, owner, 0, []⟩, [], []⟩

/-- The state of the session. -/
def state (slot : TcpSlot W) : TcpState := slot.session.io.state

/-- What has happened to the session, newest first. -/
def log (slot : TcpSlot W) : List TcpEvent := slot.session.io.events

/-- The session that `sh_tcp_session_init` leaves behind when the shell reports `shellStatus`. Its
shell is blank, or rejected the commands. -/
def rejected (slot : TcpSlot W) (config : TcpConfig) (transport : Ptr) (shellStatus : Status) :
    TcpSession W where
  sh := match shInitStatic (some (config.forShell transport)) config.storage with
    | .ok shell => shell
    | .error _ => zeroShell
  io := ⟨.uninitialized, shellStatus, false, List.replicate tcpRxChunkSize 0,
    slot.session.io.app, 0, slot.log⟩
  trace := []
  accesses := []

/-- `sh_tcp_session_init` on the session, recorded in the log. The arguments are `none` when the
configuration or one of its callbacks is NULL. -/
def init (slot : TcpSlot W) (config : Option TcpConfig) (callbacks : Option (TcpCallbacks W))
    (transport : Ptr) : TcpSlot W × TcpStatus :=
  match config, callbacks with
  | some config, some callbacks =>
    match shTcpSessionInit config transport slot.session.io.app with
    | .ok st =>
      (⟨some callbacks, st.update fun w => { w with events := .init .ok :: slot.log }⟩, .ok)
    | .error (.errInvalidArgument, _) =>
      (⟨slot.callbacks, slot.session.update (·.record (.init .errInvalidArgument))⟩,
        .errInvalidArgument)
    | .error (status, shellStatus) =>
      (⟨some callbacks, TcpSession.update (slot.rejected config transport shellStatus)
        (·.record (.init status))⟩, status)
  | _, _ =>
    (⟨slot.callbacks, slot.session.update (·.record (.init .errInvalidArgument))⟩,
      .errInvalidArgument)

end TcpSlot

/-! ## Runs -/

/-- A call on a session in memory. -/
inductive TcpAction (W : Type)
  | init (config : Option TcpConfig) (callbacks : Option (TcpCallbacks W)) (transport : Ptr)
  | call (op : TcpOp W)
  /-- `sh_tcp_session_transport_write`, called by the owner. -/
  | output (data : List Byte)

/-- The call is one of `sh_tcp_session_init`. -/
def TcpAction.IsInit : TcpAction W → Prop
  | .init _ _ _ => True
  | _ => False

/-- What a call does to the session. Without callbacks the functions of the port return at their
first check, and there is no shell to call. -/
def TcpAction.apply (app : TcpApp W) (slot : TcpSlot W) : TcpAction W → TcpSlot W
  | .init config callbacks transport => (slot.init config callbacks transport).1
  | .call op =>
    match slot.callbacks with
    | none => slot
    | some callbacks => { slot with session := op.apply callbacks app slot.session }
  | .output data =>
    match slot.callbacks with
    | none => slot
    | some callbacks =>
      { slot with
        session := slot.session.update fun w => (shTcpSessionTransportWrite callbacks w data).1 }

/-- A run of calls. -/
def lifeRun (app : TcpApp W) (slot : TcpSlot W) (actions : List (TcpAction W)) : TcpSlot W :=
  actions.foldl (fun slot action => action.apply app slot) slot

/-! ## Lawful logs -/

open TcpWorld (Over)

/-- The log of a session and the state it is in: an open session reads and writes until it leaves
the open state, and then the close callback is invoked. Nothing else happens but
initializations. -/
inductive Lawful : List TcpEvent → TcpState → Prop
  | zero : Lawful [] .uninitialized
  | initOk {log : List TcpEvent} {state : TcpState} (h : Lawful log state) :
      Lawful (.init .ok :: log) .open
  | initShell {log : List TcpEvent} {state : TcpState} (h : Lawful log state) :
      Lawful (.init .errShell :: log) .uninitialized
  | initInvalid {log : List TcpEvent} {state : TcpState} (h : Lawful log state) :
      Lawful (.init .errInvalidArgument :: log) state
  | read {log : List TcpEvent} (h : Lawful log .open) : Lawful (.read .open :: log) .open
  | write {log : List TcpEvent} (h : Lawful log .open) : Lawful (.write .open :: log) .open
  | ended {log : List TcpEvent} {state : TcpState} (h : Lawful log .open) (hstate : Over state) :
      Lawful (.close state :: .change .open state :: log) state

/-- A session with a lawful log; the flag says whether the close callback was invoked. -/
structure TcpWorld.IsLawful (w : TcpWorld W) : Prop where
  log : Lawful w.events w.state
  notified : w.closeNotified = true ↔ Over w.state

/-- **Lawfulness is an invariant.**

**Proof sketch.** Clause by clause: a recorded call extends the log by the rule for that call, and
the end of a session by the rule that changes the state and closes. -/
theorem lawful_invariant : TcpWorld.Invariant (W := W) TcpWorld.IsLawful where
  notified := fun h => h.notified
  frame := by
    intro w w' h hw
    refine ⟨?_, ?_⟩
    · rw [hw.events, hw.state]
      exact h.log
    · rw [hw.notified, hw.state]
      exact h.notified
  read := by
    intro w h hopen
    have hlog := h.log
    rw [hopen] at hlog
    refine ⟨?_, h.notified⟩
    show Lawful (.read .open :: w.events) w.state
    rw [hopen]
    exact .read hlog
  write := by
    intro w h hopen
    have hlog := h.log
    rw [hopen] at hlog
    refine ⟨?_, h.notified⟩
    show Lawful (.write .open :: w.events) w.state
    rw [hopen]
    exact .write hlog
  ended := by
    intro w h hopen state hstate owner
    have hlog := h.log
    rw [hopen] at hlog
    refine ⟨?_, fun _ => hstate, fun _ => rfl⟩
    show Lawful (.close state :: .change w.state state :: w.events) state
    rw [hopen]
    exact .ended hlog hstate

/-- What an initialization returns. -/
private theorem shTcpSessionInit_spec (config : TcpConfig) (transport : Ptr) (owner : W) :
    (∃ st : TcpSession W, shTcpSessionInit config transport owner = .ok st ∧
        st.io.state = .open ∧ st.io.closeNotified = false) ∨
      shTcpSessionInit config transport owner = .error (.errInvalidArgument, Status.ok) ∨
      ∃ status, shTcpSessionInit config transport owner = .error (.errShell, status) := by
  unfold shTcpSessionInit
  split_ifs
  · exact .inr (.inl rfl)
  · cases shInitStatic (some (config.forShell transport)) config.storage with
    | error status => exact .inr (.inr ⟨status, rfl⟩)
    | ok shell =>
      dsimp only
      split_ifs
      · exact .inr (.inr ⟨_, rfl⟩)
      · exact .inl ⟨_, rfl, rfl, rfl⟩

/-- An initialization keeps the log lawful.

**Proof sketch.** Case split on the arguments and on the outcomes of `sh_tcp_session_init`. Each
outcome extends the log by its own rule. -/
private theorem TcpSlot.init_lawful {slot : TcpSlot W} (h : slot.session.io.IsLawful)
    (config : Option TcpConfig) (callbacks : Option (TcpCallbacks W)) (transport : Ptr) :
    (slot.init config callbacks transport).1.session.io.IsLawful := by
  have hinvalid : (slot.session.update
      (·.record (.init .errInvalidArgument))).io.IsLawful :=
    ⟨.initInvalid h.log, h.notified⟩
  cases config with
  | none => exact hinvalid
  | some config =>
    cases callbacks with
    | none => exact hinvalid
    | some callbacks =>
      unfold TcpSlot.init
      dsimp only
      rcases shTcpSessionInit_spec config transport slot.session.io.app with
        ⟨st, hinit, hopen, hnot⟩ | hinit | ⟨status, hinit⟩
      · rw [hinit]
        refine ⟨?_, ?_⟩
        · show Lawful (.init .ok :: slot.log) st.io.state
          rw [hopen]
          exact .initOk h.log
        · show st.io.closeNotified = true ↔ Over st.io.state
          rw [hopen, hnot]
          exact iff_of_false Bool.false_ne_true fun hover => hover.1 rfl
      · rw [hinit]
        exact hinvalid
      · rw [hinit]
        exact ⟨.initShell h.log,
          iff_of_false Bool.false_ne_true fun hover => hover.2 rfl⟩

/-- A call keeps the log lawful. -/
private theorem TcpAction.apply_lawful {app : TcpApp W} {slot : TcpSlot W} (action : TcpAction W)
    (h : slot.session.io.IsLawful) : (action.apply app slot).session.io.IsLawful := by
  unfold TcpAction.apply
  cases action with
  | init config callbacks transport => exact slot.init_lawful h config callbacks transport
  | call op =>
    cases slot.callbacks with
    | none => exact h
    | some callbacks => exact lawful_invariant.apply callbacks app op h
  | output data =>
    cases slot.callbacks with
    | none => exact h
    | some callbacks => exact lawful_invariant.transportWrite callbacks h data

/-- **A run writes a lawful log.** -/
theorem lifeRun_lawful (app : TcpApp W) (owner : W) (actions : List (TcpAction W)) :
    (lifeRun app (.zero owner) actions).session.io.IsLawful := by
  refine List.foldlRecOn (motive := fun slot : TcpSlot W => slot.session.io.IsLawful) actions _
    ?_ fun slot hslot action _ => action.apply_lawful hslot
  exact ⟨.zero, iff_of_false Bool.false_ne_true fun hover => hover.2 rfl⟩

/-! ## What lawful logs say -/

/-- The event is an initialization. -/
def TcpEvent.IsInit : TcpEvent → Prop
  | .init _ => True
  | _ => False

/-- The event is an invocation of the close callback. -/
def TcpEvent.isClose : TcpEvent → Bool
  | .close _ => true
  | _ => false

/-- How often the close callback was invoked. -/
def closings (log : List TcpEvent) : ℕ := (log.filter TcpEvent.isClose).length

/-- What has happened since the last successful initialization. -/
def sinceOk (log : List TcpEvent) : List TcpEvent := log.takeWhile (· ≠ .init .ok)

/-- The state a log leaves. -/
def stateAfter : List TcpEvent → TcpState
  | [] => .uninitialized
  | .init .ok :: _ => .open
  | .init .errShell :: _ => .uninitialized
  | .change _ after :: _ => after
  | _ :: log => stateAfter log

/-- It is the state of the session. -/
private theorem Lawful.stateAfter_eq {log : List TcpEvent} {state : TcpState}
    (h : Lawful log state) :
    stateAfter log = state := by
  induction h with
  | zero | initOk _ _ | initShell _ _ | ended _ _ _ => rfl
  | initInvalid _ ih | read _ ih | write _ ih => exact ih

/-- Since the last successful initialization no initialization of an open session was rejected by
the shell. -/
def NotOverwritten (log : List TcpEvent) : Prop :=
  ∀ new old, log = new ++ .init .errShell :: old → .init .ok ∉ new → stateAfter old ≠ .open

/-- Then none was before the last event either, unless that was the initialization. -/
theorem NotOverwritten.tail {event : TcpEvent} {log : List TcpEvent}
    (h : NotOverwritten (event :: log)) (hevent : event ≠ .init .ok) : NotOverwritten log := by
  intro new old hlog hnew
  refine h (event :: new) old (by rw [hlog, List.cons_append]) ?_
  rw [List.mem_cons, not_or]
  exact ⟨hevent.symm, hnew⟩

/-- **The close callback was invoked once** when the session is not open, and not at all when it
is.

**Proof sketch.** Induction on the log. Between two initializations only the end of a session closes
it, and that leaves it in a state that is not open. A rejected initialization of an open session is
what `hkept` excludes. -/
theorem Lawful.closings_eq {log : List TcpEvent} {state : TcpState} (h : Lawful log state)
    (hok : .init .ok ∈ log) (hkept : NotOverwritten log) :
    closings (sinceOk log) = if state = .open then 0 else 1 := by
  induction h with
  | zero => cases hok
  | initOk _ _ => rfl
  | @initShell log state h ih =>
    have hok' : .init .ok ∈ log := (List.mem_cons.mp hok).resolve_left (by decide)
    have hclosed : state ≠ .open := by
      rw [← h.stateAfter_eq]
      exact hkept [] log rfl List.not_mem_nil
    have hrest := ih hok' (hkept.tail (by decide))
    rw [if_neg hclosed] at hrest
    exact hrest
  | initInvalid _ ih =>
    have hok' := (List.mem_cons.mp hok).resolve_left (by decide)
    exact ih hok' (hkept.tail (by decide))
  | read _ ih =>
    have hok' := (List.mem_cons.mp hok).resolve_left (by decide)
    exact ih hok' (hkept.tail (by decide))
  | write _ ih =>
    have hok' := (List.mem_cons.mp hok).resolve_left (by decide)
    exact ih hok' (hkept.tail (by decide))
  | @ended log state _ hstate ih =>
    have hok' : .init .ok ∈ log := by simpa using hok
    have hrest : closings (sinceOk log) = 0 :=
      ih hok' ((hkept.tail (by simp)).tail (by simp))
    rw [if_neg hstate.1]
    show closings (sinceOk log) + 1 = 1
    rw [hrest]

/-- **The log up to an event** is lawful too, unless the close callback is about to be invoked.

**Proof sketch.** Induction on the log. Every rule adds one event to a lawful log but the one for
the end of a session, which adds two; the log between the two is the excluded one. -/
theorem Lawful.older {log old : List TcpEvent} {state : TcpState} (h : Lawful log state)
    (hsuffix : old <:+ log) (hold : ∀ before after rest, old ≠ .change before after :: rest) :
    ∃ state', Lawful old state' := by
  induction h with
  | zero => exact ⟨_, by rw [List.suffix_nil.mp hsuffix]; exact .zero⟩
  | initOk h ih =>
    rcases List.suffix_cons_iff.mp hsuffix with rfl | hrest
    · exact ⟨_, .initOk h⟩
    · exact ih hrest
  | initShell h ih =>
    rcases List.suffix_cons_iff.mp hsuffix with rfl | hrest
    · exact ⟨_, .initShell h⟩
    · exact ih hrest
  | initInvalid h ih =>
    rcases List.suffix_cons_iff.mp hsuffix with rfl | hrest
    · exact ⟨_, .initInvalid h⟩
    · exact ih hrest
  | read h ih =>
    rcases List.suffix_cons_iff.mp hsuffix with rfl | hrest
    · exact ⟨_, .read h⟩
    · exact ih hrest
  | write h ih =>
    rcases List.suffix_cons_iff.mp hsuffix with rfl | hrest
    · exact ⟨_, .write h⟩
    · exact ih hrest
  | ended h hstate ih =>
    rcases List.suffix_cons_iff.mp hsuffix with rfl | hrest
    · exact ⟨_, .ended h hstate⟩
    · rcases List.suffix_cons_iff.mp hrest with rfl | hrest
      · exact absurd rfl (hold _ _ _)
      · exact ih hrest

/-- **Every change** of the state leaves the open state, and the close callback is the next thing
that happens. -/
theorem Lawful.change {log new old : List TcpEvent} {state before after : TcpState}
    (h : Lawful log state) (hlog : log = new ++ .change before after :: old) :
    before = .open ∧ ∃ newer, new = newer ++ [.close after] := by
  induction h generalizing new with
  | zero => simp at hlog
  | ended h hstate ih =>
    rcases new with _ | ⟨close, _ | ⟨change, new⟩⟩
    · cases hlog
    · obtain ⟨rfl, hrest⟩ := List.cons.inj hlog
      obtain ⟨hchange, -⟩ := List.cons.inj hrest
      cases hchange
      exact ⟨rfl, [], rfl⟩
    · obtain ⟨-, hrest⟩ := List.cons.inj hlog
      obtain ⟨-, hlog'⟩ := List.cons.inj hrest
      obtain ⟨hbefore, newer, rfl⟩ := ih hlog'
      exact ⟨hbefore, _ :: _ :: newer, rfl⟩
  | _ _ ih =>
    cases new with
    | nil => cases hlog
    | cons event new =>
      obtain ⟨rfl, hrest⟩ := List.cons.inj hlog
      obtain ⟨hbefore, newer, rfl⟩ := ih hrest
      exact ⟨hbefore, _ :: newer, rfl⟩

/-- **A rejected session is silent**: until the next initialization nothing happens to it.

**Proof sketch.** Induction on the log. Behind a rejected initialization the state is uninitialized,
and no rule but those for initializations applies there. -/
theorem Lawful.silent {log new old : List TcpEvent} {state : TcpState} (h : Lawful log state)
    (hlog : log = new ++ .init .errShell :: old) (hnew : ∀ event ∈ new, ¬event.IsInit) :
    new = [] ∧ state = .uninitialized := by
  induction h generalizing new with
  | zero => simp at hlog
  | initShell _ _ =>
    cases new with
    | nil => exact ⟨rfl, rfl⟩
    | cons event new =>
      obtain ⟨rfl, -⟩ := List.cons.inj hlog
      exact absurd trivial (hnew _ (List.mem_cons_self ..))
  | initOk _ _ | initInvalid _ _ =>
    cases new with
    | nil => cases hlog
    | cons event new =>
      obtain ⟨rfl, -⟩ := List.cons.inj hlog
      exact absurd trivial (hnew _ (List.mem_cons_self ..))
  | read _ ih | write _ ih =>
    cases new with
    | nil => cases hlog
    | cons event new =>
      obtain ⟨rfl, hrest⟩ := List.cons.inj hlog
      cases (ih hrest fun e he => hnew e (List.mem_cons_of_mem _ he)).2
  | ended _ _ ih =>
    rcases new with _ | ⟨close, _ | ⟨change, new⟩⟩
    · cases hlog
    · obtain ⟨-, hrest⟩ := List.cons.inj hlog
      cases hrest
    · obtain ⟨-, hrest⟩ := List.cons.inj hlog
      obtain ⟨-, hlog'⟩ := List.cons.inj hrest
      cases (ih hlog' fun e he =>
        hnew e (List.mem_cons_of_mem _ (List.mem_cons_of_mem _ he))).2

/-! ## The life of a session -/

/-- A state other than the open one is an invariant. -/
private theorem settled_invariant {state : TcpState} (hstate : state ≠ .open) :
    TcpWorld.Invariant (W := W) fun w => w.IsLawful ∧ w.state = state where
  notified := fun h => h.1.notified
  frame := fun h hw => ⟨lawful_invariant.frame h.1 hw, by rw [hw.state]; exact h.2⟩
  read := fun h hopen => absurd (h.2.symm.trans hopen) hstate
  write := fun h hopen => absurd (h.2.symm.trans hopen) hstate
  ended := fun h hopen _ _ _ => absurd (h.2.symm.trans hopen) hstate

/-- A call other than an initialization keeps a state other than the open one. -/
private theorem TcpAction.apply_state {app : TcpApp W} {slot : TcpSlot W}
    (h : slot.session.io.IsLawful)
    {action : TcpAction W} (hinit : ¬action.IsInit) (hstate : slot.state ≠ .open) :
    (action.apply app slot).state = slot.state := by
  have hnow : slot.session.io.IsLawful ∧ slot.session.io.state = slot.state := ⟨h, rfl⟩
  unfold TcpAction.apply
  cases action with
  | init config callbacks transport => exact absurd trivial hinit
  | call op =>
    cases slot.callbacks with
    | none => rfl
    | some callbacks => exact ((settled_invariant hstate).apply callbacks app op hnow).2
  | output data =>
    cases slot.callbacks with
    | none => rfl
    | some callbacks => exact ((settled_invariant hstate).transportWrite callbacks hnow data).2

/-- What the log and the state of a session say of its life. -/
structure TcpSlot.Lifecycle (app : TcpApp W) (slot : TcpSlot W) : Prop where
  /-- Since the last successful initialization, if none of the open session was rejected by the
  shell, the close callback was invoked once when the session is not open, and not at all when it
  is. -/
  closedOnce : .init .ok ∈ slot.log → NotOverwritten slot.log →
    closings (sinceOk slot.log) = if slot.state = .open then 0 else 1
  /-- Every change of the state leaves the open state, and the close callback comes next. -/
  change : ∀ new before after old, slot.log = new ++ .change before after :: old →
    before = .open ∧ ∃ newer, new = newer ++ [.close after]
  /-- The close callback comes right behind a change of the state. -/
  close : ∀ new state old, slot.log = new ++ .close state :: old →
    ∃ older, old = .change .open state :: older
  /-- A state other than the open one stays until the next initialization. -/
  settled : slot.state ≠ .open → ∀ action : TcpAction W, ¬action.IsInit →
    (action.apply app slot).state = slot.state
  /-- The read callback is invoked in the open state. -/
  read : ∀ state, .read state ∈ slot.log → state = .open
  /-- The write callback is invoked in the open state. -/
  write : ∀ state, .write state ∈ slot.log → state = .open
  /-- Behind an initialization that the shell rejected nothing happens until the next one. -/
  silent : ∀ new old, slot.log = new ++ .init .errShell :: old →
    (∀ event ∈ new, ¬event.IsInit) → new = []

/-- **The life of a TCP session**, in every run of initializations, polls, prompts, closes and
output, whatever the callbacks answer and whether or not they, the handlers and the providers
close the session: one close callback for one session, right behind the one change of its state,
and no callback outside the open state.

**Proof sketch.** The run writes a lawful log (`lifeRun_lawful`), because each step of a session
that is not an initialization is a read, a write or an end in the open state. The rest is
induction on lawful logs. -/
theorem lifeRun_lifecycle (app : TcpApp W) (owner : W) (actions : List (TcpAction W)) :
    (lifeRun app (.zero owner) actions).Lifecycle app := by
  have hlawful := lifeRun_lawful app owner actions
  generalize lifeRun app (.zero owner) actions = slot at hlawful
  refine
    { closedOnce := hlawful.log.closings_eq
      change := fun new before after old => hlawful.log.change
      close := ?_
      settled := fun hstate action hinit => action.apply_state hlawful hinit hstate
      read := ?_
      write := ?_
      silent := fun new old hlog hnew => (hlawful.log.silent hlog hnew).1 }
  · intro new state old hlog
    have hsuffix : .close state :: old <:+ slot.log := ⟨new, hlog.symm⟩
    obtain ⟨state', hold⟩ := hlawful.log.older hsuffix (by rintro _ _ _ ⟨⟩)
    cases hold with
    | ended h _ => exact ⟨_, rfl⟩
  · intro state hmem
    obtain ⟨new, old, hlog⟩ := List.append_of_mem hmem
    have hsuffix : .read state :: old <:+ slot.log := ⟨new, hlog.symm⟩
    obtain ⟨state', hold⟩ := hlawful.log.older hsuffix (by rintro _ _ _ ⟨⟩)
    cases hold with
    | read h => rfl
  · intro state hmem
    obtain ⟨new, old, hlog⟩ := List.append_of_mem hmem
    have hsuffix : .write state :: old <:+ slot.log := ⟨new, hlog.symm⟩
    obtain ⟨state', hold⟩ := hlawful.log.older hsuffix (by rintro _ _ _ ⟨⟩)
    cases hold with
    | write h => rfl

/-- A run that initializes the small session, and once more with a history that does not fit. -/
def reinitRun : List (TcpAction Unit) :=
  [.init (some smallTcpConfig) (some (lastBytes [])) 0,
    .init (some { smallTcpConfig with shellConfig := some { smallConfig with historyDepth := 9 } })
      (some (lastBytes [])) 0]

/-- **A session initialized over**: the second initialization fails, and the first session is gone
without its close callback. -/
theorem reinit_not_closed :
    .init .ok ∈ (lifeRun idleTcpApp (.zero ()) reinitRun).log ∧
      (lifeRun idleTcpApp (.zero ()) reinitRun).state ≠ .open ∧
      closings (sinceOk (lifeRun idleTcpApp (.zero ()) reinitRun).log) = 0 := by
  decide +kernel

end PortableShell
