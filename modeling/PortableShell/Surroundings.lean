import PortableShell.Acts

set_option relaxedAutoImplicit false
set_option autoImplicit false

/-!
# Shells in two surroundings

A shell reaches the outside world through its output backend and through application code. In two
surroundings that answer alike it does the same, though the two worlds may be of different types:
one may be a terminal and the other a queue that a driver empties piece by piece.

## Main definitions

* `PortableShell.Sys.withIo` — the system with another outside world.
* `PortableShell.ApiCall.Corresponds` — the same use of the API in two worlds.
* `PortableShell.AnswersTogether` — two surroundings that answer alike in related worlds.
* `PortableShell.Together` — the same system in related worlds.

## Main results

* `PortableShell.AnswersTogether.apply` — a call of the API on two such systems.
* `PortableShell.AnswersTogether.run` — a run of calls, with the statuses that the calls return.
-/

namespace PortableShell

variable {ω ω' : Type}

/-! ## Two worlds -/

/-- The system with another outside world. -/
def Sys.withIo (st : Sys ω) (io' : ω') : Sys ω' := ⟨st.sh, io', st.trace, st.accesses⟩

@[simp] theorem Sys.withIo_sh (st : Sys ω) (io' : ω') : (st.withIo io').sh = st.sh := rfl

@[simp] theorem Sys.withIo_io (st : Sys ω) (io' : ω') : (st.withIo io').io = io' := rfl

/-- The same use of the API in two worlds. -/
inductive ApiCall.Corresponds (R : ω → ω' → Prop) : ApiCall ω → ApiCall ω' → Prop
  | write (data : List Byte) : Corresponds R (.write data) (.write data)
  | flush : Corresponds R .flush .flush
  | historyClear : Corresponds R .historyClear .historyClear
  | setEchoEnabled (enabled : Bool) :
      Corresponds R (.setEchoEnabled enabled) (.setEchoEnabled enabled)
  | registerCommands (commands : CArray Cmd) :
      Corresponds R (.registerCommands commands) (.registerCommands commands)
  | registerCommandSets (sets : CArray CommandSet) :
      Corresponds R (.registerCommandSets sets) (.registerCommandSets sets)
  | start : Corresponds R .start .start
  | stop : Corresponds R .stop .stop
  | effect {f : ω → ω} {f' : ω' → ω'} (h : ∀ io io', R io io' → R (f io) (f' io')) :
      Corresponds R (.effect f) (.effect f')

/-- Two surroundings that answer alike: the backends take a text with the same status, the
application does the same, and the worlds stay related. -/
structure AnswersTogether (env : Env ω) (env' : Env ω') (cfg : Config) (R : ω → ω' → Prop) :
    Prop where
  write : ∀ io io' data, R io io' →
    R (backendWrite env cfg io data).1 (backendWrite env' cfg io' data).1 ∧
      (backendWrite env' cfg io' data).2 = (backendWrite env cfg io data).2
  flush : ∀ io io', R io io' →
    R (backendFlush env cfg io).1 (backendFlush env' cfg io').1 ∧
      (backendFlush env' cfg io').2 = (backendFlush env cfg io).2
  mask : env'.shouldMaskArg = env.shouldMaskArg
  handler : ∀ fn view io io' argv ctx, R io io' →
    List.Forall₂ (ApiCall.Corresponds R) (env.handler fn view io argv ctx).1
        (env'.handler fn view io' argv ctx).1 ∧
      (env'.handler fn view io' argv ctx).2 = (env.handler fn view io argv ctx).2
  completion : ∀ fn view io io' i j ctx, R io io' →
    List.Forall₂ (ApiCall.Corresponds R) (env.completion fn view io i j ctx).1
        (env'.completion fn view io' i j ctx).1 ∧
      (env'.completion fn view io' i j ctx).2 = (env.completion fn view io i j ctx).2

/-- The same call in two worlds. -/
inductive Op.Corresponds (R : ω → ω' → Prop) : Op ω → Op ω' → Prop
  | inputByte (byte : Byte) : Corresponds R (.inputByte byte) (.inputByte byte)
  | input (data : List Byte) : Corresponds R (.input data) (.input data)
  | executeLine (line : CStr) : Corresponds R (.executeLine line) (.executeLine line)
  | executeArgv (argv : List CStr) : Corresponds R (.executeArgv argv) (.executeArgv argv)
  | api {call : ApiCall ω} {call' : ApiCall ω'} (h : call.Corresponds R call') :
      Corresponds R (.api call) (.api call')
  | prompt : Corresponds R .prompt .prompt

/-- The same system in related worlds. -/
structure Together (R : ω → ω' → Prop) (cfg : Config) (st : Sys ω) (st' : Sys ω') : Prop where
  cfg_eq : st.sh.cfg = cfg
  io : R st.io st'.io
  eq : st' = st.withIo st'.io

/-- The same system in related worlds, and the same result. -/
structure TogetherWith {α : Type} (R : ω → ω' → Prop) (cfg : Config) (r : Sys ω × α)
    (r' : Sys ω' × α) : Prop where
  sys : Together R cfg r.1 r'.1
  result : r'.2 = r.2

namespace Together

variable {env : Env ω} {env' : Env ω'} {cfg : Config} {R : ω → ω' → Prop} {st : Sys ω}
  {st' : Sys ω'}

/-- The shells are the same. -/
theorem sh (h : Together R cfg st st') : st'.sh = st.sh := by rw [h.eq, Sys.withIo_sh]

/-- A change of the shell. -/
theorem modify (h : Together R cfg st st') {f : Shell → Shell} (hcfg : (f st.sh).cfg = st.sh.cfg) :
    Together R cfg (st.modify f) (st'.modify f) := by
  refine ⟨hcfg.trans h.cfg_eq, h.io, ?_⟩
  rw [h.eq]
  rfl

/-- An event. -/
theorem emit (h : Together R cfg st st') (e : Event) : Together R cfg (st.emit e) (st'.emit e) := by
  refine ⟨h.cfg_eq, h.io, ?_⟩
  rw [h.eq]
  rfl

/-- An access to a buffer. -/
theorem touch (h : Together R cfg st st') (b : Buffer) (n : ℕ) :
    Together R cfg (st.touch b n) (st'.touch b n) := by
  refine ⟨h.cfg_eq, h.io, ?_⟩
  rw [h.eq]
  rfl

/-- A choice that both sides make alike. -/
theorem ite {p : Prop} [Decidable p] {a b : Sys ω} {a' b' : Sys ω'} (ha : p → Together R cfg a a')
    (hb : ¬p → Together R cfg b b') :
    Together R cfg (if p then a else b) (if p then a' else b') := by
  by_cases hp : p
  · rw [if_pos hp, if_pos hp]
    exact ha hp
  · rw [if_neg hp, if_neg hp]
    exact hb hp

end Together

/-- A choice that both sides make alike, with a result. -/
theorem TogetherWith.ite {α : Type} {R : ω → ω' → Prop} {cfg : Config} {p : Prop} [Decidable p]
    {a b : Sys ω × α} {a' b' : Sys ω' × α} (ha : p → TogetherWith R cfg a a')
    (hb : ¬p → TogetherWith R cfg b b') :
    TogetherWith R cfg (if p then a else b) (if p then a' else b') := by
  by_cases hp : p
  · rw [if_pos hp, if_pos hp]
    exact ha hp
  · rw [if_neg hp, if_neg hp]
    exact hb hp

/-! ## Parts -/

namespace AnswersTogether

variable {env : Env ω} {env' : Env ω'} {cfg : Config} {R : ω → ω' → Prop} {st : Sys ω}
  {st' : Sys ω'}

/-- Reading the entries does not depend on the world. -/
theorem touchEntries (h : Together R cfg st st') :
    Together R cfg (PortableShell.touchEntries st) (PortableShell.touchEntries st') := by
  have hloop : ∀ (l : List ℕ) (a : Sys ω) (a' : Sys ω'), a.sh = st.sh → Together R cfg a a' →
      Together R cfg (l.foldl (fun t i => t.touch .history (newestStop t.sh i)) a)
        (l.foldl (fun t i => t.touch .history (newestStop t.sh i)) a') := by
    intro l
    induction l with
    | nil => exact fun _ _ _ ha => ha
    | cons i l ih =>
      intro a a' hsh ha
      refine ih _ _ hsh ?_
      dsimp only
      rw [ha.sh]
      exact ha.touch _ _
  rw [PortableShell.touchEntries, PortableShell.touchEntries, h.sh]
  exact hloop _ st st' rfl h

/-- The reads of a walk do not depend on the world. -/
theorem touchWalk (h : Together R cfg st st') (direction : ℤ) :
    Together R cfg (PortableShell.touchWalk st direction)
      (PortableShell.touchWalk st' direction) := by
  simp only [PortableShell.touchWalk, h.sh]
  refine Together.touch (.ite (fun _ => ?_) fun _ => ?_) _ _
  · exact (Together.ite (fun _ => (h.touch _ _).touch _ _) fun _ => h).touch _ _
  · exact (Together.ite (fun _ => (h.touch _ _).touch _ _) fun _ => h).touch _ _

/-- Clearing the history does not depend on the world. -/
theorem shHistoryClear (h : Together R cfg st st') :
    Together R cfg (PortableShell.shHistoryClear st) (PortableShell.shHistoryClear st') := by
  unfold PortableShell.shHistoryClear
  dsimp only
  simp only [Sys.touch_sh, h.sh]
  exact ((h.touch _ _).touch _ _).modify (f := Shell.clearHistory) rfl

/-- Adding a line to the history does not depend on the world. -/
theorem shHistoryAddInternal (h : Together R cfg st st') (line : CStr) :
    Together R cfg (PortableShell.shHistoryAddInternal st line)
      (PortableShell.shHistoryAddInternal st' line) := by
  rw [PortableShell.shHistoryAddInternal, PortableShell.shHistoryAddInternal, h.sh]
  refine .ite (fun _ => h) fun _ => .ite (fun _ => h.touch _ _) fun _ => ?_
  exact ((h.touch _ _).touch _ _).modify (f := (·.storeEntry line)) rfl

variable (hA : AnswersTogether env env' cfg R)

include hA

/-- The displayed line does not depend on the world. -/
theorem display_eq (s : Shell) (size : ℕ) :
    buildDisplayLine env' s size = buildDisplayLine env s size := by
  have hmask : maskToken env' = maskToken env := by
    funext s r argv display i
    rw [maskToken, maskToken, tokenMasked, tokenMasked, hA.mask]
  rw [buildDisplayLine, buildDisplayLine, hmask]

/-- The history line does not depend on the world. -/
private theorem historyLine_eq (s : Shell) (line : CStr) (argv : List CStr) :
    buildHistoryLine env' s line argv = buildHistoryLine env s line argv := by
  have hmasked : tokenMasked env' = tokenMasked env := by
    funext c r i arg
    rw [tokenMasked, tokenMasked, hA.mask]
  have hshown : shownTokens env' = shownTokens env := by
    funext c r argv
    rw [shownTokens, shownTokens, hmasked]
  rw [buildHistoryLine, buildHistoryLine, hmasked, hshown]

/-- A write. -/
theorem shWrite (h : Together R cfg st st') (data : List Byte) :
    TogetherWith R cfg (PortableShell.shWrite env st data)
      (PortableShell.shWrite env' st' data) := by
  have hback := hA.write _ _ data h.io
  unfold PortableShell.shWrite
  rw [h.sh, h.cfg_eq]
  refine ⟨⟨h.cfg_eq, hback.1, ?_⟩, hback.2⟩
  rw [h.eq]
  rfl

/-- A sequence of writes. -/
theorem writes (h : Together R cfg st st') (texts : List (List Byte)) :
    Together R cfg (PortableShell.writes env st texts) (PortableShell.writes env' st' texts) := by
  induction texts generalizing st st' with
  | nil => exact h
  | cons data texts ih => exact ih (hA.shWrite h data).sys

/-- A text. -/
theorem writeInternal (h : Together R cfg st st') (text : CStr) :
    Together R cfg (PortableShell.writeInternal env st text)
      (PortableShell.writeInternal env' st' text) := (hA.shWrite h text.bytes).sys

/-- The prompt. -/
theorem shPrompt (h : Together R cfg st st') :
    Together R cfg (PortableShell.shPrompt env st) (PortableShell.shPrompt env' st') := by
  rw [PortableShell.shPrompt, PortableShell.shPrompt, h.sh]
  exact hA.writeInternal h _

/-- Redrawing the line. -/
theorem redraw (h : Together R cfg st st') :
    Together R cfg (shRedrawLineInternal env st) (shRedrawLineInternal env' st') := by
  have htexts : redrawTexts env' st.sh = redrawTexts env st.sh := by
    rw [redrawTexts, redrawTexts, hA.display_eq]
  rw [shRedrawLineInternal, shRedrawLineInternal, h.sh, htexts]
  refine .ite (fun _ => hA.writes ?_ _) fun _ => h
  rw [touchDisplay, touchDisplay, h.sh]
  exact (h.touch _ _).touch _ _

/-- Flushing. -/
theorem shFlush (h : Together R cfg st st') :
    TogetherWith R cfg (PortableShell.shFlush env st) (PortableShell.shFlush env' st') := by
  have hback := hA.flush _ _ h.io
  unfold PortableShell.shFlush
  rw [h.sh, h.cfg_eq]
  refine ⟨⟨h.cfg_eq, hback.1, ?_⟩, hback.2⟩
  rw [h.eq]
  rfl

/-! ## Application code -/

/-- Starting a session. -/
theorem shStart (h : Together R cfg st st') :
    TogetherWith R cfg (PortableShell.shStart env st) (PortableShell.shStart env' st') := by
  have hputs := hA.shWrite (h.modify (f := (·.setStarted true)) rfl) st.sh.cfg.promptText.bytes
  unfold PortableShell.shStart shPuts
  dsimp only
  rw [h.sh, hputs.result]
  refine .ite (fun _ => ⟨h, rfl⟩) fun _ => .ite (fun _ => ⟨?_, rfl⟩) fun _ => hputs
  exact hputs.sys.modify (f := (·.setStarted false)) rfl

/-- Stopping a session. -/
theorem shStop (h : Together R cfg st st') :
    TogetherWith R cfg (PortableShell.shStop env st) (PortableShell.shStop env' st') :=
  hA.shFlush (h.modify rfl)

/-- One use of the API.

**Proof sketch.** One case per call of the API. Calls that write or flush ask the two backends,
which answer alike; the others change the shell alone. -/
theorem runCall (h : Together R cfg st st') {call : ApiCall ω} {call' : ApiCall ω'}
    (hcall : call.Corresponds R call') :
    Together R cfg (PortableShell.runCall env st call) (PortableShell.runCall env' st' call') := by
  cases hcall with
  | write data =>
    have hback := hA.write _ _ data h.io
    unfold PortableShell.runCall
    dsimp only
    rw [h.sh, h.cfg_eq]
    refine ⟨h.cfg_eq, hback.1, ?_⟩
    rw [h.eq]
    rfl
  | flush => exact (hA.shFlush h).sys
  | historyClear => exact shHistoryClear h
  | setEchoEnabled enabled => exact h.modify (f := (shSetEchoEnabled · enabled)) rfl
  | registerCommands commands =>
    exact h.modify (f := fun s => (shRegisterCommands s commands).1)
      (ShellStep.commands st.sh commands).sameSetup.cfg
  | registerCommandSets sets =>
    exact h.modify (f := fun s => (shRegisterCommandSets s sets).1)
      (ShellStep.commandSets st.sh sets).sameSetup.cfg
  | start => exact (hA.shStart h).sys
  | stop => exact (hA.shStop h).sys
  | @effect f f' hf =>
    refine ⟨h.cfg_eq, hf _ _ h.io, ?_⟩
    rw [h.eq]
    rfl

/-- The uses of the API by application code. -/
theorem runCalls (h : Together R cfg st st') {calls : List (ApiCall ω)} {calls' : List (ApiCall ω')}
    (hcalls : List.Forall₂ (ApiCall.Corresponds R) calls calls') :
    Together R cfg (PortableShell.runCalls env st calls)
      (PortableShell.runCalls env' st' calls') := by
  induction hcalls generalizing st st' with
  | nil => exact h
  | cons hcall _ ih => exact ih (hA.runCall h hcall)

/-- A handler. -/
theorem callHandler (h : Together R cfg st st') (fn : Ptr) (argv : List CStr) (ctx : Option Ptr) :
    TogetherWith R cfg (PortableShell.callHandler env st fn argv ctx)
      (PortableShell.callHandler env' st' fn argv ctx) := by
  have happ := hA.handler fn (viewOf st.sh) _ _ argv ctx h.io
  rw [PortableShell.callHandler, PortableShell.callHandler, h.sh]
  exact ⟨hA.runCalls (h.emit _) happ.1, happ.2⟩

/-- A completion provider. -/
theorem callProvider (h : Together R cfg st st') (fn : Ptr) (i j : ℕ) (ctx : Option Ptr) :
    TogetherWith R cfg (PortableShell.callProvider env st fn i j ctx)
      (PortableShell.callProvider env' st' fn i j ctx) := by
  have happ := hA.completion fn (viewOf st.sh) _ _ i j ctx h.io
  rw [PortableShell.callProvider, PortableShell.callProvider, h.sh]
  exact ⟨hA.runCalls h happ.1, happ.2⟩

/-! ## Executing a line -/

/-- The built-in `history`. -/
theorem builtinHistory (h : Together R cfg st st') (argv : List CStr) :
    TogetherWith R cfg (PortableShell.builtinHistory env st argv)
      (PortableShell.builtinHistory env' st' argv) := by
  have hhead := hA.writes h [historyHeader st.sh]
  unfold PortableShell.builtinHistory
  dsimp only
  simp only [writes_sh, h.sh]
  refine .ite (fun _ => ⟨hA.writeInternal (shHistoryClear h) _, rfl⟩) fun _ => ?_
  refine .ite (fun _ => ⟨hhead, rfl⟩) fun _ => ?_
  refine .ite (fun _ => ⟨hA.writeInternal hhead _, rfl⟩) fun _ => ?_
  exact ⟨hA.writes (touchEntries hhead) _, rfl⟩

/-- The built-in `echo`. -/
theorem builtinEcho (h : Together R cfg st st') (argv : List CStr) :
    TogetherWith R cfg (PortableShell.builtinEcho env st argv)
      (PortableShell.builtinEcho env' st' argv) := by
  rw [PortableShell.builtinEcho, PortableShell.builtinEcho, h.sh]
  refine .ite (fun _ => ⟨hA.writes h _, rfl⟩) fun _ => ?_
  refine .ite (fun _ => ⟨hA.writeInternal (h.modify rfl) _, rfl⟩) fun _ => ?_
  refine .ite (fun _ => ⟨hA.writeInternal (h.modify rfl) _, rfl⟩) fun _ => ?_
  exact ⟨hA.writeInternal h _, rfl⟩

/-- A dispatch. -/
theorem dispatch (h : Together R cfg st st') (argv : List CStr) :
    TogetherWith R cfg (shCommandDispatchInternal env st argv)
      (shCommandDispatchInternal env' st' argv) := by
  have he := h.emit (.dispatch argv)
  rw [dispatch_eq, dispatch_eq, h.sh]
  cases plan st.sh argv with
  | print texts status => exact ⟨hA.writes he texts, rfl⟩
  | history => exact hA.builtinHistory he argv
  | echo => exact hA.builtinEcho he argv
  | handler fn args ctx => exact hA.callHandler he fn args ctx

/-- Recording a line. -/
theorem recordLine (h : Together R cfg st st') (line : CStr) (argv : List CStr) :
    Together R cfg (PortableShell.recordLine env st line argv)
      (PortableShell.recordLine env' st' line argv) := by
  rw [PortableShell.recordLine, PortableShell.recordLine, h.sh, hA.historyLine_eq]
  cases buildHistoryLine env st.sh line argv with
  | none => exact h
  | some historyLine => exact shHistoryAddInternal h historyLine

/-- **Executing a line.** -/
theorem shExecuteLine (h : Together R cfg st st') (line : CStr) :
    TogetherWith R cfg (PortableShell.shExecuteLine env st line)
      (PortableShell.shExecuteLine env' st' line) := by
  rw [PortableShell.shExecuteLine, PortableShell.shExecuteLine, h.sh]
  refine .ite (fun _ => ⟨hA.writes h _, rfl⟩) fun _ => ?_
  dsimp only
  generalize shTokenize (line.bytes ++ [0]) st.sh.argvCapacity = r
  have hargv : Together R cfg ((st.touch .argv r.argv.length).modify (·.setArgv r.texts))
      ((st'.touch .argv r.argv.length).modify (·.setArgv r.texts)) := (h.touch _ _).modify rfl
  have hexec : TogetherWith R cfg
      (executeTokens env ((st.touch .argv r.argv.length).modify (·.setArgv r.texts)) line r)
      (executeTokens env' ((st'.touch .argv r.argv.length).modify (·.setArgv r.texts)) line r) := by
    rw [executeTokens, executeTokens]
    refine .ite (fun _ => ⟨hA.writes hargv _, rfl⟩) fun _ => ?_
    refine .ite (fun _ => ⟨hargv, rfl⟩) fun _ => ?_
    exact hA.dispatch (hA.recordLine hargv line r.texts) r.texts
  refine ⟨?_, hexec.result⟩
  rw [cleanup, cleanup, hexec.sys.sh]
  exact (hexec.sys.touch _ _).modify (ExecStep.wipeArgv _).sameSetup.cfg

/-- **Executing an argument vector.** -/
theorem shExecuteArgv (h : Together R cfg st st') (argv : List CStr) :
    TogetherWith R cfg (PortableShell.shExecuteArgv env st argv)
      (PortableShell.shExecuteArgv env' st' argv) := by
  rw [PortableShell.shExecuteArgv, PortableShell.shExecuteArgv, h.sh]
  exact .ite (fun _ => ⟨h, rfl⟩) fun _ => hA.dispatch h argv

/-! ## Editing -/

omit hA in
/-- Overwriting the line and the draft. -/
theorem touchErase (h : Together R cfg st st') :
    Together R cfg (PortableShell.touchErase st) (PortableShell.touchErase st') := by
  rw [PortableShell.touchErase, PortableShell.touchErase, h.sh]
  exact h.touch _ _

omit hA in
/-- Overwriting the draft. -/
theorem touchEraseDraft (h : Together R cfg st st') :
    Together R cfg (PortableShell.touchEraseDraft st) (PortableShell.touchEraseDraft st') := by
  rw [PortableShell.touchEraseDraft, PortableShell.touchEraseDraft, h.sh]
  exact h.touch _ _

/-- Enter. -/
theorem handleEnter (h : Together R cfg st st') :
    TogetherWith R cfg (PortableShell.handleEnter env st) (PortableShell.handleEnter env' st') := by
  have hnew := hA.writeInternal (h.emit .enter) (str "\r\n")
  have hexec : TogetherWith R cfg
      (executeTyped env (PortableShell.writeInternal env (st.emit .enter) (str "\r\n")))
      (executeTyped env' (PortableShell.writeInternal env' (st'.emit .enter) (str "\r\n"))) := by
    rw [executeTyped, executeTyped, hnew.sh]
    exact .ite (fun _ => hA.shExecuteLine (hnew.touch _ _) _) fun _ => ⟨hnew, rfl⟩
  exact ⟨hA.shPrompt ((touchEraseDraft (touchErase hexec.sys)).modify rfl), hexec.result⟩

/-- Walking the history. -/
theorem moveHistory (h : Together R cfg st st') (direction : ℤ) :
    Together R cfg (PortableShell.moveHistory env st direction)
      (PortableShell.moveHistory env' st' direction) := by
  rw [PortableShell.moveHistory, PortableShell.moveHistory, h.sh]
  refine .ite (fun _ => h) fun hcount => hA.redraw ((touchWalk h direction).modify ?_)
  exact (EditStep.walk direction (by rwa [touchWalk_sh])).sameSetup.cfg

/-- Inserting a character. -/
theorem insertChar (h : Together R cfg st st') (c : Byte) :
    TogetherWith R cfg (PortableShell.insertChar env st c)
      (PortableShell.insertChar env' st' c) := by
  have hins : Together R cfg ((st.touch .line (st.sh.lineLen + 2)).modify (·.insertAt c))
      ((st'.touch .line (st.sh.lineLen + 2)).modify (·.insertAt c)) := (h.touch _ _).modify rfl
  rw [PortableShell.insertChar, PortableShell.insertChar, h.sh]
  refine .ite (fun _ => ⟨hA.shPrompt (hA.writeInternal h _), rfl⟩) fun _ => ⟨?_, rfl⟩
  rw [echoInserted, echoInserted, hins.sh, hA.display_eq]
  refine .ite (fun _ => (hA.shWrite ?_ _).sys) fun _ => hA.redraw hins
  rw [touchDisplay, touchDisplay, hins.sh]
  exact (hins.touch _ _).touch _ _

/-- Removing a part of the line. -/
theorem deleteRange (h : Together R cfg st st') (n : ℕ) {f : Shell → Shell}
    (hf : (f st.sh).cfg = st.sh.cfg) :
    Together R cfg (shRedrawLineInternal env ((st.touch .line n).modify f))
      (shRedrawLineInternal env' ((st'.touch .line n).modify f)) :=
  hA.redraw ((h.touch _ _).modify hf)

/-- The delete key. -/
theorem deleteAtCursor (h : Together R cfg st st') :
    Together R cfg (PortableShell.deleteAtCursor env st)
      (PortableShell.deleteAtCursor env' st') := by
  rw [PortableShell.deleteAtCursor, PortableShell.deleteAtCursor, h.sh]
  exact .ite (fun _ => h) fun _ => hA.deleteRange h _ rfl

/-- Backspace. -/
theorem backspace (h : Together R cfg st st') :
    Together R cfg (PortableShell.backspace env st) (PortableShell.backspace env' st') := by
  rw [PortableShell.backspace, PortableShell.backspace, h.sh]
  exact .ite (fun _ => h) fun _ => hA.deleteRange h _ rfl

/-- Removing a word. -/
theorem deleteWordLeft (h : Together R cfg st st') :
    Together R cfg (PortableShell.deleteWordLeft env st)
      (PortableShell.deleteWordLeft env' st') := by
  have hread := h.touch .line st.sh.cursor
  unfold PortableShell.deleteWordLeft
  dsimp only
  simp only [Sys.touch_sh, h.sh]
  exact .ite (fun _ => hread) fun _ => hA.deleteRange hread _ rfl

/-- Emptying the line. -/
theorem clearInputLine (h : Together R cfg st st') :
    Together R cfg (PortableShell.clearInputLine env st)
      (PortableShell.clearInputLine env' st') := by
  unfold PortableShell.clearInputLine
  dsimp only
  rw [(touchErase h).sh]
  refine hA.redraw (((touchErase h).touch _ _).modify ?_)
  exact ((EditStep.eraseLine _).sameSetup.trans (EditStep.wipeDraft _).sameSetup).cfg

/-- Cancelling the line. -/
theorem cancelInputLine (h : Together R cfg st st') :
    Together R cfg (PortableShell.cancelInputLine env st)
      (PortableShell.cancelInputLine env' st') :=
  hA.shPrompt ((touchEraseDraft (touchErase (hA.writeInternal h _))).modify rfl)

/-- An escape key. -/
theorem handleEscapeKey (h : Together R cfg st st') (key : AnsiEvent) :
    Together R cfg (PortableShell.handleEscapeKey env st key)
      (PortableShell.handleEscapeKey env' st' key) := by
  cases key with
  | none => exact h
  | up => exact hA.moveHistory h _
  | down => exact hA.moveHistory h _
  | delete => exact hA.deleteAtCursor h
  | right =>
    rw [PortableShell.handleEscapeKey, PortableShell.handleEscapeKey, h.sh]
    exact .ite (fun _ => hA.redraw (h.modify rfl)) fun _ => h
  | left =>
    rw [PortableShell.handleEscapeKey, PortableShell.handleEscapeKey, h.sh]
    exact .ite (fun _ => hA.redraw (h.modify rfl)) fun _ => h
  | home =>
    rw [PortableShell.handleEscapeKey, PortableShell.handleEscapeKey, h.sh]
    exact .ite (fun _ => hA.redraw (h.modify rfl)) fun _ => h
  | «end» =>
    rw [PortableShell.handleEscapeKey, PortableShell.handleEscapeKey, h.sh]
    exact .ite (fun _ => hA.redraw (h.modify rfl)) fun _ => h

/-! ## Completion -/

/-- Fetching a candidate. -/
theorem levelCandidate (h : Together R cfg st st') (level : CompletionLevel) (i : ℕ) :
    TogetherWith R cfg (PortableShell.levelCandidate env st level i)
      (PortableShell.levelCandidate env' st' level i) := by
  unfold PortableShell.levelCandidate
  rw [h.sh]
  cases level.providerCommand with
  | none => exact ⟨h, rfl⟩
  | some cmd =>
    dsimp only
    cases cmd.completion with
    | none => exact ⟨h, rfl⟩
    | some fn =>
      have hcall := hA.callProvider h fn level.providerArgIndex i
        (cmd.userCtx.or st.sh.cfg.userCtx)
      exact ⟨hcall.sys, congrArg (Option.map some) hcall.result⟩

/-- Collecting the matches. -/
theorem scanLoop (h : Together R cfg st st') (level : CompletionLevel) (pre : CStr) (n i : ℕ)
    (m : Matches) :
    TogetherWith R cfg (PortableShell.scanLoop env level pre n i st m)
      (PortableShell.scanLoop env' level pre n i st' m) := by
  induction n generalizing i st st' m with
  | zero => exact ⟨h, rfl⟩
  | succ n ih =>
    have hcand := hA.levelCandidate h level i
    unfold PortableShell.scanLoop
    revert hcand
    generalize PortableShell.levelCandidate env st level i = r
    generalize PortableShell.levelCandidate env' st' level i = r'
    rcases r with ⟨st₁, candidate⟩
    rcases r' with ⟨st₁', candidate'⟩
    rintro ⟨hsys, hname⟩
    obtain rfl : candidate' = candidate := hname
    rcases candidate' with _ | _ | name
    · exact ⟨hsys, rfl⟩
    · exact ih hsys _ _
    · exact ih hsys _ _

/-- Printing the alternatives. -/
theorem printMatchesLoop (h : Together R cfg st st') (level : CompletionLevel) (pre : CStr)
    (n i displayed : ℕ) :
    Together R cfg (PortableShell.printMatchesLoop env level pre n i st displayed)
      (PortableShell.printMatchesLoop env' level pre n i st' displayed) := by
  induction n generalizing i st st' displayed with
  | zero => exact h
  | succ n ih =>
    have hcand := hA.levelCandidate h level i
    unfold PortableShell.printMatchesLoop
    revert hcand
    generalize PortableShell.levelCandidate env st level i = r
    generalize PortableShell.levelCandidate env' st' level i = r'
    rcases r with ⟨st₁, candidate⟩
    rcases r' with ⟨st₁', candidate'⟩
    rintro ⟨hsys, hname⟩
    obtain rfl : candidate' = candidate := hname
    rcases candidate' with _ | _ | name
    · exact hsys
    · exact ih hsys _ _
    · refine .ite (fun _ => ih ?_ _ _) fun _ => ih hsys _ _
      exact .ite (fun _ => hA.writes hsys _) fun _ => hsys

/-- Listing the alternatives. -/
theorem printMatches (h : Together R cfg st st') (level : CompletionLevel) (pre : CStr)
    (matchCount : ℕ) :
    Together R cfg (PortableShell.printMatches env st level pre matchCount)
      (PortableShell.printMatches env' st' level pre matchCount) := by
  have hnew := hA.writeInternal h (str "\r\n")
  have hloop := hA.printMatchesLoop hnew level pre (levelLimit st.sh level) 0 0
  rw [PortableShell.printMatches, PortableShell.printMatches]
  simp only [writeInternal_sh, h.sh]
  exact hA.redraw (.ite (fun _ => hA.writes hloop _) fun _ => hloop)

/-- Replacing the token. -/
theorem replaceToken (h : Together R cfg st st') (start stop : ℕ) (replacement : CStr) (b : Bool) :
    TogetherWith R cfg (PortableShell.replaceToken env st start stop replacement b)
      (PortableShell.replaceToken env' st' start stop replacement b) := by
  unfold PortableShell.replaceToken
  rw [h.sh]
  refine .ite (fun _ => ⟨h, rfl⟩) fun _ => .ite (fun _ => ⟨h, rfl⟩) fun _ => ⟨?_, rfl⟩
  exact hA.redraw (((h.touch _ _).touch _ _).modify rfl)

/-- Using the matches found. -/
theorem completeMatches (h : Together R cfg st st') (level : CompletionLevel) (pre : CStr)
    (start stop : ℕ) (m : Matches) :
    TogetherWith R cfg (PortableShell.completeMatches env st level pre start stop m)
      (PortableShell.completeMatches env' st' level pre start stop m) := by
  rw [PortableShell.completeMatches, PortableShell.completeMatches, h.sh]
  refine .ite (fun _ => ⟨h, rfl⟩) fun _ => ?_
  refine .ite (fun _ => hA.replaceToken h _ _ _ _) fun _ => ?_
  refine .ite (fun _ => hA.replaceToken h _ _ _ _) fun _ => ?_
  exact ⟨hA.printMatches h _ _ _, rfl⟩

/-- The Tab key. -/
theorem shCompleteLineInternal (h : Together R cfg st st') :
    TogetherWith R cfg (PortableShell.shCompleteLineInternal env st)
      (PortableShell.shCompleteLineInternal env' st') := by
  have hread := h.touch .line st.sh.lineLen
  unfold PortableShell.shCompleteLineInternal
  dsimp only
  simp only [Sys.touch_sh, h.sh]
  refine .ite (fun _ => ⟨h, rfl⟩) fun _ => .ite (fun _ => ⟨hread, rfl⟩) fun _ => ?_
  generalize shTokenize (st.sh.line.take st.sh.cursor ++ [0]) st.sh.argvCapacity = r
  cases descend st.sh (rootLevel st.sh) (st.sh.tokensBefore r.texts) with
  | none => exact ⟨hread, rfl⟩
  | some level =>
    have hscan := hA.scanLoop hread level st.sh.tokenPrefix (levelLimit st.sh level) 0
      ⟨CStr.empty, 0, 0⟩
    dsimp only
    rw [hscan.result]
    exact hA.completeMatches hscan.sys _ _ _ _ _

/-! ## Input -/

/-- An editing byte. -/
theorem editByte (h : Together R cfg st st') (byte : Byte) :
    TogetherWith R cfg (PortableShell.editByte env st byte)
      (PortableShell.editByte env' st' byte) := by
  refine .ite (fun _ => hA.handleEnter h) fun _ => ?_
  refine .ite (fun _ => ⟨hA.backspace h, rfl⟩) fun _ => ?_
  refine .ite (fun _ => hA.shCompleteLineInternal h) fun _ => ?_
  refine .ite (fun _ => ⟨hA.cancelInputLine h, rfl⟩) fun _ => ?_
  refine .ite (fun _ => ⟨?_, rfl⟩) fun _ => ?_
  · rw [h.sh]
    exact hA.redraw (hA.writeInternal h _)
  refine .ite (fun _ => ⟨hA.clearInputLine h, rfl⟩) fun _ => ?_
  refine .ite (fun _ => ⟨hA.deleteWordLeft h, rfl⟩) fun _ => ?_
  exact .ite (fun _ => hA.insertChar h byte) fun _ => ⟨h, rfl⟩

/-- **An input byte.** -/
theorem shInputByte (h : Together R cfg st st') (byte : Byte) :
    TogetherWith R cfg (PortableShell.shInputByte env st byte)
      (PortableShell.shInputByte env' st' byte) := by
  have hfed : Together R cfg
      (st.modify fun s => (s.setLastInputWasCr (decide (byte = chr '\r'))).setAnsi
        (shAnsiFeed st.sh.ansi byte).1)
      (st'.modify fun s => (s.setLastInputWasCr (decide (byte = chr '\r'))).setAnsi
        (shAnsiFeed st.sh.ansi byte).1) := h.modify rfl
  rw [PortableShell.shInputByte, PortableShell.shInputByte, h.sh]
  refine .ite (fun _ => ⟨h.modify (f := (·.setLastInputWasCr false)) rfl, rfl⟩) fun _ => ?_
  unfold feedByte
  dsimp only
  rw [h.sh]
  refine .ite (fun _ => ⟨hA.handleEscapeKey hfed _, rfl⟩) fun _ => ?_
  exact .ite (fun _ => ⟨hfed, rfl⟩) fun _ => hA.editByte hfed byte

/-- **A block of input.** -/
theorem shInput (h : Together R cfg st st') (data : List Byte) :
    TogetherWith R cfg (PortableShell.shInput env st data)
      (PortableShell.shInput env' st' data) := by
  have hloop : ∀ acc acc', TogetherWith R cfg acc acc' →
      TogetherWith R cfg (data.foldl (inputStep env) acc) (data.foldl (inputStep env') acc') := by
    induction data with
    | nil => exact fun _ _ hacc => hacc
    | cons byte data ih =>
      intro acc acc' hacc
      have hbyte := hA.shInputByte hacc.sys byte
      refine ih _ _ ⟨hbyte.sys, ?_⟩
      rw [inputStep, inputStep, hacc.result, hbyte.result]
  exact hloop _ _ ⟨h, rfl⟩

/-! ## Runs -/

/-- The API functions return the same. -/
theorem callStatus_eq (h : Together R cfg st st') {call : ApiCall ω} {call' : ApiCall ω'}
    (hcall : call.Corresponds R call') : callStatus env' st' call' = callStatus env st call := by
  cases hcall with
  | write data =>
    rw [callStatus, callStatus, h.sh, h.cfg_eq]
    exact (hA.write _ _ data h.io).2
  | flush => exact (hA.shFlush h).result
  | historyClear => rfl
  | setEchoEnabled enabled => rfl
  | registerCommands commands => rw [callStatus, callStatus, h.sh]
  | registerCommandSets sets => rw [callStatus, callStatus, h.sh]
  | start => exact (hA.shStart h).result
  | stop => exact (hA.shStop h).result
  | effect hf => rfl

/-- **A call of the API.** -/
theorem apply (h : Together R cfg st st') {op : Op ω} {op' : Op ω'} (hop : op.Corresponds R op') :
    TogetherWith R cfg (op.apply env st) (op'.apply env' st') := by
  cases hop with
  | inputByte byte => exact hA.shInputByte h byte
  | input data => exact hA.shInput h data
  | executeLine line => exact hA.shExecuteLine h line
  | executeArgv argv => exact hA.shExecuteArgv h argv
  | api hcall => exact ⟨hA.runCall h hcall, hA.callStatus_eq h hcall⟩
  | prompt => exact ⟨hA.shPrompt h, rfl⟩

/-- **A run of calls.** -/
theorem run (h : Together R cfg st st') {ops : List (Op ω)} {ops' : List (Op ω')}
    (hops : List.Forall₂ (Op.Corresponds R) ops ops') :
    Together R cfg (PortableShell.run env st ops) (PortableShell.run env' st' ops') ∧
      statuses env' st' ops' = statuses env st ops := by
  induction hops generalizing st st' with
  | nil => exact ⟨h, rfl⟩
  | cons hop _ ih =>
    have happly := hA.apply h hop
    obtain ⟨hrun, hstatuses⟩ := ih happly.sys
    refine ⟨hrun, ?_⟩
    rw [statuses, statuses, happly.result, hstatuses]

end AnswersTogether

/-! ## Transports -/

/-- Two write callbacks that answer alike in related worlds. -/
def WritesTogether (R : ω → ω' → Prop) (write : ω → List Byte → ω × TransportStatus × ℕ)
    (write' : ω' → List Byte → ω' × TransportStatus × ℕ) : Prop :=
  ∀ io io' data, R io io' → R (write io data).1 (write' io' data).1 ∧
    (write' io' data).2 = (write io data).2

namespace WritesTogether

variable {R : ω → ω' → Prop} {write : ω → List Byte → ω × TransportStatus × ℕ}
  {write' : ω' → List Byte → ω' × TransportStatus × ℕ}

/-- The partial-write loop. -/
theorem writeLoop (h : WritesTogether R write write') (data : List Byte) (n : ℕ) {io : ω} {io' : ω'}
    (hR : R io io') (total : ℕ) (last : TransportStatus) :
    R (PortableShell.writeLoop write data n io total last).io
        (PortableShell.writeLoop write' data n io' total last).io ∧
      (PortableShell.writeLoop write' data n io' total last).status =
        (PortableShell.writeLoop write data n io total last).status ∧
      (PortableShell.writeLoop write' data n io' total last).written =
        (PortableShell.writeLoop write data n io total last).written := by
  induction n generalizing io io' total last with
  | zero => exact ⟨hR, rfl, rfl⟩
  | succ n ih =>
    obtain ⟨hnext, hresult⟩ := h io io' (data.drop total) hR
    unfold PortableShell.writeLoop
    dsimp only
    rw [hresult]
    split_ifs <;> first | exact ⟨hnext, rfl, rfl⟩ | exact ⟨hR, rfl, rfl⟩ | exact ih hnext _ _

/-- `sh_write`, over transports without a flush callback.

**Proof sketch.** Both transports are asked with the same text, and `writeLoop` compares the
loops. -/
theorem backendWrite (h : WritesTogether R write write') {env : Env ω} {env' : Env ω'}
    {cfg : Config} {p : Ptr} (hcfg : cfg.transport = some p)
    (henv : env.transport p = ⟨some write, none⟩)
    (henv' : env'.transport p = ⟨some write', none⟩) {io : ω} {io' : ω'} (hR : R io io')
    (data : List Byte) :
    R (PortableShell.backendWrite env cfg io data).1
        (PortableShell.backendWrite env' cfg io' data).1 ∧
      (PortableShell.backendWrite env' cfg io' data).2 =
        (PortableShell.backendWrite env cfg io data).2 := by
  have hall : R (shTransportWriteAll (env.transport p) io data cfg.transportWriteAttempts).io
        (shTransportWriteAll (env'.transport p) io' data cfg.transportWriteAttempts).io ∧
      (shTransportWriteAll (env'.transport p) io' data cfg.transportWriteAttempts).status =
        (shTransportWriteAll (env.transport p) io data cfg.transportWriteAttempts).status ∧
      (shTransportWriteAll (env'.transport p) io' data cfg.transportWriteAttempts).written =
        (shTransportWriteAll (env.transport p) io data cfg.transportWriteAttempts).written := by
    unfold shTransportWriteAll
    rw [henv, henv']
    dsimp only
    split_ifs
    · exact ⟨hR, rfl, rfl⟩
    · exact ⟨hR, rfl, rfl⟩
    · exact h.writeLoop data _ hR 0 .ok
  unfold PortableShell.backendWrite
  rw [hcfg]
  dsimp only
  rw [hall.2.1, hall.2.2]
  exact ⟨hall.1, rfl⟩

/-- `sh_flush`, over transports without a flush callback. -/
theorem backendFlush {env : Env ω} {env' : Env ω'} {cfg : Config} {p : Ptr}
    (hcfg : cfg.transport = some p) (henv : env.transport p = ⟨some write, none⟩)
    (henv' : env'.transport p = ⟨some write', none⟩) {io : ω} {io' : ω'} (hR : R io io') :
    R (PortableShell.backendFlush env cfg io).1 (PortableShell.backendFlush env' cfg io').1 ∧
      (PortableShell.backendFlush env' cfg io').2 = (PortableShell.backendFlush env cfg io).2 := by
  unfold PortableShell.backendFlush
  rw [hcfg]
  dsimp only
  rw [henv, henv']
  exact ⟨hR, rfl⟩

end WritesTogether

end PortableShell
