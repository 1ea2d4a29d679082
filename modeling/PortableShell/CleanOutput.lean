import PortableShell.CleanShell

set_option relaxedAutoImplicit false
set_option autoImplicit false

/-!
# What can reach the terminal

A terminal obeys the control bytes it is sent. Whatever bytes arrive at a shell, its core writes
texts of the application, printable characters and line ends, and a few control sequences that it
makes itself. A line that is typed cannot carry a control byte to the terminal: not by its echo, by
the history, by an error message or by a completion. What handlers get as arguments has no line
ends in it either.

The proof follows the values that the functions hand to each other: the line, its tokens, the
candidates of a completion.

## Main definitions

* `PortableShell.Env.Over`, `Op.Over` — the application keeps to a vocabulary.
* `PortableShell.Clean` — so do the texts of the shell and the events of the run.

## Main results

* `PortableShell.Clean.shInputByte` — any input byte keeps this.
* `PortableShell.run_output_clean` — the output of a run.
* `PortableShell.run_texts_clean` — what a run keeps in the history and hands to handlers.
-/

namespace PortableShell

variable {ω : Type} {V : Vocabulary}

/-! ## Admissible events and application code -/

/-- An event shows a text that may be shown or carries arguments of bytes that are kept. -/
def Vocabulary.Admits (V : Vocabulary) (cfg : Config) : Event → Prop
  | .write data => V.Shows cfg data
  | .dispatch argv => ∀ arg ∈ argv, V.kept.Over arg.bytes
  | .handler _ argv _ => ∀ arg ∈ argv, V.kept.Over arg.bytes
  | _ => True

/-- Every text of a list is of bytes that are shown or one of the shell's own control sequences. -/
def Vocabulary.ShowsAll (V : Vocabulary) (cfg : Config) (texts : List (List Byte)) : Prop :=
  ∀ data ∈ texts, V.Shows cfg data

/-- What application code registers keeps to the vocabulary. -/
def ApiCall.Over (V : Vocabulary) : ApiCall ω → Prop
  | .registerCommands commands => ∀ cmd ∈ commands.cells, cmd.Over V
  | .registerCommandSets sets => ∀ cmd ∈ rootsOf sets.cells, cmd.Over V
  | _ => True

/-- The application registers and offers such texts. -/
structure Env.Over (V : Vocabulary) (env : Env ω) : Prop where
  handler : ∀ fn view io argv ctx, ∀ call ∈ (env.handler fn view io argv ctx).1, call.Over V
  provider : ∀ fn view io i j ctx, ∀ call ∈ (env.completion fn view io i j ctx).1, call.Over V
  candidate : ∀ fn view io i j ctx, V.kept.OverOption (env.completion fn view io i j ctx).2

/-- A call of the public API passes such texts. Input is arbitrary. -/
def Op.Over (V : Vocabulary) : Op ω → Prop
  | .executeLine line => V.kept.Over line.bytes
  | .executeArgv argv => ∀ arg ∈ argv, V.kept.Over arg.bytes
  | .api call => call.Over V
  | _ => True

/-- The texts of the shell keep to the vocabulary, and the events of the run are admitted. -/
structure Clean (V : Vocabulary) (cfg : Config) (st : Sys ω) : Prop where
  cfg_eq : st.sh.cfg = cfg
  sh : st.sh.Over V
  trace : ∀ e ∈ st.trace, V.Admits cfg e

/-! ## Output and application code -/

namespace Clean

variable {env : Env ω} {cfg : Config} {st st' : Sys ω}

/-- Only the shell and the events matter. -/
theorem of_eq (h : Clean V cfg st) (hsh : st'.sh = st.sh) (htrace : st'.trace = st.trace) :
    Clean V cfg st' where
  cfg_eq := by rw [hsh, h.cfg_eq]
  sh := by
    rw [hsh]
    exact h.sh
  trace := by
    rw [htrace]
    exact h.trace

/-- An access to a buffer. -/
theorem touch (h : Clean V cfg st) (b : Buffer) (n : ℕ) : Clean V cfg (st.touch b n) :=
  h.of_eq rfl rfl

/-- A change of the shell. -/
theorem modify (h : Clean V cfg st) {f : Shell → Shell} (hf : (f st.sh).Over V)
    (hcfg : (f st.sh).cfg = st.sh.cfg) : Clean V cfg (st.modify f) where
  cfg_eq := by rw [Sys.modify_sh, hcfg, h.cfg_eq]
  sh := hf
  trace := h.trace

/-- An event. -/
theorem emit (h : Clean V cfg st) {e : Event} (he : V.Admits cfg e) : Clean V cfg (st.emit e) where
  cfg_eq := h.cfg_eq
  sh := h.sh
  trace := by
    intro e' he'
    rcases List.mem_append.mp he' with hold | hnew
    · exact h.trace e' hold
    · rw [List.mem_singleton.mp hnew]
      exact he

/-- A write of the core. -/
theorem shWrite (h : Clean V cfg st) {data : List Byte} (hdata : V.Shows cfg data) :
    Clean V cfg (PortableShell.shWrite env st data).1 :=
  (h.emit (e := .write data) hdata).of_eq rfl rfl

/-- A text of bytes that are shown. -/
theorem write (h : Clean V cfg st) {text : CStr} (htext : V.shown.Over text.bytes) :
    Clean V cfg (writeInternal env st text) :=
  h.shWrite (.inl htext)

/-- A sequence of writes. -/
theorem writes (h : Clean V cfg st) {texts : List (List Byte)}
    (htexts : ∀ text ∈ texts, V.Shows cfg text) :
    Clean V cfg (PortableShell.writes env st texts) := by
  induction texts generalizing st with
  | nil => exact h
  | cons text texts ih =>
    exact ih (h.shWrite (htexts text List.mem_cons_self))
      fun t ht => htexts t (List.mem_cons_of_mem _ ht)

/-- A sequence of such texts. -/
private theorem prints (h : Clean V cfg st) {texts : List (List Byte)}
    (htexts : ∀ text ∈ texts, V.shown.Over text) :
    Clean V cfg (PortableShell.writes env st texts) :=
  h.writes fun text ht => .inl (htexts text ht)

/-- A line of formatted output. -/
theorem print (h : Clean V cfg st) {text : List Byte} (htext : V.shown.Over text) :
    Clean V cfg (PortableShell.writes env st [vprintfBytes text]) :=
  h.prints fun t ht => by
    rw [List.mem_singleton.mp ht]
    exact over_vprintfBytes htext

/-- The prompt. -/
theorem prompt (h : Clean V cfg st) : Clean V cfg (shPrompt env st) := h.write h.sh.prompt

/-- The line is redrawn.

**Proof sketch.** The texts of a redraw are the erasing of the row, the prompt, the display line and
the way back of the cursor. The display line is over the alphabet of the kept text. -/
theorem redraw (h : Clean V cfg st) : Clean V cfg (shRedrawLineInternal env st) := by
  unfold shRedrawLineInternal
  split_ifs
  · refine Clean.writes (h.of_eq (touchDisplay_sh st) (touchDisplay_trace st)) ?_
    have hansi : st.sh.cfg.ansiEnabled = cfg.ansiEnabled := by rw [h.cfg_eq]
    have hshown : V.kept.Over (CStr.at (buildDisplayLine env st.sh displaySize ++ [0]) 0).bytes :=
      (over_buildDisplayLine env h.sh.text displaySize).cells_zero.at 0
    intro text htext
    rcases List.mem_append.mp htext with hline | hcursor
    · simp only [List.mem_cons, List.not_mem_nil, or_false] at hline
      rcases hline with rfl | rfl | rfl
      · rw [hansi]
        by_cases hmode : cfg.ansiEnabled = true
        · rw [if_pos hmode]
          exact .inr ⟨hmode, .erase⟩
        · rw [if_neg hmode]
          exact .inl (Vocabulary.over_str (by decide))
      · exact .inl h.sh.prompt
      · exact .inl (Vocabulary.over_shown hshown)
    · unfold cursorTexts at hcursor
      split_ifs at hcursor with hmode
      · rw [List.mem_singleton.mp hcursor]
        exact .inr ⟨hansi ▸ hmode.1, .back _⟩
      · exact absurd hcursor List.not_mem_nil
  · exact h

/-- A change of the shell that leaves its texts alone. -/
theorem frame (h : Clean V cfg st) {f : Shell → Shell} (hstep : ShellStep st.sh (f st.sh))
    (hsame : (f st.sh).Wf → (f st.sh).Over V) : Clean V cfg (st.modify f) :=
  h.modify (hsame (h.sh.wf.shellStep hstep)) hstep.sameSetup.cfg

/-- The history is cleared. -/
theorem historyClear (h : Clean V cfg st) : Clean V cfg (shHistoryClear st) :=
  (h.modify (f := Shell.clearHistory) h.sh.clearHistory rfl).of_eq rfl rfl

/-- The echo is switched. -/
theorem setEcho (h : Clean V cfg st) (enabled : Bool) :
    Clean V cfg (st.modify (shSetEchoEnabled · enabled)) :=
  h.frame (.echo _ enabled) fun hwf =>
    h.sh.frame hwf rfl rfl rfl rfl rfl ⟨rfl, rfl, rfl, rfl, rfl⟩

/-- The flag of the session is set. -/
theorem setStarted (h : Clean V cfg st) (b : Bool) : Clean V cfg (st.modify (·.setStarted b)) :=
  h.frame (.started _ b) fun hwf => h.sh.frame hwf rfl rfl rfl rfl rfl ⟨rfl, rfl, rfl, rfl, rfl⟩

/-- A session is started. -/
theorem shStart (h : Clean V cfg st) : Clean V cfg (PortableShell.shStart env st).1 := by
  have hput : Clean V cfg (shPuts env (st.modify (·.setStarted true)) st.sh.cfg.promptText).1 :=
    (h.setStarted true).shWrite (.inl h.sh.prompt)
  unfold PortableShell.shStart
  dsimp only
  split_ifs
  · exact h
  · exact hput.setStarted false
  · exact hput

/-- One use of the API by application code. -/
theorem runCall (h : Clean V cfg st) {call : ApiCall ω} (hcall : call.Over V) :
    Clean V cfg (PortableShell.runCall env st call) := by
  cases call with
  | write data => exact (h.emit (e := .handlerWrite data) trivial).of_eq rfl rfl
  | flush => exact h.of_eq rfl rfl
  | historyClear => exact h.historyClear
  | setEchoEnabled enabled => exact h.setEcho enabled
  | registerCommands commands =>
    exact h.frame (f := fun s => (shRegisterCommands s commands).1) (.commands _ commands)
      fun _ => h.sh.registerCommands hcall
  | registerCommandSets sets =>
    exact h.frame (f := fun s => (shRegisterCommandSets s sets).1) (.commandSets _ sets)
      fun _ => h.sh.registerCommandSets hcall
  | start => exact h.shStart
  | stop =>
    have hstop : Clean V cfg (st.modify Shell.stopped) := h.frame (.stopped _) fun hwf =>
      h.sh.frame hwf rfl rfl rfl rfl rfl ⟨rfl, rfl, rfl, rfl, rfl⟩
    exact hstop.of_eq rfl rfl
  | effect f => exact h.of_eq rfl rfl

/-- The uses of the API by application code. -/
theorem runCalls (h : Clean V cfg st) {calls : List (ApiCall ω)} (hcalls : ∀ c ∈ calls, c.Over V) :
    Clean V cfg (PortableShell.runCalls env st calls) := by
  refine List.foldlRecOn (motive := fun st' : Sys ω => Clean V cfg st') calls _ h ?_
  exact fun st' hst call hmem => hst.runCall (hcalls call hmem)

variable (henv : env.Over V)
include henv

/-- A handler. -/
theorem callHandler (h : Clean V cfg st) (fn : Ptr) {argv : List CStr} (ctx : Option Ptr)
    (hargv : ∀ arg ∈ argv, V.kept.Over arg.bytes) :
    Clean V cfg (PortableShell.callHandler env st fn argv ctx).1 :=
  (h.emit (e := .handler fn argv ctx) hargv).runCalls (henv.handler fn _ _ argv ctx)

/-- A completion provider. -/
theorem callProvider (h : Clean V cfg st) (fn : Ptr) (i j : ℕ) (ctx : Option Ptr) :
    Clean V cfg (PortableShell.callProvider env st fn i j ctx).1 ∧
      V.kept.OverOption (PortableShell.callProvider env st fn i j ctx).2 :=
  ⟨h.runCalls (henv.provider fn _ _ i j ctx), henv.candidate fn _ _ i j ctx⟩

/-! ## Executing a command -/

omit henv in
/-- The built-in `history`. -/
theorem builtinHistory (h : Clean V cfg st) (argv : List CStr) :
    Clean V cfg (PortableShell.builtinHistory env st argv).1 := by
  have hhead : Clean V cfg (PortableShell.writes env st [historyHeader st.sh]) := by
    refine h.print ?_
    simp only [Alphabet.over_append]
    exact ⟨⟨⟨⟨Vocabulary.over_of_plain (by decide), over_fmtUnsigned _⟩,
      Vocabulary.over_of_plain (by decide)⟩, over_fmtUnsigned _⟩,
        Vocabulary.over_of_plain (by decide)⟩
  unfold PortableShell.builtinHistory
  dsimp only
  split_ifs
  · exact h.historyClear.write (Vocabulary.over_str (by decide))
  · exact hhead
  · exact hhead.write (Vocabulary.over_str (by decide))
  · refine Clean.prints (hhead.of_eq (touchEntries_sh _) (touchEntries_trace _)) ?_
    intro text htext
    obtain ⟨i, -, rfl⟩ := List.mem_map.mp htext
    refine over_vprintfBytes ?_
    simp only [Alphabet.over_append]
    exact ⟨⟨⟨over_fmtUnsigned i, Vocabulary.over_of_plain (by decide)⟩,
      Vocabulary.over_shown (hhead.sh.newest _).getD⟩,
      Vocabulary.over_of_plain (by decide)⟩

omit henv in
/-- The built-in `echo`. -/
theorem builtinEcho (h : Clean V cfg st) (argv : List CStr) :
    Clean V cfg (PortableShell.builtinEcho env st argv).1 := by
  unfold PortableShell.builtinEcho
  split_ifs
  · refine h.prints ?_
    intro text htext
    rw [List.mem_singleton.mp htext]
    cases st.sh.echoEnabled <;> exact Vocabulary.over_of_plain (by decide)
  · exact (h.setEcho true).write (Vocabulary.over_str (by decide))
  · exact (h.setEcho false).write (Vocabulary.over_str (by decide))
  · exact h.write (Vocabulary.over_str (by decide))

/-- **A dispatch.** -/
theorem dispatch (h : Clean V cfg st) {argv : List CStr}
    (hargv : ∀ arg ∈ argv, V.kept.Over arg.bytes) :
    Clean V cfg (shCommandDispatchInternal env st argv).1 := by
  rw [dispatch_eq]
  have he : Clean V cfg (st.emit (.dispatch argv)) := h.emit hargv
  have hplan := shows_plan h.sh hargv
  rw [h.cfg_eq] at hplan
  cases hcase : plan st.sh argv with
  | print texts status =>
    rw [hcase] at hplan
    exact he.writes hplan
  | history => exact he.builtinHistory argv
  | echo => exact he.builtinEcho argv
  | handler fn args ctx =>
    rw [hcase] at hplan
    exact he.callHandler henv fn ctx hplan

/-- `sh_execute_argv`. -/
theorem shExecuteArgv (h : Clean V cfg st) {argv : List CStr}
    (hargv : ∀ arg ∈ argv, V.kept.Over arg.bytes) :
    Clean V cfg (PortableShell.shExecuteArgv env st argv).1 := by
  unfold PortableShell.shExecuteArgv
  split_ifs
  · exact h
  · exact h.dispatch henv hargv

omit henv in
/-- A line is added to the history. -/
private theorem addHistory (h : Clean V cfg st) {line : CStr} (hline : V.kept.Over line.bytes) :
    Clean V cfg (shHistoryAddInternal st line) := by
  have hsh := shHistoryAddInternal_sh st line
  split_ifs at hsh with hskip
  · exact h.of_eq hsh (shHistoryAddInternal_trace st line)
  · push Not at hskip
    obtain ⟨hne, hstorage, hdepth, hnew⟩ := hskip
    have hstep : ExecStep st.sh (st.sh.storeEntry line) :=
      .store line (by simpa using hne) (by simpa [Option.isSome_iff_ne_none] using hstorage) hdepth
        hnew
    have hstored : Clean V cfg (st.modify (·.storeEntry line)) :=
      h.modify (h.sh.storeEntry hline hstep hdepth) rfl
    exact hstored.of_eq hsh (shHistoryAddInternal_trace st line)

/-- A tokenized line is recorded and dispatched. -/
theorem executeTokens (h : Clean V cfg st) {line : CStr} (hline : V.kept.Over line.bytes)
    {r : TokenizeResult} (htexts : ∀ t ∈ r.texts, V.kept.Over t.bytes) :
    Clean V cfg (PortableShell.executeTokens env st line r).1 := by
  unfold PortableShell.executeTokens
  split_ifs
  · refine h.print ?_
    simp only [Alphabet.over_append]
    exact ⟨⟨Vocabulary.over_of_plain (by decide), Vocabulary.over_shown (over_shStatusString _)⟩,
      Vocabulary.over_of_plain (by decide)⟩
  · exact h
  · refine Clean.dispatch henv ?_ htexts
    unfold recordLine
    cases hentry : buildHistoryLine env st.sh line r.texts with
    | none => exact h
    | some entry => exact h.addHistory (over_buildHistoryLine env _ hline htexts hentry)

omit henv in
/-- The argument vector is wiped. -/
theorem cleanup (h : Clean V cfg st) : Clean V cfg (PortableShell.cleanup st) := by
  have hstep : ExecStep st.sh st.sh.wipeArgv := .wipeArgv st.sh
  have hwipe : Clean V cfg (st.modify Shell.wipeArgv) := by
    refine h.modify ?_ hstep.sameSetup.cfg
    have hwf := h.sh.wf.execStep hstep
    unfold Shell.wipeArgv at hwf ⊢
    split_ifs at hwf ⊢
    · exact h.sh.frame hwf rfl rfl rfl rfl rfl ⟨rfl, rfl, rfl, rfl, rfl⟩
    · exact h.sh
  exact hwipe.of_eq rfl rfl

/-- **A line is executed.** -/
theorem shExecuteLine (h : Clean V cfg st) {line : CStr} (hline : V.kept.Over line.bytes) :
    Clean V cfg (PortableShell.shExecuteLine env st line).1 := by
  unfold PortableShell.shExecuteLine
  split_ifs
  · refine h.print ?_
    simp only [Alphabet.over_append]
    exact ⟨⟨Vocabulary.over_of_plain (by decide), over_fmtUnsigned _⟩,
      Vocabulary.over_of_plain (by decide)⟩
  · have htexts := over_texts_shTokenize hline.cells_zero st.sh.argvCapacity
    dsimp only
    revert htexts
    generalize shTokenize (line.bytes ++ [0]) st.sh.argvCapacity = r
    intro htexts
    have hargv : Clean V cfg ((st.touch .argv r.argv.length).modify (·.setArgv r.texts)) := by
      have hset : (st.sh.setArgv r.texts).Over V :=
        h.sh.frame (h.sh.wf.execStep (.argv _ _)) rfl rfl rfl rfl rfl ⟨rfl, rfl, rfl, rfl, rfl⟩
      exact (h.touch .argv r.argv.length).modify (f := (·.setArgv r.texts)) hset rfl
    exact (hargv.executeTokens henv hline htexts).cleanup

/-! ## Editing -/

/-- Enter. -/
theorem handleEnter (h : Clean V cfg st) : Clean V cfg (PortableShell.handleEnter env st).1 := by
  have hnew : Clean V cfg (writeInternal env (st.emit .enter) (str "\r\n")) :=
    (h.emit (e := .enter) trivial).write (Vocabulary.over_str (by decide))
  have hexec : Clean V cfg
      (executeTyped env (writeInternal env (st.emit .enter) (str "\r\n"))).1 := by
    unfold executeTyped
    split_ifs
    · exact (hnew.touch .line _).shExecuteLine henv (h.sh.text.cells_zero.at 0)
    · exact hnew
  have herase := hexec.modify (f := fun s => s.eraseLine.eraseDraft)
    hexec.sh.eraseLine.eraseDraft rfl
  exact Clean.prompt (herase.of_eq rfl rfl)

omit henv in
/-- The line is cancelled. -/
theorem cancelInputLine (h : Clean V cfg st) :
    Clean V cfg (PortableShell.cancelInputLine env st) := by
  have hmark : Clean V cfg (writeInternal env st (str "^C\r\n")) :=
    h.write (Vocabulary.over_str (by decide))
  have hdraft := h.sh.eraseLine.eraseDraft
  have hreset : (st.sh.eraseLine.eraseDraft.resetAnsi).Over V :=
    hdraft.frame (hdraft.wf.editStep (.resetAnsi _)) rfl rfl rfl rfl rfl ⟨rfl, rfl, rfl, rfl, rfl⟩
  have herase := hmark.modify (f := fun s => s.eraseLine.eraseDraft.resetAnsi) hreset rfl
  exact Clean.prompt (herase.of_eq rfl rfl)

omit henv in
/-- The line is cleared. -/
theorem clearInputLine (h : Clean V cfg st) :
    Clean V cfg (PortableShell.clearInputLine env st) := by
  have hcfg : (st.sh.eraseLine.wipeDraft).cfg = st.sh.cfg := by
    unfold Shell.wipeDraft
    split_ifs <;> rfl
  have herase := h.modify (f := fun s => s.eraseLine.wipeDraft) h.sh.eraseLine.wipeDraft hcfg
  exact Clean.redraw (herase.of_eq rfl rfl)

omit henv in
/-- The cursor moves. -/
theorem setCursor (h : Clean V cfg st) {cursor : ℕ}
    (hc : cursor ≤ st.sh.cursor ∨ cursor ≤ st.sh.lineLen) :
    Clean V cfg (shRedrawLineInternal env (st.modify (·.setCursor cursor))) := by
  have hset : (st.sh.setCursor cursor).Over V :=
    h.sh.frame (h.sh.wf.setCursor hc) rfl rfl rfl rfl rfl ⟨rfl, rfl, rfl, rfl, rfl⟩
  exact Clean.redraw (h.modify (f := (·.setCursor cursor)) hset rfl)

omit henv in
/-- A part of the line is removed. -/
theorem deleteRange (h : Clean V cfg st) {start stop : ℕ} (hs : start ≤ stop)
    (hstop : stop ≤ st.sh.lineLen) :
    Clean V cfg (shRedrawLineInternal env (st.modify (·.deleteRange start stop))) :=
  Clean.redraw (h.modify (f := (·.deleteRange start stop)) (h.sh.deleteRange hs hstop) rfl)

omit henv in
/-- Backspace. -/
theorem backspace (h : Clean V cfg st) : Clean V cfg (PortableShell.backspace env st) := by
  unfold PortableShell.backspace
  split_ifs
  · exact h
  · exact (h.touch .line _).deleteRange (Nat.sub_le _ _) h.sh.wf.cursor_le

omit henv in
/-- Delete. -/
theorem deleteAtCursor (h : Clean V cfg st) :
    Clean V cfg (PortableShell.deleteAtCursor env st) := by
  unfold PortableShell.deleteAtCursor
  split_ifs with hend
  · exact h
  · exact (h.touch .line _).deleteRange (Nat.le_succ _) (not_le.mp hend)

omit henv in
/-- A word is removed. -/
theorem deleteWordLeft (h : Clean V cfg st) :
    Clean V cfg (PortableShell.deleteWordLeft env st) := by
  unfold PortableShell.deleteWordLeft
  dsimp only
  split_ifs
  · exact h.touch .line _
  · exact ((h.touch .line _).touch .line _).deleteRange (Shell.Wf.wordStart_le _) h.sh.wf.cursor_le

omit henv in
/-- A step through the history. -/
theorem moveHistory (h : Clean V cfg st) (direction : ℤ) :
    Clean V cfg (PortableShell.moveHistory env st direction) := by
  unfold PortableShell.moveHistory
  split_ifs with hcount
  · exact h
  · have htouch : Clean V cfg (touchWalk st direction) :=
      h.of_eq (touchWalk_sh _ _) (touchWalk_trace _ _)
    have hwalk : ((touchWalk st direction).sh.walk direction).Over V :=
      htouch.sh.walk (by rwa [touchWalk_sh]) direction
    exact Clean.redraw (htouch.modify (f := (·.walk direction)) hwalk
      (EditStep.sameSetup (.walk direction (by rwa [touchWalk_sh]))).cfg)

omit henv in
/-- An escape key.

**Proof sketch.** One case per key. A key that moves the cursor writes the move it makes, and every
other key has a lemma of its own. -/
theorem handleEscapeKey (h : Clean V cfg st) (key : AnsiEvent) :
    Clean V cfg (PortableShell.handleEscapeKey env st key) := by
  cases key with
  | none => exact h
  | up => exact h.moveHistory _
  | down => exact h.moveHistory _
  | delete => exact h.deleteAtCursor
  | right =>
    rw [PortableShell.handleEscapeKey]
    split_ifs with hend
    · exact h.setCursor (.inr hend)
    · exact h
  | left =>
    rw [PortableShell.handleEscapeKey]
    split_ifs
    · exact h.setCursor (.inl (Nat.sub_le _ _))
    · exact h
  | home =>
    rw [PortableShell.handleEscapeKey]
    split_ifs
    · exact h.setCursor (.inl (Nat.zero_le _))
    · exact h
  | «end» =>
    rw [PortableShell.handleEscapeKey]
    split_ifs
    · exact h.setCursor (.inr le_rfl)
    · exact h

omit henv in
/-- A character is inserted. -/
theorem insertChar (h : Clean V cfg st) {c : Byte} (hc : 32 ≤ c ∧ c < 127) :
    Clean V cfg (PortableShell.insertChar env st c).1 := by
  unfold PortableShell.insertChar
  split_ifs with hfull
  · exact Clean.prompt (h.write (Vocabulary.over_str (by decide)))
  · have hinsert : Clean V cfg ((st.touch .line (st.sh.lineLen + 2)).modify (·.insertAt c)) :=
      (h.modify (f := (·.insertAt c)) (h.sh.insertAt hc (by omega)) rfl).of_eq rfl rfl
    show Clean V cfg (echoInserted env _ _)
    unfold echoInserted
    split_ifs
    · exact (hinsert.of_eq (touchDisplay_sh _) (touchDisplay_trace _)).shWrite
        (.inl (Vocabulary.over_shown (hinsert.sh.echoed env (Nat.succ_ne_zero _))))
    · exact hinsert.redraw

/-! ## Completion -/

/-- Fetching a candidate. -/
theorem levelCandidate (h : Clean V cfg st) {level : CompletionLevel} (hlevel : level.Over V)
    (i : ℕ) : Clean V cfg (PortableShell.levelCandidate env st level i).1 ∧
      ∀ name, (PortableShell.levelCandidate env st level i).2 = some (some name) →
        V.kept.Over name.bytes := by
  unfold PortableShell.levelCandidate
  cases level.providerCommand with
  | none => exact ⟨h, fun name => over_staticCandidate h.sh hlevel⟩
  | some cmd =>
    dsimp only
    cases cmd.completion with
    | none => exact ⟨h, fun _ heq => absurd heq (Option.some_ne_none _).symm⟩
    | some fn =>
      obtain ⟨hclean, hoffer⟩ := h.callProvider henv fn level.providerArgIndex i
        (cmd.userCtx.or st.sh.cfg.userCtx)
      refine ⟨hclean, fun name heq => ?_⟩
      obtain ⟨found, hfound, hsome⟩ := Option.map_eq_some_iff.mp heq
      exact Option.some.inj hsome ▸ hoffer found hfound

/-- Collecting the matches. -/
theorem scanLoop (h : Clean V cfg st) {level : CompletionLevel} (hlevel : level.Over V) (pre : CStr)
    (n i : ℕ) {m : Matches} (hm : V.kept.Over m.firstMatch.bytes) :
    Clean V cfg (PortableShell.scanLoop env level pre n i st m).1 ∧
      V.kept.Over (PortableShell.scanLoop env level pre n i st m).2.firstMatch.bytes := by
  induction n generalizing i st m with
  | zero => exact ⟨h, hm⟩
  | succ n ih =>
    have hc := h.levelCandidate henv hlevel i
    unfold PortableShell.scanLoop
    revert hc
    generalize PortableShell.levelCandidate env st level i = r
    intro hc
    rcases r with ⟨st', _ | _ | name⟩
    · exact ⟨hc.1, hm⟩
    · exact ih hc.1 _ hm
    · refine ih hc.1 _ ?_
      have hname := hc.2 name rfl
      split_ifs
      · unfold Matches.add
        split_ifs
        · exact hname.take _
        · exact hname.take _
        · exact hm
      · exact hm

/-- Printing the alternatives. -/
theorem printMatchesLoop (h : Clean V cfg st) {level : CompletionLevel} (hlevel : level.Over V)
    (pre : CStr) (n i displayed : ℕ) :
    Clean V cfg (PortableShell.printMatchesLoop env level pre n i st displayed) := by
  induction n generalizing i st displayed with
  | zero => exact h
  | succ n ih =>
    have hc := h.levelCandidate henv hlevel i
    unfold PortableShell.printMatchesLoop
    revert hc
    generalize PortableShell.levelCandidate env st level i = r
    intro hc
    rcases r with ⟨st', _ | _ | name⟩
    · exact hc.1
    · exact ih hc.1 _ _
    · dsimp only
      split_ifs
      · refine ih (hc.1.print ?_) _ _
        exact Alphabet.over_append.mpr
          ⟨Vocabulary.over_shown (hc.2 name rfl), Vocabulary.over_of_plain (by decide)⟩
      · exact ih hc.1 _ _
      · exact ih hc.1 _ _

omit henv in
/-- A token is replaced. -/
theorem replaceToken (h : Clean V cfg st) (start stop : ℕ) {replacement : CStr}
    (hover : V.kept.Over replacement.bytes) (b : Bool) :
    Clean V cfg (PortableShell.replaceToken env st start stop replacement b).1 := by
  unfold PortableShell.replaceToken
  dsimp only
  split_ifs with hrange hlong
  · exact h
  · exact h
  · have hspace : spaceLen st.sh stop b ≤ 1 := by
      unfold spaceLen
      split_ifs <;> omega
    push Not at hrange
    have hreplaced : (st.sh.replaceRange start stop replacement (spaceLen st.sh stop b)).Over V :=
      h.sh.replaceRange hover hrange.1 hrange.2 hspace (not_le.mp hlong)
    exact Clean.redraw ((h.modify
      (f := fun s => s.replaceRange start stop replacement (spaceLen st.sh stop b))
      hreplaced rfl).of_eq rfl rfl)

/-- Using the matches found. -/
theorem completeMatches (h : Clean V cfg st) {level : CompletionLevel} (hlevel : level.Over V)
    (pre : CStr) (start stop : ℕ) {m : Matches} (hm : V.kept.Over m.firstMatch.bytes) :
    Clean V cfg (PortableShell.completeMatches env st level pre start stop m).1 := by
  unfold PortableShell.completeMatches
  split_ifs
  · exact h
  · exact h.replaceToken start stop hm true
  · exact h.replaceToken start stop (hm.take _) false
  · have hnew : Clean V cfg (writeInternal env st (str "\r\n")) :=
      h.write (Vocabulary.over_str (by decide))
    have hloop := hnew.printMatchesLoop henv hlevel pre
      (levelLimit (writeInternal env st (str "\r\n")).sh level) 0 0
    show Clean V cfg (printMatches env st level pre m.matchCount)
    unfold printMatches
    refine Clean.redraw ?_
    split_ifs
    · refine hloop.print ?_
      simp only [Alphabet.over_append]
      exact ⟨⟨Vocabulary.over_of_plain (by decide), over_fmtUnsigned _⟩,
        Vocabulary.over_of_plain (by decide)⟩
    · exact hloop

/-- The Tab key. -/
theorem shCompleteLineInternal (h : Clean V cfg st) :
    Clean V cfg (PortableShell.shCompleteLineInternal env st).1 := by
  have hread := h.touch .line st.sh.lineLen
  unfold PortableShell.shCompleteLineInternal
  dsimp only
  revert hread
  generalize st.touch .line st.sh.lineLen = st'
  intro hread
  split_ifs
  · exact h
  · exact hread
  · generalize st'.sh.tokensBefore _ = tokens
    cases hlevel : descend st'.sh (rootLevel st'.sh) tokens with
    | none => exact hread
    | some level =>
      have hover := over_descend hread.sh (over_rootLevel hread.sh) hlevel
      have hscan := hread.scanLoop henv hover st.sh.tokenPrefix (levelLimit st'.sh level) 0
        (m := ⟨CStr.empty, 0, 0⟩) Alphabet.over_nil
      exact hscan.1.completeMatches henv hover _ _ _ hscan.2

/-! ## Input -/

/-- An editing byte. -/
theorem editByte (h : Clean V cfg st) (byte : Byte) :
    Clean V cfg (PortableShell.editByte env st byte).1 := by
  have hcase := editByte_cases env st byte
  generalize PortableShell.editByte env st byte = r at hcase ⊢
  cases hcase with
  | enter _ => exact h.handleEnter henv
  | backspace => exact h.backspace
  | complete => exact h.shCompleteLineInternal henv
  | cancel => exact h.cancelInputLine
  | redraw =>
    refine Clean.redraw (h.shWrite ?_)
    unfold clearText
    by_cases hmode : st.sh.cfg.ansiEnabled = true
    · rw [if_pos hmode]
      exact .inr ⟨h.cfg_eq ▸ hmode, .clear⟩
    · rw [if_neg hmode]
      exact .inl (Vocabulary.over_str (by decide))
  | clear => exact h.clearInputLine
  | word => exact h.deleteWordLeft
  | char hchar => exact h.insertChar hchar
  | ignored => exact h

/-- **An input byte**, whatever it is. -/
theorem shInputByte (h : Clean V cfg st) (byte : Byte) :
    Clean V cfg (PortableShell.shInputByte env st byte).1 := by
  have hcr : ∀ b, (st.sh.setLastInputWasCr b).Over V := fun b =>
    h.sh.frame (h.sh.wf.step (.lastCr _ b)) rfl rfl rfl rfl rfl ⟨rfl, rfl, rfl, rfl, rfl⟩
  unfold PortableShell.shInputByte
  split_ifs
  · exact h.modify (f := (·.setLastInputWasCr false)) (hcr false) rfl
  · have hcr' := hcr (decide (byte = chr '\r'))
    have hfed : ((st.sh.setLastInputWasCr (decide (byte = chr '\r'))).setAnsi
        (shAnsiFeed st.sh.ansi byte).1).Over V :=
      hcr'.frame (hcr'.wf.step (.feed _ byte)) rfl rfl rfl rfl rfl ⟨rfl, rfl, rfl, rfl, rfl⟩
    have hst := h.modify (f := fun s => (s.setLastInputWasCr (decide (byte = chr '\r'))).setAnsi
      (shAnsiFeed st.sh.ansi byte).1) hfed rfl
    unfold feedByte
    dsimp only
    split_ifs
    · exact hst.handleEscapeKey _
    · exact hst
    · exact hst.editByte henv byte

/-- A block of input. -/
theorem shInput (h : Clean V cfg st) (data : List Byte) :
    Clean V cfg (PortableShell.shInput env st data).1 := by
  rw [shInput_fst]
  refine List.foldlRecOn (motive := fun st' : Sys ω => Clean V cfg st') data _ h ?_
  exact fun st' hst byte _ => hst.shInputByte henv byte

/-! ## Runs -/

/-- A call of the public API. -/
theorem apply (h : Clean V cfg st) {op : Op ω} (hop : op.Over V) :
    Clean V cfg (op.apply env st).1 := by
  cases op with
  | inputByte byte => exact h.shInputByte henv byte
  | input data => exact h.shInput henv data
  | executeLine line => exact h.shExecuteLine henv hop
  | executeArgv argv => exact h.shExecuteArgv henv hop
  | api call => exact h.runCall hop
  | prompt => exact h.prompt

/-- **A run of calls.** -/
theorem run (h : Clean V cfg st) {ops : List (Op ω)} (hops : ∀ op ∈ ops, op.Over V) :
    Clean V cfg (PortableShell.run env st ops) := by
  refine List.foldlRecOn (motive := fun st' : Sys ω => Clean V cfg st') ops _ h ?_
  exact fun st' hst op hmem => hst.apply henv (hops op hmem)

end Clean

/-! ## From initialization on -/

/-- An initialized shell keeps no texts but its prompt.

**Proof sketch.** `shInit_eq_ok` gives the shell. Its line, its draft and its history are empty, so
there is nothing to check but the prompt. -/
private theorem clean_init {cfg : Option Config} {storage : Storage} {s : Shell}
    (hsized : storage.Sized)
    (hinit : shInit cfg storage = .ok s) (hprompt : V.shown.Over s.cfg.promptText.bytes) (io : ω) :
    Clean V s.cfg (⟨s, io, [], []⟩ : Sys ω) where
  cfg_eq := rfl
  trace := fun _ hmem => absurd hmem List.not_mem_nil
  sh :=
    { wf := shInit_wf hsized hinit
      prompt := hprompt
      roots := by
        rw [(shInit_eq_ok hinit).1]
        exact fun _ hmem => absurd hmem List.not_mem_nil
      text := by
        rw [(shInit_eq_ok hinit).1, Shell.text, initialShell, List.take_zero]
        exact Alphabet.over_nil
      draft := by
        rw [(shInit_eq_ok hinit).1]
        intro d hd
        obtain ⟨d', -, rfl⟩ := Option.map_eq_some_iff.mp hd
        rw [CStr.at_bytes, List.drop_zero, Shell.Over.upto_store_zero]
        exact Alphabet.over_nil
      entries := by
        have hlength := (shInit_wf hsized hinit).history.length_entries
        have hcount : s.historyCount = 0 := by
          rw [(shInit_eq_ok hinit).1]
          rfl
        rw [List.eq_nil_of_length_eq_zero (hlength.trans hcount)]
        exact fun _ hmem => absurd hmem List.not_mem_nil }

/-- **The output of a run.** Whatever is typed, the core writes texts of bytes
that the application shows or, in ANSI mode, one of its own control sequences. -/
theorem run_output_clean {env : Env ω} (henv : env.Over V) {cfg : Option Config} {storage : Storage}
    {s : Shell} (hsized : storage.Sized) (hinit : shInit cfg storage = .ok s)
    (hprompt : V.shown.Over s.cfg.promptText.bytes) (io : ω) {ops : List (Op ω)}
    (hops : ∀ op ∈ ops, op.Over V) :
    V.ShowsAll s.cfg (coreOutput (run env ⟨s, io, [], []⟩ ops).trace) := by
  intro data hdata
  have hclean := (clean_init hsized hinit hprompt io).run henv hops
  obtain ⟨e, he, hwrite⟩ := List.mem_filterMap.mp hdata
  have hadmits := hclean.trace e he
  cases e with
  | write d =>
    rw [← Option.some.inj hwrite]
    exact hadmits
  | handlerWrite d => exact absurd hwrite (Option.some_ne_none _).symm
  | enter => exact absurd hwrite (Option.some_ne_none _).symm
  | dispatch argv => exact absurd hwrite (Option.some_ne_none _).symm
  | handler fn argv ctx => exact absurd hwrite (Option.some_ne_none _).symm

/-- Application code that does nothing uses no texts. -/
private theorem idleEnv_over : idleEnv.Over V where
  handler := fun _ _ _ _ _ _ hmem => absurd hmem List.not_mem_nil
  provider := fun _ _ _ _ _ _ _ hmem => absurd hmem List.not_mem_nil
  candidate := fun _ _ _ _ _ _ _ heq => absurd heq (Option.some_ne_none _).symm

/-- Typed control sequences are not echoed, with the texts of a command in plain characters. -/
theorem run_output_clean_small :
    Vocabulary.plain.ShowsAll smallShell.cfg (coreOutput (run idleEnv ⟨smallShell, (), [], []⟩
      [.api (.registerCommands (.array [shCmd "led" "[on|off]" "Control the LED"])),
        .input (ascii "led \x1b]0;title\x07\x1b[31m\r")]).trace) := by
  refine run_output_clean idleEnv_over smallStorage_sized shInit_small
    (Vocabulary.over_str (by decide)) () ?_
  refine List.forall_mem_cons.mpr ⟨?_, List.forall_mem_singleton.mpr trivial⟩
  exact List.forall_mem_singleton.mpr (over_shCmd (by decide) (by decide) (by decide))

/-- **What a run keeps and hands on**: the line, the entries of the history and the arguments of
handlers are of printable characters and of the bytes of the application's names, whatever is
typed. -/
theorem run_texts_clean {env : Env ω} (henv : env.Over V) {cfg : Option Config} {storage : Storage}
    {s : Shell} (hsized : storage.Sized) (hinit : shInit cfg storage = .ok s)
    (hprompt : V.shown.Over s.cfg.promptText.bytes) (io : ω) {ops : List (Op ω)}
    (hops : ∀ op ∈ ops, op.Over V) :
    V.kept.Over (run env ⟨s, io, [], []⟩ ops).sh.text ∧
      (∀ i, V.kept.OverOption (shHistoryGetNewest (run env ⟨s, io, [], []⟩ ops).sh i)) ∧
      ∀ fn argv ctx, .handler fn argv ctx ∈ (run env ⟨s, io, [], []⟩ ops).trace →
        ∀ arg ∈ argv, V.kept.Over arg.bytes := by
  have hclean := (clean_init hsized hinit hprompt io).run henv hops
  exact ⟨hclean.sh.text, hclean.sh.newest, fun fn argv ctx hmem => hclean.trace _ hmem⟩

/-- A line with control sequences in it is typed into the small shell. -/
def typedControls : Sys Unit :=
  run idleEnv ⟨smallShell, (), [], []⟩ [.input (ascii "\x1b]0;x\x07led\r\x1b[31mled\x07")]

/-- What this shell keeps. -/
theorem run_texts_clean_small :
    Vocabulary.plain.kept.Over typedControls.sh.text ∧
      (∀ i, Vocabulary.plain.kept.OverOption (shHistoryGetNewest typedControls.sh i)) ∧
      ∀ fn argv ctx, .handler fn argv ctx ∈ typedControls.trace →
        ∀ arg ∈ argv, Vocabulary.plain.kept.Over arg.bytes :=
  run_texts_clean idleEnv_over smallStorage_sized shInit_small (Vocabulary.over_str (by decide)) ()
    (List.forall_mem_singleton.mpr trivial)

end PortableShell
