import PortableShell.Accesses

set_option relaxedAutoImplicit false
set_option autoImplicit false

/-!
# Acts

Every function of the library is a sequence of a few kinds of acts: it updates the shell instance
behind the accesses that it records, hands a text to the output backend, flushes the backend, lets
application code act on the outside world, or enters, dispatches or calls something. This file
says so once, function by function. What each act keeps, a call keeps and a run keeps.

## Main definitions

* `PortableShell.Act`, `Acts` — one act, and a sequence of them.
* `PortableShell.Env.ActsBy` — how application code acts on the outside world.

## Main results

* `PortableShell.shInputByte_acts`, `shExecuteLine_acts`, … — the functions as sequences of acts.
* `PortableShell.apply_acts`, `run_acts` — a call and a run of calls.
* `PortableShell.Acts.steps`, `apply_steps`, `run_steps` — the updates of the shell among them.
* `PortableShell.Acts.recorded` — the accesses that are recorded cover the updates.
-/

namespace PortableShell

open Relation

variable {ω : Type}

/-! ## Acts and their sequences -/

/-- The events that are no output. -/
inductive Event.IsCall : Event → Prop
  | enter : IsCall .enter
  | dispatch (argv : List CStr) : IsCall (.dispatch argv)
  | handler (fn : Ptr) (argv : List CStr) (ctx : Option Ptr) : IsCall (.handler fn argv ctx)

/-- What a function of the library does at a time. The updates of the shell are those of `T`,
application code acts on the outside world by functions of `E`, and without `C` nothing is entered,
dispatched or called. -/
inductive Act (env : Env ω) (T : Shell → Shell → Prop) (E : (ω → ω) → Prop) (C : Prop) :
    Sys ω → Sys ω → Prop
  | update {st st' : Sys ω} (log : List Access) (hsteps : ReflTransGen T st.sh st'.sh)
      (hlog : st.sh.Wf → Recorded log st.sh st'.sh) (hio : st'.io = st.io)
      (htrace : st'.trace = st.trace) (haccesses : st'.accesses = st.accesses ++ log) :
      Act env T E C st st'
  | write (st : Sys ω) (data : List Byte) : Act env T E C st (shWrite env st data).1
  | handlerWrite (st : Sys ω) (data : List Byte) : Act env T E C st (runCall env st (.write data))
  | flush (st : Sys ω) : Act env T E C st (shFlush env st).1
  | effect (st : Sys ω) {f : ω → ω} (hf : E f) : Act env T E C st { st with io := f st.io }
  | event (st : Sys ω) {e : Event} (hC : C) (he : e.IsCall) : Act env T E C st (st.emit e)

/-- A sequence of acts. -/
abbrev Acts (env : Env ω) (T : Shell → Shell → Prop) (E : (ω → ω) → Prop) (C : Prop) :
    Sys ω → Sys ω → Prop := ReflTransGen (Act env T E C)

/-- The application acts on the world in the ways of `E` only. -/
structure Env.ActsBy (env : Env ω) (E : (ω → ω) → Prop) : Prop where
  handler : ∀ fn view io argv ctx f, .effect f ∈ (env.handler fn view io argv ctx).1 → E f
  completion : ∀ fn view io i j ctx f, .effect f ∈ (env.completion fn view io i j ctx).1 → E f

/-- It acts in some way. -/
theorem Env.actsBy_true (env : Env ω) : env.ActsBy fun _ => True :=
  ⟨fun _ _ _ _ _ _ _ => trivial, fun _ _ _ _ _ _ _ _ => trivial⟩

section Sequences

variable {env : Env ω} {T T' : Shell → Shell → Prop} {E : (ω → ω) → Prop} {C : Prop}
  {st st' : Sys ω}

namespace Acts

/-- More kinds of updates. -/
theorem mono (hT : ∀ s s', T s s' → T' s s') (h : Acts env T E C st st') :
    Acts env T' E C st st' := by
  refine h.lift id fun a b hact => ?_
  cases hact with
  | update log hsteps hlog hio htrace haccesses =>
    exact .update log (hsteps.lift id hT) hlog hio htrace haccesses
  | write data => exact .write a data
  | handlerWrite data => exact .handlerWrite a data
  | flush => exact .flush a
  | effect hf => exact .effect a hf
  | event hC he => exact .event a hC he

/-- What application code does. -/
theorem app (h : Acts env ShellStep E C st st') : Acts env ExecStep E C st st' :=
  h.mono fun _ _ => .app

/-- What an execution does. -/
theorem exec (h : Acts env ExecStep E C st st') : Acts env EditStep E C st st' :=
  h.mono fun _ _ => .exec

/-- What editing does. -/
theorem edit (h : Acts env EditStep E C st st') : Acts env Step E C st st' :=
  h.mono fun _ _ => .edit

/-- An access that only reads. -/
theorem touch {b : Buffer} {n : ℕ} (h : st.sh.Wf → n ≤ st.sh.reach b) :
    Acts env T E C st (st.touch b n) :=
  .single (.update [⟨b, n⟩] .refl (fun hwf => .read (below_cons.mpr ⟨h hwf, below_nil _⟩)) rfl rfl
    rfl)

/-- An update that does not write to a buffer. -/
theorem modify {f : Shell → Shell} (h : ReflTransGen T st.sh (f st.sh))
    (hline : (f st.sh).line = st.sh.line) (hargv : (f st.sh).argv = st.sh.argv)
    (hhistory : (f st.sh).historyStorage = st.sh.historyStorage)
    (hdraft : (f st.sh).draft = st.sh.draft) : Acts env T E C st (st.modify f) :=
  .single (.update [] h (fun _ => .nothing hline hargv hhistory hdraft) rfl rfl
    (List.append_nil _).symm)

/-- An update behind an access. -/
theorem touched {b : Buffer} {n : ℕ} {f : Shell → Shell} (h : ReflTransGen T st.sh (f st.sh))
    (hlog : st.sh.Wf → Recorded [⟨b, n⟩] st.sh (f st.sh)) :
    Acts env T E C st ((st.touch b n).modify f) :=
  .single (.update [⟨b, n⟩] h hlog rfl rfl rfl)

/-- An update behind two accesses. -/
private theorem touched₂ {b b' : Buffer} {n n' : ℕ} {f : Shell → Shell}
    (h : ReflTransGen T st.sh (f st.sh))
    (hlog : st.sh.Wf → Recorded [⟨b, n⟩, ⟨b', n'⟩] st.sh (f st.sh)) :
    Acts env T E C st (((st.touch b n).touch b' n').modify f) :=
  .single (.update [⟨b, n⟩, ⟨b', n'⟩] h hlog rfl rfl (List.append_assoc _ _ _))

/-- One of two ways, for a function with a result. -/
private theorem iteFst {α : Type} {p : Prop} [Decidable p] {a b : Sys ω × α}
    (ha : p → Acts env T E C st a.1) (hb : ¬p → Acts env T E C st b.1) :
    Acts env T E C st (if p then a else b).1 := by
  by_cases hp : p
  · rw [if_pos hp]
    exact ha hp
  · rw [if_neg hp]
    exact hb hp

/-- One of two ways. -/
theorem ite {p : Prop} [Decidable p] {a b : Sys ω} (ha : p → Acts env T E C st a)
    (hb : ¬p → Acts env T E C st b) : Acts env T E C st (if p then a else b) := by
  by_cases hp : p
  · rw [if_pos hp]
    exact ha hp
  · rw [if_neg hp]
    exact hb hp

/-- **The updates of the shell** among the acts. -/
theorem steps (h : Acts env T E C st st') : ReflTransGen T st.sh st'.sh := by
  induction h with
  | refl => exact .refl
  | tail _ hact ih =>
    cases hact with
    | update log hsteps hlog hio htrace haccesses => exact ih.trans hsteps
    | write data => exact ih
    | handlerWrite data => exact ih
    | flush => exact ih
    | effect hf => exact ih
    | event hC he => exact ih

/-- **The accesses that are recorded** cover the updates and stay within reach. -/
theorem recorded (h : Acts env Step E C st st') (hwf : st.sh.Wf) :
    ∃ log, st'.accesses = st.accesses ++ log ∧ Recorded log st.sh st'.sh := by
  induction h with
  | refl => exact ⟨[], (List.append_nil _).symm, .read (below_nil _)⟩
  | @tail a b hacts hact ih =>
    obtain ⟨log, haccesses, hrecorded⟩ := ih
    have hsame := Steps.reach_eq (Acts.steps hacts)
    cases hact with
    | update log' hsteps hlog hio htrace haccesses' =>
      refine ⟨log ++ log', ?_, hrecorded.trans hsame (hlog (hwf.steps (Acts.steps hacts)))⟩
      rw [haccesses', haccesses, List.append_assoc]
    | write data => exact ⟨log, haccesses, hrecorded⟩
    | handlerWrite data => exact ⟨log, haccesses, hrecorded⟩
    | flush => exact ⟨log, haccesses, hrecorded⟩
    | effect hf => exact ⟨log, haccesses, hrecorded⟩
    | event hC he => exact ⟨log, haccesses, hrecorded⟩

end Acts

end Sequences

variable (env : Env ω) {T : Shell → Shell → Prop} {E : (ω → ω) → Prop} {C : Prop}

/-! ## Output -/

/-- A sequence of writes. -/
theorem writes_acts (st : Sys ω) (texts : List (List Byte)) :
    Acts env T E C st (writes env st texts) := by
  induction texts generalizing st with
  | nil => exact .refl
  | cons data texts ih => exact .head (.write st data) (ih _)

/-- Reading the line to display it. -/
theorem touchDisplay_acts (st : Sys ω) : Acts env T E C st (touchDisplay st) :=
  (Acts.touch fun hwf => hwf.lineLen_le_reach).trans (Acts.touch fun hwf => hwf.lineStr_lt)

/-- Redrawing the line. -/
theorem redraw_acts (st : Sys ω) : Acts env T E C st (shRedrawLineInternal env st) :=
  .ite (fun _ => (touchDisplay_acts env st).trans (writes_acts env _ _)) fun _ => .refl

/-! ## Application code -/

/-- Clearing the history. -/
theorem shHistoryClear_acts (st : Sys ω) : Acts env ShellStep E C st (shHistoryClear st) :=
  .touched₂ (.single (.clear _)) fun _ => .clearHistory _

/-- Starting a session. -/
theorem shStart_acts (st : Sys ω) : Acts env ShellStep E C st (shStart env st).1 := by
  have hset : ∀ st : Sys ω, ∀ b, Acts env ShellStep E C st (st.modify (·.setStarted b)) :=
    fun st b => .modify (.single (.started _ b)) rfl rfl rfl rfl
  have hprompt := (hset st true).tail (.write _ st.sh.cfg.promptText.bytes)
  exact .iteFst (fun _ => .refl) fun _ => .iteFst (fun _ => hprompt.trans (hset _ false))
    fun _ => hprompt

/-- One use of the API by application code.

**Proof sketch.** One case per call of the API. The two registrations either store the table or the
sets or leave the shell alone, and neither case moves a buffer. -/
theorem runCall_acts (st : Sys ω) {call : ApiCall ω} (hcall : ∀ f, call = .effect f → E f) :
    Acts env ShellStep E C st (runCall env st call) := by
  cases call with
  | write data => exact .single (.handlerWrite st data)
  | flush => exact .single (.flush st)
  | historyClear => exact shHistoryClear_acts env st
  | setEchoEnabled enabled =>
    exact .modify (f := (shSetEchoEnabled · enabled)) (.single (.echo _ _)) rfl rfl rfl rfl
  | registerCommands commands =>
    refine .modify (f := fun s => (shRegisterCommands s commands).1) (.single (.commands _ _))
      ?_ ?_ ?_ ?_
    all_goals
      rcases shRegisterCommands_cases st.sh commands with hc | ⟨e, -, hc⟩ <;> rw [hc]
      rfl
  | registerCommandSets sets =>
    refine .modify (f := fun s => (shRegisterCommandSets s sets).1) (.single (.commandSets _ _))
      ?_ ?_ ?_ ?_
    all_goals
      rcases shRegisterCommandSets_cases st.sh sets with hc | ⟨e, -, hc⟩ <;> rw [hc]
      rfl
  | start => exact shStart_acts env st
  | stop =>
    have hstopped : Acts env ShellStep E C st (st.modify Shell.stopped) :=
      .modify (.single (.stopped _)) rfl rfl rfl rfl
    exact hstopped.tail (.flush _)
  | effect f => exact .single (.effect st (hcall f rfl))

/-- The uses of the API by application code. -/
theorem runCalls_acts (st : Sys ω) {calls : List (ApiCall ω)}
    (hcalls : ∀ f, .effect f ∈ calls → E f) :
    Acts env ShellStep E C st (runCalls env st calls) := by
  refine List.foldlRecOn (motive := fun st' : Sys ω => Acts env ShellStep E C st st') calls _
    .refl ?_
  intro st' hst call hmem
  refine hst.trans (runCall_acts env st' ?_)
  rintro f rfl
  exact hcalls f hmem

/-! ## Dispatch and execution -/

/-- Reading the entries of the history. -/
theorem touchEntries_acts (st : Sys ω) : Acts env T E C st (touchEntries st) := by
  have hfold : Acts env T E C st (touchEntries st) ∧ (touchEntries st).sh = st.sh := by
    refine List.foldlRecOn (motive := fun st' : Sys ω => Acts env T E C st st' ∧ st'.sh = st.sh)
      (List.range (shHistoryCount st.sh)) _ ⟨.refl, rfl⟩ ?_
    rintro st' ⟨hst, hsh⟩ i -
    exact ⟨hst.trans (Acts.touch fun hwf => hwf.newestStop_le i), hsh⟩
  exact hfold.1

/-- The built-in `history`. -/
theorem builtinHistory_acts (st : Sys ω) (argv : List CStr) :
    Acts env ShellStep E C st (builtinHistory env st argv).1 := by
  have hhead := writes_acts env (T := ShellStep) (E := E) (C := C) st [historyHeader st.sh]
  refine .iteFst (fun _ => (shHistoryClear_acts env st).tail (.write _ _)) fun _ => ?_
  refine .iteFst (fun _ => hhead) fun _ => .iteFst (fun _ => hhead.tail (.write _ _)) fun _ => ?_
  exact (hhead.trans (touchEntries_acts env _)).trans (writes_acts env _ _)

/-- The built-in `echo`. -/
theorem builtinEcho_acts (st : Sys ω) (argv : List CStr) :
    Acts env ShellStep E C st (builtinEcho env st argv).1 := by
  have hset : ∀ b, Acts env ShellStep E C st (st.modify (shSetEchoEnabled · b)) := fun b =>
    .modify (.single (.echo _ b)) rfl rfl rfl rfl
  refine .iteFst (fun _ => writes_acts env st _) fun _ => ?_
  refine .iteFst (fun _ => (hset true).tail (.write _ _)) fun _ => ?_
  exact .iteFst (fun _ => (hset false).tail (.write _ _)) fun _ => .single (.write st _)

/-- A handler. -/
theorem callHandler_acts (hE : env.ActsBy E) (hC : C) (st : Sys ω) (fn : Ptr) (argv : List CStr)
    (ctx : Option Ptr) : Acts env ShellStep E C st (callHandler env st fn argv ctx).1 :=
  .head (.event st hC (.handler fn argv ctx)) (runCalls_acts env _ (hE.handler fn _ _ argv ctx))

/-- A dispatch. -/
theorem dispatch_acts (hE : env.ActsBy E) (hC : C) (st : Sys ω) (argv : List CStr) :
    Acts env ShellStep E C st (shCommandDispatchInternal env st argv).1 := by
  rw [dispatch_eq]
  refine .head (.event st hC (.dispatch argv)) ?_
  cases plan st.sh argv with
  | print texts status => exact writes_acts env _ texts
  | history => exact builtinHistory_acts env _ argv
  | echo => exact builtinEcho_acts env _ argv
  | handler fn args ctx => exact callHandler_acts env hE hC _ fn args ctx

/-- Adding a line to the history. -/
theorem shHistoryAddInternal_acts (st : Sys ω) (line : CStr) :
    Acts env ExecStep E C st (shHistoryAddInternal st line) := by
  refine .ite (fun _ => .refl) fun hskip => ?_
  push Not at hskip
  obtain ⟨hne, hstorage, hdepth⟩ := hskip
  refine .ite (fun _ => .touch fun hwf => hwf.newestStop_le 0) fun hnew => ?_
  refine .touched₂ (.single (.store line ?_ ?_ hdepth hnew)) fun hwf =>
    hwf.recorded_storeEntry hdepth line
  · simpa using hne
  · simpa [Option.isSome_iff_ne_none] using hstorage

/-- Recording a line. -/
theorem recordLine_acts (st : Sys ω) (line : CStr) (argv : List CStr) :
    Acts env ExecStep E C st (recordLine env st line argv) := by
  rw [recordLine]
  cases buildHistoryLine env st.sh line argv with
  | none => exact .refl
  | some historyLine => exact shHistoryAddInternal_acts env st historyLine

/-- A tokenized line is recorded and dispatched. -/
theorem executeTokens_acts (hE : env.ActsBy E) (hC : C) (st : Sys ω) (line : CStr)
    (r : TokenizeResult) : Acts env ExecStep E C st (executeTokens env st line r).1 :=
  .iteFst (fun _ => writes_acts env st _) fun _ => .iteFst (fun _ => .refl) fun _ =>
    (recordLine_acts env st line r.texts).trans (dispatch_acts env hE hC _ r.texts).app

/-- Executing a line. -/
theorem shExecuteLine_acts (hE : env.ActsBy E) (hC : C) (st : Sys ω) (line : CStr) :
    Acts env ExecStep E C st (shExecuteLine env st line).1 := by
  refine .iteFst (fun _ => writes_acts env st _) fun _ => ?_
  dsimp only
  have hlen := length_argv_shTokenize (line.bytes ++ [0]) st.sh.argvCapacity
  generalize shTokenize (line.bytes ++ [0]) st.sh.argvCapacity = r at hlen
  have hargv :
      Acts env ExecStep E C st ((st.touch .argv r.argv.length).modify (·.setArgv r.texts)) :=
    .touched (.single (.argv _ _)) fun _ => .setArgv (le_of_eq (List.length_map _)) hlen
  refine (hargv.trans (executeTokens_acts env hE hC _ line r)).trans ?_
  exact Acts.touched (.single (.wipeArgv _)) fun _ => .wipeArgv _

/-- Executing an argument vector. -/
theorem shExecuteArgv_acts (hE : env.ActsBy E) (hC : C) (st : Sys ω) (argv : List CStr) :
    Acts env ExecStep E C st (shExecuteArgv env st argv).1 :=
  .iteFst (fun _ => .refl) fun _ => (dispatch_acts env hE hC st argv).app

/-! ## Editing -/

/-- Enter executes the line and empties the editor. -/
theorem handleEnter_acts (hE : env.ActsBy E) (hC : C) (st : Sys ω) :
    Acts env EditStep E C st (handleEnter env st).1 := by
  have hnew : Acts env EditStep E C st (writeInternal env (st.emit .enter) (str "\r\n")) :=
    .head (.event st hC .enter) (.single (.write _ _))
  have hexec : ∀ st : Sys ω, Acts env EditStep E C st (executeTyped env st).1 := fun st =>
    .iteFst (fun _ => (Acts.touch fun hwf => hwf.lineLen_le_reach).trans
      (shExecuteLine_acts env hE hC _ _).exec) fun _ => .refl
  refine ((hnew.trans (hexec _)).trans ?_).tail (.write _ _)
  exact Acts.touched₂ (.head (.eraseLine _) (.single (.eraseDraft _))) fun hwf => hwf.recorded_erase

/-- Walking the history. -/
theorem moveHistory_acts (st : Sys ω) (direction : ℤ) :
    Acts env EditStep E C st (moveHistory env st direction) := by
  refine .ite (fun _ => .refl) fun hcount => ?_
  have hwalk : Act env EditStep E C st ((touchWalk st direction).modify (·.walk direction)) := by
    refine .update (walkLog st.sh direction) ?_ ?_ ?_ ?_ (touchWalk_accesses st direction)
    · rw [Sys.modify_sh, touchWalk_sh]
      exact .single (.walk direction hcount)
    · intro hwf
      rw [Sys.modify_sh, touchWalk_sh]
      exact hwf.recorded_walk hcount direction
    · exact touchWalk_io st direction
    · exact touchWalk_trace st direction
  exact .head hwalk (redraw_acts env _)

/-- Moving the cursor. -/
theorem setCursor_acts (st : Sys ω) {f : Shell → ℕ}
    (h : f st.sh ≤ st.sh.cursor ∨ f st.sh ≤ st.sh.lineLen) :
    Acts env EditStep E C st (shRedrawLineInternal env (st.modify fun s => s.setCursor (f s))) :=
  (Acts.modify (.single (.cursor h)) rfl rfl rfl rfl).trans (redraw_acts env _)

/-- Removing a part of the line. -/
theorem deleteRange_acts (st : Sys ω) (start stop : Shell → ℕ) (hstart : start st.sh ≤ stop st.sh)
    (hstop : st.sh.Wf → stop st.sh ≤ st.sh.lineLen)
    (h : EditStep st.sh (st.sh.deleteRange (start st.sh) (stop st.sh))) :
    Acts env EditStep E C st (shRedrawLineInternal env
      ((st.touch .line (st.sh.lineLen + 1)).modify fun s => s.deleteRange (start s) (stop s))) :=
  (Acts.touched (.single h) fun hwf => hwf.recorded_deleteRange hstart (hstop hwf)).trans
    (redraw_acts env _)

/-- An escape key. -/
theorem handleEscapeKey_acts (st : Sys ω) (key : AnsiEvent) :
    Acts env EditStep E C st (handleEscapeKey env st key) := by
  cases key with
  | none => exact .refl
  | up => exact moveHistory_acts env st _
  | down => exact moveHistory_acts env st _
  | right => exact .ite (fun h => setCursor_acts env st (.inr h)) fun _ => .refl
  | left => exact .ite (fun _ => setCursor_acts env st (.inl (Nat.sub_le _ _))) fun _ => .refl
  | home =>
    exact .ite (fun _ => setCursor_acts env st (f := fun _ => 0) (.inl (Nat.zero_le _)))
      fun _ => .refl
  | «end» =>
    exact .ite (fun _ => setCursor_acts env st (f := Shell.lineLen) (.inr le_rfl)) fun _ => .refl
  | delete =>
    refine .ite (fun _ => .refl) fun hend => ?_
    exact deleteRange_acts env st Shell.cursor (fun s => s.cursor + 1) (Nat.le_succ _)
      (fun _ => not_le.mp hend) (.delete (not_le.mp hend))

/-- Inserting a character. -/
theorem insertChar_acts (st : Sys ω) {c : Byte} (hc : c ≠ 0) :
    Acts env EditStep E C st (insertChar env st c).1 := by
  refine .iteFst (fun _ => .head (.write st _) (.single (.write _ _))) fun hfull => ?_
  have hfit : st.sh.lineLen + 1 < st.sh.lineCapacity := not_le.mp hfull
  have hinsert : Acts env EditStep E C st
      ((st.touch .line (st.sh.lineLen + 2)).modify (·.insertAt c)) :=
    .touched (.single (.insert hc hfit)) fun hwf => hwf.recorded_insertAt c hfit
  refine .ite (fun _ => ?_) fun _ => hinsert.trans (redraw_acts env _)
  exact (hinsert.trans (touchDisplay_acts env _)).tail (.write _ _)

/-- Cancelling the line. -/
theorem cancelInputLine_acts (st : Sys ω) :
    Acts env EditStep E C st (cancelInputLine env st) := by
  refine .head (.write st (str "^C\r\n").bytes) (.tail ?_ (.write _ _))
  exact Acts.touched₂ (f := fun s => s.eraseLine.eraseDraft.resetAnsi)
    (.head (.eraseLine _) (.head (.eraseDraft _) (.single (.resetAnsi _))))
    fun hwf => hwf.recorded_erase.keeping rfl rfl rfl rfl

/-! ## Completion -/

/-- Fetching a candidate. -/
theorem levelCandidate_acts (hE : env.ActsBy E) (st : Sys ω) (level : CompletionLevel) (i : ℕ) :
    Acts env ShellStep E C st (levelCandidate env st level i).1 := by
  unfold levelCandidate
  cases level.providerCommand with
  | none => exact .refl
  | some cmd =>
    dsimp only
    cases cmd.completion with
    | none => exact .refl
    | some fn => exact runCalls_acts env st (hE.completion fn _ _ _ _ _)

/-- Collecting the matches. -/
theorem scanLoop_acts (hE : env.ActsBy E) (level : CompletionLevel) (pre : CStr) (n i : ℕ)
    (st : Sys ω) (m : Matches) :
    Acts env ShellStep E C st (scanLoop env level pre n i st m).1 := by
  induction n generalizing i st m with
  | zero => exact .refl
  | succ n ih =>
    have hc := levelCandidate_acts env hE (C := C) st level i
    unfold scanLoop
    revert hc
    generalize levelCandidate env st level i = r
    intro hc
    rcases r with ⟨st', _ | _ | name⟩
    · exact hc
    · exact hc.trans (ih _ _ _)
    · exact hc.trans (ih _ _ _)

/-- Printing the alternatives. -/
theorem printMatchesLoop_acts (hE : env.ActsBy E) (level : CompletionLevel) (pre : CStr) (n i : ℕ)
    (st : Sys ω) (displayed : ℕ) :
    Acts env ShellStep E C st (printMatchesLoop env level pre n i st displayed) := by
  induction n generalizing i st displayed with
  | zero => exact .refl
  | succ n ih =>
    have hc := levelCandidate_acts env hE (C := C) st level i
    unfold printMatchesLoop
    revert hc
    generalize levelCandidate env st level i = r
    intro hc
    rcases r with ⟨st', _ | _ | name⟩
    · exact hc
    · exact hc.trans (ih _ _ _)
    · refine .ite (fun _ => ?_) fun _ => hc.trans (ih _ _ _)
      exact .trans (Acts.ite (fun _ => hc.trans (writes_acts env _ _)) fun _ => hc) (ih _ _ _)

/-- Listing the alternatives. -/
theorem printMatches_acts (hE : env.ActsBy E) (st : Sys ω) (level : CompletionLevel) (pre : CStr)
    (count : ℕ) : Acts env ShellStep E C st (printMatches env st level pre count) := by
  have hloop : Acts env ShellStep E C st (printMatchesLoop env level pre
      (levelLimit st.sh level) 0 (writeInternal env st (str "\r\n")) 0) :=
    .head (.write st _) (printMatchesLoop_acts env hE level pre _ 0 _ 0)
  exact .trans (Acts.ite (fun _ => hloop.trans (writes_acts env _ _)) fun _ => hloop)
    (redraw_acts env _)

/-- Replacing the token. -/
theorem replaceToken_acts (st : Sys ω) (start stop : ℕ) (replacement : CStr) (b : Bool) :
    Acts env EditStep E C st (replaceToken env st start stop replacement b).1 := by
  refine .iteFst (fun _ => .refl) fun hrange => .iteFst (fun _ => .refl) fun hlong => ?_
  push Not at hrange hlong
  have hspace : spaceLen st.sh stop b ≤ 1 := by
    rw [spaceLen]
    split_ifs <;> omega
  exact (Acts.touched₂ (.single (.replace replacement hrange.1 hrange.2 hspace hlong)) fun hwf =>
    hwf.recorded_replaceRange hspace hlong).trans (redraw_acts env _)

/-- Using the matches found. -/
theorem completeMatches_acts (hE : env.ActsBy E) (st : Sys ω) (level : CompletionLevel)
    (pre : CStr) (start stop : ℕ) (m : Matches) :
    Acts env EditStep E C st (completeMatches env st level pre start stop m).1 :=
  .iteFst (fun _ => .refl) fun _ => .iteFst (fun _ => replaceToken_acts env st _ _ _ _) fun _ =>
    .iteFst (fun _ => replaceToken_acts env st _ _ _ _) fun _ =>
      (printMatches_acts env hE st level pre _).app.exec

/-- The Tab key. -/
theorem shCompleteLineInternal_acts (hE : env.ActsBy E) (st : Sys ω) :
    Acts env EditStep E C st (shCompleteLineInternal env st).1 := by
  have hread : Acts env EditStep E C st (st.touch .line st.sh.lineLen) :=
    .touch fun hwf => hwf.lineLen_le_reach
  refine .iteFst (fun _ => .refl) fun _ => .iteFst (fun _ => hread) fun _ => ?_
  cases descend (st.touch .line st.sh.lineLen).sh (rootLevel (st.touch .line st.sh.lineLen).sh)
      ((st.touch .line st.sh.lineLen).sh.tokensBefore
        (shTokenize (st.sh.line.take st.sh.cursor ++ [0]) st.sh.argvCapacity).texts) with
  | none => exact hread
  | some level =>
    exact (hread.trans (scanLoop_acts env hE level _ _ _ _ _).app.exec).trans
      (completeMatches_acts env hE _ level _ _ _ _)

/-! ## Input -/

/-- An editing byte: only the line terminators enter something.

**Proof sketch.** One case per meaning of the byte (`editByte_cases`). The deletions and `Ctrl+W`
read and move bytes below the length of the line, so what they touch is recorded. -/
theorem editByte_acts (hE : env.ActsBy E) (st : Sys ω) {byte : Byte}
    (hC : byte = chr '\r' ∨ byte = chr '\n' → C) :
    Acts env EditStep E C st (editByte env st byte).1 := by
  have hcase := editByte_cases env st byte
  generalize editByte env st byte = r at hcase ⊢
  cases hcase with
  | enter hbyte => exact handleEnter_acts env hE (hC hbyte) st
  | backspace =>
    refine .ite (fun _ => .refl) fun hcursor => ?_
    exact deleteRange_acts env st (fun s => s.cursor - 1) Shell.cursor (Nat.sub_le _ _)
      (fun hwf => hwf.cursor_le) (.backspace hcursor)
  | complete => exact shCompleteLineInternal_acts env hE st
  | cancel => exact cancelInputLine_acts env st
  | redraw => exact .head (.write st _) (redraw_acts env _)
  | clear =>
    exact (Acts.touched₂ (.head (.eraseLine _) (.single (.wipeDraft _)))
      fun hwf => hwf.recorded_clear).trans (redraw_acts env _)
  | word =>
    have hread : Acts env EditStep E C st (st.touch .line st.sh.cursor) :=
      .touch fun hwf => hwf.cursor_le.trans hwf.lineLen_le_reach
    refine .ite (fun _ => hread) fun _ => hread.trans ?_
    exact deleteRange_acts env (st.touch .line st.sh.cursor) (fun _ => st.sh.wordStart)
      Shell.cursor (Shell.Wf.wordStart_le _) (fun hwf => hwf.cursor_le) (.word st.sh)
  | char hbyte => exact insertChar_acts env st fun h => absurd hbyte.1 (by rw [h]; decide)
  | ignored => exact .refl

/-- **An input byte** is a sequence of acts. -/
theorem shInputByte_acts (hE : env.ActsBy E) (hC : C) (st : Sys ω) (byte : Byte) :
    Acts env Step E C st (shInputByte env st byte).1 := by
  refine .iteFst (fun _ => ?_) fun _ => ?_
  · exact .modify (f := (·.setLastInputWasCr false)) (.single (.lastCr _ _)) rfl rfl rfl rfl
  have hfed : Acts env Step E C st (st.modify fun s =>
      (s.setLastInputWasCr (decide (byte = chr '\r'))).setAnsi (shAnsiFeed st.sh.ansi byte).1) :=
    .modify (.head (.lastCr st.sh _) (.single (.feed _ byte))) rfl rfl rfl rfl
  refine .iteFst (fun _ => hfed.trans (handleEscapeKey_acts env _ _).edit) fun _ => ?_
  exact .iteFst (fun _ => hfed) fun _ => hfed.trans (editByte_acts env hE _ fun _ => hC).edit

/-- A block of input. -/
theorem shInput_acts (hE : env.ActsBy E) (hC : C) (st : Sys ω) (data : List Byte) :
    Acts env Step E C st (shInput env st data).1 := by
  rw [shInput_fst]
  refine List.foldlRecOn (motive := fun st' : Sys ω => Acts env Step E C st st') data _ .refl ?_
  exact fun st' hst byte _ => hst.trans (shInputByte_acts env hE hC st' byte)

/-! ## Runs -/

/-- **A call of the API** is a sequence of acts. -/
theorem apply_acts (hE : env.ActsBy E) (hC : C) (st : Sys ω) {op : Op ω}
    (hop : ∀ f, op = .api (.effect f) → E f) : Acts env Step E C st (op.apply env st).1 := by
  cases op with
  | inputByte byte => exact shInputByte_acts env hE hC st byte
  | input data => exact shInput_acts env hE hC st data
  | executeLine line => exact (shExecuteLine_acts env hE hC st line).exec.edit
  | executeArgv argv => exact (shExecuteArgv_acts env hE hC st argv).exec.edit
  | api call =>
    refine (runCall_acts env st ?_).app.exec.edit
    rintro f rfl
    exact hop f rfl
  | prompt => exact .single (.write st _)

/-- **A run** is a sequence of acts. -/
theorem run_acts (hE : env.ActsBy E) (hC : C) (st : Sys ω) (ops : List (Op ω))
    (hops : ∀ f, .api (.effect f) ∈ ops → E f) : Acts env Step E C st (run env st ops) := by
  refine List.foldlRecOn (motive := fun st' : Sys ω => Acts env Step E C st st') ops _ .refl ?_
  intro st' hst op hmem
  refine hst.trans (apply_acts env hE hC st' ?_)
  rintro f rfl
  exact hops f hmem

/-! ## The updates of the shell -/

/-- A use of the API changes a shell by API functions only. -/
theorem runCall_steps (st : Sys ω) (call : ApiCall ω) :
    ReflTransGen ShellStep st.sh (runCall env st call).sh :=
  (runCall_acts env (E := fun _ => True) (C := True) st fun _ _ => trivial).steps

/-- Dispatching a command runs application code or a built-in. -/
theorem dispatch_steps (st : Sys ω) (argv : List CStr) :
    ReflTransGen ShellStep st.sh (shCommandDispatchInternal env st argv).1.sh :=
  (dispatch_acts env env.actsBy_true trivial st argv).steps

/-- Recording a line adds an entry to the history or leaves the shell alone. -/
theorem recordLine_steps (st : Sys ω) (line : CStr) (argv : List CStr) :
    ExecSteps st.sh (recordLine env st line argv).sh :=
  (recordLine_acts env (E := fun _ => True) (C := True) st line argv).steps

/-- Executing a line records it, dispatches it and wipes the argument vector. -/
theorem shExecuteLine_steps (st : Sys ω) (line : CStr) :
    ExecSteps st.sh (shExecuteLine env st line).1.sh :=
  (shExecuteLine_acts env env.actsBy_true trivial st line).steps

/-- Enter executes the line and empties the editor. -/
theorem handleEnter_steps (st : Sys ω) : EditSteps st.sh (handleEnter env st).1.sh :=
  (handleEnter_acts env env.actsBy_true trivial st).steps

/-- An escape key is one step at most. -/
theorem handleEscapeKey_steps (st : Sys ω) (key : AnsiEvent) :
    EditSteps st.sh (handleEscapeKey env st key).sh :=
  (handleEscapeKey_acts env (E := fun _ => True) (C := True) st key).steps

/-- Inserting a character is one step at most. -/
theorem insertChar_steps {st : Sys ω} {c : Byte} (hc : c ≠ 0) :
    EditSteps st.sh (insertChar env st c).1.sh :=
  (insertChar_acts env (E := fun _ => True) (C := True) st hc).steps

/-- Scanning for matches runs application code. -/
theorem scanLoop_app (level : CompletionLevel) (pre : CStr) (n i : ℕ) (st : Sys ω) (m : Matches) :
    ReflTransGen ShellStep st.sh (scanLoop env level pre n i st m).1.sh :=
  (scanLoop_acts env env.actsBy_true (C := True) level pre n i st m).steps

/-- Listing the alternatives runs application code. -/
theorem printMatches_app (st : Sys ω) (level : CompletionLevel) (pre : CStr) (count : ℕ) :
    ReflTransGen ShellStep st.sh (printMatches env st level pre count).sh :=
  (printMatches_acts env env.actsBy_true (C := True) st level pre count).steps

/-- An editing byte is a sequence of steps. -/
theorem editByte_steps (st : Sys ω) (byte : Byte) : EditSteps st.sh (editByte env st byte).1.sh :=
  (editByte_acts env env.actsBy_true st fun _ => trivial).steps

/-- **An input byte** is a sequence of steps. -/
theorem shInputByte_steps (st : Sys ω) (byte : Byte) :
    Steps st.sh (shInputByte env st byte).1.sh :=
  (shInputByte_acts env env.actsBy_true trivial st byte).steps

/-- A block of input is a sequence of steps. -/
theorem shInput_steps (st : Sys ω) (data : List Byte) : Steps st.sh (shInput env st data).1.sh :=
  (shInput_acts env env.actsBy_true trivial st data).steps

/-- **A call of the API** is a sequence of steps. -/
theorem apply_steps (st : Sys ω) (op : Op ω) : Steps st.sh (op.apply env st).1.sh :=
  (apply_acts env env.actsBy_true trivial st fun _ _ => trivial).steps

/-- **A run** is a sequence of steps. -/
theorem run_steps (st : Sys ω) (ops : List (Op ω)) : Steps st.sh (run env st ops).sh :=
  (run_acts env env.actsBy_true trivial st ops fun _ _ => trivial).steps

end PortableShell
