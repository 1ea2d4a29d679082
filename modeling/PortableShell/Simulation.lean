import PortableShell.Invariant

set_option relaxedAutoImplicit false
set_option autoImplicit false

/-!
# Two shells side by side

Two shells behave alike when a relation between them is kept by the elementary updates and
related shells agree on everything the library looks at. This file shows it once for all such
relations: the same calls on related systems give the same output, the same handler calls, the
same statuses and related shells.

## Main definitions

* `PortableShell.Update` — an elementary update as a value, to be made on both sides.
* `PortableShell.EditSimulation`, `Simulation` — the conditions on a relation between shells, for
  editing bytes and commands and for all calls.
* `PortableShell.Sim` — two systems in related shells with the same surroundings and trace.

## Main results

* `PortableShell.Simulation.apply` — a call of the API keeps systems alike and returns the same.
* `PortableShell.Simulation.run` — a run of calls keeps systems alike.
-/

namespace PortableShell

variable {ω : Type}

/-- The elementary updates. -/
inductive Update
  | clearHistory
  | setEcho (enabled : Bool)
  | registerCommands (commands : CArray Cmd)
  | registerCommandSets (sets : CArray CommandSet)
  | setStarted (b : Bool)
  | stopped
  | storeEntry (line : CStr)
  | setArgv (texts : List CStr)
  | wipeArgv
  | setLastCr (b : Bool)
  | setAnsi (decoder : AnsiDecoder)
  | resetAnsi
  | walk (direction : ℤ)
  | insertAt (c : Byte)
  | deleteRange (start stop : ℕ)
  | eraseLine
  | eraseDraft
  | wipeDraft
  | setCursor (cursor : ℕ)
  | replaceRange (start stop : ℕ) (replacement : CStr) (space : ℕ)

namespace Update

/-- What an update does. -/
def apply (s : Shell) : Update → Shell
  | clearHistory => s.clearHistory
  | setEcho enabled => shSetEchoEnabled s enabled
  | registerCommands commands => (shRegisterCommands s commands).1
  | registerCommandSets sets => (shRegisterCommandSets s sets).1
  | setStarted b => s.setStarted b
  | stopped => s.stopped
  | storeEntry line => s.storeEntry line
  | setArgv texts => s.setArgv texts
  | wipeArgv => s.wipeArgv
  | setLastCr b => s.setLastInputWasCr b
  | setAnsi decoder => s.setAnsi decoder
  | resetAnsi => s.resetAnsi
  | walk direction => s.walk direction
  | insertAt c => s.insertAt c
  | deleteRange start stop => s.deleteRange start stop
  | eraseLine => s.eraseLine
  | eraseDraft => s.eraseDraft
  | wipeDraft => s.wipeDraft
  | setCursor cursor => s.setCursor cursor
  | replaceRange start stop replacement space => s.replaceRange start stop replacement space

/-- What the library has checked before it makes an update. -/
def Guard (s : Shell) : Update → Prop
  | storeEntry line => line.isEmpty = false ∧ s.historyStorage.isSome ∧ s.historyDepth ≠ 0 ∧
      shHistoryGetNewest s 0 ≠ some line
  | setAnsi decoder => ∃ byte, decoder = (shAnsiFeed s.ansi byte).1
  | walk _ => s.historyCount ≠ 0
  | insertAt c => c ≠ 0 ∧ s.lineLen + 1 < s.lineCapacity
  | deleteRange start stop => start ≤ stop ∧ (stop ≤ s.cursor ∨ stop ≤ s.lineLen)
  | setCursor cursor => cursor ≤ s.cursor ∨ cursor ≤ s.lineLen
  | replaceRange start stop replacement space => start ≤ stop ∧ stop ≤ s.lineLen ∧ space ≤ 1 ∧
      start + replacement.length + space + (s.lineLen - stop) < s.lineCapacity
  | _ => True

end Update

/-- A relation between shells whose editors and commands behave alike. -/
structure EditSimulation (env : Env ω) (R : Shell → Shell → Prop) : Prop where
  update : ∀ {s s'} (u : Update), R s s' → u.Guard s → R (u.apply s) (u.apply s')
  cfg : ∀ {s s'}, R s s' → s'.cfg = s.cfg
  echo : ∀ {s s'}, R s s' → s'.echoEnabled = s.echoEnabled
  started : ∀ {s s'}, R s s' → s'.started = s.started
  ansi : ∀ {s s'}, R s s' → s'.ansi = s.ansi
  argvCapacity : ∀ {s s'}, R s s' → s'.argvCapacity = s.argvCapacity
  lineCapacity : ∀ {s s'}, R s s' → s'.lineCapacity = s.lineCapacity
  lineLen : ∀ {s s'}, R s s' → s'.lineLen = s.lineLen
  cursor : ∀ {s s'}, R s s' → s'.cursor = s.cursor
  text : ∀ {s s'}, R s s' → s'.text = s.text
  left : ∀ {s s'}, R s s' → s'.line.take s'.cursor = s.line.take s.cursor
  wordStart : ∀ {s s'}, R s s' → s'.wordStart = s.wordStart
  tokenStart : ∀ {s s'}, R s s' → s'.tokenStart = s.tokenStart
  tokenEnd : ∀ {s s'}, R s s' → s'.tokenEnd = s.tokenEnd
  tokenPrefix : ∀ {s s'}, R s s' → s'.tokenPrefix = s.tokenPrefix
  spaceLen : ∀ {s s'}, R s s' → ∀ stop ≤ s.lineLen, ∀ b,
    spaceLen s' stop b = PortableShell.spaceLen s stop b
  display : ∀ {s s'}, R s s' →
    buildDisplayLine env s' displaySize = buildDisplayLine env s displaySize
  storage : ∀ {s s'}, R s s' → s'.historyStorage.isNone = s.historyStorage.isNone
  depth : ∀ {s s'}, R s s' → s'.historyDepth = s.historyDepth
  count : ∀ {s s'}, R s s' → s'.historyCount = s.historyCount
  newest : ∀ {s s'}, R s s' → ∀ i, shHistoryGetNewest s' i = shHistoryGetNewest s i
  resolve : ∀ {s s'}, R s s' → ∀ argv,
    shResolveCommandInternal s' argv = shResolveCommandInternal s argv
  help : ∀ {s s'}, R s s' → ∀ cmd path, helpTexts s' cmd path = helpTexts s cmd path
  /-- The root level of a completion gives the same answers. -/
  rootExact : ∀ {s s'}, R s s' → ∀ name,
    findExactLevel s' (rootLevel s') name = findExactLevel s (rootLevel s) name
  rootLimit : ∀ {s s'}, R s s' → levelLimit s' (rootLevel s') = levelLimit s (rootLevel s)
  rootCandidate : ∀ {s s'}, R s s' → ∀ i,
    staticCandidate s' (rootLevel s') i = staticCandidate s (rootLevel s) i

/-- A relation between shells that behave alike on every call. -/
structure Simulation (env : Env ω) (R : Shell → Shell → Prop) : Prop
    extends EditSimulation env R where
  lastCr : ∀ {s s'}, R s s' → s'.lastInputWasCr = s.lastInputWasCr

/-- Levels that offer the same: the root levels of the two shells, or one level below them. -/
inductive SameLevel (s s' : Shell) : CompletionLevel → CompletionLevel → Prop
  | root : SameLevel s s' (rootLevel s) (rootLevel s')
  | below {level : CompletionLevel} (h : level.registeredRoot = false) :
      SameLevel s s' level level

/-- Two systems in related shells, with the same surroundings and the same trace. -/
structure Sim (R : Shell → Shell → Prop) (st st' : Sys ω) : Prop where
  shell : R st.sh st'.sh
  io : st'.io = st.io
  trace : st'.trace = st.trace

/-- Two results of a call: alike, with the same status. -/
structure SimResult (R : Shell → Shell → Prop) (r r' : Sys ω × Status) : Prop where
  sys : Sim R r.1 r'.1
  status : r'.2 = r.2

/-- The same branch is taken on both sides. -/
theorem Sim.ite {R : Shell → Shell → Prop} {c c' : Prop} [Decidable c] [Decidable c']
    {a b a' b' : Sys ω} (hc : c' ↔ c) (ha : c → Sim R a a') (hb : ¬c → Sim R b b') :
    Sim R (if c then a else b) (if c' then a' else b') := by
  by_cases h : c
  · rw [if_pos h, if_pos (hc.mpr h)]
    exact ha h
  · rw [if_neg h, if_neg (mt hc.mp h)]
    exact hb h

/-- The same branch is taken on both sides, with a status. -/
theorem SimResult.ite {R : Shell → Shell → Prop} {c c' : Prop} [Decidable c] [Decidable c']
    {a b a' b' : Sys ω × Status} (hc : c' ↔ c) (ha : c → SimResult R a a')
    (hb : ¬c → SimResult R b b') : SimResult R (if c then a else b) (if c' then a' else b') := by
  by_cases h : c
  · rw [if_pos h, if_pos (hc.mpr h)]
    exact ha h
  · rw [if_neg h, if_neg (mt hc.mp h)]
    exact hb h

namespace EditSimulation

variable {env : Env ω} {R : Shell → Shell → Prop} {st st' : Sys ω}

/-! ## Parts -/

/-- The record of accesses does not matter. -/
theorem touch (h : Sim R st st') (b b' : Buffer) (n n' : ℕ) :
    Sim R (st.touch b n) (st'.touch b' n') := ⟨h.shell, h.io, h.trace⟩

/-- The same event on both sides. -/
theorem emit (h : Sim R st st') (e : Event) : Sim R (st.emit e) (st'.emit e) :=
  ⟨h.shell, h.io, by rw [Sys.emit_trace, Sys.emit_trace, h.trace]⟩

/-- The same update on both sides, made by functions of the shell at hand. -/
private theorem modify_eq (hR : EditSimulation env R) (h : Sim R st st') (u : Update)
    (hu : u.Guard st.sh)
    {f f' : Shell → Shell} (hf : f st.sh = u.apply st.sh) (hf' : f' st'.sh = u.apply st'.sh) :
    Sim R (st.modify f) (st'.modify f') := by
  refine ⟨?_, h.io, h.trace⟩
  rw [Sys.modify_sh, Sys.modify_sh, hf, hf']
  exact hR.update u h.shell hu

/-- The same update on both sides. -/
theorem modify (hR : EditSimulation env R) (h : Sim R st st') (u : Update) (hu : u.Guard st.sh) :
    Sim R (st.modify (Update.apply · u)) (st'.modify (Update.apply · u)) :=
  modify_eq hR h u hu rfl rfl

/-- Reading the entries does not matter. -/
theorem touchEntries (h : Sim R st st') :
    Sim R (PortableShell.touchEntries st) (PortableShell.touchEntries st') := by
  refine ⟨?_, ?_, ?_⟩
  · rw [touchEntries_sh, touchEntries_sh]
    exact h.shell
  · rw [touchEntries_io, touchEntries_io, h.io]
  · rw [touchEntries_trace, touchEntries_trace, h.trace]

variable (hR : EditSimulation env R)

include hR

/-- The same bytes to the backend on both sides. -/
theorem shWrite (h : Sim R st st') (data : List Byte) :
    SimResult R (PortableShell.shWrite env st data) (PortableShell.shWrite env st' data) := by
  have hback : backendWrite env st'.sh.cfg st'.io data = backendWrite env st.sh.cfg st.io data := by
    rw [hR.cfg h.shell, h.io]
  refine ⟨⟨h.shell, congrArg Prod.fst hback, ?_⟩, congrArg (fun r : ω × Status => r.2) hback⟩
  show st'.trace ++ [.write data] = st.trace ++ [.write data]
  rw [h.trace]

/-- The same texts on both sides. -/
theorem writes (h : Sim R st st') {texts texts' : List (List Byte)} (ht : texts' = texts) :
    Sim R (PortableShell.writes env st texts) (PortableShell.writes env st' texts') := by
  subst ht
  induction texts' generalizing st st' with
  | nil => exact h
  | cons d texts ih => exact ih (hR.shWrite h d).sys

/-- The same text on both sides. -/
theorem writeInternal (h : Sim R st st') (text : CStr) :
    Sim R (PortableShell.writeInternal env st text) (PortableShell.writeInternal env st' text) :=
  (hR.shWrite h text.bytes).sys

/-- The prompt on both sides. -/
theorem shPrompt (h : Sim R st st') :
    Sim R (PortableShell.shPrompt env st) (PortableShell.shPrompt env st') := by
  have htext : [st'.sh.cfg.promptText.bytes] = [st.sh.cfg.promptText.bytes] := by
    rw [hR.cfg h.shell]
  exact hR.writes h htext

/-- The line is redrawn alike. -/
theorem redraw (h : Sim R st st') :
    Sim R (shRedrawLineInternal env st) (shRedrawLineInternal env st') := by
  have htexts : redrawTexts env st'.sh = redrawTexts env st.sh := by
    simp only [redrawTexts, cursorTexts, hR.cfg h.shell, hR.display h.shell, hR.cursor h.shell,
      hR.lineLen h.shell]
  have htouch : Sim R (touchDisplay st) (touchDisplay st') := touch (touch h _ _ _ _) _ _ _ _
  simp only [shRedrawLineInternal, hR.echo h.shell]
  split_ifs
  · exact hR.writes htouch htexts
  · exact h

/-! ## Application code -/

/-- Flushing on both sides. -/
theorem shFlush (h : Sim R st st') :
    SimResult R (PortableShell.shFlush env st) (PortableShell.shFlush env st') := by
  have hback : backendFlush env st'.sh.cfg st'.io = backendFlush env st.sh.cfg st.io := by
    rw [hR.cfg h.shell, h.io]
  exact ⟨⟨h.shell, congrArg Prod.fst hback, h.trace⟩,
    congrArg (fun r : ω × Status => r.2) hback⟩

/-- Starting a session on both sides. -/
theorem shStart (h : Sim R st st') :
    SimResult R (PortableShell.shStart env st) (PortableShell.shStart env st') := by
  have hset : Sim R (st.modify (·.setStarted true)) (st'.modify (·.setStarted true)) :=
    modify hR h (.setStarted true) trivial
  have hputs := hR.shWrite hset st.sh.cfg.promptText.bytes
  unfold PortableShell.shStart shPuts
  rw [hR.started h.shell, hR.cfg h.shell]
  by_cases hstarted : st.sh.started
  · rw [if_pos hstarted, if_pos hstarted]
    exact ⟨h, rfl⟩
  · rw [if_neg hstarted, if_neg hstarted]
    dsimp only
    rw [hputs.status]
    by_cases hfail : (PortableShell.shWrite env (st.modify (·.setStarted true))
        st.sh.cfg.promptText.bytes).2 ≠ Status.ok
    · rw [if_pos hfail, if_pos hfail]
      exact ⟨modify hR hputs.sys (.setStarted false) trivial, rfl⟩
    · rw [if_neg hfail, if_neg hfail]
      exact hputs

/-- Stopping a session on both sides. -/
theorem shStop (h : Sim R st st') :
    SimResult R (PortableShell.shStop env st) (PortableShell.shStop env st') :=
  hR.shFlush (modify hR h .stopped trivial)

/-- Clearing the history on both sides. -/
theorem shHistoryClear (h : Sim R st st') :
    Sim R (PortableShell.shHistoryClear st) (PortableShell.shHistoryClear st') :=
  modify hR (touch (touch h _ _ _ _) _ _ _ _) .clearHistory trivial

/-- The same use of the API on both sides. -/
theorem runCall (h : Sim R st st') (call : ApiCall ω) :
    Sim R (PortableShell.runCall env st call) (PortableShell.runCall env st' call) := by
  cases call with
  | write data =>
    refine ⟨h.shell, ?_, ?_⟩
    · simp only [PortableShell.runCall, hR.cfg h.shell, h.io]
    · simp only [PortableShell.runCall, h.trace]
  | flush => exact (hR.shFlush h).sys
  | historyClear => exact hR.shHistoryClear h
  | setEchoEnabled enabled => exact modify hR h (.setEcho enabled) trivial
  | registerCommands commands => exact modify hR h (.registerCommands commands) trivial
  | registerCommandSets sets => exact modify hR h (.registerCommandSets sets) trivial
  | start => exact (hR.shStart h).sys
  | stop => exact (hR.shStop h).sys
  | effect f => exact ⟨h.shell, congrArg f h.io, h.trace⟩

/-- The same application code on both sides. -/
theorem runCalls (h : Sim R st st') (calls : List (ApiCall ω)) :
    Sim R (PortableShell.runCalls env st calls) (PortableShell.runCalls env st' calls) := by
  induction calls generalizing st st' with
  | nil => exact h
  | cons call calls ih => exact ih (hR.runCall h call)

/-- Application code sees the same on both sides. -/
private theorem viewOf_eq {s s' : Shell} (h : R s s') : viewOf s' = viewOf s := by
  have hnewest : shHistoryGetNewest s' = shHistoryGetNewest s := funext (hR.newest h)
  simp only [viewOf, shHistoryCapacity, shHistoryCount, hR.echo h, hR.depth h, hR.count h, hnewest]

/-- The same handler on both sides. -/
theorem callHandler (h : Sim R st st') (fn : Ptr) (argv : List CStr) (ctx : Option Ptr) :
    SimResult R (PortableShell.callHandler env st fn argv ctx)
      (PortableShell.callHandler env st' fn argv ctx) := by
  rw [PortableShell.callHandler, PortableShell.callHandler, hR.viewOf_eq h.shell, h.io]
  exact ⟨hR.runCalls (emit h _) _, rfl⟩

/-! ## Dispatch -/

/-- The same dispatch comes to the same. -/
theorem plan_eq {s s' : Shell} (h : R s s') (argv : List CStr) : plan s' argv = plan s argv := by
  cases argv with
  | nil => rfl
  | cons name args =>
    simp only [plan, helpPlan, commandPlan, hR.resolve h, hR.help h, hR.cfg h]

/-- The built-in `history` on both sides. -/
theorem builtinHistory (h : Sim R st st') (argv : List CStr) :
    SimResult R (PortableShell.builtinHistory env st argv)
      (PortableShell.builtinHistory env st' argv) := by
  have hnewest : shHistoryGetNewest st'.sh = shHistoryGetNewest st.sh :=
    funext (hR.newest h.shell)
  have hheader : historyHeader st'.sh = historyHeader st.sh := by
    simp only [historyHeader, shHistoryCount, shHistoryCapacity, hR.count h.shell,
      hR.depth h.shell]
  have hlist : historyListTexts st'.sh = historyListTexts st.sh := by
    simp only [historyListTexts, shHistoryCount, hR.count h.shell, hnewest]
  have hhead := hR.writes h (congrArg (fun t => [t]) hheader)
  rw [PortableShell.builtinHistory, PortableShell.builtinHistory]
  dsimp only
  split_ifs
  · exact ⟨hR.writeInternal (hR.shHistoryClear h) _, rfl⟩
  · exact ⟨hhead, rfl⟩
  · exact ⟨hR.writeInternal hhead _, rfl⟩
  · refine ⟨hR.writes (touchEntries hhead) ?_, rfl⟩
    rw [writes_sh, writes_sh, hlist]

/-- The built-in `echo` on both sides. -/
theorem builtinEcho (h : Sim R st st') (argv : List CStr) :
    SimResult R (PortableShell.builtinEcho env st argv)
        (PortableShell.builtinEcho env st' argv) := by
  rw [PortableShell.builtinEcho, PortableShell.builtinEcho, hR.echo h.shell]
  have hset : ∀ b, Sim R (st.modify (shSetEchoEnabled · b)) (st'.modify (shSetEchoEnabled · b)) :=
    fun b => modify hR h (.setEcho b) trivial
  split_ifs
  · exact ⟨hR.writes h rfl, rfl⟩
  · exact ⟨hR.writeInternal (hset true) _, rfl⟩
  · exact ⟨hR.writeInternal (hset false) _, rfl⟩
  · exact ⟨hR.writeInternal h _, rfl⟩

/-- **A dispatch** on both sides. -/
theorem dispatch (h : Sim R st st') (argv : List CStr) :
    SimResult R (shCommandDispatchInternal env st argv)
      (shCommandDispatchInternal env st' argv) := by
  rw [dispatch_eq, dispatch_eq, hR.plan_eq h.shell]
  have he := emit h (.dispatch argv)
  cases plan st.sh argv with
  | print texts status => exact ⟨hR.writes he rfl, rfl⟩
  | history => exact hR.builtinHistory he argv
  | echo => exact hR.builtinEcho he argv
  | handler fn args ctx => exact hR.callHandler he fn args ctx

/-! ## Executing a line -/

/-- The history line is built alike. -/
theorem buildHistoryLine_eq {s s' : Shell} (h : R s s') (line : CStr) (argv : List CStr) :
    buildHistoryLine env s' line argv = buildHistoryLine env s line argv := by
  simp only [buildHistoryLine, hR.resolve h, hR.cfg h]

/-- Adding a line to the history on both sides. -/
theorem shHistoryAddInternal (h : Sim R st st') (line : CStr) :
    Sim R (PortableShell.shHistoryAddInternal st line)
      (PortableShell.shHistoryAddInternal st' line) := by
  refine ⟨?_, by simp only [shHistoryAddInternal_io, h.io],
    by simp only [shHistoryAddInternal_trace, h.trace]⟩
  rw [shHistoryAddInternal_sh, shHistoryAddInternal_sh, hR.storage h.shell, hR.depth h.shell,
    hR.newest h.shell]
  split_ifs with hc
  · exact h.shell
  · refine hR.update (.storeEntry line) h.shell ⟨?_, ?_, ?_, ?_⟩
    · simpa using fun hne => hc (.inl hne)
    · simpa [Option.isSome_iff_ne_none] using fun hne => hc (.inr (.inl (by simp [hne])))
    · exact fun hd => hc (.inr (.inr (.inl hd)))
    · exact fun hn => hc (.inr (.inr (.inr hn)))

/-- Recording a line on both sides. -/
theorem recordLine (h : Sim R st st') (line : CStr) (argv : List CStr) :
    Sim R (PortableShell.recordLine env st line argv)
      (PortableShell.recordLine env st' line argv) := by
  rw [PortableShell.recordLine, PortableShell.recordLine, hR.buildHistoryLine_eq h.shell]
  cases buildHistoryLine env st.sh line argv with
  | none => exact h
  | some historyLine => exact hR.shHistoryAddInternal h historyLine

/-- **Executing a line** on both sides. -/
theorem shExecuteLine (h : Sim R st st') (line : CStr) :
    SimResult R (PortableShell.shExecuteLine env st line)
      (PortableShell.shExecuteLine env st' line) := by
  rw [PortableShell.shExecuteLine, PortableShell.shExecuteLine, hR.lineCapacity h.shell,
    hR.argvCapacity h.shell]
  split_ifs
  · exact ⟨hR.writes h rfl, rfl⟩
  · dsimp only
    generalize shTokenize (line.bytes ++ [0]) st.sh.argvCapacity = r
    have hargv : Sim R ((st.touch .argv r.argv.length).modify (·.setArgv r.texts))
        ((st'.touch .argv r.argv.length).modify (·.setArgv r.texts)) :=
      modify hR (touch h _ _ _ _) (.setArgv r.texts) trivial
    have hexec : SimResult R
        (executeTokens env ((st.touch .argv r.argv.length).modify (·.setArgv r.texts)) line r)
        (executeTokens env
          ((st'.touch .argv r.argv.length).modify (·.setArgv r.texts)) line r) := by
      rw [executeTokens, executeTokens]
      split_ifs
      · exact ⟨hR.writes hargv rfl, rfl⟩
      · exact ⟨hargv, rfl⟩
      · exact hR.dispatch (hR.recordLine hargv line r.texts) r.texts
    exact ⟨modify hR (touch hexec.sys _ _ _ _) .wipeArgv trivial, hexec.status⟩

/-- Executing an argument vector on both sides. -/
theorem shExecuteArgv (h : Sim R st st') (argv : List CStr) :
    SimResult R (PortableShell.shExecuteArgv env st argv)
      (PortableShell.shExecuteArgv env st' argv) := by
  rw [PortableShell.shExecuteArgv, PortableShell.shExecuteArgv, hR.argvCapacity h.shell]
  split_ifs
  · exact ⟨h, rfl⟩
  · exact hR.dispatch h argv

/-! ## Editing -/

/-- Enter on both sides. -/
theorem handleEnter (h : Sim R st st') :
    SimResult R (PortableShell.handleEnter env st) (PortableShell.handleEnter env st') := by
  have hnew := hR.writeInternal (emit h .enter) (str "\r\n")
  have htext : st'.sh.execText = st.sh.execText := by
    rw [Shell.execText, Shell.execText, hR.text h.shell]
  have hexec : SimResult R
      (executeTyped env (PortableShell.writeInternal env (st.emit .enter) (str "\r\n")))
      (executeTyped env (PortableShell.writeInternal env (st'.emit .enter) (str "\r\n"))) := by
    refine SimResult.ite (by simp [hR.lineLen h.shell]) ?_ fun _ => ⟨hnew, rfl⟩
    intro _
    simp only [writeInternal_sh, Sys.emit_sh, htext]
    exact hR.shExecuteLine (touch hnew _ _ _ _) _
  refine ⟨hR.shPrompt ?_, hexec.status⟩
  exact modify hR (modify hR (touch (touch hexec.sys _ _ _ _) _ _ _ _) .eraseLine trivial)
    .eraseDraft trivial

/-- Walking the history on both sides. -/
theorem moveHistory (h : Sim R st st') (direction : ℤ) :
    Sim R (PortableShell.moveHistory env st direction)
      (PortableShell.moveHistory env st' direction) := by
  have htouch : Sim R (touchWalk st direction) (touchWalk st' direction) := by
    refine ⟨?_, ?_, ?_⟩
    · rw [touchWalk_sh, touchWalk_sh]
      exact h.shell
    · rw [touchWalk_io, touchWalk_io, h.io]
    · rw [touchWalk_trace, touchWalk_trace, h.trace]
  refine Sim.ite (by rw [hR.count h.shell]) (fun _ => h) ?_
  intro hcount
  exact hR.redraw (modify hR htouch (.walk direction) (by rwa [touchWalk_sh]))

/-- The same echo on both sides. -/
theorem echoInserted (h : Sim R st st') (appended : Bool) :
    Sim R (PortableShell.echoInserted env appended st)
      (PortableShell.echoInserted env appended st') := by
  refine Sim.ite (by rw [hR.echo h.shell]) ?_ fun _ => hR.redraw h
  intro _
  rw [hR.display h.shell, hR.cursor h.shell]
  exact (hR.shWrite (touch (touch h _ _ _ _) _ _ _ _) _).sys

/-- Inserting a character on both sides. -/
theorem insertChar (h : Sim R st st') {c : Byte} (hc : c ≠ 0) :
    SimResult R (PortableShell.insertChar env st c) (PortableShell.insertChar env st' c) := by
  refine SimResult.ite (by rw [hR.lineLen h.shell, hR.lineCapacity h.shell])
    (fun _ => ⟨hR.shPrompt (hR.writeInternal h _), rfl⟩) ?_
  intro hfit
  rw [hR.lineLen h.shell, hR.cursor h.shell]
  have hins := modify hR (touch h .line .line (st.sh.lineLen + 2) (st.sh.lineLen + 2))
    (.insertAt c) ⟨hc, not_le.mp hfit⟩
  exact ⟨hR.echoInserted hins _, rfl⟩

/-- Removing a part of the line on both sides. -/
theorem deleteRange (h : Sim R st st') {start stop : ℕ} (hs : start ≤ stop)
    (hstop : stop ≤ st.sh.cursor ∨ stop ≤ st.sh.lineLen) {f f' : Shell → Shell}
    (hf : f st.sh = st.sh.deleteRange start stop)
    (hf' : f' st'.sh = st'.sh.deleteRange start stop) (n n' : ℕ) :
    Sim R (shRedrawLineInternal env ((st.touch .line n).modify f))
      (shRedrawLineInternal env ((st'.touch .line n').modify f')) :=
  hR.redraw (modify_eq hR (touch h .line .line n n') (.deleteRange start stop) ⟨hs, hstop⟩ hf hf')

/-- Backspace on both sides. -/
theorem backspace (h : Sim R st st') :
    Sim R (PortableShell.backspace env st) (PortableShell.backspace env st') := by
  have hcursor := hR.cursor h.shell
  refine Sim.ite (by rw [hcursor]) (fun _ => h) ?_
  intro _
  exact hR.deleteRange h (Nat.sub_le _ 1) (.inl le_rfl) rfl (by rw [hcursor]) _ _

/-- The delete key on both sides. -/
theorem deleteAtCursor (h : Sim R st st') :
    Sim R (PortableShell.deleteAtCursor env st) (PortableShell.deleteAtCursor env st') := by
  have hcursor := hR.cursor h.shell
  refine Sim.ite (by rw [hcursor, hR.lineLen h.shell]) (fun _ => h) ?_
  intro hend
  exact hR.deleteRange h (Nat.le_succ _) (.inr (by omega)) rfl (by rw [hcursor]) _ _

/-- Removing a word on both sides. -/
theorem deleteWordLeft (h : Sim R st st') :
    Sim R (PortableShell.deleteWordLeft env st) (PortableShell.deleteWordLeft env st') := by
  have hcursor := hR.cursor h.shell
  have hread : Sim R (st.touch .line st.sh.cursor) (st'.touch .line st'.sh.cursor) :=
    touch h _ _ _ _
  refine Sim.ite ?_ (fun _ => hread) ?_
  · simp only [Sys.touch_sh, hcursor, hR.wordStart h.shell]
  · intro _
    rw [hR.wordStart h.shell]
    exact hR.deleteRange hread (Shell.Wf.wordStart_le st.sh) (.inl le_rfl) rfl
      (by rw [Sys.touch_sh, hcursor]) _ _

/-- Emptying the line on both sides. -/
theorem clearInputLine (h : Sim R st st') :
    Sim R (PortableShell.clearInputLine env st) (PortableShell.clearInputLine env st') := by
  refine hR.redraw ?_
  exact modify hR (modify hR (touch (touch h _ _ _ _) _ _ _ _) .eraseLine trivial) .wipeDraft
    trivial

/-- Cancelling the line on both sides. -/
theorem cancelInputLine (h : Sim R st st') :
    Sim R (PortableShell.cancelInputLine env st) (PortableShell.cancelInputLine env st') := by
  have hnew := hR.writeInternal h (str "^C\r\n")
  refine hR.shPrompt ?_
  exact modify hR (modify hR (modify hR (touch (touch hnew _ _ _ _) _ _ _ _) .eraseLine trivial)
    .eraseDraft trivial) .resetAnsi trivial

/-- Moving the cursor on both sides. -/
theorem setCursor (h : Sim R st st') {cursor : ℕ}
    (hc : cursor ≤ st.sh.cursor ∨ cursor ≤ st.sh.lineLen) {f f' : Shell → Shell}
    (hf : f st.sh = st.sh.setCursor cursor) (hf' : f' st'.sh = st'.sh.setCursor cursor) :
    Sim R (shRedrawLineInternal env (st.modify f)) (shRedrawLineInternal env (st'.modify f')) :=
  hR.redraw (modify_eq hR h (.setCursor cursor) hc hf hf')

/-- An escape key on both sides.

**Proof sketch.** One case per key. The conditions compare the cursor and the length, which agree,
and the moves are updates of the simulation. -/
theorem handleEscapeKey (h : Sim R st st') (key : AnsiEvent) :
    Sim R (PortableShell.handleEscapeKey env st key)
      (PortableShell.handleEscapeKey env st' key) := by
  have hcursor := hR.cursor h.shell
  have hlen := hR.lineLen h.shell
  cases key with
  | none => exact h
  | up => exact hR.moveHistory h _
  | down => exact hR.moveHistory h _
  | right =>
    refine Sim.ite (by rw [hcursor, hlen]) ?_ fun _ => h
    intro hend
    exact hR.setCursor h (.inr hend) rfl (by rw [hcursor])
  | left =>
    refine Sim.ite (by rw [hcursor]) ?_ fun _ => h
    intro _
    exact hR.setCursor h (.inl (Nat.sub_le _ 1)) rfl (by rw [hcursor])
  | home =>
    refine Sim.ite (by rw [hcursor]) ?_ fun _ => h
    intro _
    exact hR.setCursor h (.inl (Nat.zero_le _)) rfl rfl
  | «end» =>
    refine Sim.ite (by rw [hcursor, hlen]) ?_ fun _ => h
    intro _
    exact hR.setCursor h (.inr le_rfl) rfl (by rw [hlen])
  | delete => exact hR.deleteAtCursor h

/-! ## Completion -/

/-- The levels find the same command by its name. -/
private theorem findExactLevel_eq {s s' : Shell} (h : R s s') {level level' : CompletionLevel}
    (hl : SameLevel s s' level level') (name : CStr) :
    findExactLevel s' level' name = findExactLevel s level name := by
  cases hl with
  | root => exact hR.rootExact h name
  | below hbelow =>
    have hnone : ∀ t : Shell, findExactSets t level name = none := by
      intro t
      rw [findExactSets]
      cases t.commandSets with
      | none => rfl
      | some sets => simp [hbelow]
    rw [findExactLevel, findExactLevel, hnone, hnone]

/-- The levels have the same number of candidates. -/
theorem levelLimit_eq {s s' : Shell} (h : R s s') {level level' : CompletionLevel}
    (hl : SameLevel s s' level level') : levelLimit s' level' = levelLimit s level := by
  cases hl with
  | root => exact hR.rootLimit h
  | below hbelow =>
    have htable : ∀ t : Shell, levelLimit t level = if level.providerCommand.isSome then
        shCompletionProviderMaxItems else level.primary.length + level.secondary.length := by
      intro t
      rw [levelLimit]
      cases t.commandSets <;> simp [hbelow]
    rw [htable, htable]

/-- The levels offer the same candidates. -/
private theorem staticCandidate_eq {s s' : Shell} (h : R s s') {level level' : CompletionLevel}
    (hl : SameLevel s s' level level') (i : ℕ) :
    staticCandidate s' level' i = staticCandidate s level i := by
  cases hl with
  | root => exact hR.rootCandidate h i
  | below hbelow =>
    have htable : ∀ t : Shell,
        staticCandidate t level i = (tableCandidate level i).map visibleName := by
      intro t
      rw [staticCandidate]
      cases t.commandSets <;> simp [hbelow]
    rw [htable, htable]

/-- Fetching a candidate on both sides. -/
theorem levelCandidate (h : Sim R st st') {level level' : CompletionLevel}
    (hl : SameLevel st.sh st'.sh level level') (i : ℕ) :
    Sim R (PortableShell.levelCandidate env st level i).1
        (PortableShell.levelCandidate env st' level' i).1 ∧
      (PortableShell.levelCandidate env st' level' i).2 =
        (PortableShell.levelCandidate env st level i).2 ∧
      SameLevel (PortableShell.levelCandidate env st level i).1.sh
        (PortableShell.levelCandidate env st' level' i).1.sh level level' := by
  cases hl with
  | root => exact ⟨h, hR.rootCandidate h.shell i, .root⟩
  | below hbelow =>
    unfold PortableShell.levelCandidate
    cases level.providerCommand with
    | none => exact ⟨h, hR.staticCandidate_eq h.shell (.below hbelow) i, .below hbelow⟩
    | some cmd =>
      dsimp only
      cases cmd.completion with
      | none => exact ⟨h, rfl, .below hbelow⟩
      | some fn =>
        dsimp only
        unfold callProvider
        rw [hR.viewOf_eq h.shell, h.io, hR.cfg h.shell]
        exact ⟨hR.runCalls h _, rfl, .below hbelow⟩

/-- Collecting the matches on both sides. -/
theorem scanLoop (h : Sim R st st') {level level' : CompletionLevel}
    (hl : SameLevel st.sh st'.sh level level') (pre : CStr) (n i : ℕ) (m : Matches) :
    Sim R (PortableShell.scanLoop env level pre n i st m).1
        (PortableShell.scanLoop env level' pre n i st' m).1 ∧
      (PortableShell.scanLoop env level' pre n i st' m).2 =
        (PortableShell.scanLoop env level pre n i st m).2 ∧
      SameLevel (PortableShell.scanLoop env level pre n i st m).1.sh
        (PortableShell.scanLoop env level' pre n i st' m).1.sh level level' := by
  induction n generalizing i st st' m with
  | zero => exact ⟨h, rfl, hl⟩
  | succ n ih =>
    have hcand := hR.levelCandidate h hl i
    unfold PortableShell.scanLoop
    revert hcand
    generalize PortableShell.levelCandidate env st level i = r
    generalize PortableShell.levelCandidate env st' level' i = r'
    rcases r with ⟨st₁, candidate⟩
    rcases r' with ⟨st₁', candidate'⟩
    rintro ⟨hsys, hname, hlevel⟩
    obtain rfl : candidate' = candidate := hname
    rcases candidate' with _ | _ | name
    · exact ⟨hsys, rfl, hlevel⟩
    · exact ih hsys hlevel _ _
    · exact ih hsys hlevel _ _

/-- Printing the alternatives on both sides.

**Proof sketch.** Induction on the fuel. Both sides ask for the same candidate and get the same
name, so both print it or both skip it. -/
theorem printMatchesLoop (h : Sim R st st') {level level' : CompletionLevel}
    (hl : SameLevel st.sh st'.sh level level') (pre : CStr) (n i displayed : ℕ) :
    Sim R (PortableShell.printMatchesLoop env level pre n i st displayed)
      (PortableShell.printMatchesLoop env level' pre n i st' displayed) := by
  induction n generalizing i st st' displayed with
  | zero => exact h
  | succ n ih =>
    have hcand := hR.levelCandidate h hl i
    unfold PortableShell.printMatchesLoop
    revert hcand
    generalize PortableShell.levelCandidate env st level i = r
    generalize PortableShell.levelCandidate env st' level' i = r'
    rcases r with ⟨st₁, candidate⟩
    rcases r' with ⟨st₁', candidate'⟩
    rintro ⟨hsys, hname, hlevel⟩
    obtain rfl : candidate' = candidate := hname
    rcases candidate' with _ | _ | name
    · exact hsys
    · exact ih hsys hlevel _ _
    · refine Sim.ite Iff.rfl ?_ fun _ => ih hsys hlevel _ _
      intro _
      split_ifs
      · refine ih (hR.writes hsys rfl) ?_ _ _
        rw [writes_sh, writes_sh]
        exact hlevel
      · exact ih hsys hlevel _ _

/-- Listing the alternatives on both sides. -/
theorem printMatches (h : Sim R st st') {level level' : CompletionLevel}
    (hl : SameLevel st.sh st'.sh level level') (pre : CStr) (matchCount : ℕ) :
    Sim R (PortableShell.printMatches env st level pre matchCount)
      (PortableShell.printMatches env st' level' pre matchCount) := by
  have hnew := hR.writeInternal h (str "\r\n")
  have hloop := hR.printMatchesLoop hnew hl pre (levelLimit st.sh level) 0 0
  rw [PortableShell.printMatches, PortableShell.printMatches]
  simp only [writeInternal_sh, hR.levelLimit_eq h.shell hl]
  refine hR.redraw ?_
  split_ifs
  · exact hR.writes hloop rfl
  · exact hloop

/-- Replacing the token on both sides. -/
theorem replaceToken (h : Sim R st st') (start stop : ℕ) (replacement : CStr) (b : Bool) :
    SimResult R (PortableShell.replaceToken env st start stop replacement b)
      (PortableShell.replaceToken env st' start stop replacement b) := by
  have hspace : PortableShell.spaceLen st.sh stop b ≤ 1 := by
    rw [PortableShell.spaceLen]
    split_ifs <;> omega
  refine SimResult.ite (by rw [hR.lineLen h.shell]) (fun _ => ⟨h, rfl⟩) ?_
  intro hrange
  rw [hR.lineLen h.shell, hR.spaceLen h.shell stop (by omega)]
  refine SimResult.ite (by rw [hR.lineCapacity h.shell]) (fun _ => ⟨h, rfl⟩) ?_
  intro hfit
  have hguard : start ≤ stop ∧ stop ≤ st.sh.lineLen := by omega
  refine ⟨hR.redraw (modify hR (touch (touch h _ _ _ _) _ _ _ _)
    (.replaceRange start stop replacement (PortableShell.spaceLen st.sh stop b)) ?_), rfl⟩
  exact ⟨hguard.1, hguard.2, hspace, not_le.mp hfit⟩

/-- The matches found are used alike. -/
theorem completeMatches (h : Sim R st st') {level level' : CompletionLevel}
    (hl : SameLevel st.sh st'.sh level level') (pre : CStr) (start stop : ℕ) (m : Matches) :
    SimResult R (PortableShell.completeMatches env st level pre start stop m)
      (PortableShell.completeMatches env st' level' pre start stop m) := by
  refine SimResult.ite Iff.rfl (fun _ => ⟨h, rfl⟩) fun _ => ?_
  refine SimResult.ite Iff.rfl (fun _ => hR.replaceToken h _ _ _ _) fun _ => ?_
  refine SimResult.ite (by rw [hR.cursor h.shell]) (fun _ => hR.replaceToken h _ _ _ _) fun _ => ?_
  exact ⟨hR.printMatches h hl _ _, rfl⟩

/-- The walk down the tokens ends at the same level. -/
theorem descend {s s' : Shell} (h : R s s') {level level' : CompletionLevel}
    (hl : SameLevel s s' level level') (tokens : List CStr) :
    Option.Rel (SameLevel s s') (PortableShell.descend s level tokens)
      (PortableShell.descend s' level' tokens) := by
  induction tokens generalizing level level' with
  | nil => exact .some hl
  | cons token tokens ih =>
    unfold PortableShell.descend
    rw [hR.findExactLevel_eq h hl]
    cases findExactLevel s level token with
    | none => exact .none
    | some exact =>
      dsimp only
      split_ifs
      · exact ih (.below rfl)
      · exact .some (.below rfl)
      · exact .none

/-- **The Tab key** on both sides.

**Proof sketch.** Everything that is read of the line agrees, so both sides take the same branch,
walk to corresponding levels and scan the same candidates. -/
theorem shCompleteLineInternal (h : Sim R st st') :
    SimResult R (PortableShell.shCompleteLineInternal env st)
      (PortableShell.shCompleteLineInternal env st') := by
  have hcursor := hR.cursor h.shell
  have hread : Sim R (st.touch .line st.sh.lineLen) (st'.touch .line st'.sh.lineLen) :=
    touch h _ _ _ _
  refine SimResult.ite (by rw [hcursor, hR.lineLen h.shell]) (fun _ => ⟨h, rfl⟩) fun _ => ?_
  rw [hR.left h.shell, hR.argvCapacity h.shell, hR.tokenStart h.shell, hR.tokenEnd h.shell,
    hR.tokenPrefix h.shell]
  refine SimResult.ite Iff.rfl (fun _ => ⟨hread, rfl⟩) fun _ => ?_
  generalize shTokenize (st.sh.line.take st.sh.cursor ++ [0]) st.sh.argvCapacity = r
  have htokens : st'.sh.tokensBefore r.texts = st.sh.tokensBefore r.texts := by
    rw [Shell.tokensBefore, Shell.tokensBefore, hcursor, hR.tokenStart h.shell]
  have hlevel := hR.descend h.shell .root (st.sh.tokensBefore r.texts)
  simp only [Sys.touch_sh, htokens]
  revert hlevel
  generalize PortableShell.descend st.sh (rootLevel st.sh) (st.sh.tokensBefore r.texts) = level
  generalize PortableShell.descend st'.sh (rootLevel st'.sh) (st.sh.tokensBefore r.texts) = level'
  intro hlevel
  cases hlevel with
  | none => exact ⟨hread, rfl⟩
  | @some level level' hl =>
    dsimp only
    rw [hR.levelLimit_eq h.shell hl]
    obtain ⟨hsys, hmatches, hl'⟩ := hR.scanLoop hread hl st.sh.tokenPrefix
      (levelLimit st.sh level) 0 ⟨CStr.empty, 0, 0⟩
    rw [hmatches]
    exact hR.completeMatches hsys hl' _ _ _ _

/-! ## Input -/

/-- An editing byte on both sides. -/
theorem editByte (h : Sim R st st') (byte : Byte) :
    SimResult R (PortableShell.editByte env st byte) (PortableShell.editByte env st' byte) := by
  refine SimResult.ite Iff.rfl (fun _ => hR.handleEnter h) fun _ => ?_
  refine SimResult.ite Iff.rfl (fun _ => ⟨hR.backspace h, rfl⟩) fun _ => ?_
  refine SimResult.ite Iff.rfl (fun _ => hR.shCompleteLineInternal h) fun _ => ?_
  refine SimResult.ite Iff.rfl (fun _ => ⟨hR.cancelInputLine h, rfl⟩) fun _ => ?_
  refine SimResult.ite Iff.rfl (fun _ => ⟨?_, rfl⟩) fun _ => ?_
  · rw [hR.cfg h.shell]
    exact hR.redraw (hR.writeInternal h _)
  refine SimResult.ite Iff.rfl (fun _ => ⟨hR.clearInputLine h, rfl⟩) fun _ => ?_
  refine SimResult.ite Iff.rfl (fun _ => ⟨hR.deleteWordLeft h, rfl⟩) fun _ => ?_
  refine SimResult.ite Iff.rfl (fun hprint => hR.insertChar h ?_) fun _ => ⟨h, rfl⟩
  intro hzero
  exact absurd hprint.1 (by rw [hzero]; decide)

end EditSimulation

namespace Simulation

variable {env : Env ω} {R : Shell → Shell → Prop} {st st' : Sys ω} (hR : Simulation env R)

include hR

/-- **An input byte** on both sides. -/
theorem shInputByte (h : Sim R st st') (byte : Byte) :
    SimResult R (PortableShell.shInputByte env st byte)
      (PortableShell.shInputByte env st' byte) := by
  refine SimResult.ite (by rw [hR.lastCr h.shell])
    (fun _ => ⟨hR.modify h (.setLastCr false) trivial, rfl⟩) fun _ => ?_
  have hcr := hR.modify h (.setLastCr (decide (byte = chr '\r'))) trivial
  have hfed : Sim R
      (st.modify fun s => (s.setLastInputWasCr (decide (byte = chr '\r'))).setAnsi
        (shAnsiFeed st.sh.ansi byte).1)
      (st'.modify fun s => (s.setLastInputWasCr (decide (byte = chr '\r'))).setAnsi
        (shAnsiFeed st.sh.ansi byte).1) :=
    hR.modify hcr (.setAnsi (shAnsiFeed st.sh.ansi byte).1) ⟨byte, rfl⟩
  unfold feedByte
  rw [hR.ansi h.shell]
  refine SimResult.ite Iff.rfl (fun _ => ⟨hR.handleEscapeKey hfed _, rfl⟩) fun _ => ?_
  refine SimResult.ite Iff.rfl (fun _ => ⟨hfed, rfl⟩) fun _ => ?_
  exact hR.editByte hfed byte

/-- A block of input on both sides. -/
theorem shInput (h : Sim R st st') (data : List Byte) :
    SimResult R (PortableShell.shInput env st data) (PortableShell.shInput env st' data) := by
  have hloop : ∀ acc acc' : Sys ω × Status, SimResult R acc acc' →
      SimResult R (data.foldl (inputStep env) acc) (data.foldl (inputStep env) acc') := by
    induction data with
    | nil => exact fun _ _ hacc => hacc
    | cons byte data ih =>
      intro acc acc' hacc
      have hbyte := hR.shInputByte hacc.sys byte
      refine ih _ _ ⟨hbyte.sys, ?_⟩
      rw [inputStep, inputStep, hacc.status, hbyte.status]
  exact hloop _ _ ⟨h, rfl⟩

/-! ## Runs -/

/-- The API functions return the same. -/
theorem callStatus_eq (h : Sim R st st') (call : ApiCall ω) :
    callStatus env st' call = callStatus env st call := by
  have hcfg := hR.cfg h.shell
  cases call with
  | write data => rw [callStatus, callStatus, hcfg, h.io]
  | flush => exact (hR.shFlush h).status
  | historyClear => rfl
  | setEchoEnabled enabled => rfl
  | registerCommands commands => exact shRegisterCommands_status_eq hcfg commands
  | registerCommandSets sets => exact shRegisterCommandSets_status_eq hcfg sets
  | start => exact (hR.shStart h).status
  | stop => exact (hR.shStop h).status
  | effect f => rfl

/-- **A call of the API** on both sides. -/
theorem apply (h : Sim R st st') (op : Op ω) :
    SimResult R (op.apply env st) (op.apply env st') := by
  cases op with
  | inputByte byte => exact hR.shInputByte h byte
  | input data => exact hR.shInput h data
  | executeLine line => exact hR.shExecuteLine h line
  | executeArgv argv => exact hR.shExecuteArgv h argv
  | api call => exact ⟨hR.runCall h call, hR.callStatus_eq h call⟩
  | prompt => exact ⟨hR.shPrompt h, rfl⟩

/-- **A run of calls** on both sides. -/
theorem run (h : Sim R st st') (ops : List (Op ω)) :
    Sim R (PortableShell.run env st ops) (PortableShell.run env st' ops) := by
  induction ops generalizing st st' with
  | nil => exact h
  | cons op ops ih => exact ih (hR.apply h op).sys

/-- **The calls of a run** return the same on both sides. -/
theorem statuses_eq (h : Sim R st st') (ops : List (Op ω)) :
    statuses env st' ops = statuses env st ops := by
  induction ops generalizing st st' with
  | nil => rfl
  | cons op ops ih =>
    have hop := hR.apply h op
    rw [statuses, statuses, hop.status, ih hop.sys]

end Simulation

end PortableShell
