import PortableShell.Acts
import PortableShell.World

set_option relaxedAutoImplicit false
set_option autoImplicit false

/-!
# What executing a command looks at

Executing a command looks at the configuration, the registry, the history and the echo flag of a
shell, and at nothing that belongs to the line editor or to the session. On two shells that agree
on these, and in worlds that look the same to the application, it does the same.

## Main definitions

* `PortableShell.Shell.core` — a shell with everything else blanked out.
* `PortableShell.OutputBlind` — the application does not look at its output.
* `PortableShell.Alike` — two systems that execute alike.

## Main results

* `PortableShell.Alike.shExecuteLine` — executing a line on two such systems.
-/

namespace PortableShell

variable {ω α : Type}

/-! ## The core of a shell -/

namespace Shell

/-- The shell with the fields of the line editor and of the session blanked out. -/
def core (s : Shell) : Shell :=
  { s with
    line := []
    lineLen := 0
    cursor := 0
    argv := []
    historyView := -1
    draft := none
    started := false
    ansi := shAnsiInit
    lastInputWasCr := false }

/-- Application code sees the core. -/
theorem viewOf_core (s : Shell) : viewOf s.core = viewOf s := rfl

/-- The newest entry is found in the core. -/
private theorem getNewest_core (s : Shell) (i : ℕ) :
    shHistoryGetNewest s.core i = shHistoryGetNewest s i :=
  rfl

/-- The core has the registry of the shell. -/
theorem core_sameRegistry (s : Shell) : SameRegistry s s.core := ⟨rfl, rfl, rfl⟩

/-- The history line is built from the core. -/
theorem buildHistoryLine_core (env : Env ω) (s : Shell) (line : CStr) (argv : List CStr) :
    buildHistoryLine env s.core line argv = buildHistoryLine env s line argv := by
  unfold buildHistoryLine
  rw [(core_sameRegistry s).resolve_eq]
  rfl

/-- An entry is written to the core. -/
private theorem core_storeEntry (s : Shell) (line : CStr) :
    (s.storeEntry line).core = s.core.storeEntry line := rfl

end Shell

/-- What a use of the API does to a shell, but for the flag `started`. -/
def ApiCall.onShell (s : Shell) : ApiCall ω → Shell
  | .historyClear => s.clearHistory
  | .setEchoEnabled enabled => shSetEchoEnabled s enabled
  | .registerCommands commands => (shRegisterCommands s commands).1
  | .registerCommandSets sets => (shRegisterCommandSets s sets).1
  | .stop => s.stopped
  | _ => s

/-- A use of the API other than `sh_start` changes the shell so. -/
theorem runCall_sh_eq (env : Env ω) (st : Sys ω) {call : ApiCall ω} (h : call ≠ .start) :
    (runCall env st call).sh = call.onShell st.sh := by
  cases call with
  | start => exact absurd rfl h
  | write data => rfl
  | flush => rfl
  | historyClear => rfl
  | setEchoEnabled enabled => rfl
  | registerCommands commands => rfl
  | registerCommandSets sets => rfl
  | stop => rfl
  | effect f => rfl

/-- A use of the API changes the core by what it finds there. -/
private theorem ApiCall.core_onShell (call : ApiCall ω) (s : Shell) :
    (call.onShell s).core = (call.onShell s.core).core := by
  have hcfg : s.core.cfg = s.cfg := rfl
  cases call with
  | registerCommands commands =>
    unfold ApiCall.onShell shRegisterCommands
    rw [hcfg]
    dsimp only
    split_ifs <;> rfl
  | registerCommandSets sets =>
    unfold ApiCall.onShell shRegisterCommandSets
    rw [hcfg]
    dsimp only
    split_ifs <;> rfl
  | write data => rfl
  | flush => rfl
  | historyClear => rfl
  | setEchoEnabled enabled => rfl
  | start => rfl
  | stop => rfl
  | effect f => rfl

/-- Every use of the API changes the core so. -/
private theorem core_runCall (env : Env ω) (st : Sys ω) (call : ApiCall ω) :
    (runCall env st call).sh.core = (call.onShell st.sh.core).core := by
  by_cases hstart : call = .start
  · subst hstart
    obtain ⟨b, hb⟩ := shStart_sh env st
    show (shStart env st).1.sh.core = st.sh.core.core
    rw [hb]
    rfl
  · rw [runCall_sh_eq env st hstart, call.core_onShell]

/-! ## Worlds that look the same -/

/-- What the application looks at and acts on is `app`, and output is no part of it. -/
structure OutputBlind (env : Env ω) (app : ω → α) : Prop where
  output : ∀ a, KeepsOutput env fun io => app io = a
  /-- A handler does the same in worlds that look the same. -/
  handler : ∀ fn view io io' argv ctx, app io' = app io →
    env.handler fn view io' argv ctx = env.handler fn view io argv ctx
  /-- What it does to such worlds looks the same again. -/
  effect : ∀ fn view io argv ctx f, .effect f ∈ (env.handler fn view io argv ctx).1 →
    ∀ io io', app io' = app io → app (f io') = app (f io)

/-- The application sees nothing of what the core does. -/
theorem OutputBlind.app_eq {env : Env ω} {app : ω → α} (hB : OutputBlind env app)
    {T : Shell → Shell → Prop} {st st' : Sys ω} (hacts : Acts env T (fun _ => False) True st st') :
    app st'.io = app st.io := (hB.output (app st.io)).core_acts hacts rfl

/-- Two systems on which executing a command comes to the same. -/
structure Alike (app : ω → α) (st st' : Sys ω) : Prop where
  core : st'.sh.core = st.sh.core
  app : app st'.io = app st.io

/-- Two such results, with the same status. -/
structure AlikeResult (app : ω → α) (r r' : Sys ω × Status) : Prop where
  sys : Alike app r.1 r'.1
  status : r'.2 = r.2

namespace Alike

variable {env : Env ω} {app : ω → α} {st st' : Sys ω}

/-- Likeness is transitive. -/
theorem trans {a b c : Sys ω} (h : Alike app a b) (k : Alike app b c) : Alike app a c :=
  ⟨k.core.trans h.core, k.app.trans h.app⟩

/-- A field of the core is the same on both sides. -/
theorem field {β : Type} (h : Alike app st st') {f : Shell → β} (hf : ∀ s, f s.core = f s) :
    f st'.sh = f st.sh := by
  rw [← hf st'.sh, h.core, hf]

/-- The same update of both shells. -/
theorem modify (h : Alike app st st') {f : Shell → Shell}
    (hf : ∀ s, (f s).core = (f s.core).core) : Alike app (st.modify f) (st'.modify f) := by
  refine ⟨?_, h.app⟩
  show (f st'.sh).core = (f st.sh).core
  rw [hf st'.sh, h.core, ← hf]

variable (hB : OutputBlind env app)

include hB

/-- Output on both sides, not necessarily the same. -/
theorem writes (h : Alike app st st') (texts texts' : List (List Byte)) :
    Alike app (PortableShell.writes env st texts) (PortableShell.writes env st' texts') := by
  refine ⟨?_, ?_⟩
  · rw [writes_sh, writes_sh, h.core]
  · rw [hB.app_eq (writes_acts env (T := Step) st texts),
      hB.app_eq (writes_acts env (T := Step) st' texts'), h.app]

/-- The same use of the API by application code. -/
theorem runCall (h : Alike app st st') {call : ApiCall ω}
    (hcall : ∀ f, call = .effect f → ∀ io io', app io' = app io → app (f io') = app (f io)) :
    Alike app (PortableShell.runCall env st call) (PortableShell.runCall env st' call) := by
  refine ⟨?_, ?_⟩
  · rw [core_runCall, core_runCall, h.core]
  · by_cases heffect : ∃ f, call = .effect f
    · obtain ⟨f, rfl⟩ := heffect
      exact hcall f rfl _ _ h.app
    · have hnone : ∀ a f, call = .effect f → ∀ io', app io' = a → app (f io') = a :=
        fun _ f hf => absurd ⟨f, hf⟩ heffect
      rw [(hB.output (app st.io)).runCall (hnone _) rfl,
        (hB.output (app st.io)).runCall (hnone _) h.app]

/-- The same script of application code. -/
theorem runCalls {calls : List (ApiCall ω)}
    (hcalls : ∀ f, .effect f ∈ calls → ∀ io io', app io' = app io → app (f io') = app (f io))
    (h : Alike app st st') :
    Alike app (PortableShell.runCalls env st calls) (PortableShell.runCalls env st' calls) := by
  induction calls generalizing st st' with
  | nil => exact h
  | cons call calls ih =>
    refine ih (fun f hf => hcalls f (List.mem_cons_of_mem call hf)) (h.runCall hB ?_)
    rintro f rfl
    exact hcalls f List.mem_cons_self

/-- The same handler. -/
theorem callHandler (h : Alike app st st') (fn : Ptr) (argv : List CStr) (ctx : Option Ptr) :
    AlikeResult app (PortableShell.callHandler env st fn argv ctx)
      (PortableShell.callHandler env st' fn argv ctx) := by
  have hview : viewOf st'.sh = viewOf st.sh := h.field Shell.viewOf_core
  have hemit : Alike app (st.emit (.handler fn argv ctx)) (st'.emit (.handler fn argv ctx)) :=
    ⟨h.core, h.app⟩
  unfold PortableShell.callHandler
  rw [hview, hB.handler fn (viewOf st.sh) st.io st'.io argv ctx h.app]
  exact ⟨hemit.runCalls hB (hB.effect fn _ _ argv ctx), rfl⟩

/-- The built-in `history`. -/
theorem builtinHistory (h : Alike app st st') (argv : List CStr) :
    AlikeResult app (PortableShell.builtinHistory env st argv)
      (PortableShell.builtinHistory env st' argv) := by
  refine ⟨⟨?_, ?_⟩, ?_⟩
  · unfold PortableShell.builtinHistory
    dsimp only
    split_ifs
    · exact (h.modify fun _ => rfl : Alike app (st.modify Shell.clearHistory)
        (st'.modify Shell.clearHistory)).core
    · rw [writes_sh, writes_sh, h.core]
    · rw [writeInternal_sh, writeInternal_sh, writes_sh, writes_sh, h.core]
    · rw [writes_sh, writes_sh, touchEntries_sh, touchEntries_sh, writes_sh, writes_sh, h.core]
  · rw [hB.app_eq (builtinHistory_acts env st argv), hB.app_eq (builtinHistory_acts env st' argv),
      h.app]
  · unfold PortableShell.builtinHistory
    dsimp only
    split_ifs <;> rfl

/-- The built-in `echo`. -/
theorem builtinEcho (h : Alike app st st') (argv : List CStr) :
    AlikeResult app (PortableShell.builtinEcho env st argv)
      (PortableShell.builtinEcho env st' argv) := by
  have hset : ∀ b,
      Alike app (st.modify (shSetEchoEnabled · b)) (st'.modify (shSetEchoEnabled · b)) :=
    fun b => h.modify fun _ => rfl
  refine ⟨⟨?_, ?_⟩, ?_⟩
  · unfold PortableShell.builtinEcho
    split_ifs
    · rw [writes_sh, writes_sh, h.core]
    · exact (hset true).core
    · exact (hset false).core
    · exact h.core
  · rw [hB.app_eq (builtinEcho_acts env st argv), hB.app_eq (builtinEcho_acts env st' argv), h.app]
  · unfold PortableShell.builtinEcho
    split_ifs <;> rfl

/-- **A dispatch.** -/
theorem dispatch (h : Alike app st st') (argv : List CStr) :
    AlikeResult app (shCommandDispatchInternal env st argv)
      (shCommandDispatchInternal env st' argv) := by
  have hplan : plan st'.sh argv = plan st.sh argv :=
    h.field (f := fun s => plan s argv) fun s => s.core_sameRegistry.plan_eq argv
  have hemit : Alike app (st.emit (.dispatch argv)) (st'.emit (.dispatch argv)) :=
    ⟨h.core, h.app⟩
  rw [dispatch_eq, dispatch_eq, hplan]
  cases plan st.sh argv with
  | print texts status => exact ⟨hemit.writes hB texts texts, rfl⟩
  | history => exact hemit.builtinHistory hB argv
  | echo => exact hemit.builtinEcho hB argv
  | handler fn args ctx => exact hemit.callHandler hB fn args ctx

omit hB in
/-- Recording a line. -/
theorem recordLine (h : Alike app st st') (line : CStr) (argv : List CStr) :
    Alike app (PortableShell.recordLine env st line argv)
      (PortableShell.recordLine env st' line argv) := by
  have hbuild : buildHistoryLine env st'.sh line argv = buildHistoryLine env st.sh line argv :=
    h.field (f := fun s => buildHistoryLine env s line argv) fun s =>
    s.buildHistoryLine_core env line argv
  unfold PortableShell.recordLine
  rw [hbuild]
  cases buildHistoryLine env st.sh line argv with
  | none => exact h
  | some historyLine =>
    have hnewest : shHistoryGetNewest st'.sh 0 = shHistoryGetNewest st.sh 0 :=
      h.field (f := fun s => shHistoryGetNewest s 0) fun s => s.getNewest_core 0
    have hstorage : st'.sh.historyStorage = st.sh.historyStorage :=
      h.field (f := Shell.historyStorage) fun _ => rfl
    have hdepth : st'.sh.historyDepth = st.sh.historyDepth :=
      h.field (f := Shell.historyDepth) fun _ => rfl
    refine ⟨?_, by simp only [shHistoryAddInternal_io, h.app]⟩
    rw [shHistoryAddInternal_sh, shHistoryAddInternal_sh, hnewest, hstorage, hdepth]
    split_ifs
    · exact h.core
    · rw [Shell.core_storeEntry, Shell.core_storeEntry, h.core]

/-- **Executing a line.**

**Proof sketch.** The capacities agree, so both sides reject or tokenize the same copy. The three
outcomes of the tokenizer are then taken one by one, and wiping the vector leaves the core alone. -/
theorem shExecuteLine (h : Alike app st st') (line : CStr) :
    AlikeResult app (PortableShell.shExecuteLine env st line)
      (PortableShell.shExecuteLine env st' line) := by
  have hline : st'.sh.lineCapacity = st.sh.lineCapacity :=
    h.field (f := Shell.lineCapacity) fun _ => rfl
  have hargv : st'.sh.argvCapacity = st.sh.argvCapacity :=
    h.field (f := Shell.argvCapacity) fun _ => rfl
  unfold PortableShell.shExecuteLine
  rw [hline, hargv]
  split_ifs
  · exact ⟨h.writes hB _ _, rfl⟩
  · dsimp only
    generalize shTokenize (line.bytes ++ [0]) st.sh.argvCapacity = r
    have hset : Alike app ((st.touch .argv r.argv.length).modify (·.setArgv r.texts))
        ((st'.touch .argv r.argv.length).modify (·.setArgv r.texts)) := ⟨h.core, h.app⟩
    have hexec : AlikeResult app
        (executeTokens env ((st.touch .argv r.argv.length).modify (·.setArgv r.texts)) line r)
        (executeTokens env
          ((st'.touch .argv r.argv.length).modify (·.setArgv r.texts)) line r) := by
      unfold executeTokens
      split_ifs
      · exact ⟨hset.writes hB _ _, rfl⟩
      · exact ⟨hset, rfl⟩
      · exact (hset.recordLine line r.texts).dispatch hB r.texts
    refine ⟨⟨?_, hexec.sys.app⟩, hexec.status⟩
    have hwipe : ∀ s : Shell, s.wipeArgv.core = s.core := fun s => by
      unfold Shell.wipeArgv
      split_ifs <;> rfl
    show (Shell.wipeArgv _).core = (Shell.wipeArgv _).core
    rw [hwipe, hwipe]
    exact hexec.sys.core

end Alike

end PortableShell
