import PortableShell.Typing

set_option relaxedAutoImplicit false
set_option autoImplicit false

/-!
# Submitting a secret

The payload of a sensitive command is a secret. Two systems whose lines differ in nothing but a
secret go through Enter side by side here: the secret reaches the copy of the line, the argument
vector and the handler, and nothing of it is left when the prompt is back.

## Main definitions

* `PortableShell.Shell.withInput` — a shell with another line and argument vector.
* `PortableShell.SubmitsSecret` — the line is a sensitive command with some payload.
* `PortableShell.HandlerAlike` — the handler does the same to the shell in both runs.

## Main results

* `PortableShell.buildHistoryLine_payload` — the history line does not depend on the payload.
* `PortableShell.enter_secret_eq` — after Enter the two shells are the same and have printed the
  same.
-/

namespace PortableShell

variable {ω : Type}

/-! ## Shells that differ in their input -/

namespace Shell

/-- The shell with another line, cursor and argument vector. -/
def withInput (s : Shell) (line : List Byte) (lineLen cursor : ℕ) (argv : List (Option CStr)) :
    Shell :=
  { s with line := line, lineLen := lineLen, cursor := cursor, argv := argv }

/-- The two shells differ at most in line, cursor and argument vector. -/
def SameButInput (s s' : Shell) : Prop :=
  ∃ line lineLen cursor argv, s' = s.withInput line lineLen cursor argv

namespace SameButInput

variable {s s' : Shell}

/-- A field that does not belong to the input. -/
theorem field {β : Type} (h : SameButInput s s') {f : Shell → β}
    (hf : ∀ s line lineLen cursor argv, f (s.withInput line lineLen cursor argv) = f s) :
    f s' = f s := by
  obtain ⟨line, lineLen, cursor, argv, rfl⟩ := h
  exact hf s line lineLen cursor argv

/-- A change of both shells that leaves the input alone. -/
theorem update (h : SameButInput s s') {f : Shell → Shell}
    (hf : ∀ s line lineLen cursor argv,
      f (s.withInput line lineLen cursor argv) = (f s).withInput line lineLen cursor argv) :
    SameButInput (f s) (f s') := by
  obtain ⟨line, lineLen, cursor, argv, rfl⟩ := h
  exact ⟨line, lineLen, cursor, argv, hf s line lineLen cursor argv⟩

/-- The cores are the same. -/
theorem core (h : SameButInput s s') : s'.core = s.core := h.field fun _ _ _ _ _ => rfl

/-- The registries are the same. -/
theorem sameRegistry (h : SameButInput s s') : SameRegistry s s' :=
  ⟨h.field (f := Shell.cfg) fun _ _ _ _ _ => rfl,
    h.field (f := Shell.commands) fun _ _ _ _ _ => rfl,
    h.field (f := Shell.commandSets) fun _ _ _ _ _ => rfl⟩

/-- Other argument vectors. -/
theorem setArgv (h : SameButInput s s') (texts texts' : List CStr) :
    SameButInput (s.setArgv texts) (s'.setArgv texts') := by
  obtain ⟨line, lineLen, cursor, argv, rfl⟩ := h
  exact ⟨line, lineLen, cursor, _, rfl⟩

/-- The argument vectors are overwritten. -/
theorem wipeArgv (h : SameButInput s s') : SameButInput s.wipeArgv s'.wipeArgv := by
  obtain ⟨line, lineLen, cursor, argv, rfl⟩ := h
  have hcfg : (s.withInput line lineLen cursor argv).cfg = s.cfg := rfl
  unfold Shell.wipeArgv
  rw [hcfg]
  split_ifs
  · exact ⟨line, lineLen, cursor, _, rfl⟩
  · exact ⟨line, lineLen, cursor, _, rfl⟩

/-- Where everything but the line buffer is the same. -/
private theorem eq_setLine (h : SameButInput s s') (hlen : s'.lineLen = s.lineLen)
    (hcursor : s'.cursor = s.cursor) (hargv : s'.argv = s.argv) :
    s' = { s with line := s'.line } := by
  obtain ⟨line, lineLen, cursor, argv, rfl⟩ := h
  obtain rfl : lineLen = s.lineLen := hlen
  obtain rfl : cursor = s.cursor := hcursor
  obtain rfl : argv = s.argv := hargv
  rfl

/-- The lines and the drafts are emptied. -/
theorem erase (h : SameButInput s s') :
    SameButInput s.eraseLine.eraseDraft s'.eraseLine.eraseDraft := by
  obtain ⟨line, lineLen, cursor, argv, rfl⟩ := h
  exact ⟨(s.withInput line lineLen cursor argv).eraseLine.line, 0, 0, argv, rfl⟩

end SameButInput

end Shell

/-- A use of the API leaves the input alone. -/
private theorem ApiCall.onShell_withInput (call : ApiCall ω) (s : Shell) (line : List Byte)
    (lineLen cursor : ℕ) (argv : List (Option CStr)) :
    call.onShell (s.withInput line lineLen cursor argv) =
      (call.onShell s).withInput line lineLen cursor argv := by
  have hcfg : (s.withInput line lineLen cursor argv).cfg = s.cfg := rfl
  cases call with
  | registerCommands commands =>
    unfold ApiCall.onShell shRegisterCommands
    rw [hcfg]
    dsimp only
    split_ifs <;> rfl
  | registerCommandSets sets =>
    unfold ApiCall.onShell shRegisterCommandSets
    rw [hcfg]
    dsimp only
    split_ifs <;> rfl
  | write data => rfl
  | flush => rfl
  | historyClear => rfl
  | setEchoEnabled enabled => rfl
  | start => rfl
  | stop => rfl
  | effect f => rfl

/-! ## What the core prints -/

/-- What the core has printed since an earlier system. -/
def PrintedSince (start st : Sys ω) (texts : List (List Byte)) : Prop :=
  coreOutput st.trace = coreOutput start.trace ++ texts

variable (env : Env ω)

/-- Printing some texts. -/
private theorem coreOutput_writes (st : Sys ω) (texts : List (List Byte)) :
    coreOutput (writes env st texts).trace = coreOutput st.trace ++ texts := by
  have hall : coreOutput (texts.map Event.write) = texts := by
    induction texts with
    | nil => rfl
    | cons data texts ih => exact congrArg (data :: ·) ih
  unfold coreOutput at hall ⊢
  rw [writes_trace, List.filterMap_append, hall]

/-- A use of the API other than `sh_start` lets the core print nothing. -/
private theorem coreOutput_runCall (st : Sys ω) {call : ApiCall ω} (h : call ≠ .start) :
    coreOutput (runCall env st call).trace = coreOutput st.trace := by
  cases call with
  | start => exact absurd rfl h
  | write data =>
    show coreOutput (st.trace ++ [Event.handlerWrite data]) = _
    unfold coreOutput
    rw [List.filterMap_append]
    exact List.append_nil _
  | flush => rfl
  | historyClear => rfl
  | setEchoEnabled enabled => rfl
  | registerCommands commands => rfl
  | registerCommandSets sets => rfl
  | stop => rfl
  | effect f => rfl

/-! ## Two runs side by side -/

/-- Since two starting systems, two systems have come to shells that differ in their input only,
and their cores have printed the same. -/
structure SameButInput (start start' st st' : Sys ω) : Prop where
  shell : st.sh.SameButInput st'.sh
  printed : ∃ texts, PrintedSince start st texts ∧ PrintedSince start' st' texts

/-- `sh_start` in the same surroundings. -/
private theorem shStart_io {env : Env ω} {st st' : Sys ω} (hcfg : st'.sh.cfg = st.sh.cfg)
    (hstarted : st'.sh.started = st.sh.started) (hio : st'.io = st.io) :
    (shStart env st').1.io = (shStart env st).1.io := by
  have hback : backendWrite env st'.sh.cfg st'.io st.sh.cfg.promptText.bytes =
      backendWrite env st.sh.cfg st.io st.sh.cfg.promptText.bytes := by
    rw [hcfg, hio]
  have hstatus : (shPuts env (st'.modify (·.setStarted true)) st.sh.cfg.promptText).2 =
      (shPuts env (st.modify (·.setStarted true)) st.sh.cfg.promptText).2 :=
    congrArg (fun r : ω × Status => r.2) hback
  have hputs : (shPuts env (st'.modify (·.setStarted true)) st.sh.cfg.promptText).1.io =
      (shPuts env (st.modify (·.setStarted true)) st.sh.cfg.promptText).1.io :=
    congrArg Prod.fst hback
  unfold shStart
  rw [hstarted, hcfg]
  dsimp only
  rw [hstatus]
  split_ifs
  · exact hio
  · exact hputs
  · exact hputs

namespace SameButInput

variable {env} {start start' st st' : Sys ω}

/-- A step of both runs that prints the same. -/
theorem step (h : SameButInput start start' st st') {next next' : Sys ω}
    (hshell : next.sh.SameButInput next'.sh) (texts : List (List Byte))
    (hnext : coreOutput next.trace = coreOutput st.trace ++ texts)
    (hnext' : coreOutput next'.trace = coreOutput st'.trace ++ texts) :
    SameButInput start start' next next' := by
  obtain ⟨printed, hprinted, hprinted'⟩ := h.printed
  refine ⟨hshell, printed ++ texts, ?_, ?_⟩
  · unfold PrintedSince at hprinted ⊢
    rw [hnext, hprinted, List.append_assoc]
  · unfold PrintedSince at hprinted' ⊢
    rw [hnext', hprinted', List.append_assoc]

/-- Printing the same texts. -/
theorem writes (h : SameButInput start start' st st') (texts : List (List Byte)) :
    SameButInput start start' (PortableShell.writes env st texts)
      (PortableShell.writes env st' texts) := by
  refine h.step ?_ texts (coreOutput_writes env st texts) (coreOutput_writes env st' texts)
  rw [writes_sh, writes_sh]
  exact h.shell

/-- The same use of the API other than `sh_start`. -/
theorem runCall (h : SameButInput start start' st st') {call : ApiCall ω} (hcall : call ≠ .start) :
    SameButInput start start' (PortableShell.runCall env st call)
      (PortableShell.runCall env st' call) := by
  refine h.step ?_ [] ?_ ?_
  · rw [runCall_sh_eq env st hcall, runCall_sh_eq env st' hcall]
    exact h.shell.update (f := fun s => call.onShell s) call.onShell_withInput
  · rw [coreOutput_runCall env st hcall, List.append_nil]
  · rw [coreOutput_runCall env st' hcall, List.append_nil]

/-- `sh_start` where the output backend answers alike.

**Proof sketch.** Both shells are started or neither is. The prompt is printed on both sides, and
the statuses agree by hypothesis, so the flag is set back on both sides or on neither. -/
theorem shStart (h : SameButInput start start' st st')
    (hanswer : (backendWrite env st'.sh.cfg st'.io st'.sh.cfg.promptText.bytes).2 =
      (backendWrite env st.sh.cfg st.io st.sh.cfg.promptText.bytes).2) :
    SameButInput start start' (PortableShell.shStart env st).1
      (PortableShell.shStart env st').1 := by
  have hstarted : st'.sh.started = st.sh.started := h.shell.field fun _ _ _ _ _ => rfl
  have hcfg : st'.sh.cfg = st.sh.cfg := h.shell.field fun _ _ _ _ _ => rfl
  have hset : SameButInput start start' (st.modify (·.setStarted true))
      (st'.modify (·.setStarted true)) :=
    ⟨h.shell.update (f := fun s => s.setStarted true) fun _ _ _ _ _ => rfl, h.printed⟩
  have hputs : SameButInput start start' (PortableShell.writes env _ _)
      (PortableShell.writes env _ _) := hset.writes [st.sh.cfg.promptText.bytes]
  have hstatus : (shPuts env (st'.modify (·.setStarted true)) st.sh.cfg.promptText).2 =
      (shPuts env (st.modify (·.setStarted true)) st.sh.cfg.promptText).2 := by
    show (backendWrite env st'.sh.cfg st'.io _).2 = (backendWrite env st.sh.cfg st.io _).2
    rw [← hanswer, hcfg]
  unfold PortableShell.shStart
  rw [hstarted, hcfg]
  by_cases hs : st.sh.started
  · rw [if_pos hs, if_pos hs]
    exact h
  · rw [if_neg hs, if_neg hs]
    dsimp only
    rw [hstatus]
    by_cases hfail :
        (shPuts env (st.modify (·.setStarted true)) st.sh.cfg.promptText).2 ≠ Status.ok
    · rw [if_pos hfail, if_pos hfail]
      refine ⟨?_, hputs.printed⟩
      exact hputs.shell.update (f := fun s => s.setStarted false) fun _ _ _ _ _ => rfl
    · rw [if_neg hfail, if_neg hfail]
      exact hputs

/-- The same use of the API in the same surroundings. -/
private theorem runCall_io (h : SameButInput start start' st st') (hio : st'.io = st.io)
    (call : ApiCall ω) :
    (PortableShell.runCall env st' call).io = (PortableShell.runCall env st call).io := by
  have hcfg : st'.sh.cfg = st.sh.cfg := h.shell.field fun _ _ _ _ _ => rfl
  have hstarted : st'.sh.started = st.sh.started := h.shell.field fun _ _ _ _ _ => rfl
  cases call with
  | write data =>
    show (backendWrite env st'.sh.cfg st'.io data).1 = (backendWrite env st.sh.cfg st.io data).1
    rw [hcfg, hio]
  | flush =>
    show (backendFlush env st'.sh.cfg st'.io).1 = (backendFlush env st.sh.cfg st.io).1
    rw [hcfg, hio]
  | stop =>
    show (backendFlush env st'.sh.cfg st'.io).1 = (backendFlush env st.sh.cfg st.io).1
    rw [hcfg, hio]
  | start => exact shStart_io hcfg hstarted hio
  | effect f => exact congrArg f hio
  | historyClear => exact hio
  | setEchoEnabled enabled => exact hio
  | registerCommands commands => exact hio
  | registerCommandSets sets => exact hio

/-- The same script in the same surroundings. -/
theorem runCalls (h : SameButInput start start' st st') (hio : st'.io = st.io)
    (calls : List (ApiCall ω)) :
    SameButInput start start' (PortableShell.runCalls env st calls)
      (PortableShell.runCalls env st' calls) := by
  induction calls generalizing st st' with
  | nil => exact h
  | cons call calls ih =>
    refine ih ?_ (h.runCall_io hio call)
    by_cases hstart : call = .start
    · subst hstart
      have hcfg : st'.sh.cfg = st.sh.cfg := h.shell.field fun _ _ _ _ _ => rfl
      exact h.shStart (by rw [hcfg, hio])
    · exact h.runCall hstart

end SameButInput

/-! ## Handlers that behave alike -/

/-- Two uses of the API that do the same to the shell: what is written to the output and what is
done to the outside world may differ. -/
inductive SameCall : ApiCall ω → ApiCall ω → Prop
  | same (call : ApiCall ω) : SameCall call call
  | write (data data' : List Byte) : SameCall (.write data) (.write data')
  | effect (f f' : ω → ω) : SameCall (.effect f) (.effect f')

/-- The output backend answers every write with the same status, whatever its state. -/
def AnswersAlike (env : Env ω) : Prop :=
  ∀ cfg io io' data, (backendWrite env cfg io' data).2 = (backendWrite env cfg io data).2

/-- Two handler calls that behave alike: they return the same and do the same to the shell. What
`sh_start` does to it depends on the answer of the output backend. -/
structure BehavesAlike (env : Env ω) (io io' : ω) (r r' : List (ApiCall ω) × Status) : Prop where
  status : r'.2 = r.2
  calls : io' = io ∧ r'.1 = r.1 ∨
    (ApiCall.start ∉ r.1 ∨ AnswersAlike env) ∧ List.Forall₂ SameCall r.1 r'.1

/-- The handler of a command behaves alike when it is called in the two systems. -/
def HandlerAlike (env : Env ω) (n : Cmd) (st st' : Sys ω) (args args' : List CStr) : Prop :=
  ∀ fn ∈ n.handler, BehavesAlike env st.io st'.io
    (env.handler fn (viewOf st.sh) st.io args (n.userCtx.or st.sh.cfg.userCtx))
    (env.handler fn (viewOf st'.sh) st'.io args' (n.userCtx.or st'.sh.cfg.userCtx))

/-- Only the core and the surroundings matter for this. -/
theorem HandlerAlike.congr {env : Env ω} {n : Cmd} {a a' b b' : Sys ω} {args args' : List CStr}
    (h : HandlerAlike env n a a' args args') (hb : Alike id a b) (hb' : Alike id a' b') :
    HandlerAlike env n b b' args args' := by
  intro fn hfn
  have hcall := h fn hfn
  rw [← hb.field Shell.viewOf_core, ← hb'.field Shell.viewOf_core,
    ← hb.field (f := Shell.cfg) fun _ => rfl, ← hb'.field (f := Shell.cfg) fun _ => rfl,
    ← show b.io = a.io from hb.app, ← show b'.io = a'.io from hb'.app] at hcall
  exact hcall

namespace SameButInput

variable {env} {start start' st st' : Sys ω}

/-- Two scripts that do the same to the shell.

**Proof sketch.** Induction on the scripts. Calls that are the same do the same on both sides, and
writes and effects touch neither the shell nor the output of the core. -/
private theorem runCalls_of_sameCall (h : SameButInput start start' st st')
    {calls calls' : List (ApiCall ω)} (hstart : ApiCall.start ∉ calls ∨ AnswersAlike env)
    (hcalls : List.Forall₂ SameCall calls calls') :
    SameButInput start start' (PortableShell.runCalls env st calls)
      (PortableShell.runCalls env st' calls') := by
  induction hcalls generalizing st st' with
  | nil => exact h
  | @cons call call' calls calls' hcall _ ih =>
    have hrest : ApiCall.start ∉ calls ∨ AnswersAlike env :=
      hstart.imp_left fun hnot hmem => hnot (List.mem_cons_of_mem call hmem)
    refine ih ?_ hrest
    cases hcall with
    | same =>
      by_cases heq : call = .start
      · subst heq
        have hcfg : st'.sh.cfg = st.sh.cfg := h.shell.field fun _ _ _ _ _ => rfl
        have hanswer := hstart.resolve_left fun hnot => hnot List.mem_cons_self
        exact h.shStart (by rw [hcfg]; exact hanswer _ _ _ _)
      · exact h.runCall heq
    | write data data' =>
      have hne : ∀ data : List Byte, (ApiCall.write data : ApiCall ω) ≠ .start := fun _ => nofun
      refine h.step h.shell [] ?_ ?_
      · rw [coreOutput_runCall env st (hne data), List.append_nil]
      · rw [coreOutput_runCall env st' (hne data'), List.append_nil]
    | effect f f' => exact h.step h.shell [] (List.append_nil _).symm (List.append_nil _).symm

/-- Two handler calls that behave alike. -/
theorem callHandler (h : SameButInput start start' st st') {fn : Ptr} {args args' : List CStr}
    {ctx ctx' : Option Ptr}
    (halike : BehavesAlike env st.io st'.io (env.handler fn (viewOf st.sh) st.io args ctx)
      (env.handler fn (viewOf st'.sh) st'.io args' ctx')) :
    SameButInput start start' (PortableShell.callHandler env st fn args ctx).1
        (PortableShell.callHandler env st' fn args' ctx').1 ∧
      (PortableShell.callHandler env st' fn args' ctx').2 =
        (PortableShell.callHandler env st fn args ctx).2 := by
  have hcalled : SameButInput start start' (st.emit (.handler fn args ctx))
      (st'.emit (.handler fn args' ctx')) := by
    refine h.step h.shell [] ?_ ?_
    all_goals
      unfold coreOutput
      rw [Sys.emit_trace, List.filterMap_append]
      rfl
  refine ⟨?_, halike.status⟩
  unfold PortableShell.callHandler
  dsimp only
  rcases halike.calls with ⟨hio, heq⟩ | ⟨hstart, hcalls⟩
  · rw [heq]
    exact hcalled.runCalls hio _
  · exact hcalled.runCalls_of_sameCall hstart hcalls

end SameButInput

/-! ## A line with a secret -/

/-- The line is split into the path of a sensitive leaf and some payload that does not begin with
a request for help. -/
structure SubmitsSecret (s : Shell) (line : CStr) (path payload : List CStr) (n : Cmd) : Prop where
  status : (shTokenize (line.bytes ++ [0]) s.argvCapacity).status = Status.ok
  texts : (shTokenize (line.bytes ++ [0]) s.argvCapacity).texts = path ++ payload
  isPath : IsPath s.roots path n
  leaf : n.hasSubcommands = false
  sensitive : n.sensitive = true
  nonempty : payload ≠ []
  not_help : payload.head?.any isHelpToken = false

/-- This depends on registry and argument capacity only. -/
theorem SubmitsSecret.frame {s s' : Shell} {line : CStr} {path payload : List CStr} {n : Cmd}
    (h : SubmitsSecret s line path payload n) (hregistry : SameRegistry s s')
    (hcapacity : s'.argvCapacity = s.argvCapacity) : SubmitsSecret s' line path payload n where
  status := by rw [hcapacity]; exact h.status
  texts := by rw [hcapacity]; exact h.texts
  isPath := by
    unfold Shell.roots
    rw [hregistry.commands, hregistry.commandSets]
    exact h.isPath
  leaf := h.leaf
  sensitive := h.sensitive
  nonempty := h.nonempty
  not_help := h.not_help

section Payload

variable {s : Shell} {n : Cmd} {text : CStr} {path payload : List CStr}

/-- Every payload token of a sensitive command is masked. -/
private theorem tokenMasked_payload (cfg : Config) (hsensitive : n.sensitive = true) (i : ℕ)
    (arg : CStr) :
    tokenMasked env cfg ⟨some n, path.length, text⟩ (path.length + i) arg = true := by
  unfold tokenMasked
  simp [hsensitive]

/-- The tokens of the rebuilt history line depend on the number of payload tokens only. -/
private theorem shownTokens_payload (cfg : Config) (hsensitive : n.sensitive = true) :
    shownTokens env cfg ⟨some n, path.length, text⟩ (path ++ payload) =
      shownTokens env cfg ⟨some n, path.length, text⟩ path ++
        List.replicate payload.length hiddenToken := by
  unfold shownTokens
  rw [List.mapIdx_append]
  congr 1
  have hmap : (fun (i : ℕ) (arg : CStr) =>
      if tokenMasked env cfg ⟨some n, path.length, text⟩ (i + path.length) arg then hiddenToken
        else arg) = fun _ _ => hiddenToken := by
    funext i arg
    rw [Nat.add_comm, if_pos (tokenMasked_payload env cfg hsensitive i arg)]
  rw [hmap]
  refine List.ext_getElem ?_ ?_
  · rw [List.length_mapIdx, List.length_replicate]
  · intro i _ _
    rw [List.getElem_mapIdx, List.getElem_replicate]

/-- **The history line does not depend on the payload.** -/
theorem buildHistoryLine_payload {line line' : CStr} {payload' : List CStr}
    (hresolve : ∀ rest, shResolveCommandInternal s (path ++ rest) = ⟨some n, path.length, text⟩)
    (hsensitive : n.sensitive = true) (hpayload : payload ≠ [])
    (hlength : payload'.length = payload.length) :
    buildHistoryLine env s line' (path ++ payload') =
      buildHistoryLine env s line (path ++ payload) := by
  have hmasked : ∀ rest : List CStr, rest ≠ [] →
      ((path ++ rest).zipIdx.any fun a => tokenMasked env s.cfg ⟨some n, path.length, text⟩
        a.2 a.1) = true := by
    intro rest hrest
    obtain ⟨token, rest, rfl⟩ := List.exists_cons_of_ne_nil hrest
    refine List.any_eq_true.mpr ⟨(token, path.length), ?_, ?_⟩
    · rw [List.mem_zipIdx_iff_getElem?]
      simp
    · exact tokenMasked_payload env s.cfg hsensitive 0 token
  have hpayload' : payload' ≠ [] := by
    rintro rfl
    exact hpayload (List.eq_nil_of_length_eq_zero hlength.symm)
  unfold buildHistoryLine
  rw [hresolve, hresolve]
  dsimp only
  rw [hmasked payload hpayload, hmasked payload' hpayload',
    shownTokens_payload env s.cfg hsensitive, shownTokens_payload env s.cfg hsensitive, hlength]
  rfl

end Payload

/-- What the dispatch of a leaf with some payload comes to. -/
def leafPlan (cfg : Config) (n : Cmd) (text : CStr) (path payload : List CStr) : Plan :=
  match n.handler with
  | none =>
    .print [vprintfBytes (ascii "error: incomplete command: " ++ text.bytes ++ ascii "\r\n")]
      Status.errIncompleteCommand
  | some fn =>
    if !arityAdmits n (payload.length + 1) then
      .print (vprintfBytes (ascii "error: invalid argument count for " ++ text.bytes ++
        ascii "\r\n") :: usageTexts n.usage text) Status.errInvalidArg
    else .handler fn ((path ++ payload).drop (path.length - 1)) (n.userCtx.or cfg.userCtx)

/-- The dispatch of a sensitive command. -/
theorem SubmitsSecret.plan_eq {s : Shell} {line : CStr} {path payload : List CStr} {n : Cmd}
    (hreg : Registered s) (h : SubmitsSecret s line path payload n) {text : CStr}
    (hresolve : ∀ rest, shResolveCommandInternal s (path ++ rest) = ⟨some n, path.length, text⟩) :
    plan s (path ++ payload) = leafPlan s.cfg n text path payload := by
  have hne : path ++ payload ≠ [] := List.append_ne_nil_of_right_ne_nil path h.nonempty
  have hcmd : (shResolveCommandInternal s (path ++ payload)).cmd = some n := by rw [hresolve]
  have hcount : (path ++ payload).length - path.length + 1 = payload.length + 1 := by
    rw [List.length_append]
    omega
  rw [plan_of_not_builtin hne (h.isPath.not_builtin hreg payload) hcmd, hresolve, commandPlan]
  simp only [List.drop_left, h.not_help, h.leaf, hcount, Bool.false_eq_true, and_false, if_false]
  rfl

/-! ## Executing it -/

/-- The line dispatches the tokens. -/
theorem SubmitsSecret.lineArgv_eq {s : Shell} {line : CStr} {path payload : List CStr} {n : Cmd}
    (h : SubmitsSecret s line path payload n) (hshort : line.length < shMaxLineLen + 1)
    (hfit : line.length < s.lineCapacity) : lineArgv s line = some (path ++ payload) := by
  have hargv : (shTokenize (line.bytes ++ [0]) s.argvCapacity).argv ≠ [] := by
    intro hnil
    have htexts := h.texts
    unfold TokenizeResult.texts at htexts
    rw [hnil] at htexts
    exact List.append_ne_nil_of_right_ne_nil path h.nonempty htexts.symm
  unfold lineArgv
  rw [if_neg (by omega)]
  dsimp only
  rw [if_neg (by simp [h.status, hargv]), h.texts]

namespace SameButInput

variable {env} {start start' st st' : Sys ω}

/-- Recording the same history line. -/
theorem recordLine (h : SameButInput start start' st st') {line line' : CStr}
    {argv argv' : List CStr}
    (hbuild : buildHistoryLine env st'.sh line' argv' = buildHistoryLine env st.sh line argv) :
    SameButInput start start' (PortableShell.recordLine env st line argv)
      (PortableShell.recordLine env st' line' argv') := by
  unfold PortableShell.recordLine
  rw [hbuild]
  cases buildHistoryLine env st.sh line argv with
  | none => exact h
  | some historyLine =>
    have hnewest : shHistoryGetNewest st'.sh 0 = shHistoryGetNewest st.sh 0 :=
      h.shell.field (f := fun s => shHistoryGetNewest s 0) fun _ _ _ _ _ => rfl
    have hstorage : st'.sh.historyStorage = st.sh.historyStorage :=
      h.shell.field fun _ _ _ _ _ => rfl
    have hdepth : st'.sh.historyDepth = st.sh.historyDepth := h.shell.field fun _ _ _ _ _ => rfl
    refine h.step ?_ [] ?_ ?_
    · rw [shHistoryAddInternal_sh, shHistoryAddInternal_sh, hnewest, hstorage, hdepth]
      split_ifs
      · exact h.shell
      · exact h.shell.update (f := fun s => s.storeEntry historyLine) fun _ _ _ _ _ => rfl
    · rw [shHistoryAddInternal_trace, List.append_nil]
    · rw [shHistoryAddInternal_trace, List.append_nil]

/-- Dispatching a sensitive command with two payloads of the same number of tokens.

**Proof sketch.** The plan of the leaf looks at the number of arguments only, so both sides take the
same branch, and in the one that calls the handler the two calls are alike by hypothesis. -/
theorem dispatch (h : SameButInput start start' st st') {path payload payload' : List CStr}
    {n : Cmd} {text : CStr}
    (hplan : plan st.sh (path ++ payload) = leafPlan st.sh.cfg n text path payload)
    (hplan' : plan st'.sh (path ++ payload') = leafPlan st.sh.cfg n text path payload')
    (hlength : payload'.length = payload.length)
    (halike : arityAdmits n (payload.length + 1) = true →
      HandlerAlike env n st st' ((path ++ payload).drop (path.length - 1))
        ((path ++ payload').drop (path.length - 1))) :
    SameButInput start start' (shCommandDispatchInternal env st (path ++ payload)).1
        (shCommandDispatchInternal env st' (path ++ payload')).1 ∧
      (shCommandDispatchInternal env st' (path ++ payload')).2 =
        (shCommandDispatchInternal env st (path ++ payload)).2 := by
  have hemit : SameButInput start start' (st.emit (.dispatch (path ++ payload)))
      (st'.emit (.dispatch (path ++ payload'))) := by
    refine h.step h.shell [] ?_ ?_
    all_goals
      unfold coreOutput
      rw [Sys.emit_trace, List.filterMap_append]
      rfl
  rw [dispatch_eq, dispatch_eq, hplan, hplan']
  unfold leafPlan
  rw [hlength]
  cases hfn : n.handler with
  | none => exact ⟨hemit.writes _, rfl⟩
  | some fn =>
    dsimp only
    by_cases harity : (!arityAdmits n (payload.length + 1)) = true
    · rw [if_pos harity, if_pos harity]
      exact ⟨hemit.writes _, rfl⟩
    · rw [if_neg harity, if_neg harity]
      have hcfg : st'.sh.cfg = st.sh.cfg := h.shell.field fun _ _ _ _ _ => rfl
      have hcall := halike (by simpa using harity) fn hfn
      rw [hcfg] at hcall
      exact hemit.callHandler hcall

/-- **Executing a line with a secret.**

**Proof sketch.** Both lines are split into the path and their payloads, and the vectors they are
stored in are input. The line that the history gets is the same for both payloads
(`buildHistoryLine_payload`), both dispatches follow the plan of the leaf, and wiping the vectors
ends both. -/
theorem shExecuteLine (h : SameButInput start start' st st') (hreg : Registered st.sh)
    {line line' : CStr} {path payload payload' : List CStr} {n : Cmd}
    (hsecret : SubmitsSecret st.sh line path payload n)
    (hsecret' : SubmitsSecret st'.sh line' path payload' n)
    (hlength : payload'.length = payload.length)
    (hfit : line.length < shMaxLineLen + 1 ∧ line.length < st.sh.lineCapacity)
    (hfit' : line'.length < shMaxLineLen + 1 ∧ line'.length < st'.sh.lineCapacity)
    (halike : arityAdmits n (payload.length + 1) = true →
      HandlerAlike env n (PortableShell.recordLine env st line (path ++ payload))
        (PortableShell.recordLine env st' line' (path ++ payload'))
        ((path ++ payload).drop (path.length - 1)) ((path ++ payload').drop (path.length - 1))) :
    SameButInput start start' (PortableShell.shExecuteLine env st line).1
        (PortableShell.shExecuteLine env st' line').1 ∧
      (PortableShell.shExecuteLine env st' line').2 =
        (PortableShell.shExecuteLine env st line).2 := by
  obtain ⟨text, hresolve⟩ := resolve_leaf hreg hsecret.isPath
    ((hasSubcommands_eq_false_iff n).mp hsecret.leaf)
  have hregistry := h.shell.sameRegistry
  have hresolve' : ∀ rest, shResolveCommandInternal st'.sh (path ++ rest) =
      ⟨some n, path.length, text⟩ := fun rest => (hregistry.resolve_eq _).trans (hresolve rest)
  rw [shExecuteLine_eq env (hsecret.lineArgv_eq hfit.1 hfit.2),
    shExecuteLine_eq env (hsecret'.lineArgv_eq hfit'.1 hfit'.2)]
  dsimp only
  generalize hstored : (st.touch .argv _).modify (·.setArgv (path ++ payload)) = stored
  generalize hstored' : (st'.touch .argv _).modify (·.setArgv (path ++ payload')) = stored'
  have hsh : stored.sh = st.sh.setArgv (path ++ payload) := by rw [← hstored]; rfl
  have hsh' : stored'.sh = st'.sh.setArgv (path ++ payload') := by rw [← hstored']; rfl
  have hset : SameButInput start start' stored stored' := by
    refine h.step ?_ [] ?_ ?_
    · rw [hsh, hsh']
      exact h.shell.setArgv _ _
    · rw [← hstored, List.append_nil]
      rfl
    · rw [← hstored', List.append_nil]
      rfl
  have hbuild : buildHistoryLine env stored'.sh line' (path ++ payload') =
      buildHistoryLine env stored.sh line (path ++ payload) := by
    rw [← stored'.sh.buildHistoryLine_core, hset.shell.core, stored.sh.buildHistoryLine_core]
    have hstoredResolve : ∀ rest, shResolveCommandInternal stored.sh (path ++ rest) =
        ⟨some n, path.length, text⟩ := by
      rw [hsh]
      exact hresolve
    exact buildHistoryLine_payload env hstoredResolve hsecret.sensitive hsecret.nonempty hlength
  have hrecord := hset.recordLine hbuild
  have hregistry₁ := recordLine_sameRegistry env stored line (path ++ payload)
  have hregistry₁' := recordLine_sameRegistry env stored' line' (path ++ payload')
  have hbefore : Alike id st stored := by
    rw [← hstored]
    exact ⟨rfl, rfl⟩
  have hbefore' : Alike id st' stored' := by
    rw [← hstored']
    exact ⟨rfl, rfl⟩
  have hcall := fun harity => (halike harity).congr (hbefore.recordLine line (path ++ payload))
    (hbefore'.recordLine line' (path ++ payload'))
  have hplan : plan (PortableShell.recordLine env stored line (path ++ payload)).sh
      (path ++ payload) =
        leafPlan (PortableShell.recordLine env stored line (path ++ payload)).sh.cfg n text path
          payload := by
    rw [hregistry₁.plan_eq, hregistry₁.cfg, hsh]
    exact hsecret.plan_eq hreg hresolve
  have hplan' : plan (PortableShell.recordLine env stored' line' (path ++ payload')).sh
      (path ++ payload') =
        leafPlan (PortableShell.recordLine env stored line (path ++ payload)).sh.cfg n text path
          payload' := by
    have hcfg : st'.sh.cfg = st.sh.cfg := hregistry.cfg
    rw [hregistry₁'.plan_eq, hregistry₁.cfg, hsh, hsh']
    show plan st'.sh _ = leafPlan st.sh.cfg n text path payload'
    rw [← hcfg]
    exact hsecret'.plan_eq (hreg.frame hregistry) hresolve'
  obtain ⟨hsys, hstatus⟩ := hrecord.dispatch hplan hplan' hlength hcall
  refine ⟨?_, hstatus⟩
  exact ⟨hsys.shell.wipeArgv, hsys.printed⟩

end SameButInput

/-! ## What is left of the input -/

/-- Application code leaves line and argument vector alone. -/
private theorem ShellStep.input_eq {s s' : Shell} (hstep : ShellStep s s') :
    s'.line = s.line ∧ s'.argv = s.argv := by
  cases hstep with
  | clear => exact ⟨rfl, rfl⟩
  | echo enabled => exact ⟨rfl, rfl⟩
  | commands l =>
    rcases shRegisterCommands_cases s l with hc | ⟨e, -, hc⟩ <;> rw [hc] <;> exact ⟨rfl, rfl⟩
  | commandSets l =>
    rcases shRegisterCommandSets_cases s l with hc | ⟨e, -, hc⟩ <;> rw [hc] <;> exact ⟨rfl, rfl⟩
  | started b => exact ⟨rfl, rfl⟩
  | stopped => exact ⟨rfl, rfl⟩

/-- Executing leaves the line alone. -/
private theorem ExecStep.line_eq {s s' : Shell} (hstep : ExecStep s s') : s'.line = s.line := by
  cases hstep with
  | app h => exact h.input_eq.1
  | store line => rfl
  | argv texts => rfl
  | wipeArgv =>
    unfold Shell.wipeArgv
    split_ifs <;> rfl

variable {env}

variable (env) in
/-- Executing a line leaves the editor line alone. -/
private theorem shExecuteLine_line (st : Sys ω) (line : CStr) :
    (shExecuteLine env st line).1.sh.line = st.sh.line :=
  keeps_of_steps (T := ExecStep) (P := fun s => s.line = st.sh.line)
    (fun _ _ hstep h => hstep.line_eq.trans h) (shExecuteLine_steps env st line) rfl

/-- Recording a line leaves the argument vector alone. -/
private theorem recordLine_argv (st : Sys ω) (line : CStr) (argv : List CStr) :
    (recordLine env st line argv).sh.argv = st.sh.argv := by
  unfold recordLine
  cases buildHistoryLine env st.sh line argv with
  | none => rfl
  | some historyLine =>
    dsimp only
    rw [shHistoryAddInternal_sh]
    split_ifs <;> rfl

variable (env) in
/-- **The argument vector is wiped** behind a dispatched line.

**Proof sketch.** Neither recording nor dispatching touches the vector, and the capacity and the
configuration stay, so wiping fills all entries of it. -/
theorem shExecuteLine_argv (st : Sys ω) (hwf : st.sh.Wf)
    (hsecure : st.sh.cfg.secureClearEnabled = true) {line : CStr} {argv : List CStr}
    (h : lineArgv st.sh line = some argv) (hcapacity : argv.length ≤ st.sh.argvCapacity) :
    (shExecuteLine env st line).1.sh.argv =
      List.replicate st.sh.argvCapacity none ++ st.sh.argv.drop st.sh.argvCapacity := by
  rw [shExecuteLine_eq env h]
  dsimp only
  generalize hstored : (st.touch .argv _).modify (·.setArgv argv) = stored
  have hsh : stored.sh = st.sh.setArgv argv := by rw [← hstored]; rfl
  have hsteps := dispatch_steps env (recordLine env stored line argv) argv
  have hsetup := (Steps.edit (EditSteps.exec (ExecSteps.app hsteps))).sameSetup
  have hrecord := (Steps.edit (EditSteps.exec (recordLine_steps env stored line argv))).sameSetup
  have hargv : (shCommandDispatchInternal env (recordLine env stored line argv) argv).1.sh.argv =
      stored.sh.argv :=
    keeps_of_steps (T := ShellStep) (P := fun s => s.argv = stored.sh.argv)
      (fun _ _ hstep h => hstep.input_eq.2.trans h) hsteps (recordLine_argv stored line argv)
  generalize shCommandDispatchInternal env (recordLine env stored line argv) argv = res at *
  have hcfg : res.1.sh.cfg = st.sh.cfg := by rw [hsetup.cfg, hrecord.cfg, hsh]; rfl
  have hsize : res.1.sh.argvCapacity = st.sh.argvCapacity := by
    rw [hsetup.argvCapacity, hrecord.argvCapacity, hsh]
    rfl
  show res.1.sh.wipeArgv.argv = _
  unfold Shell.wipeArgv
  rw [hcfg, if_pos hsecure]
  show Mem.fill res.1.sh.argv 0 none res.1.sh.argvCapacity = _
  have hfits : st.sh.argvCapacity ≤ (stored.sh.argv).length := by
    rw [hsh]
    show _ ≤ (Mem.store st.sh.argv 0 _).length
    rw [Mem.length_store]
    exact hwf.argv_size
  rw [hargv, hsize, Mem.fill_zero hfits, hsh]
  congr 1
  exact Mem.drop_store (by rw [List.length_map]; omega)

/-! ## Enter -/

/-- The line buffer when the line is wiped. The cells behind the capacity of the line belong to
the caller. -/
def Shell.wipedLine (s : Shell) : List Byte :=
  List.replicate s.lineCapacity 0 ++ s.line.drop s.lineCapacity

/-- The tokens fit into the argument vector. -/
theorem SubmitsSecret.length_le {s : Shell} {line : CStr} {path payload : List CStr} {n : Cmd}
    (h : SubmitsSecret s line path payload n) : (path ++ payload).length ≤ s.argvCapacity := by
  rw [← h.texts]
  unfold TokenizeResult.texts
  rw [List.length_map]
  exact length_argv_shTokenize _ _

/-- The line that Enter executes is not too long. -/
private theorem Shell.Wf.execText_fits {s : Shell} (h : s.Wf) :
    s.execText.length < shMaxLineLen + 1 ∧ s.execText.length < s.lineCapacity := by
  have hcap := h.capacity_le
  have hlt := h.lineLen_lt
  have hlength := h.length_execText
  omega

variable (env) in
/-- What Enter leaves of the input of a line that is dispatched.

**Proof sketch.** Enter executes a copy of the line, which is not touched in the meantime, and then
wipes it. The vector is `shExecuteLine_argv`. -/
private theorem shInput_enter {st : Sys ω} (hwf : st.sh.Wf) (hidle : st.sh.ansi.state = .idle)
    (hsecure : st.sh.cfg.secureClearEnabled = true) {argv : List CStr}
    (h : lineArgv st.sh st.sh.execText = some argv) (hcapacity : argv.length ≤ st.sh.argvCapacity) :
    let r := shInput env st [chr '\r']
    let e := shExecuteLine env (enterLine env (st.modify (·.fed (chr '\r')))) st.sh.execText
    r = (finishEnter env e.1, e.2) ∧ r.1.sh.line = st.sh.wipedLine ∧ r.1.sh.lineLen = 0 ∧
      r.1.sh.cursor = 0 ∧
      r.1.sh.argv =
        List.replicate st.sh.argvCapacity none ++ st.sh.argv.drop st.sh.argvCapacity := by
  have hleft : LeftToEditor st.sh.ansi.state (chr '\r') := .of_idle hidle (by decide)
  have hfed : (st.modify (·.fed (chr '\r'))).sh.Wf := hwf.fed _
  have hbyte : shInput env st [chr '\r'] = handleEnter env (st.modify (·.fed (chr '\r'))) := by
    rw [shInput_singleton]
    exact shInputByte_left env hleft (by decide)
  have hargv := shExecuteLine_argv env (enterLine env (st.modify (·.fed (chr '\r')))) hfed
    hsecure h hcapacity
  have hline := shExecuteLine_line env (enterLine env (st.modify (·.fed (chr '\r'))))
    st.sh.execText
  have hsetup := (Steps.edit (EditSteps.exec (shExecuteLine_steps env
    (enterLine env (st.modify (·.fed (chr '\r')))) st.sh.execText))).sameSetup
  have hexecText : (st.modify (·.fed (chr '\r'))).sh.execText = st.sh.execText := rfl
  dsimp only
  rw [hbyte, handleEnter_eq hfed, hexecText]
  generalize shExecuteLine env (enterLine env (st.modify (·.fed (chr '\r')))) st.sh.execText = e
    at hargv hline hsetup ⊢
  refine ⟨rfl, ?_, rfl, rfl, hargv⟩
  show (if e.1.sh.cfg.secureClearEnabled then
    Mem.fill e.1.sh.line 0 0 e.1.sh.lineCapacity else _) = _
  rw [hsetup.cfg, hsetup.lineCapacity, hline, if_pos]
  · exact Mem.fill_zero hwf.line_size
  · exact hsecure

/-- **A submitted secret leaves no trace.** Two reachable systems with an idle decoder differ in
the line only, and both lines are the same sensitive command with payloads of as many tokens.
Enter returns the same in both, the core prints the same, and the two shells are the same
afterwards, but for cells behind the capacity of the line, which the shell does not use.

**Proof sketch.** Both lines dispatch, and the line that goes into the history is the same. From
there on the two shells differ in line and argument vector only, whatever the handler does in both
runs; and these are wiped. -/
theorem enter_secret_eq {st st' : Sys ω} (hreach : Reachable env st) (hreach' : Reachable env st')
    (hdiffer : st'.sh = { st.sh with
      line := st'.sh.line, lineLen := st'.sh.lineLen, cursor := st'.sh.cursor })
    (hidle : st.sh.ansi.state = .idle) (hsecure : st.sh.cfg.secureClearEnabled = true)
    {path payload payload' : List CStr} {n : Cmd}
    (hsecret : SubmitsSecret st.sh st.sh.execText path payload n)
    (hsecret' : SubmitsSecret st'.sh st'.sh.execText path payload' n)
    (hlength : payload'.length = payload.length)
    (halike : arityAdmits n (payload.length + 1) = true →
      HandlerAlike env n (recordLine env (enterLine env st) st.sh.execText (path ++ payload))
        (recordLine env (enterLine env st') st'.sh.execText (path ++ payload'))
        ((path ++ payload).drop (path.length - 1)) ((path ++ payload').drop (path.length - 1))) :
    (shInput env st' [chr '\r']).2 = (shInput env st [chr '\r']).2 ∧
      (∃ texts, PrintedSince st (shInput env st [chr '\r']).1 texts ∧
        PrintedSince st' (shInput env st' [chr '\r']).1 texts) ∧
      (shInput env st [chr '\r']).1.sh.line = st.sh.wipedLine ∧
      (shInput env st' [chr '\r']).1.sh =
        { (shInput env st [chr '\r']).1.sh with line := st'.sh.wipedLine } := by
  have hfit := hreach.wf.execText_fits
  have hfit' := hreach'.wf.execText_fits
  have hidle' : st'.sh.ansi.state = .idle := by rw [hdiffer]; exact hidle
  have hsecure' : st'.sh.cfg.secureClearEnabled = true := by rw [hdiffer]; exact hsecure
  have hafter := shInput_enter env hreach.wf hidle hsecure
    (hsecret.lineArgv_eq hfit.1 hfit.2) hsecret.length_le
  have hafter' := shInput_enter env hreach'.wf hidle' hsecure'
    (hsecret'.lineArgv_eq hfit'.1 hfit'.2) hsecret'.length_le
  dsimp only at hafter hafter'
  obtain ⟨hr, hline, hlen, hcursor, hargv⟩ := hafter
  obtain ⟨hr', hline', hlen', hcursor', hargv'⟩ := hafter'
  -- up to the execution the two runs differ in the line only
  have hshell : st.sh.SameButInput st'.sh :=
    ⟨st'.sh.line, st'.sh.lineLen, st'.sh.cursor, st.sh.argv, hdiffer⟩
  have hbefore : SameButInput st st' (enterLine env (st.modify (·.fed (chr '\r'))))
      (enterLine env (st'.modify (·.fed (chr '\r')))) := by
    refine ⟨?_, [(str "\r\n").bytes], ?_, ?_⟩
    · exact hshell.update (f := fun s => s.fed (chr '\r')) fun _ _ _ _ _ => rfl
    all_goals
      show coreOutput _ = _
      unfold coreOutput
      rw [show (enterLine env _).trace = (_ ++ [Event.enter]) ++ [Event.write _] from rfl,
        List.append_assoc, List.filterMap_append]
      rfl
  have hfed : ∀ (st : Sys ω) (line : CStr) (argv : List CStr),
      Alike id (recordLine env (enterLine env st) line argv)
        (recordLine env (enterLine env (st.modify (·.fed (chr '\r')))) line argv) := by
    intro st line argv
    have henter : Alike id (enterLine env st) (enterLine env (st.modify (·.fed (chr '\r')))) :=
      ⟨rfl, rfl⟩
    exact henter.recordLine line argv
  have hcall := fun harity => (halike harity).congr (hfed _ _ _) (hfed _ _ _)
  obtain ⟨hexec, hstatus⟩ := hbefore.shExecuteLine (hreach.registered.frame ⟨rfl, rfl, rfl⟩)
    (hsecret.frame ⟨rfl, rfl, rfl⟩ rfl) (hsecret'.frame ⟨rfl, rfl, rfl⟩ rfl)
    hlength hfit hfit' hcall
  generalize shExecuteLine env (enterLine env (st.modify (·.fed (chr '\r')))) st.sh.execText = e
    at hr hexec hstatus
  generalize shExecuteLine env (enterLine env (st'.modify (·.fed (chr '\r')))) st'.sh.execText = e'
    at hr' hexec hstatus
  have hcfg : e'.1.sh.cfg = e.1.sh.cfg := hexec.shell.field fun _ _ _ _ _ => rfl
  have hempty : SameButInput st st'
      ((touchEraseDraft (touchErase e.1)).modify fun s => s.eraseLine.eraseDraft)
      ((touchEraseDraft (touchErase e'.1)).modify fun s => s.eraseLine.eraseDraft) :=
    ⟨hexec.shell.erase, hexec.printed⟩
  have hfinish : SameButInput st st' (finishEnter env e.1) (finishEnter env e'.1) := by
    have hprompt : SameButInput st st' (writes env _ _) (writes env _ _) :=
      hempty.writes [e.1.sh.cfg.promptText.bytes]
    rw [← writeInternal_eq, ← writeInternal_eq] at hprompt
    unfold finishEnter shPrompt
    show SameButInput st st' _ (writeInternal env _ e'.1.sh.cfg.promptText)
    rw [hcfg]
    exact hprompt
  rw [hr] at hline hlen hcursor hargv ⊢
  rw [hr'] at hline' hlen' hcursor' hargv' ⊢
  refine ⟨hstatus, hfinish.printed, hline, ?_⟩
  have hsize : st'.sh.argvCapacity = st.sh.argvCapacity := by rw [hdiffer]
  have hargvs : st'.sh.argv = st.sh.argv := by rw [hdiffer]
  rw [hsize, hargvs] at hargv'
  rw [← hline']
  exact hfinish.shell.eq_setLine (hlen'.trans hlen.symm) (hcursor'.trans hcursor.symm)
    (hargv'.trans hargv.symm)

/-- A sensitive command with one argument. -/
def loginCommand : Cmd where
  name := some (str "login")
  usage := some (str "<password>")
  help := some (str "Log in")
  handler := some 9
  subcommands := .null 0
  flags := 1
  minArgs := 2
  maxArgs := 2
  userCtx := none
  completion := none

/-- A handler that writes down the secret. -/
def loginEnv : Env (List Byte) where
  output := fun _ _ io data => io ++ data
  transport := fun _ => ⟨none, none⟩
  shouldMaskArg := fun _ _ _ _ _ => false
  handler := fun _ _ _ argv _ => ([.write (argv.flatMap CStr.bytes)], Status.ok)
  completion := fun _ _ _ _ _ _ => ([], none)

/-- The command is registered and a line typed. -/
def loginSys (line : CStr) : Sys (List Byte) :=
  run loginEnv ⟨smallShell, [], [], []⟩
    [.api (.registerCommands (.array [loginCommand])), .input line.bytes]

/-- Such a system is reachable. -/
theorem loginSys_reachable (line : CStr) : Reachable loginEnv (loginSys line) :=
  ⟨some smallConfig, smallStorage, smallShell, [], _, smallStorage_sized, shInit_small, rfl⟩

/-- Logging in with two passwords of different length. -/
theorem enter_secret_eq_login :
    let st := loginSys (str "login a")
    let st' := loginSys (str "login bcd")
    (shInput loginEnv st' [chr '\r']).2 = (shInput loginEnv st [chr '\r']).2 ∧
      (∃ texts, PrintedSince st (shInput loginEnv st [chr '\r']).1 texts ∧
        PrintedSince st' (shInput loginEnv st' [chr '\r']).1 texts) ∧
      (shInput loginEnv st [chr '\r']).1.sh.line = st.sh.wipedLine ∧
      (shInput loginEnv st' [chr '\r']).1.sh =
        { (shInput loginEnv st [chr '\r']).1.sh with line := st'.sh.wipedLine } := by
  have hpath : ∀ {roots : List Cmd}, roots = [loginCommand] →
      IsPath roots [str "login"] loginCommand := by
    rintro roots rfl
    exact .single List.mem_cons_self rfl
  refine enter_secret_eq (n := loginCommand) (loginSys_reachable _) (loginSys_reachable _)
    rfl rfl rfl
    (?_ : SubmitsSecret _ _ [str "login"] [str "a"] _)
    (?_ : SubmitsSecret _ _ [str "login"] [str "bcd"] _) rfl ?_
  · exact ⟨by decide +kernel, by decide +kernel, hpath rfl, rfl, rfl, by simp, by decide +kernel⟩
  · exact ⟨by decide +kernel, by decide +kernel, hpath rfl, rfl, rfl, by simp, by decide +kernel⟩
  · intro _ fn _
    exact ⟨rfl, .inr ⟨.inl (by simp [loginEnv]), .cons (.write _ _) .nil⟩⟩

end PortableShell
