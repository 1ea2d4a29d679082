import PortableShell.Invariant
import PortableShell.Trace

set_option relaxedAutoImplicit false
set_option autoImplicit false

/-!
# Dispatch

Which handler a dispatch runs. The registry is a forest of names; validation makes the names of
siblings different, so that an argument vector has one longest prefix that is a path of names,
and `sh_resolve_command_internal` finds the node at its end.

## Main definitions

* `PortableShell.IsPath` — a list of names leads to a command.
* `PortableShell.LongestPath` — the longest prefix of an argument vector that is such a path.
* `PortableShell.Invokes` — the conditions under which an argument vector runs a handler.
* `PortableShell.handlerCalls` — the handler calls of a trace.

## Main results

* `PortableShell.IsPath.resolve` — the resolution walks along every path of names.
* `PortableShell.Invokes.plan_eq`, `PortableShell.invokes_of_plan` — a dispatch comes to a handler
  call exactly when `Invokes` holds.
* `PortableShell.shExecuteArgv_invokes` — which handler `sh_execute_argv` runs, and how.
-/

namespace PortableShell

variable {ω : Type}

/-! ## The registry of a running shell -/

/-- Whether a registry was accepted depends on the registry only. -/
theorem Registered.frame {s s' : Shell} (h : Registered s) (hs : SameRegistry s s') :
    Registered s' := by
  obtain ⟨hcfg, hcommands, hsets⟩ := hs
  cases h with
  | commands l accepted commands sets =>
    refine .commands l ?_ (hcommands.trans commands) (hsets.trans sets)
    rw [shRegisterCommands_ok_iff] at accepted ⊢
    rwa [hcfg]
  | commandSets l accepted commands sets =>
    refine .commandSets l ?_ (hcommands.trans commands) (hsets.trans sets)
    rw [shRegisterCommandSets_snd_ok_iff] at accepted ⊢
    rwa [hcfg]

/-- An accepted table is the registry from then on. -/
private theorem registered_shRegisterCommands {s : Shell} (h : Registered s) (l : CArray Cmd) :
    Registered (shRegisterCommands s l).1 := by
  rcases shRegisterCommands_cases s l with hc | ⟨e, -, hc⟩
  · rw [hc]
    refine .commands l ?_ rfl rfl
    have hok : (shRegisterCommands s l).2 = Status.ok := by rw [hc]
    rw [shRegisterCommands_ok_iff] at hok ⊢
    exact hok
  · rw [hc]
    exact h

/-- Accepted sets are the registry from then on. -/
private theorem registered_shRegisterCommandSets {s : Shell} (h : Registered s)
    (l : CArray CommandSet) :
    Registered (shRegisterCommandSets s l).1 := by
  rcases shRegisterCommandSets_cases s l with hc | ⟨e, -, hc⟩
  · rw [hc]
    refine .commandSets l ?_ rfl rfl
    have hok : (shRegisterCommandSets s l).2 = Status.ok := by rw [hc]
    rw [shRegisterCommandSets_snd_ok_iff] at hok ⊢
    exact hok
  · rw [hc]
    exact h

/-- An update of an execution leaves the registry alone, unless it registers commands. -/
theorem ExecStep.registered {s s' : Shell} (hstep : ExecStep s s') (h : Registered s) :
    Registered s' := by
  cases hstep with
  | app ha =>
    cases ha with
    | clear => exact h.frame ⟨rfl, rfl, rfl⟩
    | echo enabled => exact h.frame ⟨rfl, rfl, rfl⟩
    | commands l => exact registered_shRegisterCommands h l
    | commandSets l => exact registered_shRegisterCommandSets h l
    | started b => exact h.frame ⟨rfl, rfl, rfl⟩
    | stopped => exact h.frame ⟨rfl, rfl, rfl⟩
  | store line _ _ _ _ => exact h.frame ⟨rfl, rfl, rfl⟩
  | argv texts => exact h.frame ⟨rfl, rfl, rfl⟩
  | wipeArgv =>
    rw [Shell.wipeArgv]
    split_ifs
    · exact h.frame ⟨rfl, rfl, rfl⟩
    · exact h

/-- An update of an editing byte leaves the registry alone, unless it registers commands. -/
theorem EditStep.registered {s s' : Shell} (hstep : EditStep s s') (h : Registered s) :
    Registered s' := by
  cases hstep with
  | exec he => exact he.registered h
  | resetAnsi => exact h.frame ⟨rfl, rfl, rfl⟩
  | walk direction _ =>
    rw [Shell.walk]
    split_ifs <;> exact h.frame ⟨rfl, rfl, rfl⟩
  | insert _ _ => exact h.frame ⟨rfl, rfl, rfl⟩
  | backspace _ => exact h.frame ⟨rfl, rfl, rfl⟩
  | delete _ => exact h.frame ⟨rfl, rfl, rfl⟩
  | word => exact h.frame ⟨rfl, rfl, rfl⟩
  | eraseLine => exact h.frame ⟨rfl, rfl, rfl⟩
  | eraseDraft => exact h.frame ⟨rfl, rfl, rfl⟩
  | wipeDraft =>
    rw [Shell.wipeDraft]
    split_ifs
    · exact h.frame ⟨rfl, rfl, rfl⟩
    · exact h
  | cursor _ => exact h.frame ⟨rfl, rfl, rfl⟩
  | replace _ _ _ _ _ => exact h.frame ⟨rfl, rfl, rfl⟩

/-- An elementary step leaves the registry alone, unless it registers commands. -/
theorem Step.registered {s s' : Shell} (hstep : Step s s') (h : Registered s) : Registered s' := by
  cases hstep with
  | edit he => exact he.registered h
  | lastCr b => exact h.frame ⟨rfl, rfl, rfl⟩
  | feed byte => exact h.frame ⟨rfl, rfl, rfl⟩

/-- The registry of a reachable shell was accepted. A fresh shell has an empty one. -/
theorem Reachable.registered {env : Env ω} {st : Sys ω} (h : Reachable env st) :
    Registered st.sh := by
  obtain ⟨cfg, storage, s, io, ops, -, hinit, rfl⟩ := h
  refine keeps_of_steps (T := Step) (fun _ _ hstep hs => hstep.registered hs)
      (run_steps env _ ops) ?_
  obtain ⟨rfl, -⟩ := shInit_eq_ok hinit
  exact .commands (.array []) rfl rfl rfl

/-! ## Paths of names -/

/-- The names lead from a level to a command, one level down each. -/
inductive IsPath : List Cmd → List CStr → Cmd → Prop
  | single {level : List Cmd} {cmd : Cmd} {name : CStr} (hmem : cmd ∈ level)
      (hname : cmd.name = some name) : IsPath level [name] cmd
  | cons {level : List Cmd} {cmd n : Cmd} {name : CStr} {path : List CStr} (hmem : cmd ∈ level)
      (hname : cmd.name = some name) (hpath : IsPath cmd.subcommands.cells path n) :
      IsPath level (name :: path) n

/-- The command that a path leads to bears its last name. -/
private theorem IsPath.getLast {level : List Cmd} {path : List CStr} {n : Cmd}
    (h : IsPath level path n) :
    ∃ front name, path = front ++ [name] ∧ n.name = some name := by
  induction h with
  | single _ hname => exact ⟨[], _, rfl, hname⟩
  | cons _ _ _ ih =>
    obtain ⟨front, name, rfl, hn⟩ := ih
    exact ⟨_ :: front, name, rfl, hn⟩

/-- A path has a first name, which some command of the level bears. -/
theorem IsPath.head {level : List Cmd} {path : List CStr} {n : Cmd} (h : IsPath level path n) :
    ∃ name rest cmd, path = name :: rest ∧ cmd ∈ level ∧ cmd.name = some name := by
  cases h with
  | single hmem hname => exact ⟨_, [], _, rfl, hmem, hname⟩
  | cons hmem hname _ => exact ⟨_, _, _, rfl, hmem, hname⟩

/-- The commands of a valid level are told apart by their names. -/
private theorem findChild_of_validateCommands {b root : Bool} {f : CArray Cmd → Status}
    {level : List Cmd}
    (h : validateCommands b root f level = Status.ok) {cmd : Cmd} {name : CStr} (hmem : cmd ∈ level)
    (hname : cmd.name = some name) : findChild level name = some cmd := by
  induction level with
  | nil => exact absurd hmem List.not_mem_nil
  | cons c level ih =>
    obtain ⟨-, hdistinct, hrest⟩ := validateCommands_cons_iff.mp h
    rw [findChild, List.find?_cons]
    rcases List.mem_cons.mp hmem with rfl | hmem
    · simp [hname]
    · have hne : c.name ≠ some name := by
        intro hc
        exact hdistinct cmd hmem (hname.trans hc.symm)
      simp only [hne, decide_false]
      exact ih hrest hmem

/-- A valid level, one level of recursion unfolded. -/
private theorem levelValid_succ {b root : Bool} {levels : ℕ} {level : List Cmd} :
    LevelValid b (levels + 1) root level ↔ validateCommands b root
      (fun sub => validateCommandLevel b levels sub false) level = Status.ok := by
  simp [LevelValid, validateCommandLevel, CArray.isNull, CArray.cells]

/-- No level is valid that lies too deep. -/
theorem not_levelValid_zero {b root : Bool} {level : List Cmd} : ¬LevelValid b 0 root level := by
  simp [LevelValid, validateCommandLevel, Status.errInvalidConfig, Status.ok]

/-- A command of a valid level passes the checks on a single command, and its children are none
or a valid level. -/
theorem LevelValid.command {b root : Bool} {levels : ℕ} {level : List Cmd}
    (h : LevelValid b (levels + 1) root level) {cmd : Cmd} (hmem : cmd ∈ level) :
    commandRejected b root cmd = false ∧
      (cmd.subcommands.cells = [] ∨ LevelValid b levels false cmd.subcommands.cells) := by
  rw [levelValid_succ] at h
  induction level with
  | nil => exact absurd hmem List.not_mem_nil
  | cons c level ih =>
    obtain ⟨⟨hc, hchildren⟩, -, hrest⟩ := validateCommands_cons_iff.mp h
    rcases List.mem_cons.mp hmem with rfl | hmem
    · refine ⟨hc, ?_⟩
      cases hsub : cmd.subcommands with
      | null n => exact .inl rfl
      | array l =>
        rw [hsub] at hchildren
        by_cases hl : l.length = 0
        · exact .inl (List.length_eq_zero_iff.mp hl)
        · exact .inr (hchildren hl)
    · exact ih hrest hmem

/-- The lookup in a valid level. -/
private theorem LevelValid.findChild_eq {b root : Bool} {levels : ℕ} {level : List Cmd}
    (h : LevelValid b levels root level) {cmd : Cmd} {name : CStr} (hmem : cmd ∈ level)
    (hname : cmd.name = some name) : findChild level name = some cmd := by
  cases levels with
  | zero => exact absurd h not_levelValid_zero
  | succ levels => exact findChild_of_validateCommands (levelValid_succ.mp h) hmem hname

/-- **The resolution walks along every path of names** and goes on below its end.

**Proof sketch.** Induction on the path. On a valid level a name is found at one command only, so
`resolveLoop` steps to the node on the path and goes on in its table. -/
theorem IsPath.resolve {level : List Cmd} {path : List CStr} {n : Cmd} (h : IsPath level path n)
    {b root : Bool} {levels : ℕ} (hv : LevelValid b levels root level) (r : Resolved) :
    ∃ text, ∀ rest, resolveLoop (findChild level) r (path ++ rest) =
      resolveLoop (findChild n.subcommands.cells)
        ⟨some n, r.consumed + path.length, text⟩ rest := by
  induction h generalizing root levels r with
  | @single level cmd name hmem hname =>
    refine ⟨appendPath r.path name, fun rest => ?_⟩
    rw [List.singleton_append, resolveLoop, hv.findChild_eq hmem hname]
    rfl
  | @cons level cmd n name path hmem hname hpath ih =>
    cases levels with
    | zero => exact absurd hv not_levelValid_zero
    | succ levels =>
      rcases (hv.command hmem).2 with hnil | hchild
      · rw [hnil] at hpath
        obtain ⟨_, _, c, -, hc, -⟩ := hpath.head
        exact absurd hc List.not_mem_nil
      · obtain ⟨text, htext⟩ := ih hchild ⟨some cmd, r.consumed + 1, appendPath r.path name⟩
        refine ⟨text, fun rest => ?_⟩
        have hlen : r.consumed + (name :: path).length = r.consumed + 1 + path.length := by
          simp only [List.length_cons]
          omega
        rw [List.cons_append, resolveLoop, hv.findChild_eq hmem hname, hlen]
        exact htext rest

/-- The resolution consumes names one by one. -/
theorem le_consumed_resolveLoop (argv : List CStr) (find : CStr → Option Cmd) (r : Resolved) :
    r.consumed ≤ (resolveLoop find r argv).consumed := by
  induction argv generalizing find r with
  | nil => exact le_rfl
  | cons name argv ih =>
    rw [resolveLoop]
    cases find name with
    | none => exact le_rfl
    | some next =>
      have h := ih (findChild next.subcommands.cells)
        ⟨some next, r.consumed + 1, appendPath r.path name⟩
      exact (Nat.le_succ _).trans h

/-- What the resolution finds: either the first name is unknown, or the names consumed are a path
to the command found. -/
theorem resolveLoop_cases (argv : List CStr) (level : List Cmd) (r : Resolved) :
    resolveLoop (findChild level) r argv = r ∨
      ∃ path rest n, argv = path ++ rest ∧ IsPath level path n ∧
        (resolveLoop (findChild level) r argv).cmd = some n ∧
        (resolveLoop (findChild level) r argv).consumed = r.consumed + path.length := by
  induction argv generalizing level r with
  | nil => exact .inl rfl
  | cons name argv ih =>
    rw [resolveLoop]
    cases hfind : findChild level name with
    | none => exact .inl rfl
    | some next =>
      refine .inr ?_
      have hmem : next ∈ level := List.mem_of_find?_eq_some hfind
      have hname : next.name = some name := by
        simpa using List.find?_some hfind
      dsimp only
      rcases ih next.subcommands.cells ⟨some next, r.consumed + 1, appendPath r.path name⟩ with
        heq | ⟨path, rest, n, rfl, hpath, hcmd, hcons⟩
      · exact ⟨[name], argv, next, rfl, .single hmem hname, by rw [heq], by rw [heq]; rfl⟩
      · refine ⟨name :: path, rest, n, rfl, .cons hmem hname hpath, hcmd, ?_⟩
        rw [hcons, List.length_cons]
        dsimp only
        omega

/-! ## The longest path -/

/-- `path` is the longest prefix of `argv` that is a path of names, and leads to `n`. -/
structure LongestPath (level : List Cmd) (argv path : List CStr) (n : Cmd) : Prop where
  isPath : IsPath level path n
  isPrefix : path <+: argv
  longest : ∀ path' n', IsPath level path' n' → path' <+: argv → path'.length ≤ path.length

section Resolve

variable {s : Shell} (hreg : Registered s)

include hreg

/-- The resolution of a vector that starts with a path. -/
theorem resolve_path {path : List CStr} {n : Cmd} (h : IsPath s.roots path n) :
    ∃ text, ∀ rest, shResolveCommandInternal s (path ++ rest) =
      resolveLoop (findChild n.subcommands.cells) ⟨some n, path.length, text⟩ rest := by
  have hroot : findRoot s = findChild s.roots := funext (findRoot_eq s)
  obtain ⟨text, htext⟩ := h.resolve hreg.valid ⟨none, 0, CStr.empty⟩
  refine ⟨text, fun rest => ?_⟩
  rw [shResolveCommandInternal, hroot, htext]
  simp

/-- The resolution of a vector that starts with the path of a leaf ends at the leaf. -/
theorem resolve_leaf {path : List CStr} {n : Cmd} (h : IsPath s.roots path n)
    (hleaf : n.subcommands.cells = []) :
    ∃ text, ∀ rest, shResolveCommandInternal s (path ++ rest) = ⟨some n, path.length, text⟩ := by
  obtain ⟨text, htext⟩ := resolve_path hreg h
  refine ⟨text, fun rest => ?_⟩
  rw [htext, hleaf]
  cases rest <;> rfl

/-- The number of names consumed is at least the length of every path in front. -/
private theorem length_le_consumed {path argv : List CStr} {n : Cmd} (h : IsPath s.roots path n)
    (hpath : path <+: argv) : path.length ≤ (shResolveCommandInternal s argv).consumed := by
  obtain ⟨rest, rfl⟩ := hpath
  obtain ⟨text, htext⟩ := resolve_path hreg h
  rw [htext]
  exact le_consumed_resolveLoop rest (findChild n.subcommands.cells) ⟨some n, path.length, text⟩

/-- **The resolution finds the longest path.**

**Proof sketch.** By `resolveLoop_cases` the resolution ends at some path of names or nowhere. No
path that the arguments begin with is longer than what is consumed, so this is the longest one, and
one path ends at one command. -/
theorem longestPath_iff (argv path : List CStr) (n : Cmd) :
    LongestPath s.roots argv path n ↔
      (shResolveCommandInternal s argv).cmd = some n ∧
        path = argv.take (shResolveCommandInternal s argv).consumed := by
  have hroot : findRoot s = findChild s.roots := funext (findRoot_eq s)
  have hcases := resolveLoop_cases argv s.roots ⟨none, 0, CStr.empty⟩
  rw [← hroot] at hcases
  change shResolveCommandInternal s argv = _ ∨ _ at hcases
  rcases hcases with heq | ⟨path₀, rest, n₀, hargv, hpath₀, hcmd, hcons⟩
  · constructor
    · intro h
      have hle := length_le_consumed hreg h.isPath h.isPrefix
      obtain ⟨name, tail, c, hp, -, -⟩ := h.isPath.head
      rw [heq, hp] at hle
      exact absurd hle (by simp)
    · rintro ⟨hc, -⟩
      rw [heq] at hc
      cases hc
  · change (shResolveCommandInternal s argv).cmd = some n₀ at hcmd
    change (shResolveCommandInternal s argv).consumed = 0 + path₀.length at hcons
    rw [hcmd, hcons, Nat.zero_add]
    have htake : argv.take path₀.length = path₀ := by rw [hargv, List.take_left]
    rw [htake]
    have hle₀ : ∀ path' n', IsPath s.roots path' n' → path' <+: argv →
        path'.length ≤ path₀.length := by
      intro path' n' h' hp'
      have hle := length_le_consumed hreg h' hp'
      rwa [hcons, Nat.zero_add] at hle
    have hlead₀ : path₀ <+: argv := ⟨rest, hargv.symm⟩
    constructor
    · intro h
      have hlen : path.length = path₀.length :=
        Nat.le_antisymm (hle₀ path n h.isPath h.isPrefix) (h.longest path₀ n₀ hpath₀ hlead₀)
      have hp : path = path₀ := by
        obtain ⟨t, ht⟩ := h.isPrefix
        rw [← htake, ← hlen, ← ht, List.take_left]
      subst hp
      -- two commands at the end of one path are the same
      obtain ⟨text, htext⟩ := resolve_path hreg h.isPath
      obtain ⟨text₀, htext₀⟩ := resolve_path hreg hpath₀
      have hsame := (htext []).symm.trans (htext₀ [])
      exact ⟨(congrArg Resolved.cmd hsame).symm, rfl⟩
    · rintro ⟨hc, rfl⟩
      rw [← Option.some.inj hc]
      exact ⟨hpath₀, hlead₀, hle₀⟩

end Resolve

/-! ## Which handler runs -/

/-- The conditions under which an argument vector runs the handler `fn`: the longest path leads to
a leaf `n` with this handler, the tokens `rest` behind it do not ask for help, and their number
fits the arity of `n`. -/
structure Invokes (s : Shell) (argv path rest : List CStr) (n : Cmd) (fn : Ptr) : Prop where
  split : argv = path ++ rest
  longest : LongestPath s.roots argv path n
  /-- The first argument is not the name of an enabled built-in. -/
  not_builtin : s.cfg.builtinsEnabled = true → ∀ name ∈ argv.head?, name ∉ reservedNames
  leaf : n.subcommands.cells = []
  handler : n.handler = some fn
  not_help : ∀ token ∈ rest.head?, token ≠ str "help" ∧ token ≠ str "--help" ∧ token ≠ str "-h"
  min_le : n.minArgs ≤ rest.length + 1
  le_max : n.maxArgs = shArgsAny ∨ rest.length + 1 ≤ n.maxArgs

/-- A command has subcommands when there are cells in its table. -/
theorem hasSubcommands_eq_false_iff (n : Cmd) :
    n.hasSubcommands = false ↔ n.subcommands.cells = [] := by
  rw [Cmd.hasSubcommands]
  cases n.subcommands with
  | null k => simp [CArray.isNull, CArray.cells]
  | array l => simp [CArray.isNull, CArray.cells, CArray.count]

/-- The first token asks for help or not. -/
private theorem any_isHelpToken_eq_false_iff (rest : List CStr) :
    (rest.head?.any isHelpToken) = false ↔
      ∀ token ∈ rest.head?, token ≠ str "help" ∧ token ≠ str "--help" ∧ token ≠ str "-h" := by
  cases rest with
  | nil => simp
  | cons token rest => simp [isHelpToken, and_assoc]

/-- The arity of a command admits an argument count. -/
private theorem arityAdmits_iff (n : Cmd) (argc : ℕ) :
    arityAdmits n argc = true ↔ n.minArgs ≤ argc ∧ (n.maxArgs = shArgsAny ∨ argc ≤ n.maxArgs) := by
  rw [arityAdmits]
  by_cases hany : n.maxArgs = shArgsAny
  · simp [hany]
  · simp [hany]

/-- The names of the built-ins are those that a dispatch looks for. -/
theorem mem_reservedNames_iff (name : CStr) :
    name ∈ reservedNames ↔
      name = str "clear" ∨ name = str "echo" ∨ name = str "help" ∨ name = str "history" := by
  simp [reservedNames]

/-- A dispatch that is not of a built-in resolves its first arguments. -/
theorem plan_of_not_builtin {s : Shell} {argv : List CStr} (hne : argv ≠ [])
    (h : s.cfg.builtinsEnabled = true → ∀ name ∈ argv.head?, name ∉ reservedNames) {cmd : Cmd}
    (hcmd : (shResolveCommandInternal s argv).cmd = some cmd) :
    plan s argv = commandPlan s argv (shResolveCommandInternal s argv) cmd := by
  cases argv with
  | nil => exact absurd rfl hne
  | cons name args =>
    have hname : ∀ r ∈ reservedNames, ¬(s.cfg.builtinsEnabled = true ∧ name = r) := by
      rintro r hr ⟨hb, rfl⟩
      exact h hb name rfl hr
    have hhelp := hname (str "help") (by simp [mem_reservedNames_iff])
    have hhistory := hname (str "history") (by simp [mem_reservedNames_iff])
    have hecho := hname (str "echo") (by simp [mem_reservedNames_iff])
    have hclear := hname (str "clear") (by simp [mem_reservedNames_iff])
    rw [plan, if_neg hhelp, if_neg hhistory, if_neg hecho, if_neg hclear]
    dsimp only
    rw [hcmd]

/-- Under the conditions of `Invokes` a dispatch comes to a handler call.

**Proof sketch.** The resolution consumes the path and ends at the command, which has no children.
The conditions of `Invokes` then take every branch of `commandPlan` up to the call. -/
theorem Invokes.plan_eq {s : Shell} (hreg : Registered s) {argv path rest : List CStr} {n : Cmd}
    {fn : Ptr} (h : Invokes s argv path rest n fn) :
    ∃ name, n.name = some name ∧ path.getLast? = some name ∧
      plan s argv = .handler fn (name :: rest) (n.userCtx.or s.cfg.userCtx) := by
  obtain ⟨front, name, hpath, hname⟩ := h.longest.isPath.getLast
  refine ⟨name, hname, by simp [hpath], ?_⟩
  obtain ⟨hcmd, htake⟩ := (longestPath_iff hreg argv path n).mp h.longest
  have hne : argv ≠ [] := by
    rw [h.split, hpath]
    simp
  have hcons : (shResolveCommandInternal s argv).consumed = path.length := by
    obtain ⟨text, htext⟩ := resolve_leaf hreg h.longest.isPath h.leaf
    rw [h.split, htext]
  have hdrop : argv.drop (shResolveCommandInternal s argv).consumed = rest := by
    rw [hcons, h.split, List.drop_left]
  have hargv : argv.drop ((shResolveCommandInternal s argv).consumed - 1) = name :: rest := by
    have hfront : (shResolveCommandInternal s argv).consumed - 1 = front.length := by
      rw [hcons, hpath]
      simp
    rw [hfront, h.split, hpath, List.append_assoc, List.drop_left]
    rfl
  have hcount : argv.length - (shResolveCommandInternal s argv).consumed + 1 = rest.length + 1 := by
    rw [hcons, h.split, List.length_append]
    omega
  have hhelp := (any_isHelpToken_eq_false_iff rest).mpr h.not_help
  have hleaf := (hasSubcommands_eq_false_iff n).mpr h.leaf
  have harity := (arityAdmits_iff n (rest.length + 1)).mpr ⟨h.min_le, h.le_max⟩
  rw [plan_of_not_builtin hne h.not_builtin hcmd, commandPlan]
  simp only [hdrop, hargv, hcount, hhelp, hleaf, harity, h.handler, Bool.false_eq_true, and_false,
    if_false, Bool.not_true]

/-- The built-in `help` runs no handler. -/
private theorem helpPlan_ne_handler (s : Shell) (args : List CStr) (fn : Ptr) (argv : List CStr)
    (ctx : Option Ptr) : helpPlan s args ≠ .handler fn argv ctx := by
  rw [helpPlan]
  dsimp only
  split_ifs <;> exact Plan.noConfusion

/-- A dispatch that comes to a handler call meets the conditions of `Invokes`.

**Proof sketch.** Every branch of `plan` but one prints or runs a built-in. On that one the
conditions of the branch are those of `Invokes`, read back through the lemmas of each check. -/
theorem invokes_of_plan {s : Shell} (hreg : Registered s) {argv args : List CStr} {fn : Ptr}
    {ctx : Option Ptr} (h : plan s argv = .handler fn args ctx) :
    ∃ path rest n, Invokes s argv path rest n fn := by
  cases argv with
  | nil => cases h
  | cons name rest =>
    rw [plan] at h
    split_ifs at h with hhelp hhistory hecho hclear
    · exact absurd h (helpPlan_ne_handler s rest fn args ctx)
    · dsimp only at h
      cases hcmd : (shResolveCommandInternal s (name :: rest)).cmd with
      | none =>
        rw [hcmd] at h
        cases h
      | some n =>
        rw [hcmd] at h
        dsimp only at h
        set r := shResolveCommandInternal s (name :: rest) with hr
        have hlong := (longestPath_iff hreg (name :: rest) _ n).mpr ⟨hcmd, rfl⟩
        rw [commandPlan] at h
        cases hfn : n.handler with
        | none =>
          simp only [hfn] at h
          split_ifs at h
        | some fn' =>
          simp only [hfn] at h
          split_ifs at h with h1 h2 h3 h4
          cases h
          have harity : arityAdmits n ((name :: rest).length - r.consumed + 1) = true := by
            simpa using h4
          have hcount : (name :: rest).length - r.consumed =
              ((name :: rest).drop r.consumed).length := by simp
          rw [hcount] at harity
          obtain ⟨hmin, hmax⟩ := (arityAdmits_iff n _).mp harity
          refine ⟨_, (name :: rest).drop r.consumed, n, ⟨?_, hlong, ?_, ?_, hfn, ?_, hmin, hmax⟩⟩
          · exact (List.take_append_drop _ _).symm
          · intro hb t ht
            have hname : name = t := by simpa using ht
            rw [mem_reservedNames_iff, ← hname]
            rintro (h' | h' | h' | h')
            · exact hclear ⟨hb, h'⟩
            · exact hecho ⟨hb, h'⟩
            · exact hhelp ⟨hb, h'⟩
            · exact hhistory ⟨hb, h'⟩
          · exact (hasSubcommands_eq_false_iff n).mp (by simpa using h3)
          · exact (any_isHelpToken_eq_false_iff _).mp (by simpa using h1)

/-- A registered path does not begin with the name of an enabled built-in. -/
theorem IsPath.not_builtin {s : Shell} (hreg : Registered s) {path : List CStr} {n : Cmd}
    (h : IsPath s.roots path n) (rest : List CStr) (hb : s.cfg.builtinsEnabled = true) :
    ∀ name ∈ (path ++ rest).head?, name ∉ reservedNames := by
  intro name hname hreserved
  obtain ⟨first, tail, cmd, hsplit, hmem, hfirst⟩ := h.head
  have hname' : first = name := by
    rw [hsplit] at hname
    simpa using hname
  subst hname'
  have hrej := (hreg.valid.command hmem).1
  have hres : isReservedRootName first = true := by
    simpa [isReservedRootName] using hreserved
  rw [commandRejected, hb, hfirst] at hrej
  simp [hres] at hrej

/-- **No leaf is shadowed or out of reach**: the names that lead to a leaf are its longest path
whatever follows, and no built-in takes their place. -/
theorem invokes_of_isPath {s : Shell} (hreg : Registered s) {path rest : List CStr} {n : Cmd}
    {fn : Ptr} (hpath : IsPath s.roots path n) (hleaf : n.subcommands.cells = [])
    (hfn : n.handler = some fn)
    (hhelp : ∀ token ∈ rest.head?, token ≠ str "help" ∧ token ≠ str "--help" ∧ token ≠ str "-h")
    (hmin : n.minArgs ≤ rest.length + 1)
    (hmax : n.maxArgs = shArgsAny ∨ rest.length + 1 ≤ n.maxArgs) :
    Invokes s (path ++ rest) path rest n fn := by
  refine ⟨rfl, ?_, hpath.not_builtin hreg rest, hleaf, hfn, hhelp, hmin, hmax⟩
  obtain ⟨text, htext⟩ := resolve_leaf hreg hpath hleaf
  refine (longestPath_iff hreg _ _ _).mpr ⟨by rw [htext], ?_⟩
  rw [htext, List.take_left]

/-- The handler call of an event. -/
def handlerCall : Event → Option (Ptr × List CStr × Option Ptr)
  | .handler fn argv ctx => some (fn, argv, ctx)
  | _ => none

/-- Handler calls are not output. -/
theorem handlerCall_ignoresOutput : IgnoresOutput handlerCall := ⟨fun _ => rfl, fun _ => rfl⟩

/-- The handler calls of a run. -/
def handlerCalls (st : Sys ω) : List (Ptr × List CStr × Option Ptr) := st.observe handlerCall

/-- **Dispatch is sound and complete.** An argument vector that meets the conditions of `Invokes`
runs the handler of the command at the end of its longest path, once, with the name of the
command and the tokens behind the path, and returns what the handler returns; any other vector
runs no handler. Every leaf of the registry meets the conditions on its own path.

**Proof sketch.** `dispatch_eq` reduces the dispatch to its plan. `longestPath_iff` identifies the
command resolved with the end of the longest path, by `IsPath.resolve` and the distinct names of a
valid level; the branches of the plan are the conditions of `Invokes`. -/
theorem shExecuteArgv_invokes {env : Env ω} {st : Sys ω} (h : Reachable env st) {argv : List CStr}
    (hcap : argv.length ≤ st.sh.argvCapacity) :
    (∀ path rest n fn, Invokes st.sh argv path rest n fn →
      ∃ name, n.name = some name ∧ path.getLast? = some name ∧
        handlerCalls (shExecuteArgv env st argv).1 = handlerCalls st ++
          [(fn, name :: rest, n.userCtx.or st.sh.cfg.userCtx)] ∧
        (shExecuteArgv env st argv).2 = (env.handler fn (viewOf st.sh) st.io (name :: rest)
          (n.userCtx.or st.sh.cfg.userCtx)).2) ∧
    ((¬∃ path rest n fn, Invokes st.sh argv path rest n fn) →
      handlerCalls (shExecuteArgv env st argv).1 = handlerCalls st) ∧
    ∀ path rest n fn, IsPath st.sh.roots path n → n.subcommands.cells = [] → n.handler = some fn →
      (∀ token ∈ rest.head?, token ≠ str "help" ∧ token ≠ str "--help" ∧ token ≠ str "-h") →
      n.minArgs ≤ rest.length + 1 → (n.maxArgs = shArgsAny ∨ rest.length + 1 ≤ n.maxArgs) →
      Invokes st.sh (path ++ rest) path rest n fn := by
  have hreg := h.registered
  have hle := h.wf.argv_le
  have hexec : shExecuteArgv env st argv = shCommandDispatchInternal env st argv := by
    have hmax : shMaxArgc ≤ intMax := by decide
    rw [shExecuteArgv, if_neg]
    rintro (hgt | hgt) <;> omega
  have hobs := observe_dispatch env handlerCall_ignoresOutput st argv
  rw [hexec]
  refine ⟨fun path rest n fn hinv => ?_, fun hnone => ?_, fun path rest n fn hpath hleaf hfn hhelp
    hmin hmax => invokes_of_isPath hreg hpath hleaf hfn hhelp hmin hmax⟩
  · obtain ⟨name, hname, hlast, hplan⟩ := hinv.plan_eq hreg
    refine ⟨name, hname, hlast, ?_, ?_⟩
    · rw [handlerCalls, hobs, hplan]
      simp [handlerCall, Plan.observed, handlerCalls]
    · rw [dispatch_eq, hplan]
      rfl
  · rw [handlerCalls, hobs]
    cases hplan : plan st.sh argv with
    | handler fn args ctx =>
      obtain ⟨path, rest, n, hinv⟩ := invokes_of_plan hreg hplan
      exact absurd ⟨path, rest, n, fn, hinv⟩ hnone
    | print texts status => simp [handlerCall, Plan.observed, handlerCalls]
    | history => simp [handlerCall, Plan.observed, handlerCalls]
    | echo => simp [handlerCall, Plan.observed, handlerCalls]

/-- A leaf with one payload token runs its handler. -/
theorem shExecuteArgv_invokes_led :
    handlerCalls (shExecuteArgv idleEnv ledSys [str "led", str "on"]).1 =
      [(7, [str "led", str "on"], none)] := by
  obtain ⟨hruns, -, hleaf⟩ := shExecuteArgv_invokes ledSys_reachable
    (show [str "led", str "on"].length ≤ _ by decide)
  have hpath : IsPath ledSys.sh.roots [str "led"] ledCommand :=
    .single (by exact List.mem_singleton.mpr rfl) rfl
  have hinv := hleaf [str "led"] [str "on"] ledCommand 7 hpath rfl rfl (by decide) (by decide)
    (by decide)
  obtain ⟨name, hname, -, hcalls, -⟩ := hruns _ _ _ _ hinv
  rw [hcalls, ← Option.some.inj hname]
  rfl

end PortableShell
