import PortableShell.Types

set_option relaxedAutoImplicit false
set_option autoImplicit false

/-!
# The command registry

Registration and lookup in `sh_command.c`: the validation of a command tree, the two ways of
installing one, and the walk along the longest path of command names.

## Main definitions

* `PortableShell.validateCommandLevel` — `validate_command_level`.
* `PortableShell.shRegisterCommands`, `shRegisterCommandSets` — the registration functions.
* `PortableShell.shResolveCommandInternal` — `sh_resolve_command_internal`.
* `PortableShell.Shell.roots` — the root commands, whichever way they were registered.
* `PortableShell.Registered` — the installed registry was accepted.

## Main results

* `PortableShell.findRoot_eq` — lookup over the sets is lookup in their concatenation.
* `PortableShell.shRegisterCommandSets_ok_iff` — sets are accepted exactly when their
  concatenation is.
* `PortableShell.Registered.valid` — an accepted registry has a valid root level.
-/

namespace PortableShell

/-! ## Validation -/

/-- `is_valid_command_name`. -/
def isValidCommandName (name : Option CStr) : Bool :=
  match name with
  | none => false
  | some name =>
    !name.isEmpty && !name.bytes.any fun c => isspace c || decide (c < 33) || decide (c = 127)

/-- The names of the built-in commands. -/
def reservedNames : List CStr := [str "clear", str "echo", str "help", str "history"]

/-- `is_reserved_root_name`. -/
def isReservedRootName (name : CStr) : Bool := reservedNames.any fun r => name = r

/-- The conditions on one command of a level, apart from its siblings and children. -/
def commandRejected (builtinsEnabled root : Bool) (cmd : Cmd) : Bool :=
  !isValidCommandName cmd.name ||
    (root && builtinsEnabled && cmd.name.any isReservedRootName) ||
    (cmd.subcommands.isNull && decide (cmd.subcommands.count ≠ 0)) ||
    (!cmd.subcommands.isNull && decide (cmd.subcommands.count = 0)) ||
    (cmd.handler.isSome && (decide (cmd.minArgs = 0) ||
      (decide (cmd.maxArgs ≠ shArgsAny) && decide (cmd.minArgs > cmd.maxArgs))))

/-- The loop of `validate_command_level`; `validateChildren` is its recursive call. -/
def validateCommands (builtinsEnabled root : Bool) (validateChildren : CArray Cmd → Status) :
    List Cmd → Status
  | [] => Status.ok
  | cmd :: rest =>
    if commandRejected builtinsEnabled root cmd then Status.errInvalidConfig
    else if rest.any fun other => other.name.isSome && decide (cmd.name = other.name) then
      Status.errInvalidConfig
    else
      let status :=
        if cmd.subcommands.count ≠ 0 then validateChildren cmd.subcommands else Status.ok
      if status ≠ Status.ok then status
      else validateCommands builtinsEnabled root validateChildren rest

/-- `validate_command_level`. The depth is given by the number of levels that are still allowed,
`SH_MAX_CMD_DEPTH + 1 - depth`. -/
def validateCommandLevel (builtinsEnabled : Bool) : ℕ → CArray Cmd → Bool → Status
  | 0, _, _ => Status.errInvalidConfig
  | levels + 1, commands, root =>
    if commands.count ≠ 0 ∧ commands.isNull then Status.errInvalidConfig
    else
      validateCommands builtinsEnabled root
        (fun subcommands => validateCommandLevel builtinsEnabled levels subcommands false)
        commands.cells

/-! ## Registration -/

/-- Install a flat table. -/
def Shell.setCommands (s : Shell) (commands : List Cmd) : Shell :=
  { s with commands := commands, commandSets := none }

/-- Install command sets. -/
def Shell.setCommandSets (s : Shell) (sets : CArray CommandSet) : Shell :=
  { s with commands := [], commandSets := if sets.isNull then none else some sets.cells }

/-- `sh_register_commands`. -/
def shRegisterCommands (s : Shell) (commands : CArray Cmd) : Shell × Status :=
  if commands.isNull ∧ commands.count ≠ 0 then (s, Status.errInvalidArg)
  else
    let status := validateCommandLevel s.cfg.builtinsEnabled shMaxCmdDepth commands true
    if status ≠ Status.ok then (s, status) else (s.setCommands commands.cells, Status.ok)

/-- Whether a table is accepted depends on the configuration only. -/
theorem shRegisterCommands_status_eq {s s' : Shell} (h : s'.cfg = s.cfg) (commands : CArray Cmd) :
    (shRegisterCommands s' commands).2 = (shRegisterCommands s commands).2 := by
  unfold shRegisterCommands
  rw [h]
  dsimp only
  split_ifs <;> rfl

/-- The first loop of `sh_register_command_sets`: every set is a valid root level. -/
def validateSets (builtinsEnabled : Bool) : List CommandSet → Status
  | [] => Status.ok
  | set :: rest =>
    let status := validateCommandLevel builtinsEnabled shMaxCmdDepth set.commands true
    if status ≠ Status.ok then status else validateSets builtinsEnabled rest

/-- The nested loops of `sh_register_command_sets`: whether two sets share a root name. -/
def setsShareName : List CommandSet → Bool
  | [] => false
  | set :: rest =>
    (rest.any fun other => set.commands.cells.any fun a =>
      other.commands.cells.any fun b => decide (a.name = b.name)) || setsShareName rest

/-- `sh_register_command_sets`. -/
def shRegisterCommandSets (s : Shell) (sets : CArray CommandSet) : Shell × Status :=
  if sets.isNull ∧ sets.count ≠ 0 then (s, Status.errInvalidArg)
  else
    let status := validateSets s.cfg.builtinsEnabled sets.cells
    if status ≠ Status.ok then (s, status)
    else if setsShareName sets.cells then (s, Status.errInvalidConfig)
    else (s.setCommandSets sets, Status.ok)

/-- Whether sets are accepted depends on the configuration only. -/
theorem shRegisterCommandSets_status_eq {s s' : Shell} (h : s'.cfg = s.cfg)
    (sets : CArray CommandSet) :
    (shRegisterCommandSets s' sets).2 = (shRegisterCommandSets s sets).2 := by
  unfold shRegisterCommandSets
  rw [h]
  dsimp only
  split_ifs <;> rfl

/-! ## Lookup -/

/-- `find_child`. The function `find_exact_in` of the completion has the same body. -/
def findChild (commands : List Cmd) (name : CStr) : Option Cmd :=
  commands.find? fun cmd => cmd.name = some name

/-- The root step of `sh_resolve_command_internal`: the sets in order, or the flat table. -/
def findRoot (s : Shell) (name : CStr) : Option Cmd :=
  match s.commandSets with
  | some sets => sets.findSome? fun set => findChild set.commands.cells name
  | none => findChild s.commands name

/-- What `sh_resolve_command_internal` returns: the command, `*consumed` and the path. -/
structure Resolved where
  cmd : Option Cmd
  consumed : ℕ
  path : CStr

/-- The size of the path buffer that every caller of `sh_resolve_command_internal` passes. -/
def pathSize : ℕ := 128

/-- The `snprintf` that appends a name to the path. -/
def appendPath (path name : CStr) : CStr :=
  ((if path.isEmpty then path else path.append (str " ")).append name).take (pathSize - 1)

/-- The loop of `sh_resolve_command_internal`; `find` looks up a name in the current level. -/
def resolveLoop (find : CStr → Option Cmd) (r : Resolved) : List CStr → Resolved
  | [] => r
  | name :: argv =>
    match find name with
    | none => r
    | some next =>
      resolveLoop (findChild next.subcommands.cells)
        ⟨some next, r.consumed + 1, appendPath r.path name⟩ argv

/-- `sh_resolve_command_internal`. -/
def shResolveCommandInternal (s : Shell) (argv : List CStr) : Resolved :=
  resolveLoop (findRoot s) ⟨none, 0, CStr.empty⟩ argv

/-! ## The root level -/

/-- The root commands of a list of sets, in order. -/
def rootsOf (sets : List CommandSet) : List Cmd := sets.flatMap fun set => set.commands.cells

/-- The root commands, whichever way they were registered. -/
def Shell.roots (s : Shell) : List Cmd :=
  match s.commandSets with
  | some sets => rootsOf sets
  | none => s.commands

/-- Looking a name up set by set is looking it up in the concatenation. -/
theorem findRoot_eq (s : Shell) (name : CStr) : findRoot s name = findChild s.roots name := by
  rw [findRoot, Shell.roots]
  cases s.commandSets with
  | none => rfl
  | some sets =>
    dsimp only
    induction sets with
    | nil => rfl
    | cons set sets ih =>
      have hcons : findChild (rootsOf (set :: sets)) name =
          (findChild set.commands.cells name).or (findChild (rootsOf sets) name) := by
        rw [rootsOf, List.flatMap_cons, ← rootsOf]
        exact List.find?_append
      rw [List.findSome?_cons, ih, hcons]
      cases findChild set.commands.cells name <;> rfl

/-- A valid level has no two commands of one name: the later siblings of a command have other
names.

**Proof sketch.** The command itself is checked first, then its siblings for the same name, then its
children and the rest of the level. A command that is not rejected has a name, so the check for the
same name is about names alone. -/
theorem validateCommands_cons_iff {b root : Bool} {f : CArray Cmd → Status} {cmd : Cmd}
    {rest : List Cmd} :
    validateCommands b root f (cmd :: rest) = Status.ok ↔
      (commandRejected b root cmd = false ∧
        (cmd.subcommands.count ≠ 0 → f cmd.subcommands = Status.ok)) ∧
      (∀ other ∈ rest, other.name ≠ cmd.name) ∧ validateCommands b root f rest = Status.ok := by
  have hne : Status.errInvalidConfig ≠ Status.ok := by decide
  rw [validateCommands]
  by_cases hr : commandRejected b root cmd = true
  · rw [if_pos hr]
    simp [hne, hr]
  · rw [if_neg hr]
    have hr' : commandRejected b root cmd = false := by simpa using hr
    have hname : cmd.name.isSome := by
      rw [commandRejected] at hr'
      cases hn : cmd.name with
      | none => simp [hn, isValidCommandName] at hr'
      | some _ => rfl
    have hdup : (rest.any fun other => other.name.isSome && decide (cmd.name = other.name)) = true ↔
        ¬∀ other ∈ rest, other.name ≠ cmd.name := by
      simp only [List.any_eq_true, Bool.and_eq_true, decide_eq_true_eq, not_forall, ne_eq,
        Decidable.not_not]
      constructor
      · rintro ⟨other, ho, -, he⟩
        exact ⟨other, ho, he.symm⟩
      · rintro ⟨other, ho, he⟩
        exact ⟨other, ho, by rw [he]; exact hname, he.symm⟩
    by_cases hd : ∀ other ∈ rest, other.name ≠ cmd.name
    · rw [if_neg (fun h => hdup.mp h hd)]
      by_cases hc : cmd.subcommands.count ≠ 0
      · dsimp only
        rw [if_pos hc]
        by_cases hf : f cmd.subcommands = Status.ok
        · rw [if_neg (not_not.mpr hf)]
          exact ⟨fun h => ⟨⟨hr', fun _ => hf⟩, hd, h⟩, fun h => h.2.2⟩
        · rw [if_pos hf]
          exact ⟨fun h => absurd h hf, fun h => h.1.2 hc⟩
      · dsimp only
        rw [if_neg hc, if_neg (not_not.mpr rfl)]
        exact ⟨fun h => ⟨⟨hr', fun h' => absurd h' hc⟩, hd, h⟩, fun h => h.2.2⟩
    · rw [if_pos (hdup.mpr hd)]
      exact ⟨fun h => absurd h hne, fun h => absurd h.2.1 hd⟩

/-- Two levels in sequence form a valid level when both are valid and share no name. -/
private theorem validateCommands_append_iff {b root : Bool} {f : CArray Cmd → Status}
    {l₁ l₂ : List Cmd} :
    validateCommands b root f (l₁ ++ l₂) = Status.ok ↔
      validateCommands b root f l₁ = Status.ok ∧ validateCommands b root f l₂ = Status.ok ∧
        ∀ c₁ ∈ l₁, ∀ c₂ ∈ l₂, c₁.name ≠ c₂.name := by
  induction l₁ with
  | nil => simp [validateCommands]
  | cons c l₁ ih =>
    rw [List.cons_append, validateCommands_cons_iff, validateCommands_cons_iff, ih]
    simp only [List.mem_append, List.mem_cons, or_imp, forall_and, forall_eq, ne_eq]
    constructor
    · rintro ⟨hc, ⟨h₁, h₂⟩, hv₁, hv₂, hd⟩
      exact ⟨⟨hc, h₁, hv₁⟩, hv₂, fun x hx h => h₂ x hx h.symm, hd⟩
    · rintro ⟨⟨hc, h₁, hv₁⟩, hv₂, h₂, hd⟩
      exact ⟨hc, ⟨h₁, fun x hx h => h₂ x hx h.symm⟩, hv₁, hv₂, hd⟩

/-- A level of commands is valid at a depth that allows `levels` levels. -/
def LevelValid (builtinsEnabled : Bool) (levels : ℕ) (root : Bool) (commands : List Cmd) : Prop :=
  validateCommandLevel builtinsEnabled levels (.array commands) root = Status.ok

/-- The concatenation of command sets as one table. A set whose table is missing leaves no
table. -/
def concatSets (sets : List CommandSet) : CArray Cmd :=
  if sets.any fun set => set.commands.isNull && decide (set.commands.count ≠ 0) then
    .null (sets.map fun set => set.commands.count).sum
  else .array (rootsOf sets)

/-- A table that is there, or declared empty. -/
theorem validateCommandLevel_ok_iff {b : Bool} {levels : ℕ} {root : Bool}
    {commands : CArray Cmd} :
    validateCommandLevel b (levels + 1) commands root = Status.ok ↔
      (commands.isNull = true → commands.count = 0) ∧
        LevelValid b (levels + 1) root commands.cells := by
  have hne : Status.errInvalidConfig ≠ Status.ok := by decide
  rw [LevelValid, validateCommandLevel, validateCommandLevel]
  cases commands with
  | array l => simp [CArray.isNull, CArray.cells]
  | null n =>
    by_cases hn : n = 0
    · simp [CArray.isNull, CArray.cells, CArray.count, hn]
    · simp [CArray.isNull, CArray.cells, CArray.count, hn, hne]

/-- Every set is valid exactly when the first loop succeeds. -/
theorem validateSets_ok_iff {b : Bool} {sets : List CommandSet} :
    validateSets b sets = Status.ok ↔
      ∀ set ∈ sets, validateCommandLevel b shMaxCmdDepth set.commands true = Status.ok := by
  induction sets with
  | nil => simp [validateSets]
  | cons set sets ih =>
    rw [validateSets]
    by_cases h : validateCommandLevel b shMaxCmdDepth set.commands true = Status.ok
    · simp [h, ih]
    · simp [h]

/-- Sets share no root name exactly when the nested loops find none. -/
theorem setsShareName_eq_false_iff {sets : List CommandSet} :
    setsShareName sets = false ↔
      sets.Pairwise fun s₁ s₂ =>
        ∀ c₁ ∈ s₁.commands.cells, ∀ c₂ ∈ s₂.commands.cells, c₁.name ≠ c₂.name := by
  induction sets with
  | nil => simp [setsShareName]
  | cons set sets ih =>
    rw [setsShareName, List.pairwise_cons, ← ih]
    simp

/-- The concatenation of sets is a valid level exactly when every set is one and no two share a
name. -/
private theorem levelValid_rootsOf_iff {b : Bool} {levels : ℕ} {root : Bool}
    {sets : List CommandSet} :
    LevelValid b (levels + 1) root (rootsOf sets) ↔
      (∀ set ∈ sets, LevelValid b (levels + 1) root set.commands.cells) ∧
        sets.Pairwise fun s₁ s₂ =>
          ∀ c₁ ∈ s₁.commands.cells, ∀ c₂ ∈ s₂.commands.cells, c₁.name ≠ c₂.name := by
  have hlevel : ∀ l : List Cmd, LevelValid b (levels + 1) root l ↔
      validateCommands b root (fun sub => validateCommandLevel b levels sub false) l =
        Status.ok := fun l => by
          simp [LevelValid, validateCommandLevel, CArray.isNull, CArray.cells]
  induction sets with
  | nil => simp [hlevel, rootsOf, validateCommands]
  | cons set sets ih =>
    rw [hlevel] at ih
    have happend : rootsOf (set :: sets) = set.commands.cells ++ rootsOf sets := rfl
    rw [hlevel, happend, validateCommands_append_iff, propext ih, List.pairwise_cons, ← hlevel]
    have hmem : (∀ c₁ ∈ set.commands.cells, ∀ c₂ ∈ rootsOf sets, c₁.name ≠ c₂.name) ↔
        ∀ s₂ ∈ sets, ∀ c₁ ∈ set.commands.cells, ∀ c₂ ∈ s₂.commands.cells, c₁.name ≠ c₂.name := by
      simp only [rootsOf, List.mem_flatMap]
      exact ⟨fun h s₂ hs c₁ h₁ c₂ h₂ => h c₁ h₁ c₂ ⟨s₂, hs, h₂⟩,
        fun h c₁ h₁ c₂ ⟨s₂, hs, h₂⟩ => h s₂ hs c₁ h₁ c₂ h₂⟩
    rw [hmem]
    simp only [List.mem_cons, forall_eq_or_imp]
    tauto

/-! ## Accepted registries -/

/-- `sh_register_commands` accepts exactly the valid levels. -/
theorem shRegisterCommands_ok_iff {s : Shell} {commands : CArray Cmd} :
    (shRegisterCommands s commands).2 = Status.ok ↔
      (commands.isNull = true → commands.count = 0) ∧
        LevelValid s.cfg.builtinsEnabled shMaxCmdDepth true commands.cells := by
  have hlevel : validateCommandLevel s.cfg.builtinsEnabled shMaxCmdDepth commands true = Status.ok ↔
      (commands.isNull = true → commands.count = 0) ∧
        LevelValid s.cfg.builtinsEnabled shMaxCmdDepth true commands.cells :=
    validateCommandLevel_ok_iff
  rw [← hlevel, shRegisterCommands]
  by_cases hn : commands.isNull = true ∧ commands.count ≠ 0
  · rw [if_pos hn]
    have hne : Status.errInvalidArg ≠ Status.ok := by decide
    exact ⟨fun h => absurd h hne, fun h => absurd ((hlevel.mp h).1 hn.1) hn.2⟩
  · rw [if_neg hn]
    by_cases hv : validateCommandLevel s.cfg.builtinsEnabled shMaxCmdDepth commands true = Status.ok
    · simp [hv]
    · simp [hv]

/-- A table is installed when it is accepted; otherwise the shell is unchanged. -/
theorem shRegisterCommands_cases (s : Shell) (commands : CArray Cmd) :
    shRegisterCommands s commands = (s.setCommands commands.cells, Status.ok) ∨
      ∃ e, e ≠ Status.ok ∧ shRegisterCommands s commands = (s, e) := by
  rw [shRegisterCommands]
  dsimp only
  split_ifs with hn hv
  · exact .inr ⟨_, by decide, rfl⟩
  · exact .inr ⟨_, hv, rfl⟩
  · exact .inl rfl

/-- `sh_register_command_sets` accepts exactly the sets that are valid levels and share no
name. -/
theorem shRegisterCommandSets_snd_ok_iff {s : Shell} {sets : CArray CommandSet} :
    (shRegisterCommandSets s sets).2 = Status.ok ↔
      (sets.isNull = true → sets.count = 0) ∧
        validateSets s.cfg.builtinsEnabled sets.cells = Status.ok ∧
        setsShareName sets.cells = false := by
  rw [shRegisterCommandSets]
  by_cases hn : sets.isNull = true ∧ sets.count ≠ 0
  · rw [if_pos hn]
    have hne : Status.errInvalidArg ≠ Status.ok := by decide
    exact ⟨fun h => absurd h hne, fun h => absurd (h.1 hn.1) hn.2⟩
  · rw [if_neg hn]
    have hn' : sets.isNull = true → sets.count = 0 := fun h => by
      by_contra hc
      exact hn ⟨h, hc⟩
    by_cases hv : validateSets s.cfg.builtinsEnabled sets.cells = Status.ok
    · cases hs : setsShareName sets.cells with
      | false => simpa [hv] using hn'
      | true =>
        have hne : Status.errInvalidConfig ≠ Status.ok := by decide
        simp [hv, hne]
    · simp [hv]

/-- The sets are installed when they are accepted; otherwise the shell is unchanged. -/
theorem shRegisterCommandSets_cases (s : Shell) (sets : CArray CommandSet) :
    shRegisterCommandSets s sets = (s.setCommandSets sets, Status.ok) ∨
      ∃ e, e ≠ Status.ok ∧ shRegisterCommandSets s sets = (s, e) := by
  rw [shRegisterCommandSets]
  dsimp only
  split_ifs with hn hv hs
  · exact .inr ⟨_, by decide, rfl⟩
  · exact .inr ⟨_, hv, rfl⟩
  · exact .inr ⟨_, by decide, rfl⟩
  · exact .inl rfl

/-- **Sets are accepted exactly when their concatenation is.**

**Proof sketch.** Both sides ask each set for a valid level and its roots for different names. A
missing array of commands is refused on both sides unless it counts none. -/
theorem shRegisterCommandSets_ok_iff (s : Shell) (sets : List CommandSet) :
    (shRegisterCommandSets s (.array sets)).2 = Status.ok ↔
      (shRegisterCommands s (concatSets sets)).2 = Status.ok := by
  have hlevel : ∀ set : CommandSet,
      validateCommandLevel s.cfg.builtinsEnabled shMaxCmdDepth set.commands true = Status.ok ↔
        (set.commands.isNull = true → set.commands.count = 0) ∧
          LevelValid s.cfg.builtinsEnabled shMaxCmdDepth true set.commands.cells :=
    fun set => validateCommandLevel_ok_iff
  rw [shRegisterCommandSets_snd_ok_iff, shRegisterCommands_ok_iff, validateSets_ok_iff,
    setsShareName_eq_false_iff]
  simp only [CArray.isNull, CArray.cells, Bool.false_eq_true, false_imp_iff, true_and, hlevel]
  rw [concatSets]
  by_cases hnull : (sets.any fun set =>
      set.commands.isNull && decide (set.commands.count ≠ 0)) = true
  · obtain ⟨set, hmem, hset⟩ := List.any_eq_true.mp hnull
    have hset' : set.commands.isNull = true ∧ set.commands.count ≠ 0 := by simpa using hset
    rw [if_pos hnull]
    refine ⟨fun h => absurd ((h.1 set hmem).1 hset'.1) hset'.2, fun h => ?_⟩
    have hsum : (sets.map fun set => set.commands.count).sum = 0 := h.1 rfl
    exact absurd (List.sum_eq_zero_iff_forall_eq_nat.mp hsum _ (List.mem_map_of_mem hmem)) hset'.2
  · rw [if_neg hnull]
    have hnull' : ∀ set ∈ sets, set.commands.isNull = true → set.commands.count = 0 := by
      intro set hmem hs
      by_contra hc
      exact hnull (List.any_eq_true.mpr ⟨set, hmem, by simp [hs, hc]⟩)
    have hroots : LevelValid s.cfg.builtinsEnabled shMaxCmdDepth true (rootsOf sets) ↔ _ :=
      levelValid_rootsOf_iff
    change _ ↔ (false = true → _) ∧ LevelValid _ _ _ (rootsOf sets)
    rw [hroots]
    simp only [Bool.false_eq_true, false_imp_iff, true_and]
    exact ⟨fun h => ⟨fun set hmem => (h.1 set hmem).2, h.2⟩,
      fun h => ⟨fun set hmem => ⟨hnull' set hmem, h.1 set hmem⟩, h.2⟩⟩

/-- The installed registry is one that a registration function accepts. -/
inductive Registered (s : Shell) : Prop
  | commands (l : CArray Cmd) (accepted : (shRegisterCommands s l).2 = Status.ok)
      (commands : s.commands = l.cells) (sets : s.commandSets = none)
  | commandSets (l : CArray CommandSet) (accepted : (shRegisterCommandSets s l).2 = Status.ok)
      (commands : s.commands = [])
      (sets : s.commandSets = if l.isNull then none else some l.cells)

/-- An accepted registry has a valid root level. -/
theorem Registered.valid {s : Shell} (h : Registered s) :
    LevelValid s.cfg.builtinsEnabled shMaxCmdDepth true s.roots := by
  cases h with
  | commands l accepted commands sets =>
    rw [Shell.roots, sets, commands]
    exact (shRegisterCommands_ok_iff.mp accepted).2
  | commandSets l accepted commands sets =>
    obtain ⟨-, hv, hd⟩ := shRegisterCommandSets_snd_ok_iff.mp accepted
    have hroots : s.roots = rootsOf l.cells := by
      rw [Shell.roots, sets, commands]
      cases l <;> rfl
    rw [hroots]
    refine levelValid_rootsOf_iff.mpr ⟨fun set hmem => ?_, setsShareName_eq_false_iff.mp hd⟩
    exact (validateCommandLevel_ok_iff.mp (validateSets_ok_iff.mp hv set hmem)).2

end PortableShell
