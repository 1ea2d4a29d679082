import PortableShell.Registry

set_option relaxedAutoImplicit false
set_option autoImplicit false

/-!
# Well-formed command forests

What the registration functions ask of a command forest, said of its tables and nodes and not of
the recursion that checks them, and the proof that they accept exactly the forests that are so.

## Main definitions

* `PortableShell.Table` — the tables of a forest and the depth of their nodes.
* `PortableShell.WellFormedForest` — the conditions on a forest.

## Main results

* `PortableShell.validateCommands_iff` — the loop of `validate_command_level` as a statement about
  all commands of a level.
* `PortableShell.validateCommandLevel_iff` — the recursion as a statement about all tables.
* `PortableShell.registers_iff_wellFormed` — registration accepts the well-formed forests, and
  an error leaves the registry alone.
-/

namespace PortableShell

/-! ## Forests -/

/-- `Table forest depth table`: the nodes of `table` lie at depth `depth` of the forest, with the
roots at depth `1`. -/
inductive Table : CArray Cmd → ℕ → CArray Cmd → Prop
  | root (forest : CArray Cmd) : Table forest 1 forest
  | child {forest table : CArray Cmd} {depth : ℕ} {cmd : Cmd} (hmem : cmd ∈ forest.cells)
      (h : Table cmd.subcommands depth table) : Table forest (depth + 1) table

/-- A name of a command: there is one, it is not empty, and it has neither whitespace nor control
bytes. -/
def NameOk (name : Option CStr) : Prop :=
  ∃ text, name = some text ∧ text.bytes ≠ [] ∧
    ∀ b ∈ text.bytes, isspace b = false ∧ 32 ≤ b ∧ b ≠ 127

/-- The argument counts of a command with a handler. -/
def ArityOk (cmd : Cmd) : Prop :=
  cmd.handler.isSome = true →
    1 ≤ cmd.minArgs ∧ (cmd.maxArgs ≠ shArgsAny → cmd.minArgs ≤ cmd.maxArgs)

/-- A forest of at most `levels` levels that the shell can work with; `reserved` says whether the
names of the built-ins are taken. -/
structure WellFormedForest (reserved : Bool) (levels : ℕ) (forest : CArray Cmd) : Prop where
  /-- The table of the roots is there, or declared empty. -/
  present : forest.isNull = true → forest.count = 0
  names : ∀ depth table, Table forest depth table → ∀ cmd ∈ table.cells, NameOk cmd.name
  /-- Siblings have different names. -/
  distinct : ∀ depth table, Table forest depth table →
    table.cells.Pairwise fun a b => a.name ≠ b.name
  roots : reserved = true → ∀ cmd ∈ forest.cells, ∀ name ∈ reservedNames, cmd.name ≠ some name
  /-- A node has a table of children exactly when it declares some. -/
  tables : ∀ depth table, Table forest depth table → ∀ cmd ∈ table.cells,
    (cmd.subcommands.isNull = false ↔ cmd.subcommands.count ≠ 0)
  arity : ∀ depth table, Table forest depth table → ∀ cmd ∈ table.cells, ArityOk cmd
  /-- No node lies deeper than the last level. -/
  depth_le : ∀ depth table, Table forest depth table → table.cells ≠ [] → depth ≤ levels

/-! ## One node -/

/-- The check of a name. -/
private theorem isValidCommandName_iff (name : Option CStr) :
    isValidCommandName name = true ↔ NameOk name := by
  have hbyte : ∀ b : Byte, (isspace b || decide (b < 33) || decide (b = 127)) = false ↔
      isspace b = false ∧ 32 ≤ b ∧ b ≠ 127 := by
    intro b
    have hspace : isspace b = false → b ≠ 32 := by
      rintro h rfl
      exact absurd h (by decide)
    have hle : ¬b < 33 ↔ b ≠ 32 ∧ 32 ≤ b := by
      rw [UInt8.lt_iff_toNat_lt, UInt8.le_iff_toNat_le, ne_eq, ← UInt8.toNat_inj]
      simp only [UInt8.reduceToNat]
      omega
    simp only [Bool.or_eq_false_iff, decide_eq_false_iff_not, hle]
    tauto
  unfold isValidCommandName NameOk
  cases name with
  | none => simp
  | some text =>
    simp only [CStr.isEmpty, Bool.and_eq_true, Bool.not_eq_true', List.any_eq_false,
      Bool.not_eq_true, hbyte, List.isEmpty_eq_false_iff, Option.some.injEq, exists_eq_left']

/-- The conditions on a node apart from its siblings and the nodes below. -/
structure NodeOk (reserved : Bool) (cmd : Cmd) : Prop where
  name : NameOk cmd.name
  free : reserved = true → ∀ name ∈ reservedNames, cmd.name ≠ some name
  table : cmd.subcommands.isNull = false ↔ cmd.subcommands.count ≠ 0
  arity : ArityOk cmd

/-- The checks of a node.

**Proof sketch.** Each of the five disjuncts of the check is the negation of one field of `NodeOk`.
The disjuncts on the table, the names and the arity are compared one by one. -/
theorem commandRejected_iff (builtinsEnabled root : Bool) (cmd : Cmd) :
    commandRejected builtinsEnabled root cmd = false ↔ NodeOk (root && builtinsEnabled) cmd := by
  have hname := isValidCommandName_iff cmd.name
  have hfree : (root && builtinsEnabled && cmd.name.any isReservedRootName) = false ↔
      ((root && builtinsEnabled) = true → ∀ name ∈ reservedNames, cmd.name ≠ some name) := by
    cases root && builtinsEnabled with
    | false => simp
    | true =>
      cases cmd.name with
      | none => simp
      | some text => simp [isReservedRootName]
  have htable : ((cmd.subcommands.isNull && decide (cmd.subcommands.count ≠ 0)) = false ∧
      (!cmd.subcommands.isNull && decide (cmd.subcommands.count = 0)) = false) ↔
        (cmd.subcommands.isNull = false ↔ cmd.subcommands.count ≠ 0) := by
    by_cases hcount : cmd.subcommands.count = 0 <;> cases cmd.subcommands.isNull <;> simp [hcount]
  have harity : (cmd.handler.isSome && (decide (cmd.minArgs = 0) ||
      (decide (cmd.maxArgs ≠ shArgsAny) && decide (cmd.minArgs > cmd.maxArgs)))) = false ↔
        ArityOk cmd := by
    unfold ArityOk
    cases cmd.handler.isSome with
    | false => simp
    | true =>
      simp only [Bool.true_and, Bool.or_eq_false_iff, Bool.and_eq_false_iff,
        decide_eq_false_iff_not, true_imp_iff]
      omega
  unfold commandRejected
  simp only [Bool.or_eq_false_iff, Bool.not_eq_false', hname, hfree, harity]
  constructor
  · rintro ⟨⟨⟨⟨hn, hf⟩, ht₁⟩, ht₂⟩, ha⟩
    exact ⟨hn, hf, htable.mp ⟨ht₁, ht₂⟩, ha⟩
  · rintro ⟨hn, hf, ht, ha⟩
    obtain ⟨ht₁, ht₂⟩ := htable.mpr ht
    exact ⟨⟨⟨⟨hn, hf⟩, ht₁⟩, ht₂⟩, ha⟩

/-! ## One level -/

/-- **The loop of `validate_command_level`** checks every command and every pair of siblings. -/
theorem validateCommands_iff {builtinsEnabled root : Bool} {f : CArray Cmd → Status}
    {level : List Cmd} :
    validateCommands builtinsEnabled root f level = Status.ok ↔
      (∀ cmd ∈ level, NodeOk (root && builtinsEnabled) cmd ∧
        (cmd.subcommands.count ≠ 0 → f cmd.subcommands = Status.ok)) ∧
      level.Pairwise fun a b => a.name ≠ b.name := by
  induction level with
  | nil => simp [validateCommands]
  | cons cmd level ih =>
    rw [validateCommands_cons_iff, ih, commandRejected_iff, List.forall_mem_cons,
      List.pairwise_cons]
    have hsymm : (∀ other ∈ level, other.name ≠ cmd.name) ↔
        ∀ other ∈ level, cmd.name ≠ other.name :=
      forall₂_congr fun other _ => ne_comm
    rw [hsymm]
    tauto

/-! ## All levels -/

/-- Nothing is asked below a node without children.

**Proof sketch.** There is one table, the empty one, so every clause about its nodes is vacuous. -/
private theorem wellFormedForest_of_count_eq_zero {levels : ℕ} {forest : CArray Cmd}
    (h : forest.count = 0) : WellFormedForest false levels forest := by
  have hcells : forest.cells = [] := by
    cases forest with
    | null n => rfl
    | array l => exact List.eq_nil_of_length_eq_zero h
  have htable : ∀ depth table, Table forest depth table → table.cells = [] := by
    intro depth table ht
    cases ht with
    | root => exact hcells
    | child hmem _ =>
      rw [hcells] at hmem
      exact absurd hmem List.not_mem_nil
  have hnone : ∀ depth table, Table forest depth table → ∀ cmd, cmd ∉ table.cells := by
    intro depth table ht cmd
    rw [htable depth table ht]
    exact List.not_mem_nil
  refine ⟨fun _ => h, ?_, ?_, nofun, ?_, ?_, ?_⟩
  · exact fun depth table ht cmd hmem => absurd hmem (hnone depth table ht cmd)
  · intro depth table ht
    rw [htable depth table ht]
    exact .nil
  · exact fun depth table ht cmd hmem => absurd hmem (hnone depth table ht cmd)
  · exact fun depth table ht cmd hmem => absurd hmem (hnone depth table ht cmd)
  · exact fun depth table ht hne => absurd (htable depth table ht) hne

/-- A forest is well formed when its roots are and the forests below them.

**Proof sketch.** A table of the forest is the root table or a table below one of the roots, so
every clause splits into one about the roots and one about the forests below them. -/
private theorem wellFormedForest_succ_iff {reserved : Bool} {levels : ℕ} {forest : CArray Cmd} :
    WellFormedForest reserved (levels + 1) forest ↔
      (forest.isNull = true → forest.count = 0) ∧
      (∀ cmd ∈ forest.cells, NodeOk reserved cmd ∧
        WellFormedForest false levels cmd.subcommands) ∧
      forest.cells.Pairwise fun a b => a.name ≠ b.name := by
  constructor
  · intro h
    refine ⟨h.present, fun cmd hmem => ⟨?_, ?_⟩, h.distinct 1 forest (.root forest)⟩
    · exact ⟨h.names 1 forest (.root forest) cmd hmem, fun hres => h.roots hres cmd hmem,
        h.tables 1 forest (.root forest) cmd hmem, h.arity 1 forest (.root forest) cmd hmem⟩
    · refine ⟨?_, fun depth table ht => h.names _ table (.child hmem ht),
        fun depth table ht => h.distinct _ table (.child hmem ht), nofun,
        fun depth table ht => h.tables _ table (.child hmem ht),
        fun depth table ht => h.arity _ table (.child hmem ht), ?_⟩
      · intro hnull
        by_contra hcount
        have hsome := (h.tables 1 forest (.root forest) cmd hmem).mpr hcount
        exact absurd (hnull.symm.trans hsome) (by decide)
      · intro depth table ht hne
        exact Nat.le_of_succ_le_succ (h.depth_le _ table (.child hmem ht) hne)
  · rintro ⟨hpresent, hnodes, hdistinct⟩
    refine ⟨hpresent, ?_, ?_, fun hres cmd hmem => (hnodes cmd hmem).1.free hres, ?_, ?_, ?_⟩
    · intro depth table ht
      cases ht with
      | root => exact fun cmd hmem => (hnodes cmd hmem).1.name
      | child hmem ht => exact (hnodes _ hmem).2.names _ table ht
    · intro depth table ht
      cases ht with
      | root => exact hdistinct
      | child hmem ht => exact (hnodes _ hmem).2.distinct _ table ht
    · intro depth table ht
      cases ht with
      | root => exact fun cmd hmem => (hnodes cmd hmem).1.table
      | child hmem ht => exact (hnodes _ hmem).2.tables _ table ht
    · intro depth table ht
      cases ht with
      | root => exact fun cmd hmem => (hnodes cmd hmem).1.arity
      | child hmem ht => exact (hnodes _ hmem).2.arity _ table ht
    · intro depth table ht hne
      cases ht with
      | root => exact Nat.le_add_left 1 levels
      | child hmem ht => exact Nat.succ_le_succ ((hnodes _ hmem).2.depth_le _ table ht hne)

/-- One level of the recursion, given what its recursive calls decide. -/
private theorem validateCommandLevel_succ_iff {builtinsEnabled root : Bool} {levels : ℕ}
    (ih : ∀ sub : CArray Cmd, sub.count ≠ 0 →
      (validateCommandLevel builtinsEnabled levels sub false = Status.ok ↔
        WellFormedForest false levels sub)) (forest : CArray Cmd) :
    validateCommandLevel builtinsEnabled (levels + 1) forest root = Status.ok ↔
      WellFormedForest (root && builtinsEnabled) (levels + 1) forest := by
  have hloop : LevelValid builtinsEnabled (levels + 1) root forest.cells ↔
      validateCommands builtinsEnabled root
        (fun sub => validateCommandLevel builtinsEnabled levels sub false) forest.cells =
          Status.ok := by
    simp [LevelValid, validateCommandLevel, CArray.isNull, CArray.cells]
  rw [validateCommandLevel_ok_iff, hloop, validateCommands_iff, wellFormedForest_succ_iff]
  refine and_congr_right fun _ => and_congr_left fun _ => forall₂_congr fun cmd _ =>
    and_congr_right fun _ => ?_
  by_cases hcount : cmd.subcommands.count = 0
  · exact iff_of_true (fun h => absurd hcount h) (wellFormedForest_of_count_eq_zero hcount)
  · rw [← ih cmd.subcommands hcount]
    exact ⟨fun h => h hcount, fun h _ => h⟩

/-- **The recursion** decides whether a forest with nodes is well formed.

**Proof sketch.** Induction on the levels that are left. With none left there is a node too deep. -/
theorem validateCommandLevel_iff (builtinsEnabled : Bool) (levels : ℕ) (forest : CArray Cmd)
    (hcount : forest.count ≠ 0) :
    validateCommandLevel builtinsEnabled levels forest false = Status.ok ↔
      WellFormedForest false levels forest := by
  induction levels generalizing forest with
  | zero =>
    refine iff_of_false (by rw [validateCommandLevel]; decide) fun h => ?_
    have hcells : forest.cells ≠ [] := by
      cases forest with
      | null n => exact absurd (h.present rfl) hcount
      | array l => exact fun hnil => hcount (congrArg List.length hnil)
    exact absurd (h.depth_le 1 forest (.root forest) hcells) (by decide)
  | succ levels ih => exact validateCommandLevel_succ_iff ih forest

/-! ## Registration -/

/-- The roots of an installed table. -/
private theorem roots_setCommands (s : Shell) (commands : List Cmd) :
    (s.setCommands commands).roots = commands := rfl

/-- The roots of installed sets. -/
private theorem roots_setCommandSets (s : Shell) (sets : CArray CommandSet) :
    (s.setCommandSets sets).roots = rootsOf sets.cells := by
  cases sets with
  | null count => rfl
  | array cells => rfl

/-- **Registration accepts exactly the well-formed forests**, and sets of them whose roots have
different names. With `SH_OK` it installs them as the registry and changes nothing else; after an
error the shell is what it was.

**Proof sketch.** A table is accepted by `validateCommandLevel`, which by induction on the depth
asks for a well-formed forest. Sets are accepted when each of them is and no name occurs twice among
their roots. What is installed is read off the two outcomes of each registration. -/
theorem registers_iff_wellFormed (s : Shell) :
    (∀ forest : CArray Cmd,
      ((shRegisterCommands s forest).2 = Status.ok ↔
        WellFormedForest s.cfg.builtinsEnabled shMaxCmdDepth forest) ∧
      ((shRegisterCommands s forest).2 = Status.ok →
        (shRegisterCommands s forest).1.roots = forest.cells ∧
          (shRegisterCommands s forest).1 = s.setCommands forest.cells) ∧
      ((shRegisterCommands s forest).2 ≠ Status.ok → (shRegisterCommands s forest).1 = s)) ∧
    ∀ sets : CArray CommandSet,
      ((shRegisterCommandSets s sets).2 = Status.ok ↔
        (sets.isNull = true → sets.count = 0) ∧
        (∀ set ∈ sets.cells,
          WellFormedForest s.cfg.builtinsEnabled shMaxCmdDepth set.commands) ∧
        sets.cells.Pairwise fun s₁ s₂ =>
          ∀ a ∈ s₁.commands.cells, ∀ b ∈ s₂.commands.cells, a.name ≠ b.name) ∧
      ((shRegisterCommandSets s sets).2 = Status.ok →
        (shRegisterCommandSets s sets).1.roots = rootsOf sets.cells ∧
          (shRegisterCommandSets s sets).1 = s.setCommandSets sets) ∧
      ((shRegisterCommandSets s sets).2 ≠ Status.ok → (shRegisterCommandSets s sets).1 = s) := by
  have hroot : ∀ forest : CArray Cmd,
      validateCommandLevel s.cfg.builtinsEnabled shMaxCmdDepth forest true = Status.ok ↔
        WellFormedForest s.cfg.builtinsEnabled shMaxCmdDepth forest := fun forest =>
    validateCommandLevel_succ_iff
      (fun sub hcount => validateCommandLevel_iff s.cfg.builtinsEnabled _ sub hcount) forest
  refine ⟨fun forest => ⟨?_, ?_, ?_⟩, fun sets => ⟨?_, ?_, ?_⟩⟩
  · rw [shRegisterCommands_ok_iff, ← hroot]
    exact validateCommandLevel_ok_iff.symm
  · intro hok
    rcases shRegisterCommands_cases s forest with hc | ⟨e, he, hc⟩
    · rw [hc]
      exact ⟨roots_setCommands s forest.cells, rfl⟩
    · exact absurd ((congrArg Prod.snd hc).symm.trans hok) he
  · intro herr
    rcases shRegisterCommands_cases s forest with hc | ⟨e, -, hc⟩
    · exact absurd (congrArg Prod.snd hc) herr
    · exact congrArg Prod.fst hc
  · rw [shRegisterCommandSets_snd_ok_iff, validateSets_ok_iff, setsShareName_eq_false_iff]
    simp only [hroot]
  · intro hok
    rcases shRegisterCommandSets_cases s sets with hc | ⟨e, he, hc⟩
    · rw [hc]
      exact ⟨roots_setCommandSets s sets, rfl⟩
    · exact absurd ((congrArg Prod.snd hc).symm.trans hok) he
  · intro herr
    rcases shRegisterCommandSets_cases s sets with hc | ⟨e, -, hc⟩
    · exact absurd (congrArg Prod.snd hc) herr
    · exact congrArg Prod.fst hc

end PortableShell
