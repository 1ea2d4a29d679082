import PortableShell.Dispatch
import PortableShell.Simulation

set_option relaxedAutoImplicit false
set_option autoImplicit false

/-!
# Command sets and the flat table

A registry given as a list of command sets behaves like the concatenation of the sets as one
table. The library looks at the root commands in five places, each of which has a branch for the
sets: the resolution of a command, the help, and three functions of the completion. All five
depend on the concatenation only.

## Main definitions

* `PortableShell.Shell.withRegistry` — a shell with another registry.
* `PortableShell.SetsCounted` — every set declares the number of its commands.
* `PortableShell.SameRoots` — shells that differ in the registry only, with the same roots.

## Main results

* `PortableShell.sameRoots_simulation` — shells with the same roots behave alike.
* `PortableShell.commandSets_equiv_concat` — sets are accepted exactly when the concatenation is,
  and then no run tells the two registries apart.
-/

namespace PortableShell

variable {ω : Type}

/-! ## The root level -/

/-- The shell with another registry. -/
def Shell.withRegistry (s : Shell) (commands : List Cmd) (sets : Option (List CommandSet)) :
    Shell :=
  { s with commands := commands, commandSets := sets }

/-- Every set declares the number of its commands. -/
def SetsCounted (s : Shell) : Prop :=
  ∀ sets, s.commandSets = some sets → ∀ set ∈ sets, set.commands.count = set.commands.cells.length

/-- Accepted sets declare the number of their commands. -/
theorem Registered.counted {s : Shell} (h : Registered s) : SetsCounted s := by
  intro sets hsets set hmem
  cases h with
  | commands l accepted hcommands hnone =>
    rw [hnone] at hsets
    cases hsets
  | commandSets l accepted hcommands hl =>
    obtain ⟨-, hvalid, -⟩ := shRegisterCommandSets_snd_ok_iff.mp accepted
    have hcells : l.cells = sets := by
      rw [hl] at hsets
      cases l with
      | null n => cases hsets
      | array cells => exact Option.some.inj hsets
    have hset := validateSets_ok_iff.mp hvalid set (hcells ▸ hmem)
    have hcount := (validateCommandLevel_ok_iff.mp hset).1
    cases hc : set.commands with
    | null n =>
      rw [hc] at hcount
      exact hcount rfl
    | array cells => rfl

/-- The built-ins that a completion offers at the root. -/
def rootBuiltins (s : Shell) : List Cmd := if s.cfg.builtinsEnabled then builtinCommands else []

/-- The root help lists the root commands. -/
private theorem rootCommandListTexts_eq (s : Shell) :
    rootCommandListTexts s = commandListTexts s.roots := by
  rw [rootCommandListTexts, Shell.roots]
  cases s.commandSets with
  | none => rfl
  | some sets =>
    simp only [commandListTexts, rootsOf]
    rw [List.filter_flatMap, List.map_flatMap]

/-- The exact lookup of a completion at the root. -/
theorem findExactLevel_rootLevel (s : Shell) (name : CStr) :
    findExactLevel s (rootLevel s) name =
      (findChild s.roots name).or (findChild (rootBuiltins s) name) := by
  have hroot := findRoot_eq s name
  rw [← hroot, findExactLevel, findExactSets, findRoot, rootLevel]
  cases hsets : s.commandSets with
  | none =>
    simp only [Option.isSome_none, Bool.false_eq_true, if_false]
    cases findChild s.commands name with
    | none => rfl
    | some cmd => rfl
  | some sets =>
    dsimp only
    cases sets.findSome? fun set => findChild set.commands.cells name with
    | none => rfl
    | some cmd => rfl

/-- The number of candidates at the root. -/
theorem levelLimit_rootLevel {s : Shell} (h : SetsCounted s) :
    levelLimit s (rootLevel s) = s.roots.length + (rootBuiltins s).length := by
  rw [levelLimit, rootLevel, Shell.roots]
  cases hsets : s.commandSets with
  | none => rfl
  | some sets =>
    have hsum : (sets.map fun set => set.commands.count).sum = (rootsOf sets).length := by
      rw [rootsOf, List.length_flatMap]
      exact congrArg List.sum (List.map_congr_left fun set hmem => h sets hsets set hmem)
    simp only [Option.isSome_none, Option.isSome_some, Bool.false_eq_true, if_false, if_true]
    rw [hsum]
    rfl

/-- The candidate lookup over the sets is an access to the concatenation. -/
private theorem setsCandidate_eq {secondary : List Cmd} {sets : List CommandSet}
    (h : ∀ set ∈ sets, set.commands.count = set.commands.cells.length) (i : ℕ) :
    setsCandidate secondary sets i = (rootsOf sets ++ secondary)[i]? := by
  induction sets generalizing i with
  | nil => rfl
  | cons set sets ih =>
    have hcount := h set (List.mem_cons_self ..)
    have hrest := fun j => ih (fun set' hmem => h set' (List.mem_cons_of_mem _ hmem)) j
    have hcons : rootsOf (set :: sets) ++ secondary =
        set.commands.cells ++ (rootsOf sets ++ secondary) := List.append_assoc _ _ _
    rw [setsCandidate, hcount, hcons]
    split_ifs with hi
    · rw [List.getElem?_append_left hi]
    · rw [List.getElem?_append_right (not_lt.mp hi), hrest]

/-- The candidates at the root: the root commands, then the built-ins. -/
theorem staticCandidate_rootLevel {s : Shell} (h : SetsCounted s) (i : ℕ) :
    staticCandidate s (rootLevel s) i = ((s.roots ++ rootBuiltins s)[i]?).map visibleName := by
  rw [staticCandidate, rootLevel, Shell.roots]
  cases hsets : s.commandSets with
  | none =>
    simp only [tableCandidate, Option.isSome_none, Bool.false_eq_true, if_false]
    rw [List.getElem?_append]
    rfl
  | some sets =>
    simp only [Option.isSome_some, if_true]
    rw [setsCandidate_eq (h sets hsets)]
    rfl

/-! ## Shells with the same roots -/

/-- Shells that differ in the registry only, and there only in how the root commands are
grouped. -/
structure SameRoots (s s' : Shell) : Prop where
  shell : s' = s.withRegistry s'.commands s'.commandSets
  roots : s'.roots = s.roots
  counted : SetsCounted s
  counted' : SetsCounted s'

/-- A resolution depends on the root commands. -/
theorem SameRoots.resolve_eq {s s' : Shell} (h : SameRoots s s') (argv : List CStr) :
    shResolveCommandInternal s' argv = shResolveCommandInternal s argv := by
  have hroot : findRoot s' = findRoot s := by
    funext name
    rw [findRoot_eq, findRoot_eq, h.roots]
  rw [shResolveCommandInternal, shResolveCommandInternal, hroot]

/-- Such shells have the same editor line. -/
theorem SameRoots.sameLine {s s' : Shell} (h : SameRoots s s') : SameLine s s' := by
  rw [h.shell]
  exact ⟨rfl, rfl, rfl⟩

/-- An update that leaves the registry alone and does not look at it. -/
theorem SameRoots.frame {s s' : Shell} (h : SameRoots s s') (u : Update)
    (hcommands : (u.apply s).commands = s.commands)
    (hsets : (u.apply s).commandSets = s.commandSets)
    (hu : u.apply s' = (u.apply s).withRegistry s'.commands s'.commandSets) :
    SameRoots (u.apply s) (u.apply s') := by
  refine ⟨?_, ?_, ?_, ?_⟩
  · rw [hu]
    rfl
  · have hroots := h.roots
    rw [hu]
    unfold Shell.roots at hroots ⊢
    rw [hcommands, hsets]
    exact hroots
  · unfold SetsCounted
    rw [hsets]
    exact h.counted
  · rw [hu]
    exact h.counted'

/-- A shell has the same roots as itself. -/
theorem SameRoots.refl {s : Shell} (h : SetsCounted s) : SameRoots s s := ⟨rfl, rfl, h, h⟩

/-- The same table registered on both sides. -/
theorem SameRoots.registerCommands {s s' : Shell} (h : SameRoots s s') (l : CArray Cmd) :
    SameRoots (shRegisterCommands s l).1 (shRegisterCommands s' l).1 := by
  have hcfg : s'.cfg = s.cfg := by
    rw [h.shell]
    rfl
  have hstatus := shRegisterCommands_status_eq hcfg l
  rcases shRegisterCommands_cases s l with hs | ⟨e, he, hs⟩ <;>
    rcases shRegisterCommands_cases s' l with hs' | ⟨e', he', hs'⟩ <;>
    rw [hs, hs'] at hstatus
  · have hsame : s'.setCommands l.cells = s.setCommands l.cells := by
      rw [h.shell]
      rfl
    rw [hs, hs', hsame]
    refine SameRoots.refl ?_
    intro sets hsets
    cases hsets
  · exact absurd hstatus he'
  · exact absurd hstatus.symm he
  · rw [hs, hs']
    exact h

/-- The same sets registered on both sides. -/
theorem SameRoots.registerCommandSets {s s' : Shell} (h : SameRoots s s') (l : CArray CommandSet) :
    SameRoots (shRegisterCommandSets s l).1 (shRegisterCommandSets s' l).1 := by
  have hcfg : s'.cfg = s.cfg := by
    rw [h.shell]
    rfl
  have hstatus := shRegisterCommandSets_status_eq hcfg l
  rcases shRegisterCommandSets_cases s l with hs | ⟨e, he, hs⟩ <;>
    rcases shRegisterCommandSets_cases s' l with hs' | ⟨e', he', hs'⟩ <;>
    rw [hs, hs'] at hstatus
  · have hsame : s'.setCommandSets l = s.setCommandSets l := by
      rw [h.shell]
      rfl
    rw [hs, hs', hsame]
    refine SameRoots.refl (Registered.counted (.commandSets l ?_ rfl rfl))
    have hcfg' : (s.setCommandSets l).cfg = s.cfg := rfl
    rw [shRegisterCommandSets_status_eq hcfg', hs]
  · exact absurd hstatus he'
  · exact absurd hstatus.symm he
  · rw [hs, hs']
    exact h

/-- **Shells with the same roots behave alike.**

**Proof sketch.** One case per update. All but the two registrations neither read nor write the
registry, so `SameRoots.frame` applies. What a dispatch reads of the registry is the list of roots:
searching the sets in order is searching their concatenation, and the completion counts its
candidates in the same order. -/
theorem sameRoots_simulation (env : Env ω) : Simulation env SameRoots where
  update := by
    intro s s' u h hu
    obtain ⟨commands, sets, rfl⟩ : ∃ c l, s' = s.withRegistry c l := ⟨_, _, h.shell⟩
    cases u with
    | clearHistory => exact h.frame .clearHistory rfl rfl rfl
    | setEcho enabled => exact h.frame (.setEcho enabled) rfl rfl rfl
    | registerCommands l => exact h.registerCommands l
    | registerCommandSets l => exact h.registerCommandSets l
    | setStarted b => exact h.frame (.setStarted b) rfl rfl rfl
    | stopped => exact h.frame .stopped rfl rfl rfl
    | storeEntry line => exact h.frame (.storeEntry line) rfl rfl rfl
    | setArgv texts => exact h.frame (.setArgv texts) rfl rfl rfl
    | wipeArgv =>
      refine h.frame .wipeArgv ?_ ?_ ?_
      all_goals
        dsimp only [Update.apply, Shell.wipeArgv, Shell.withRegistry]
        split_ifs <;> rfl
    | setLastCr b => exact h.frame (.setLastCr b) rfl rfl rfl
    | setAnsi decoder => exact h.frame (.setAnsi decoder) rfl rfl rfl
    | resetAnsi => exact h.frame .resetAnsi rfl rfl rfl
    | walk direction =>
      refine h.frame (.walk direction) ?_ ?_ ?_
      all_goals
        dsimp only [Update.apply, Shell.walk, Shell.withRegistry]
        split_ifs <;> rfl
    | insertAt c => exact h.frame (.insertAt c) rfl rfl rfl
    | deleteRange start stop => exact h.frame (.deleteRange start stop) rfl rfl rfl
    | eraseLine => exact h.frame .eraseLine rfl rfl rfl
    | eraseDraft => exact h.frame .eraseDraft rfl rfl rfl
    | wipeDraft =>
      refine h.frame .wipeDraft ?_ ?_ ?_
      all_goals
        dsimp only [Update.apply, Shell.wipeDraft, Shell.withRegistry]
        split_ifs <;> rfl
    | setCursor cursor => exact h.frame (.setCursor cursor) rfl rfl rfl
    | replaceRange start stop replacement space =>
      exact h.frame (.replaceRange start stop replacement space) rfl rfl rfl
  cfg := fun h => by rw [h.shell]; rfl
  echo := fun h => by rw [h.shell]; rfl
  started := fun h => by rw [h.shell]; rfl
  ansi := fun h => by rw [h.shell]; rfl
  lastCr := fun h => by rw [h.shell]; rfl
  argvCapacity := fun h => by rw [h.shell]; rfl
  lineCapacity := fun h => by rw [h.shell]; rfl
  lineLen := fun h => by rw [h.shell]; rfl
  cursor := fun h => by rw [h.shell]; rfl
  text := fun h => by rw [h.shell]; rfl
  left := fun h => by rw [h.shell]; rfl
  wordStart := fun h => h.sameLine.wordStart_eq
  tokenStart := fun h => h.sameLine.tokenStart_eq
  tokenEnd := fun h => h.sameLine.tokenEnd_eq
  tokenPrefix := fun h => h.sameLine.tokenPrefix_eq
  spaceLen := fun h _ _ _ => by rw [h.shell]; rfl
  display := by
    intro s s' h
    have hresolve : shResolveCommandInternal s' = shResolveCommandInternal s :=
      funext h.resolve_eq
    unfold buildDisplayLine
    rw [hresolve, h.shell]
    rfl
  storage := fun h => by rw [h.shell]; rfl
  depth := fun h => by rw [h.shell]; rfl
  count := fun h => by rw [h.shell]; rfl
  newest := fun h _ => by rw [h.shell]; rfl
  resolve := fun h => h.resolve_eq
  help := by
    intro s s' h cmd path
    have hcfg : s'.cfg = s.cfg := by rw [h.shell]; rfl
    cases cmd with
    | none => simp only [helpTexts, rootCommandListTexts_eq, h.roots, hcfg]
    | some cmd => rfl
  rootExact := by
    intro s s' h name
    have hcfg : s'.cfg = s.cfg := by rw [h.shell]; rfl
    rw [findExactLevel_rootLevel, findExactLevel_rootLevel, h.roots, rootBuiltins, rootBuiltins,
      hcfg]
  rootLimit := by
    intro s s' h
    have hcfg : s'.cfg = s.cfg := by rw [h.shell]; rfl
    rw [levelLimit_rootLevel h.counted, levelLimit_rootLevel h.counted', h.roots, rootBuiltins,
      rootBuiltins, hcfg]
  rootCandidate := by
    intro s s' h i
    have hcfg : s'.cfg = s.cfg := by rw [h.shell]; rfl
    rw [staticCandidate_rootLevel h.counted, staticCandidate_rootLevel h.counted', h.roots,
      rootBuiltins, rootBuiltins, hcfg]

/-! ## Modular registration -/

/-- Registering sets and registering their concatenation leaves shells with the same roots.

**Proof sketch.** When the sets are accepted so is the concatenation, and both registrations store
what they were given. A set without an array has no commands, so the concatenation is the array of
all roots. -/
private theorem sameRoots_of_accepted {s : Shell} {sets : List CommandSet}
    (h : (shRegisterCommandSets s (.array sets)).2 = Status.ok) :
    SameRoots (shRegisterCommandSets s (.array sets)).1
      (shRegisterCommands s (concatSets sets)).1 := by
  have hconcat := (shRegisterCommandSets_ok_iff s sets).mp h
  have hroots : concatSets sets = .array (rootsOf sets) := by
    rw [concatSets]
    refine if_neg fun hmissing => ?_
    have hnull := (shRegisterCommands_ok_iff.mp hconcat).1
    rw [concatSets, if_pos hmissing] at hnull
    obtain ⟨set, hmem, hset⟩ := List.any_eq_true.mp hmissing
    have hcount : set.commands.count = 0 :=
      List.sum_eq_zero_iff_forall_eq_nat.mp (hnull rfl) _ (List.mem_map_of_mem hmem)
    simp [hcount] at hset
  rcases shRegisterCommandSets_cases s (.array sets) with hs | ⟨e, he, hs⟩
  · rcases shRegisterCommands_cases s (concatSets sets) with hc | ⟨e, he, hc⟩
    · have hcfg : (s.setCommandSets (.array sets)).cfg = s.cfg := rfl
      have hcounted : SetsCounted (s.setCommandSets (.array sets)) := by
        refine Registered.counted (.commandSets (.array sets) ?_ rfl rfl)
        rwa [shRegisterCommandSets_status_eq hcfg]
      rw [hs, hc, hroots]
      refine ⟨rfl, rfl, hcounted, ?_⟩
      intro l hl
      cases hl
    · rw [hc] at hconcat
      exact absurd hconcat he
  · rw [hs] at h
    exact absurd h he

/-- **Command sets are equivalent to one flat table.** Sets are accepted exactly when their
concatenation is. After that, every run of calls prints the same, calls the same handlers, acts
the same on the outside world and returns the same statuses in the shell with the sets and in
the one with the table, and the two shells agree in everything but the registry.

**Proof sketch.** After the registrations the two shells have the same roots, and shells with
the same roots behave alike (`sameRoots_simulation`). -/
theorem commandSets_equiv_concat (env : Env ω) (st : Sys ω) (sets : List CommandSet) :
    ((shRegisterCommandSets st.sh (.array sets)).2 = Status.ok ↔
        (shRegisterCommands st.sh (concatSets sets)).2 = Status.ok) ∧
      ((shRegisterCommandSets st.sh (.array sets)).2 = Status.ok → ∀ ops : List (Op ω),
        let modular := st.modify fun s => (shRegisterCommandSets s (.array sets)).1
        let flat := st.modify fun s => (shRegisterCommands s (concatSets sets)).1
        (run env flat ops).trace = (run env modular ops).trace ∧
          (run env flat ops).io = (run env modular ops).io ∧
          statuses env flat ops = statuses env modular ops ∧
          (run env flat ops).sh.withRegistry [] none =
            (run env modular ops).sh.withRegistry [] none) := by
  refine ⟨shRegisterCommandSets_ok_iff st.sh sets, ?_⟩
  intro haccepted ops modular flat
  have hstart : Sim SameRoots modular flat := ⟨sameRoots_of_accepted haccepted, rfl, rfl⟩
  have hR := sameRoots_simulation env
  have hrun := hR.run hstart ops
  refine ⟨hrun.trace, hrun.io, hR.statuses_eq hstart ops, ?_⟩
  rw [hrun.shell.shell]
  rfl

/-- A set of its own for the command `led`, behind an empty one. -/
def ledSets : List CommandSet := [⟨.null 0⟩, ⟨.array [ledCommand]⟩]

/-- Completing, running and recalling the command `led` with these sets. -/
theorem commandSets_equiv_concat_led :
    (run idleEnv
        ((⟨smallShell, (), [], []⟩ : Sys Unit).modify fun s =>
          (shRegisterCommands s (concatSets ledSets)).1)
        [.input [chr 'l', chr '\t', chr '\r'], .executeArgv [str "help"]]).trace =
      (run idleEnv
        ((⟨smallShell, (), [], []⟩ : Sys Unit).modify fun s =>
          (shRegisterCommandSets s (.array ledSets)).1)
        [.input [chr 'l', chr '\t', chr '\r'], .executeArgv [str "help"]]).trace := by
  have haccepted : (shRegisterCommandSets smallShell (.array ledSets)).2 = Status.ok := by decide
  exact ((commandSets_equiv_concat idleEnv ⟨smallShell, (), [], []⟩ ledSets).2 haccepted _).1

end PortableShell
