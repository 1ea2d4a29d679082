import PortableShell.Dispatch
import PortableShell.Forest

set_option relaxedAutoImplicit false
set_option autoImplicit false

/-!
# The path of a command

`sh_resolve_command_internal` reports the names it walked along in a buffer of 128 bytes, and
echo, history and dispatch go by that text: it is what `should_mask_arg` is asked about.

## Main definitions

* `PortableShell.joinNames` — names joined by single spaces.
* `PortableShell.ReportsWholePath` — a resolution tells the node, the number of names and all of
  the path.

## Main results

* `PortableShell.foldl_appendPath` — the text that the buffer keeps.
* `PortableShell.reportsWholePath_iff` — the path is complete exactly when it fits the buffer.
-/

namespace PortableShell

/-! ## The text of a path -/

/-- A byte of a joined text is a separator or a byte of a part. -/
private theorem mem_intercalate {sep : List Byte} {parts : List (List Byte)} {b : Byte}
    (h : b ∈ sep.intercalate parts) : b ∈ sep ∨ ∃ part ∈ parts, b ∈ part := by
  induction parts with
  | nil => exact absurd h List.not_mem_nil
  | cons part parts ih =>
    cases parts with
    | nil =>
      rw [List.intercalate_singleton] at h
      exact .inr ⟨part, List.mem_cons_self, h⟩
    | cons next parts =>
      rw [List.intercalate_cons_cons] at h
      simp only [List.mem_append] at h
      rcases h with (h | h) | h
      · exact .inr ⟨part, List.mem_cons_self, h⟩
      · exact .inl h
      · rcases ih h with h | ⟨p, hp, hb⟩
        · exact .inl h
        · exact .inr ⟨p, List.mem_cons_of_mem part hp, hb⟩

/-- Names joined by single spaces. -/
def joinNames (names : List CStr) : CStr where
  bytes := [chr ' '].intercalate (names.map CStr.bytes)
  nonzero := by
    intro h
    rcases mem_intercalate h with h | ⟨part, hpart, h⟩
    · exact absurd (List.mem_singleton.mp h) (by decide)
    · obtain ⟨name, -, rfl⟩ := List.mem_map.mp hpart
      exact name.nonzero h

/-- The bytes of joined names. -/
private theorem joinNames_bytes (names : List CStr) :
    (joinNames names).bytes = [chr ' '].intercalate (names.map CStr.bytes) :=
  rfl

/-- One name. -/
private theorem joinNames_singleton (name : CStr) : (joinNames [name]).bytes = name.bytes := by
  rw [joinNames_bytes, List.map_singleton, List.intercalate_singleton]

/-- A name in front of others. -/
private theorem joinNames_cons_cons (first second : CStr) (names : List CStr) :
    (joinNames (first :: second :: names)).bytes =
      first.bytes ++ [chr ' '] ++ (joinNames (second :: names)).bytes := by
  simp only [joinNames_bytes, List.map_cons, List.intercalate_cons_cons]

/-- One name more. -/
private theorem joinNames_concat (names : List CStr) (name : CStr) :
    (joinNames (names ++ [name])).bytes =
      (if names = [] then [] else (joinNames names).bytes ++ [chr ' ']) ++ name.bytes := by
  induction names with
  | nil => exact joinNames_singleton name
  | cons first names ih =>
    rw [if_neg (List.cons_ne_nil _ _)]
    cases names with
    | nil =>
      rw [List.singleton_append, joinNames_cons_cons, joinNames_singleton, joinNames_singleton]
    | cons second names =>
      rw [if_neg (List.cons_ne_nil _ _)] at ih
      rw [List.cons_append, List.cons_append, joinNames_cons_cons, joinNames_cons_cons,
        ← List.cons_append, ih]
      simp only [List.append_assoc]

/-- Names that are not empty do not join to the empty text. -/
private theorem joinNames_ne_nil {names : List CStr} (hne : names ≠ [])
    (h : ∀ name ∈ names, name.bytes ≠ []) : (joinNames names).bytes ≠ [] := by
  rw [← List.dropLast_append_getLast hne, joinNames_concat]
  have hlast := h _ (List.getLast_mem hne)
  simp [hlast]

/-- **The text that the buffer keeps**: appending names one by one gives the beginning of the
joined names.

**Proof sketch.** Induction on the names, from the end. Behind the first name the buffer is not
empty, so a space and the name are appended and the result is cut, which comes to cutting once at
the end. -/
theorem foldl_appendPath {names : List CStr} (h : ∀ name ∈ names, name.bytes ≠ []) :
    (names.foldl appendPath CStr.empty).bytes = (joinNames names).bytes.take (pathSize - 1) := by
  induction names using List.reverseRecOn with
  | nil => rfl
  | append_singleton names name ih =>
    have hnames : ∀ n ∈ names, n.bytes ≠ [] := fun n hn => h n (List.mem_append_left _ hn)
    have htext := ih hnames
    have hsize : pathSize - 1 = 127 := rfl
    rw [List.foldl_append, List.foldl_cons, List.foldl_nil, joinNames_concat]
    by_cases hempty : names = []
    · subst hempty
      rfl
    · have hne : (names.foldl appendPath CStr.empty).isEmpty = false := by
        rw [CStr.isEmpty, htext, List.isEmpty_eq_false_iff, hsize]
        intro hnil
        rcases List.take_eq_nil_iff.mp hnil with h0 | hnil
        · exact absurd h0 (by decide)
        · exact joinNames_ne_nil hempty hnames hnil
      rw [appendPath, hne, if_neg (by decide), if_neg hempty, CStr.take_bytes, CStr.append_bytes,
        CStr.append_bytes, htext]
      have hspace : (str " ").bytes = [chr ' '] := rfl
      rw [hspace, List.append_assoc, List.append_assoc, List.take_append, List.take_take,
        Nat.min_self, @List.take_append _ (joinNames names).bytes, List.length_take]
      congr 2
      omega

/-! ## The path of a resolution -/

/-- The path of a resolution is made of the names it consumes. -/
private theorem resolveLoop_path (argv : List CStr) (find : CStr → Option Cmd) (r : Resolved) :
    (resolveLoop find r argv).path =
      (argv.take ((resolveLoop find r argv).consumed - r.consumed)).foldl appendPath r.path := by
  induction argv generalizing find r with
  | nil => rw [List.take_nil, List.foldl_nil, resolveLoop]
  | cons name argv ih =>
    rw [resolveLoop]
    cases find name with
    | none =>
      dsimp only
      rw [Nat.sub_self]
      rfl
    | some next =>
      dsimp only
      have hle := le_consumed_resolveLoop argv (findChild next.subcommands.cells)
        ⟨some next, r.consumed + 1, appendPath r.path name⟩
      dsimp only at hle
      rw [ih]
      dsimp only
      generalize (resolveLoop (findChild next.subcommands.cells)
        ⟨some next, r.consumed + 1, appendPath r.path name⟩ argv).consumed = k at hle ⊢
      rw [show k - r.consumed = k - (r.consumed + 1) + 1 by omega, List.take_succ_cons,
        List.foldl_cons]

/-- The names on a path of a valid level are not empty.

**Proof sketch.** Induction on the path. The nodes of a valid level have names, none of them empty,
and the level below a node on the path is valid in its turn. -/
private theorem IsPath.names_ne_nil {level : List Cmd} {path : List CStr} {n : Cmd}
    (h : IsPath level path n) {b root : Bool} {levels : ℕ} (hv : LevelValid b levels root level) :
    ∀ name ∈ path, name.bytes ≠ [] := by
  have hnode : ∀ {cmd : Cmd} {name : CStr}, commandRejected b root cmd = false →
      cmd.name = some name → name.bytes ≠ [] := by
    intro cmd name hcmd hname
    obtain ⟨text, htext, hne, -⟩ := ((commandRejected_iff b root cmd).mp hcmd).name
    rwa [Option.some.inj (hname.symm.trans htext)]
  induction h generalizing root levels with
  | single hmem hname =>
    cases levels with
    | zero => exact absurd hv not_levelValid_zero
    | succ levels =>
      intro name hn
      rw [List.mem_singleton.mp hn]
      exact hnode (hv.command hmem).1 hname
  | cons hmem hname hpath ih =>
    cases levels with
    | zero => exact absurd hv not_levelValid_zero
    | succ levels =>
      intro name hn
      rcases List.mem_cons.mp hn with rfl | hn
      · exact hnode (hv.command hmem).1 hname
      · rcases (hv.command hmem).2 with hnil | hchild
        · rw [hnil] at hpath
          obtain ⟨_, _, c, -, hc, -⟩ := hpath.head
          exact absurd hc List.not_mem_nil
        · exact ih hchild (fun hcmd hname => by
            obtain ⟨text, htext, hne, -⟩ := ((commandRejected_iff _ _ _).mp hcmd).name
            rwa [Option.some.inj (hname.symm.trans htext)]) name hn

/-- What the callers of `sh_resolve_command_internal` go by. -/
structure ReportsWholePath (s : Shell) (argv : List CStr) : Prop where
  /-- The node at the end of the longest path of names is found, with the length of the path. -/
  found : ∀ path n, LongestPath s.roots argv path n →
    (shResolveCommandInternal s argv).cmd = some n ∧
      (shResolveCommandInternal s argv).consumed = path.length
  missing : (∀ path n, path <+: argv → ¬IsPath s.roots path n) →
    (shResolveCommandInternal s argv).cmd = none ∧ (shResolveCommandInternal s argv).consumed = 0
  path : (shResolveCommandInternal s argv).path =
    joinNames (argv.take (shResolveCommandInternal s argv).consumed)
  /-- The masking policy is asked about the complete path. -/
  asked : ∀ (ω : Type) (env : Env ω) (f : Ptr) (i : ℕ) (arg : CStr), s.cfg.shouldMaskArg = some f →
    tokenMasked env s.cfg (shResolveCommandInternal s argv) i arg =
      ((shResolveCommandInternal s argv).cmd.any (fun cmd =>
          cmd.sensitive && decide ((shResolveCommandInternal s argv).consumed ≤ i)) ||
        env.shouldMaskArg f (joinNames (argv.take (shResolveCommandInternal s argv).consumed)) i arg
          s.cfg.maskCtx)

section Resolve

variable {s : Shell}

/-- A resolution that finds nothing consumes nothing. -/
private theorem resolve_cases (s : Shell) (argv : List CStr) :
    shResolveCommandInternal s argv = ⟨none, 0, CStr.empty⟩ ∨
      ∃ n, (shResolveCommandInternal s argv).cmd = some n ∧
        (shResolveCommandInternal s argv).consumed ≤ argv.length := by
  have hroot : findRoot s = findChild s.roots := funext (findRoot_eq s)
  have hcases := resolveLoop_cases argv s.roots ⟨none, 0, CStr.empty⟩
  rw [← hroot] at hcases
  rcases hcases with heq | ⟨path, rest, n, rfl, -, hcmd, hconsumed⟩
  · exact .inl heq
  · refine .inr ⟨n, hcmd, ?_⟩
    have hlength : (shResolveCommandInternal s (path ++ rest)).consumed = 0 + path.length :=
        hconsumed
    rw [hlength, List.length_append]
    omega

/-- The path of a resolution is the beginning of the joined names. -/
private theorem resolve_path_bytes (hreg : Registered s) (argv : List CStr) :
    (shResolveCommandInternal s argv).path.bytes =
      (joinNames (argv.take (shResolveCommandInternal s argv).consumed)).bytes.take
        (pathSize - 1) := by
  have hnames : ∀ name ∈ argv.take (shResolveCommandInternal s argv).consumed, name.bytes ≠ [] := by
    rcases resolve_cases s argv with hnone | ⟨n, hcmd, -⟩
    · rw [hnone]
      exact nofun
    · have hlongest := (longestPath_iff hreg argv _ n).mpr ⟨hcmd, rfl⟩
      exact hlongest.isPath.names_ne_nil hreg.valid
  have hpath := resolveLoop_path argv (findRoot s) ⟨none, 0, CStr.empty⟩
  rw [← foldl_appendPath hnames]
  exact congrArg CStr.bytes hpath

/-- **The path of a command is complete** exactly when the names of the longest path, joined by
spaces, are shorter than the buffer. The node and the number of names are always right.

**Proof sketch.** By `resolve_path_bytes` the reported path is the cut of the joined names of the
longest path. It is all of it exactly when the cut takes nothing off; the other clauses hold in any
case. -/
theorem reportsWholePath_iff (hreg : Registered s) (argv : List CStr) :
    ReportsWholePath s argv ↔
      ∀ path n, LongestPath s.roots argv path n → (joinNames path).length < pathSize := by
  have hsize : pathSize - 1 + 1 = pathSize := rfl
  have hbytes := resolve_path_bytes hreg argv
  constructor
  · intro h path n hlongest
    obtain ⟨-, rfl⟩ := (longestPath_iff hreg argv path n).mp hlongest
    rw [← h.path, CStr.length, hbytes, List.length_take]
    omega
  · intro h
    have hpath : (shResolveCommandInternal s argv).path =
        joinNames (argv.take (shResolveCommandInternal s argv).consumed) := by
      refine CStr.ext (hbytes.trans (List.take_of_length_le ?_))
      rcases resolve_cases s argv with hnone | ⟨n, hcmd, -⟩
      · rw [hnone]
        exact Nat.zero_le _
      · have hshort := h _ n ((longestPath_iff hreg argv _ n).mpr ⟨hcmd, rfl⟩)
        rw [CStr.length] at hshort
        omega
    refine ⟨?_, ?_, hpath, ?_⟩
    · intro path n hlongest
      obtain ⟨hcmd, htake⟩ := (longestPath_iff hreg argv path n).mp hlongest
      refine ⟨hcmd, ?_⟩
      rcases resolve_cases s argv with hnone | ⟨-, -, hle⟩
      · rw [hnone] at hcmd
        exact absurd hcmd (Option.some_ne_none n).symm
      · rw [htake, List.length_take, Nat.min_eq_left hle]
    · intro hnone
      rcases resolve_cases s argv with heq | ⟨n, hcmd, -⟩
      · rw [heq]
        exact ⟨rfl, rfl⟩
      · have hself := (longestPath_iff hreg argv _ n).mpr ⟨hcmd, rfl⟩
        exact absurd hself.isPath (hnone _ n hself.isPrefix)
    · intro ω env f i arg hf
      rw [tokenMasked, hf, Option.any_some, hpath]

end Resolve

/-- The path of a command with a payload token is complete. -/
theorem reportsWholePath_iff_led : ReportsWholePath ledSys.sh [str "led", str "on"] := by
  refine (reportsWholePath_iff ledSys_reachable.registered _).mpr fun path n hlongest => ?_
  obtain ⟨-, rfl⟩ := (longestPath_iff ledSys_reachable.registered _ path n).mp hlongest
  decide

/-- A name that is as long as the buffer of a path. -/
def longName : CStr := ⟨List.replicate pathSize (chr 'a'), by decide⟩

/-- A shell with a command of this name. -/
def longNameSys : Sys Unit :=
  run idleEnv ⟨exactShell shDefaultConfig, (), [], []⟩
    [.api (.registerCommands (.array [{ ledCommand with name := some longName }]))]

/-- The name of this command is reported without its last byte. -/
theorem not_reportsWholePath_longName :
    Reachable idleEnv longNameSys ∧ ¬ReportsWholePath longNameSys.sh [longName] := by
  obtain ⟨hsized, hinit⟩ := @shInit_exact shDefaultConfig (by decide) (by decide)
  refine ⟨⟨_, _, _, _, _, hsized, hinit, rfl⟩, fun h => ?_⟩
  have hpath := congrArg CStr.length h.path
  revert hpath
  decide +kernel

end PortableShell
