import PortableShell.CommandPath

set_option relaxedAutoImplicit false
set_option autoImplicit false

/-!
# Help

There are three ways to ask for the help of a command: the built-in `help`, a help token behind
the command, and a command with subcommands on its own. They come to the same text, which lists
the visible subcommands, each of which can be asked for in turn; and to ask changes nothing.

## Main definitions

* `PortableShell.helpOf` — the help of the command at the end of a path.
* `PortableShell.AsksForHelp` — the argument vectors that ask for it.

## Main results

* `PortableShell.AsksForHelp.plan_eq` — they come to this text.
* `PortableShell.help_navigates` — asking for help, on any reachable shell.
-/

namespace PortableShell

variable {ω : Type}

/-- The help of the command at the end of a path. -/
def helpOf (s : Shell) (path : List CStr) (n : Cmd) : List (List Byte) :=
  helpTexts s (some n) (shResolveCommandInternal s path).path

/-- The line of a command in a list of commands. -/
def childLine (cmd : Cmd) : List Byte :=
  vprintfBytes (ascii "  " ++ fmtLeft14 (cmd.name.getD CStr.empty) ++ ascii " " ++
    (cmd.help.getD CStr.empty).bytes ++ ascii "\r\n")

/-- The argument vectors that ask for the help of the command `n` at the end of `path`. -/
inductive AsksForHelp (s : Shell) (path : List CStr) (n : Cmd) : List CStr → Prop
  /-- `help group leaf`. -/
  | builtin (henabled : s.cfg.builtinsEnabled = true) : AsksForHelp s path n (str "help" :: path)
  /-- `group leaf --help anything`. -/
  | token {token : CStr} (htoken : isHelpToken token = true)
      (hchild : ∀ child ∈ n.subcommands.cells, child.name ≠ some token) (extra : List CStr) :
      AsksForHelp s path n (path ++ token :: extra)
  /-- `group`. -/
  | group (hsub : n.hasSubcommands = true) : AsksForHelp s path n path

/-! ## The text -/

/-- A path is not empty. -/
private theorem IsPath.ne_nil {level : List Cmd} {path : List CStr} {n : Cmd}
    (h : IsPath level path n) :
    path ≠ [] := by
  obtain ⟨name, rest, cmd, rfl, -, -⟩ := h.head
  exact List.cons_ne_nil _ _

/-- A path goes on to every child of the command it leads to. -/
private theorem IsPath.concat {level : List Cmd} {path : List CStr} {n : Cmd}
    (h : IsPath level path n) {child : Cmd} {name : CStr} (hchild : child ∈ n.subcommands.cells)
    (hname : child.name = some name) : IsPath level (path ++ [name]) child := by
  induction h with
  | single hmem hfirst => exact .cons hmem hfirst (.single hchild hname)
  | cons hmem hfirst _ ih => exact .cons hmem hfirst (ih hchild)

section Registry

variable {s : Shell} (hreg : Registered s) {path : List CStr} {n : Cmd}
  (hpath : IsPath s.roots path n)

include hreg hpath

/-- The resolution of a path, and of a path with a token behind it that is no child. -/
private theorem resolve_end {rest : List CStr}
    (hrest : ∀ token ∈ rest.head?, ∀ child ∈ n.subcommands.cells, child.name ≠ some token) :
    shResolveCommandInternal s (path ++ rest) =
      ⟨some n, path.length, (shResolveCommandInternal s path).path⟩ := by
  obtain ⟨text, htext⟩ := resolve_path hreg hpath
  have hself := htext []
  rw [List.append_nil] at hself
  rw [htext, hself]
  cases rest with
  | nil => rfl
  | cons token extra =>
    have hnone : findChild n.subcommands.cells token = none := by
      refine List.find?_eq_none.mpr ?_
      intro child hchild
      simpa using hrest token rfl child hchild
    simp only [resolveLoop, hnone]

/-- The resolution of a path. -/
private theorem resolve_self : shResolveCommandInternal s path =
    ⟨some n, path.length, (shResolveCommandInternal s path).path⟩ := by
  have hnone : ∀ token ∈ ([] : List CStr).head?, ∀ child ∈ n.subcommands.cells,
      child.name ≠ some token := fun _ htoken => absurd htoken (Option.not_mem_none _)
  have hend := resolve_end hreg hpath hnone
  rwa [List.append_nil] at hend

/-- A dispatch of a path, or of a path with a token behind it that is no child, concerns the
command at the end of the path. -/
private theorem plan_end {rest : List CStr}
    (hrest : ∀ token ∈ rest.head?, ∀ child ∈ n.subcommands.cells, child.name ≠ some token) :
    plan s (path ++ rest) =
      commandPlan s (path ++ rest) (shResolveCommandInternal s (path ++ rest)) n := by
  refine plan_of_not_builtin (List.append_ne_nil_of_left_ne_nil hpath.ne_nil rest)
    (hpath.not_builtin hreg rest) ?_
  rw [resolve_end hreg hpath hrest]

/-- **The three ways** come to the same text.

**Proof sketch.** One case per way of asking. Each time the resolution ends at the command itself,
as no child has the name of a help token, and the branch taken prints its help. -/
theorem AsksForHelp.plan_eq {argv : List CStr} (h : AsksForHelp s path n argv) :
    plan s argv = .print (helpOf s path n) Status.ok := by
  cases h with
  | builtin henabled =>
    have hend := resolve_self hreg hpath
    have hplan : plan s (str "help" :: path) = helpPlan s path := if_pos ⟨henabled, rfl⟩
    rw [hplan, helpPlan, if_neg hpath.ne_nil]
    dsimp only
    rw [hend, if_pos ⟨rfl, rfl⟩]
    rfl
  | @token token htoken hchild extra =>
    have hrest : ∀ t ∈ (token :: extra).head?, ∀ child ∈ n.subcommands.cells,
        child.name ≠ some t := by
      intro t ht
      rw [← Option.some.inj ht]
      exact hchild
    rw [plan_end hreg hpath hrest, resolve_end hreg hpath hrest, commandPlan]
    dsimp only
    rw [List.drop_left, List.head?_cons, Option.any_some, if_pos htoken]
    rfl
  | group hsub =>
    have hnone : ∀ token ∈ ([] : List CStr).head?, ∀ child ∈ n.subcommands.cells,
        child.name ≠ some token := fun _ htoken => absurd htoken (Option.not_mem_none _)
    have hplan := plan_end hreg hpath hnone
    rw [List.append_nil] at hplan
    rw [hplan, resolve_self hreg hpath, commandPlan]
    dsimp only
    rw [List.drop_length, List.head?_nil, Option.any_none, if_neg Bool.false_ne_true,
      if_neg fun h => h.1 rfl, if_pos hsub]
    rfl

end Registry

/-- The help of a command lists its visible children. -/
private theorem childLine_mem_helpOf (s : Shell) (path : List CStr) {n child : Cmd}
    (hchild : child ∈ n.subcommands.cells) (hvisible : child.hidden = false) :
    childLine child ∈ helpOf s path n := by
  have hsub : n.hasSubcommands = true := by
    by_contra hnone
    rw [Bool.not_eq_true, hasSubcommands_eq_false_iff] at hnone
    rw [hnone] at hchild
    exact absurd hchild List.not_mem_nil
  have hline : childLine child ∈ commandListTexts n.subcommands.cells :=
    List.mem_map.mpr ⟨child, List.mem_filter.mpr ⟨hchild, by rw [hvisible]; rfl⟩, rfl⟩
  unfold helpOf helpTexts
  dsimp only
  rw [if_pos hsub]
  exact List.mem_append_right _ (List.mem_cons_of_mem _ hline)

/-- The children of the command at the end of a path have names.

**Proof sketch.** Induction on the path: the levels below a valid level are valid, and commands of a
valid level have names. -/
private theorem IsPath.child_name {level : List Cmd} {path : List CStr} {n : Cmd}
    (h : IsPath level path n)
    {b root : Bool} {levels : ℕ} (hv : LevelValid b levels root level) {child : Cmd}
    (hchild : child ∈ n.subcommands.cells) : ∃ name, child.name = some name := by
  induction h generalizing root levels with
  | single hmem hname =>
    cases levels with
    | zero => exact absurd hv not_levelValid_zero
    | succ levels =>
      rcases (hv.command hmem).2 with hnil | hbelow
      · rw [hnil] at hchild
        exact absurd hchild List.not_mem_nil
      · cases levels with
        | zero => exact absurd hbelow not_levelValid_zero
        | succ below =>
          obtain ⟨text, htext, -⟩ := ((commandRejected_iff _ _ _).mp (hbelow.command hchild).1).name
          exact ⟨text, htext⟩
  | cons hmem hname hpath ih =>
    cases levels with
    | zero => exact absurd hv not_levelValid_zero
    | succ levels =>
      rcases (hv.command hmem).2 with hnil | hbelow
      · rw [hnil] at hpath
        obtain ⟨_, _, c, -, hc, -⟩ := hpath.head
        exact absurd hc List.not_mem_nil
      · exact ih hbelow hchild

/-! ## Asking for help -/

/-- A dispatch that prints runs no handler and changes no shell. -/
private theorem shExecuteArgv_print (env : Env ω) {st : Sys ω} {argv : List CStr}
    (hcap : ¬(argv.length > st.sh.argvCapacity ∨ argv.length > intMax)) {texts : List (List Byte)}
    {status : Status} (hplan : plan st.sh argv = .print texts status) :
    shExecuteArgv env st argv = (writes env (st.emit (.dispatch argv)) texts, status) ∧
      handlerCalls (shExecuteArgv env st argv).1 = handlerCalls st := by
  have hexec : shExecuteArgv env st argv =
      (writes env (st.emit (.dispatch argv)) texts, status) := by
    rw [shExecuteArgv, if_neg hcap, dispatch_eq, hplan]
    rfl
  refine ⟨hexec, ?_⟩
  rw [hexec, handlerCalls, observe_writes env handlerCall_ignoresOutput, observe_emit]
  exact List.append_nil _

/-- **Help can be navigated.** On any reachable shell the three ways to ask for the help of a
command print the same text and return `SH_OK`; no handler runs and the shell does not change. The
text lists every visible child, whose help can be asked for in turn under the path prolonged by its
name. What is no path of names is an unknown topic.

**Proof sketch.** The way of asking determines the plan (`AsksForHelp.plan_eq`), and a plan that
prints calls no handler and changes no shell. A visible child has its line in the text by
construction and prolongs the path. An unknown topic resolves to nothing or leaves tokens over. -/
theorem help_navigates {env : Env ω} {st : Sys ω} (h : Reachable env st) :
    (∀ path n argv, IsPath st.sh.roots path n → AsksForHelp st.sh path n argv →
      argv.length ≤ st.sh.argvCapacity →
      shExecuteArgv env st argv =
          (writes env (st.emit (.dispatch argv)) (helpOf st.sh path n), Status.ok) ∧
        (shExecuteArgv env st argv).1.sh = st.sh ∧
        handlerCalls (shExecuteArgv env st argv).1 = handlerCalls st ∧
        ∀ child ∈ n.subcommands.cells, child.hidden = false →
          childLine child ∈ helpOf st.sh path n ∧
            ∃ name, child.name = some name ∧ IsPath st.sh.roots (path ++ [name]) child) ∧
    (st.sh.cfg.builtinsEnabled = true → ∀ topic, topic ≠ [] →
      (∀ n, ¬IsPath st.sh.roots topic n) → topic.length < st.sh.argvCapacity →
      shExecuteArgv env st (str "help" :: topic) =
          (writes env (st.emit (.dispatch (str "help" :: topic)))
            [(str "help: unknown topic\r\n").bytes], Status.errUnknownCommand) ∧
        handlerCalls (shExecuteArgv env st (str "help" :: topic)).1 = handlerCalls st) := by
  have hreg := h.registered
  have hle := h.wf.argv_le
  have hmax : shMaxArgc ≤ intMax := by decide
  constructor
  · intro path n argv hpath hasks hcap
    have hfits : ¬(argv.length > st.sh.argvCapacity ∨ argv.length > intMax) := by
      rintro (hgt | hgt) <;> omega
    obtain ⟨hexec, hcalls⟩ := shExecuteArgv_print env hfits (hasks.plan_eq hreg hpath)
    refine ⟨hexec, by rw [hexec, writes_sh, Sys.emit_sh], hcalls, ?_⟩
    intro child hchild hvisible
    obtain ⟨name, hname⟩ := hpath.child_name hreg.valid hchild
    exact ⟨childLine_mem_helpOf st.sh path hchild hvisible, name, hname, hpath.concat hchild hname⟩
  · intro henabled topic hne hno hcap
    have hfits : ¬((str "help" :: topic).length > st.sh.argvCapacity ∨
        (str "help" :: topic).length > intMax) := by
      rw [List.length_cons]
      rintro (hgt | hgt) <;> omega
    refine shExecuteArgv_print env hfits ?_
    have hplan : plan st.sh (str "help" :: topic) = helpPlan st.sh topic :=
      if_pos ⟨henabled, rfl⟩
    rw [hplan, helpPlan, if_neg hne]
    dsimp only
    rw [if_neg]
    rintro ⟨hsome, hall⟩
    -- a command that consumes the whole topic is at its end
    obtain ⟨n, hn⟩ := Option.isSome_iff_exists.mp hsome
    have hlongest := (longestPath_iff hreg topic _ n).mpr ⟨hn, rfl⟩
    rw [hall, List.take_length] at hlongest
    exact hno n hlongest.isPath

/-- A group with this leaf in it. -/
def boardCommand : Cmd :=
  { ledCommand with
    name := some (str "board"), handler := none, subcommands := .array [ledCommand] }

/-- The small shell with this group registered. -/
def boardSys : Sys Unit :=
  run idleEnv ⟨smallShell, (), [], []⟩ [.api (.registerCommands (.array [boardCommand]))]

/-- The help of the group lists the leaf, and the help of the leaf can be asked for.

**Proof sketch.** The theorem at the group, at the leaf with a help token behind it, and at a topic
that is no root. -/
theorem help_navigates_board :
    (shExecuteArgv idleEnv boardSys [str "board"]).2 = Status.ok ∧
      childLine ledCommand ∈ helpOf boardSys.sh [str "board"] boardCommand ∧
      (shExecuteArgv idleEnv boardSys [str "board", str "led", str "--help"]).2 = Status.ok ∧
      (shExecuteArgv idleEnv boardSys [str "help", str "led"]).2 = Status.errUnknownCommand := by
  have hreach : Reachable idleEnv boardSys :=
    ⟨some smallConfig, smallStorage, smallShell, (), _, smallStorage_sized, shInit_small, rfl⟩
  obtain ⟨hknown, hunknown⟩ := help_navigates hreach
  have hboard : IsPath boardSys.sh.roots [str "board"] boardCommand :=
    .single (List.mem_singleton.mpr rfl) rfl
  have hled : IsPath boardSys.sh.roots [str "board", str "led"] ledCommand :=
    .cons (List.mem_singleton.mpr rfl) rfl (.single (List.mem_singleton.mpr rfl) rfl)
  obtain ⟨hgroup, -, -, hlisted⟩ := hknown _ _ _ hboard (.group rfl) (by decide)
  have hasks : AsksForHelp boardSys.sh [str "board", str "led"] ledCommand
      [str "board", str "led", str "--help"] :=
    .token rfl (fun child hchild => absurd hchild List.not_mem_nil) []
  obtain ⟨hleaf, -⟩ := hknown _ _ _ hled hasks (by decide)
  have hnone : ∀ n, ¬IsPath boardSys.sh.roots [str "led"] n := by
    intro n hn
    obtain ⟨name, rest, cmd, hsplit, hmem, hname⟩ := hn.head
    rw [List.mem_singleton.mp hmem, ← (List.cons.inj hsplit).1] at hname
    exact absurd hname (by decide)
  obtain ⟨hother, -⟩ := hunknown rfl [str "led"] (List.cons_ne_nil _ _) hnone (by decide)
  exact ⟨congrArg Prod.snd hgroup, (hlisted ledCommand (List.mem_singleton.mpr rfl) rfl).1,
    congrArg Prod.snd hleaf, congrArg Prod.snd hother⟩

end PortableShell
