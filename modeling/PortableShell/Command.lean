import PortableShell.Handler

set_option relaxedAutoImplicit false
set_option autoImplicit false

/-!
# Command dispatch

The built-in commands and `sh_command_dispatch_internal`. A function that prints is given by the
list of writes it makes.

## Main definitions

* `PortableShell.helpTexts`, `printHelpFor` — `print_help_for`.
* `PortableShell.builtinHistory`, `builtinEcho` — the built-ins with arguments.
* `PortableShell.shCommandDispatchInternal` — `sh_command_dispatch_internal`.
* `PortableShell.Plan`, `PortableShell.plan` — what a dispatch comes to: its decisions, which
  depend on the shell and the arguments only, apart from their effects.

## Main results

* `PortableShell.dispatch_eq` — a dispatch makes its plan and performs it.
-/

namespace PortableShell

variable {ω : Type}

/-! ## Help texts -/

/-- `print_command_list`. -/
def commandListTexts (commands : List Cmd) : List (List Byte) :=
  (commands.filter fun cmd => !cmd.hidden).map fun cmd =>
    vprintfBytes (ascii "  " ++ fmtLeft14 (cmd.name.getD CStr.empty) ++ ascii " " ++
      (cmd.help.getD CStr.empty).bytes ++ ascii "\r\n")

/-- `print_root_command_list`. -/
def rootCommandListTexts (s : Shell) : List (List Byte) :=
  match s.commandSets with
  | some sets => sets.flatMap fun set => commandListTexts set.commands.cells
  | none => commandListTexts s.commands

/-- The list of built-ins in the root help. -/
def builtinsText : CStr :=
  str "Built-ins:\r\n  help           Show help\r\n  history        Show command history\r\n  echo           Echo controls\r\n  clear          Clear terminal\r\n"

/-- The line `"usage: %s %s\r\n"`, printed when the text is there and not empty. -/
def usageTexts (usage : Option CStr) (path : CStr) : List (List Byte) :=
  match usage with
  | none => []
  | some usage =>
    if usage.isEmpty then []
    else [vprintfBytes (ascii "usage: " ++ path.bytes ++ ascii " " ++ usage.bytes ++ ascii "\r\n")]

/-- The line about the number of arguments, printed for a command with a handler. -/
def arityTexts (cmd : Cmd) : List (List Byte) :=
  if cmd.handler.isNone then []
  else if cmd.maxArgs = shArgsAny then
    [vprintfBytes (ascii "args: min=" ++ fmtUnsigned cmd.minArgs ++
      ascii ", max=any (including command)\r\n")]
  else
    [vprintfBytes (ascii "args: min=" ++ fmtUnsigned cmd.minArgs ++ ascii ", max=" ++
      fmtUnsigned cmd.maxArgs ++ ascii " (including command)\r\n")]

/-- The writes of `print_help_for`. -/
def helpTexts (s : Shell) (cmd : Option Cmd) (path : CStr) : List (List Byte) :=
  match cmd with
  | none =>
    [(str "Commands:\r\n").bytes] ++ rootCommandListTexts s ++
      if s.cfg.builtinsEnabled then [builtinsText.bytes] else []
  | some cmd =>
    [vprintfBytes (path.bytes ++ ascii "\r\n")] ++ usageTexts cmd.usage path ++
      (match cmd.help with
        | none => []
        | some help => if help.isEmpty then [] else [vprintfBytes (help.bytes ++ ascii "\r\n")]) ++
      arityTexts cmd ++
      if cmd.hasSubcommands then
        (str "Subcommands:\r\n").bytes :: commandListTexts cmd.subcommands.cells
      else []

variable (env : Env ω)

/-- `print_help_for`. -/
def printHelpFor (st : Sys ω) (cmd : Option Cmd) (path : CStr) : Sys ω :=
  writes env st (helpTexts st.sh cmd path)

/-! ## Built-ins -/

/-- The listing of `builtin_history`: the entries, oldest first. -/
def historyListTexts (s : Shell) : List (List Byte) :=
  (List.range (shHistoryCount s)).map fun i =>
    vprintfBytes (fmtUnsigned i ++ ascii ": " ++
      ((shHistoryGetNewest s (shHistoryCount s - 1 - i)).getD CStr.empty).bytes ++ ascii "\r\n")

/-- The reads of the listing of `builtin_history`. -/
def touchEntries (st : Sys ω) : Sys ω :=
  (List.range (shHistoryCount st.sh)).foldl (fun st i => st.touch .history (newestStop st.sh i)) st

/-- The header line of `builtin_history`. -/
def historyHeader (s : Shell) : List Byte :=
  vprintfBytes (ascii "history: " ++ fmtUnsigned (shHistoryCount s) ++ ascii "/" ++
    fmtUnsigned (shHistoryCapacity s) ++ ascii " commands\r\n")

/-- Reading the entries changes nothing but the record of accesses. -/
private theorem touchEntries_eq (st : Sys ω) : ∃ a, touchEntries st = { st with accesses := a } :=
  by
  refine List.foldlRecOn (motive := fun st' : Sys ω => ∃ a, st' = { st with accesses := a }) _ _
    ⟨st.accesses, rfl⟩ ?_
  rintro _ ⟨a, rfl⟩ i _
  exact ⟨_, rfl⟩

@[simp] theorem touchEntries_sh (st : Sys ω) : (touchEntries st).sh = st.sh := by
  obtain ⟨a, ha⟩ := touchEntries_eq st
  rw [ha]

@[simp] theorem touchEntries_io (st : Sys ω) : (touchEntries st).io = st.io := by
  obtain ⟨a, ha⟩ := touchEntries_eq st
  rw [ha]

@[simp] theorem touchEntries_trace (st : Sys ω) : (touchEntries st).trace = st.trace := by
  obtain ⟨a, ha⟩ := touchEntries_eq st
  rw [ha]

/-- `builtin_history`. -/
def builtinHistory (st : Sys ω) (argv : List CStr) : Sys ω × Status :=
  if argv.length = 2 ∧ argv[1]? = some (str "clear") then
    (writeInternal env (shHistoryClear st) (str "history cleared\r\n"), Status.ok)
  else
    let st := writes env st [historyHeader st.sh]
    if argv.length = 2 ∧ argv[1]? = some (str "status") then (st, Status.ok)
    else if argv.length ≠ 1 then
      (writeInternal env st (str "usage: history [clear|status]\r\n"), Status.errInvalidArg)
    else (writes env (touchEntries st) (historyListTexts st.sh), Status.ok)

/-- The line that `echo status` prints. -/
def echoText (enabled : Bool) : List Byte :=
  vprintfBytes (ascii "echo: " ++ ascii (if enabled then "on" else "off") ++ ascii "\r\n")

/-- `builtin_echo`. -/
def builtinEcho (st : Sys ω) (argv : List CStr) : Sys ω × Status :=
  if argv.length = 1 ∨ (argv.length = 2 ∧ argv[1]? = some (str "status")) then
    (writes env st [echoText st.sh.echoEnabled], Status.ok)
  else if argv.length = 2 ∧ argv[1]? = some (str "on") then
    (writeInternal env (st.modify (shSetEchoEnabled · true)) (str "echo: on\r\n"), Status.ok)
  else if argv.length = 2 ∧ argv[1]? = some (str "off") then
    (writeInternal env (st.modify (shSetEchoEnabled · false)) (str "echo: off\r\n"), Status.ok)
  else (writeInternal env st (str "usage: echo on|off|status\r\n"), Status.errInvalidArg)

/-- The sequence that clears the terminal. -/
def clearText (cfg : Config) : CStr :=
  if cfg.ansiEnabled then str "\x1b[2J\x1b[H" else str "\r\n"

/-! ## Dispatch -/

/-- Whether a token asks for help behind a command. -/
def isHelpToken (token : CStr) : Bool :=
  token = str "help" || token = str "--help" || token = str "-h"

/-- Whether the arity of a command admits an argument count. -/
def arityAdmits (cmd : Cmd) (argc : ℕ) : Bool :=
  !(decide (argc < cmd.minArgs) ||
    (decide (cmd.maxArgs ≠ shArgsAny) && decide (argc > cmd.maxArgs)))

/-- The part of `sh_command_dispatch_internal` behind the resolution of a command. -/
def dispatchCommand (st : Sys ω) (argv : List CStr) (r : Resolved) (cmd : Cmd) : Sys ω × Status :=
  let rest := argv.drop r.consumed
  if rest.head?.any isHelpToken then (printHelpFor env st (some cmd) r.path, Status.ok)
  else if rest ≠ [] ∧ cmd.hasSubcommands then
    (writes env st [vprintfBytes (ascii "error: unknown subcommand: " ++
      (rest.headD CStr.empty).bytes ++ ascii "\r\n")], Status.errUnknownCommand)
  else if cmd.hasSubcommands then (printHelpFor env st (some cmd) r.path, Status.ok)
  else
    match cmd.handler with
    | none =>
      (writes env st [vprintfBytes (ascii "error: incomplete command: " ++ r.path.bytes ++
        ascii "\r\n")], Status.errIncompleteCommand)
    | some fn =>
      let handlerArgv := argv.drop (r.consumed - 1)
      if !arityAdmits cmd (argv.length - r.consumed + 1) then
        (writes env st (vprintfBytes (ascii "error: invalid argument count for " ++ r.path.bytes ++
          ascii "\r\n") :: usageTexts cmd.usage r.path), Status.errInvalidArg)
      else callHandler env st fn handlerArgv (cmd.userCtx.or st.sh.cfg.userCtx)

/-- `sh_command_dispatch_internal`. -/
def shCommandDispatchInternal (st : Sys ω) (argv : List CStr) : Sys ω × Status :=
  let st := st.emit (.dispatch argv)
  match argv with
  | [] => (st, Status.ok)
  | name :: args =>
    if st.sh.cfg.builtinsEnabled ∧ name = str "help" then
      if args = [] then (printHelpFor env st none CStr.empty, Status.ok)
      else
        let r := shResolveCommandInternal st.sh args
        if r.cmd.isSome ∧ r.consumed = args.length then
          (printHelpFor env st r.cmd r.path, Status.ok)
        else (writeInternal env st (str "help: unknown topic\r\n"), Status.errUnknownCommand)
    else if st.sh.cfg.builtinsEnabled ∧ name = str "history" then builtinHistory env st argv
    else if st.sh.cfg.builtinsEnabled ∧ name = str "echo" then builtinEcho env st argv
    else if st.sh.cfg.builtinsEnabled ∧ name = str "clear" then
      (writeInternal env st (clearText st.sh.cfg), Status.ok)
    else
      let r := shResolveCommandInternal st.sh argv
      match r.cmd with
      | none =>
        (writes env st [vprintfBytes (ascii "error: unknown command: " ++ name.bytes ++
          ascii "\r\n")], Status.errUnknownCommand)
      | some cmd => dispatchCommand env st argv r cmd

/-! ## The decisions of a dispatch -/

/-- What a dispatch comes to. -/
inductive Plan
  /-- It prints and returns. -/
  | print (texts : List (List Byte)) (status : Status)
  /-- The built-in `history` runs. -/
  | history
  /-- The built-in `echo` runs. -/
  | echo
  /-- An application handler runs. -/
  | handler (fn : Ptr) (argv : List CStr) (ctx : Option Ptr)

/-- The plan behind the resolution of a command. -/
def commandPlan (s : Shell) (argv : List CStr) (r : Resolved) (cmd : Cmd) : Plan :=
  let rest := argv.drop r.consumed
  if rest.head?.any isHelpToken then .print (helpTexts s (some cmd) r.path) Status.ok
  else if rest ≠ [] ∧ cmd.hasSubcommands then
    .print [vprintfBytes (ascii "error: unknown subcommand: " ++
      (rest.headD CStr.empty).bytes ++ ascii "\r\n")] Status.errUnknownCommand
  else if cmd.hasSubcommands then .print (helpTexts s (some cmd) r.path) Status.ok
  else
    match cmd.handler with
    | none =>
      .print [vprintfBytes (ascii "error: incomplete command: " ++ r.path.bytes ++
        ascii "\r\n")] Status.errIncompleteCommand
    | some fn =>
      if !arityAdmits cmd (argv.length - r.consumed + 1) then
        .print (vprintfBytes (ascii "error: invalid argument count for " ++ r.path.bytes ++
          ascii "\r\n") :: usageTexts cmd.usage r.path) Status.errInvalidArg
      else .handler fn (argv.drop (r.consumed - 1)) (cmd.userCtx.or s.cfg.userCtx)

/-- The plan of the built-in `help`. -/
def helpPlan (s : Shell) (args : List CStr) : Plan :=
  if args = [] then .print (helpTexts s none CStr.empty) Status.ok
  else
    let r := shResolveCommandInternal s args
    if r.cmd.isSome ∧ r.consumed = args.length then .print (helpTexts s r.cmd r.path) Status.ok
    else .print [(str "help: unknown topic\r\n").bytes] Status.errUnknownCommand

/-- The plan of a dispatch. -/
def plan (s : Shell) : List CStr → Plan
  | [] => .print [] Status.ok
  | name :: args =>
    if s.cfg.builtinsEnabled ∧ name = str "help" then helpPlan s args
    else if s.cfg.builtinsEnabled ∧ name = str "history" then .history
    else if s.cfg.builtinsEnabled ∧ name = str "echo" then .echo
    else if s.cfg.builtinsEnabled ∧ name = str "clear" then
      .print [(clearText s.cfg).bytes] Status.ok
    else
      let r := shResolveCommandInternal s (name :: args)
      match r.cmd with
      | none =>
        .print [vprintfBytes (ascii "error: unknown command: " ++ name.bytes ++ ascii "\r\n")]
          Status.errUnknownCommand
      | some cmd => commandPlan s (name :: args) r cmd

/-- Shells that agree on the configuration and the registry. -/
structure SameRegistry (s s' : Shell) : Prop where
  cfg : s'.cfg = s.cfg
  commands : s'.commands = s.commands
  commandSets : s'.commandSets = s.commandSets

/-- A resolution depends on the registry only. -/
theorem SameRegistry.resolve_eq {s s' : Shell} (h : SameRegistry s s') (argv : List CStr) :
    shResolveCommandInternal s' argv = shResolveCommandInternal s argv := by
  have hroot : findRoot s' = findRoot s := by
    funext name
    rw [findRoot, findRoot, h.commandSets, h.commands]
  rw [shResolveCommandInternal, shResolveCommandInternal, hroot]

/-- The help texts depend on the configuration and the registry only. -/
theorem SameRegistry.helpTexts_eq {s s' : Shell} (h : SameRegistry s s') (cmd : Option Cmd)
    (path : CStr) : helpTexts s' cmd path = helpTexts s cmd path := by
  cases cmd with
  | none => simp only [helpTexts, rootCommandListTexts, h.cfg, h.commands, h.commandSets]
  | some cmd => rfl

/-- A plan depends on the configuration and the registry only. -/
theorem SameRegistry.plan_eq {s s' : Shell} (h : SameRegistry s s') (argv : List CStr) :
    plan s' argv = plan s argv := by
  cases argv with
  | nil => rfl
  | cons name args =>
    rw [plan, plan]
    simp only [helpPlan, commandPlan, h.resolve_eq, h.helpTexts_eq, h.cfg]

/-- Carry out a plan. -/
def perform (st : Sys ω) (argv : List CStr) : Plan → Sys ω × Status
  | .print texts status => (writes env st texts, status)
  | .history => builtinHistory env st argv
  | .echo => builtinEcho env st argv
  | .handler fn args ctx => callHandler env st fn args ctx

/-- The part of a dispatch behind the resolution of a command. -/
private theorem dispatchCommand_eq (st : Sys ω) (argv : List CStr) (r : Resolved) (cmd : Cmd) :
    dispatchCommand env st argv r cmd = perform env st argv (commandPlan st.sh argv r cmd) := by
  rw [dispatchCommand, commandPlan]
  dsimp only
  cases cmd.handler with
  | none =>
    dsimp only
    split_ifs <;> rfl
  | some fn =>
    dsimp only
    split_ifs <;> rfl

/-- **A dispatch** makes its plan and performs it.

**Proof sketch.** The branches of `sh_command_dispatch_internal` are those of `plan`, so each closes
by reflexivity once its conditions are used. `dispatchCommand_eq` is the branch of a command that
was found. -/
theorem dispatch_eq (st : Sys ω) (argv : List CStr) :
    shCommandDispatchInternal env st argv =
      perform env (st.emit (.dispatch argv)) argv (plan st.sh argv) := by
  have hsh : plan st.sh argv = plan (st.emit (.dispatch argv)).sh argv := rfl
  rw [hsh]
  unfold shCommandDispatchInternal plan
  generalize st.emit (.dispatch argv) = st
  dsimp only
  cases argv with
  | nil => rfl
  | cons name args =>
    dsimp only
    split_ifs
    · rw [helpPlan, if_pos ‹_›]
      rfl
    · rw [helpPlan, if_neg ‹_›]
      dsimp only
      rw [if_pos ‹_›]
      rfl
    · rw [helpPlan, if_neg ‹_›]
      dsimp only
      rw [if_neg ‹_›]
      rfl
    · rfl
    · rfl
    · rfl
    · cases (shResolveCommandInternal st.sh (name :: args)).cmd with
      | none => rfl
      | some cmd => exact dispatchCommand_eq env st _ _ cmd

end PortableShell
