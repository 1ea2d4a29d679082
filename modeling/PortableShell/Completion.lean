import PortableShell.Editor

set_option relaxedAutoImplicit false
set_option autoImplicit false

/-!
# Completion

`sh_completion.c`: the Tab key. The candidates at the cursor come from a level, which is the root
level of the registry with the built-ins, the children of a command, or a provider.

## Main definitions

* `PortableShell.CompletionLevel` — `sh_completion_level_t`.
* `PortableShell.findExactLevel`, `levelLimit`, `levelCandidate` — the access to a level.
* `PortableShell.replaceToken`, `printMatches` — the two effects of a completion.
* `PortableShell.shCompleteLineInternal` — `sh_complete_line_internal`.
-/

namespace PortableShell

variable {ω : Type}

/-! ## The tables of the built-ins -/

/-- `SH_CMD` without a handler. -/
def shCmd (name usage help : String) : Cmd where
  name := some (str name)
  usage := some (str usage)
  help := some (str help)
  handler := none
  subcommands := .null 0
  flags := 0
  minArgs := 1
  maxArgs := shArgsAny
  userCtx := none
  completion := none

/-- `SH_CMD_SUB`. -/
def shCmdSub (name usage help : String) (subs : List Cmd) : Cmd :=
  { shCmd name usage help with subcommands := .array subs, maxArgs := 1 }

/-- `history_children`. -/
def historyChildren : List Cmd :=
  [shCmd "clear" "" "Clear command history", shCmd "status" "" "Show history usage"]

/-- `echo_children`. -/
def echoChildren : List Cmd :=
  [shCmd "off" "" "Disable local echo", shCmd "on" "" "Enable local echo",
    shCmd "status" "" "Show echo state"]

/-- `builtin_commands`. -/
def builtinCommands : List Cmd :=
  [shCmd "clear" "" "Clear terminal", shCmd "help" "[command]" "Show help",
    shCmdSub "history" "[clear|status]" "Show command history" historyChildren,
    shCmdSub "echo" "on|off|status" "Control local echo" echoChildren]

/-! ## Levels -/

/-- `sh_completion_level_t`. A table is the list of its commands. -/
structure CompletionLevel where
  primary : List Cmd
  secondary : List Cmd
  providerCommand : Option Cmd
  providerArgIndex : ℕ
  registeredRoot : Bool

/-- `starts_with`. -/
def startsWith (text pre : CStr) : Bool := pre.bytes.isPrefixOf text.bytes

/-- The lookup over the sets in `find_exact_level`. -/
def findExactSets (s : Shell) (level : CompletionLevel) (name : CStr) : Option Cmd :=
  match s.commandSets with
  | some sets =>
    if level.registeredRoot then sets.findSome? fun set => findChild set.commands.cells name
    else none
  | none => none

/-- `find_exact_level`. -/
def findExactLevel (s : Shell) (level : CompletionLevel) (name : CStr) : Option Cmd :=
  match findExactSets s level name with
  | some cmd => some cmd
  | none =>
    match findChild level.primary name with
    | some cmd => some cmd
    | none => findChild level.secondary name

/-- `level_limit`. -/
def levelLimit (s : Shell) (level : CompletionLevel) : ℕ :=
  if level.providerCommand.isSome then shCompletionProviderMaxItems
  else
    match s.commandSets with
    | some sets =>
      if level.registeredRoot then
        (sets.map fun set => set.commands.count).sum + level.secondary.length
      else level.primary.length + level.secondary.length
    | none => level.primary.length + level.secondary.length

/-- The name by which a command is offered. -/
def visibleName (cmd : Cmd) : Option CStr := if cmd.hidden then none else cmd.name

/-- The loop of `level_candidate` over the sets, followed by the secondary table. -/
def setsCandidate (secondary : List Cmd) : List CommandSet → ℕ → Option Cmd
  | [], index => secondary[index]?
  | set :: sets, index =>
    if index < set.commands.count then set.commands.cells[index]?
    else setsCandidate secondary sets (index - set.commands.count)

/-- The part of `level_candidate` for the primary and the secondary table. -/
def tableCandidate (level : CompletionLevel) (index : ℕ) : Option Cmd :=
  if index < level.primary.length then level.primary[index]?
  else level.secondary[index - level.primary.length]?

/-- The static part of `level_candidate`: no result behind the last candidate, and no name for
a hidden one. -/
def staticCandidate (s : Shell) (level : CompletionLevel) (index : ℕ) : Option (Option CStr) :=
  match s.commandSets with
  | some sets =>
    if level.registeredRoot then (setsCandidate level.secondary sets index).map visibleName
    else (tableCandidate level index).map visibleName
  | none => (tableCandidate level index).map visibleName

variable (env : Env ω)

/-- `level_candidate`. -/
def levelCandidate (st : Sys ω) (level : CompletionLevel) (index : ℕ) :
    Sys ω × Option (Option CStr) :=
  match level.providerCommand with
  | some cmd =>
    match cmd.completion with
    | some fn =>
      let r := callProvider env st fn level.providerArgIndex index
        (cmd.userCtx.or st.sh.cfg.userCtx)
      (r.1, r.2.map some)
    | none => (st, none)
  | none => (st, staticCandidate st.sh level index)

/-- The number of leading bytes two lists share. -/
def commonPrefixLength : List Byte → List Byte → ℕ
  | a :: as, b :: bs => if a = b then commonPrefixLength as bs + 1 else 0
  | _, _ => 0

/-- `common_prefix_len`. -/
def commonPrefixLen (a b : CStr) : ℕ := commonPrefixLength a.bytes b.bytes

/-! ## Effects -/

/-- The byte after the replacement in `replace_token`: a space unless one follows. -/
def spaceLen (s : Shell) (stop : ℕ) (appendSpace : Bool) : ℕ :=
  if appendSpace ∧ (stop = s.lineLen ∨ isspace (cell s.line stop) = false) then 1 else 0

/-- What `replace_token` does to the shell when the new line fits; `space` is the number of
spaces appended. -/
def Shell.replaceRange (s : Shell) (start stop : ℕ) (replacement : CStr) (space : ℕ) : Shell :=
  let line := Mem.move s.line (start + replacement.length + space) stop (s.lineLen - stop + 1)
  let line := Mem.store line start replacement.bytes
  { s with
    line := if space ≠ 0 then Mem.store line (start + replacement.length) [chr ' '] else line
    lineLen := start + replacement.length + space + (s.lineLen - stop)
    cursor := start + replacement.length + space
    historyView := -1 }

/-- `replace_token`. -/
def replaceToken (st : Sys ω) (start stop : ℕ) (replacement : CStr) (appendSpace : Bool) :
    Sys ω × Status :=
  if start > stop ∨ stop > st.sh.lineLen then (st, Status.errInvalidArg)
  else
    let space := spaceLen st.sh stop appendSpace
    let newLen := start + replacement.length + space + (st.sh.lineLen - stop)
    if newLen ≥ st.sh.lineCapacity then (st, Status.errLineTooLong)
    else
      let st := (st.touch .line (st.sh.lineLen + 1)).touch .line (newLen + 1)
      (shRedrawLineInternal env (st.modify (·.replaceRange start stop replacement space)),
        Status.ok)

/-- The loop of `print_matches` from candidate `i` on, with `n` candidates left. -/
def printMatchesLoop (level : CompletionLevel) (pre : CStr) : ℕ → ℕ → Sys ω → ℕ → Sys ω
  | 0, _, st, _ => st
  | n + 1, i, st, displayed =>
    match levelCandidate env st level i with
    | (st, none) => st
    | (st, some none) => printMatchesLoop level pre n (i + 1) st displayed
    | (st, some (some name)) =>
      if startsWith name pre then
        printMatchesLoop level pre n (i + 1)
          (if displayed < shCompletionMaxMatches then
            writes env st [vprintfBytes (name.bytes ++ ascii "\r\n")]
          else st)
          (displayed + 1)
      else printMatchesLoop level pre n (i + 1) st displayed

/-- `print_matches`. -/
def printMatches (st : Sys ω) (level : CompletionLevel) (pre : CStr) (matchCount : ℕ) : Sys ω :=
  let st := writeInternal env st (str "\r\n")
  let st := printMatchesLoop env level pre (levelLimit st.sh level) 0 st 0
  let st :=
    if matchCount > shCompletionMaxMatches then
      writes env st [vprintfBytes (ascii "... " ++
        fmtUnsigned (matchCount - shCompletionMaxMatches) ++ ascii " more\r\n")]
    else st
  shRedrawLineInternal env st

/-! ## The Tab key -/

/-- The variables `first_match`, `common_len` and `match_count`. -/
structure Matches where
  firstMatch : CStr
  commonLen : ℕ
  matchCount : ℕ

/-- Count one more match. -/
def Matches.add (m : Matches) (name : CStr) : Matches :=
  if m.matchCount = 0 then
    let nameLen := if name.length > shMaxLineLen then shMaxLineLen else name.length
    ⟨name.take nameLen, nameLen, 1⟩
  else
    ⟨m.firstMatch, min m.commonLen (commonPrefixLen m.firstMatch name), m.matchCount + 1⟩

/-- The loop that collects the matches from candidate `i` on, with `n` candidates left. The limit
of a level does not change in the loop: a level without provider runs no application code. -/
def scanLoop (level : CompletionLevel) (pre : CStr) : ℕ → ℕ → Sys ω → Matches → Sys ω × Matches
  | 0, _, st, m => (st, m)
  | n + 1, i, st, m =>
    match levelCandidate env st level i with
    | (st, none) => (st, m)
    | (st, some none) => scanLoop level pre n (i + 1) st m
    | (st, some (some name)) =>
      scanLoop level pre n (i + 1) st (if startsWith name pre then m.add name else m)

/-- The level of the root commands. -/
def rootLevel (s : Shell) : CompletionLevel where
  primary := if s.commandSets.isSome then [] else s.commands
  secondary := if s.cfg.builtinsEnabled then builtinCommands else []
  providerCommand := none
  providerArgIndex := 0
  registeredRoot := s.commandSets.isSome

/-- The level of the children of a command. -/
def childLevel (cmd : Cmd) : CompletionLevel := ⟨cmd.subcommands.cells, [], none, 0, false⟩

/-- The level of the provider of a command. -/
def providerLevel (cmd : Cmd) (argIndex : ℕ) : CompletionLevel :=
  ⟨[], [], some cmd, argIndex, false⟩

/-- The loop over the complete tokens before the cursor, which descends one level for each. The
function returns early when there is nothing to complete. -/
def descend (s : Shell) : CompletionLevel → List CStr → Option CompletionLevel
  | level, [] => some level
  | level, token :: tokens =>
    match findExactLevel s level token with
    | none => none
    | some exact =>
      if exact.hasSubcommands then descend s (childLevel exact) tokens
      else if exact.completion.isSome ∧ exact.sensitive = false then
        some (providerLevel exact (tokens.length + 1))
      else none

/-- The loop that looks for the start of the token at the cursor. -/
def Shell.tokenStart (s : Shell) : ℕ := s.skipWordLeft s.cursor

/-- The loop that looks for the end of the token at the cursor, with `n` bytes left. -/
def Shell.skipWordRight (s : Shell) : ℕ → ℕ → ℕ
  | 0, stop => stop
  | n + 1, stop => if isspace (cell s.line stop) then stop else s.skipWordRight n (stop + 1)

/-- The end of the token at the cursor. -/
def Shell.tokenEnd (s : Shell) : ℕ := s.skipWordRight (s.lineLen - s.cursor) s.cursor

/-- The part of the token at the cursor that lies left of it. -/
def Shell.tokenPrefix (s : Shell) : CStr :=
  CStr.at ((s.line.drop s.tokenStart).take (s.cursor - s.tokenStart) ++ [0]) 0

/-- The complete tokens before the one at the cursor. -/
def Shell.tokensBefore (s : Shell) (tokens : List CStr) : List CStr :=
  if s.cursor - s.tokenStart ≠ 0 then tokens.dropLast else tokens

section Scans

variable {s s' : Shell} {n : ℕ}

/-- The scan for the start of a word looks at the bytes left of its end. -/
theorem skipWordLeft_congr (h : ∀ i < n, cell s'.line i = cell s.line i) :
    s'.skipWordLeft n = s.skipWordLeft n := by
  induction n with
  | zero => rfl
  | succ n ih =>
    rw [Shell.skipWordLeft, Shell.skipWordLeft, h n n.lt_succ_self,
      ih fun i hi => h i (Nat.lt_succ_of_lt hi)]

/-- The scan over whitespace looks at the bytes left of its end. -/
theorem skipSpacesLeft_congr (h : ∀ i < n, cell s'.line i = cell s.line i) :
    s'.skipSpacesLeft n = s.skipSpacesLeft n := by
  induction n with
  | zero => rfl
  | succ n ih =>
    rw [Shell.skipSpacesLeft, Shell.skipSpacesLeft, h n n.lt_succ_self,
      ih fun i hi => h i (Nat.lt_succ_of_lt hi)]

/-- The scan for the end of a word looks at the bytes right of its start. -/
theorem skipWordRight_congr {stop : ℕ} (h : ∀ i < stop + n, cell s'.line i = cell s.line i) :
    s'.skipWordRight n stop = s.skipWordRight n stop := by
  induction n generalizing stop with
  | zero => rfl
  | succ n ih =>
    rw [Shell.skipWordRight, Shell.skipWordRight, h stop (by omega),
      ih fun i hi => h i (by omega)]

end Scans

/-- Two shells with the same editor line. -/
structure SameLine (s s' : Shell) : Prop where
  line : s'.line = s.line
  lineLen : s'.lineLen = s.lineLen
  cursor : s'.cursor = s.cursor

namespace SameLine

variable {s s' : Shell}

/-- The bytes of the line are the same. -/
theorem cell_eq (h : SameLine s s') (i : ℕ) : cell s'.line i = cell s.line i := by rw [h.line]

/-- The scan for the start of a word depends on the line. -/
private theorem skipWordLeft_eq (h : SameLine s s') (n : ℕ) :
    s'.skipWordLeft n = s.skipWordLeft n :=
  skipWordLeft_congr fun i _ => h.cell_eq i

/-- The word left of the cursor depends on the line. -/
theorem wordStart_eq (h : SameLine s s') : s'.wordStart = s.wordStart := by
  rw [Shell.wordStart, Shell.wordStart, h.cursor, skipSpacesLeft_congr fun i _ => h.cell_eq i,
    h.skipWordLeft_eq]

/-- The start of the token at the cursor depends on the line. -/
theorem tokenStart_eq (h : SameLine s s') : s'.tokenStart = s.tokenStart := by
  rw [Shell.tokenStart, Shell.tokenStart, h.skipWordLeft_eq, h.cursor]

/-- The end of the token at the cursor depends on the line. -/
theorem tokenEnd_eq (h : SameLine s s') : s'.tokenEnd = s.tokenEnd := by
  rw [Shell.tokenEnd, Shell.tokenEnd, h.lineLen, h.cursor,
    skipWordRight_congr fun i _ => h.cell_eq i]

/-- The token left of the cursor depends on the line. -/
theorem tokenPrefix_eq (h : SameLine s s') : s'.tokenPrefix = s.tokenPrefix := by
  rw [Shell.tokenPrefix, Shell.tokenPrefix, h.tokenStart_eq, h.line, h.cursor]

end SameLine

/-- The part of `sh_complete_line_internal` behind the collection of the matches. -/
def completeMatches (st : Sys ω) (level : CompletionLevel) (pre : CStr) (start stop : ℕ)
    (m : Matches) : Sys ω × Status :=
  if m.matchCount = 0 then (st, Status.ok)
  else if m.matchCount = 1 then replaceToken env st start stop m.firstMatch true
  else if m.commonLen > st.sh.cursor - start then
    replaceToken env st start stop (m.firstMatch.take m.commonLen) false
  else (printMatches env st level pre m.matchCount, Status.errAmbiguous)

/-- `sh_complete_line_internal`. -/
def shCompleteLineInternal (st : Sys ω) : Sys ω × Status :=
  if st.sh.cursor > st.sh.lineLen ∨ st.sh.cursor > shMaxLineLen then (st, Status.errInvalidArg)
  else
    let r := shTokenize (st.sh.line.take st.sh.cursor ++ [0]) st.sh.argvCapacity
    let start := st.sh.tokenStart
    let stop := st.sh.tokenEnd
    let pre := st.sh.tokenPrefix
    let st := st.touch .line st.sh.lineLen
    if r.status ≠ Status.ok then (st, r.status)
    else
      match descend st.sh (rootLevel st.sh) (st.sh.tokensBefore r.texts) with
      | none => (st, Status.ok)
      | some level =>
        let scanned := scanLoop env level pre (levelLimit st.sh level) 0 st ⟨CStr.empty, 0, 0⟩
        completeMatches env scanned.1 level pre start stop scanned.2

end PortableShell
