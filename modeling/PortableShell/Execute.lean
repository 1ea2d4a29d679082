import PortableShell.Command
import PortableShell.Completion

set_option relaxedAutoImplicit false
set_option autoImplicit false

/-!
# Executing and reading lines

The rest of `sh_shell.c`: how a line is recorded and executed, how an input byte is processed,
how a shell is initialized, and the calls an application makes.

## Main definitions

* `PortableShell.buildHistoryLine` — `build_history_line`.
* `PortableShell.shExecuteLine`, `shExecuteArgv` — `sh_execute_line` and `sh_execute_argv`.
* `PortableShell.handleEnter`, `shInputByte`, `shInput` — the input path.
* `PortableShell.shInit`, `shInitStatic` — initialization.
* `PortableShell.Op`, `PortableShell.run` — a call of the public API, and a run of calls.
* `PortableShell.Reachable` — the systems that a run reaches from an initialized shell.
-/

namespace PortableShell

variable {ω : Type}

/-! ## The history line -/

/-- `token_needs_quotes`. -/
def tokenNeedsQuotes (token : CStr) : Bool :=
  token.isEmpty || token.bytes.any fun c =>
    c = chr ' ' || c = chr '\t' || c = dquote || c = backslash || c = squote

/-- `append_char` on the text of a buffer of `dstSize` bytes. -/
def appendChar (dst : List Byte) (dstSize : ℕ) (value : Byte) : List Byte :=
  if dst.length + 1 < dstSize then dst ++ [value] else dst

/-- The loop of `append_token` over the bytes of the token. -/
def appendBytes (dst : List Byte) (dstSize : ℕ) (bytes : List Byte) : List Byte :=
  bytes.foldl (fun dst c =>
    appendChar (if c = dquote ∨ c = backslash then appendChar dst dstSize backslash else dst)
      dstSize c) dst

/-- `append_token` on the text of a buffer of `dstSize` bytes. -/
def appendToken (dst : List Byte) (dstSize : ℕ) (token : CStr) : List Byte :=
  let quoted := tokenNeedsQuotes token
  let dst := if dst.length ≠ 0 ∧ dst.length + 1 < dstSize then dst ++ [chr ' '] else dst
  let dst := if quoted then appendChar dst dstSize dquote else dst
  let dst := appendBytes dst dstSize token.bytes
  if quoted then appendChar dst dstSize dquote else dst

/-- The size of the buffer for the history line. -/
def historyLineSize : ℕ := shMaxLineLen + 1

/-- The text that stands for a secret token. -/
def hiddenToken : CStr := str "<hidden>"

variable (env : Env ω)

/-- The tokens of the rebuilt history line. -/
def shownTokens (cfg : Config) (r : Resolved) (argv : List CStr) : List CStr :=
  argv.mapIdx fun i arg => if tokenMasked env cfg r i arg then hiddenToken else arg

/-- `build_history_line`: the text built in `out`, or nothing for a command kept out of the
history. -/
def buildHistoryLine (s : Shell) (original : CStr) (argv : List CStr) : Option CStr :=
  let r := shResolveCommandInternal s argv
  if r.cmd.any Cmd.noHistory then none
  else if (argv.zipIdx.any fun a => tokenMasked env s.cfg r a.2 a.1) = false then
    let len :=
      if original.length ≥ historyLineSize then historyLineSize - 1 else original.length
    some (original.take len)
  else
    some (CStr.at ((shownTokens env s.cfg r argv).foldl
      (fun out token => appendToken out historyLineSize token) [] ++ [0]) 0)

/-! ## Executing a line -/

/-- `sh_status_string`. -/
def shStatusString (status : Status) : CStr :=
  if status = Status.ok then str "ok"
  else if status = Status.errInvalidArg then str "invalid argument"
  else if status = Status.errLineTooLong then str "line too long"
  else if status = Status.errTooManyArgs then str "too many arguments"
  else if status = Status.errUnterminatedQuote then str "unterminated quote"
  else if status = Status.errUnknownCommand then str "unknown command"
  else if status = Status.errAmbiguous then str "ambiguous command"
  else if status = Status.errNoMemory then str "not enough memory"
  else if status = Status.errInvalidConfig then str "invalid configuration"
  else if status = Status.errTransport then str "transport error"
  else if status = Status.errWouldBlock then str "operation would block"
  else if status = Status.errTruncated then str "result truncated"
  else if status = Status.errBusy then str "busy"
  else if status = Status.errIncompleteCommand then str "incomplete command"
  else str "unknown error"

namespace Shell

/-- The entries that `sh_tokenize` writes to the argument vector. -/
def setArgv (s : Shell) (texts : List CStr) : Shell :=
  { s with argv := Mem.store s.argv 0 (texts.map some) }

/-- The argument vector is overwritten when secure clearing is on. -/
def wipeArgv (s : Shell) : Shell :=
  if s.cfg.secureClearEnabled then { s with argv := Mem.fill s.argv 0 none s.argvCapacity } else s

end Shell

/-- The part of `sh_execute_line` that records a tokenized line in the history. -/
def recordLine (st : Sys ω) (line : CStr) (argv : List CStr) : Sys ω :=
  match buildHistoryLine env st.sh line argv with
  | none => st
  | some historyLine => shHistoryAddInternal st historyLine

/-- The part of `sh_execute_line` between the tokenizer and the cleanup. -/
def executeTokens (st : Sys ω) (line : CStr) (r : TokenizeResult) : Sys ω × Status :=
  if r.status ≠ Status.ok then
    (writes env st [vprintfBytes (ascii "error: " ++ (shStatusString r.status).bytes ++
      ascii "\r\n")], r.status)
  else if r.argv = [] then (st, Status.ok)
  else shCommandDispatchInternal env (recordLine env st line r.texts) r.texts

/-- The cleanup of `sh_execute_line`. -/
def cleanup (st : Sys ω) : Sys ω :=
  (st.touch .argv (if st.sh.cfg.secureClearEnabled then st.sh.argvCapacity else 0)).modify
    Shell.wipeArgv

/-- `sh_execute_line`. -/
def shExecuteLine (st : Sys ω) (line : CStr) : Sys ω × Status :=
  if line.length ≥ shMaxLineLen + 1 ∨ line.length ≥ st.sh.lineCapacity then
    (writes env st [vprintfBytes (ascii "error: line too long, max=" ++
      fmtUnsigned (st.sh.lineCapacity - 1) ++ ascii "\r\n")], Status.errLineTooLong)
  else
    let r := shTokenize (line.bytes ++ [0]) st.sh.argvCapacity
    let st := (st.touch .argv r.argv.length).modify (·.setArgv r.texts)
    let res := executeTokens env st line r
    (cleanup res.1, res.2)

/-- `sh_execute_argv`. -/
def shExecuteArgv (st : Sys ω) (argv : List CStr) : Sys ω × Status :=
  if argv.length > st.sh.argvCapacity ∨ argv.length > intMax then (st, Status.errInvalidArg)
  else shCommandDispatchInternal env st argv

/-! ## Input -/

/-- The copy of the line that `handle_enter` executes. -/
def Shell.execText (s : Shell) : CStr := CStr.at (s.text ++ [0]) 0

/-- The part of `handle_enter` that executes the line. -/
def executeTyped (st : Sys ω) : Sys ω × Status :=
  if st.sh.lineLen < shMaxLineLen + 1 then
    shExecuteLine env (st.touch .line st.sh.lineLen) st.sh.execText
  else (st, Status.ok)

/-- The part of `handle_enter` behind the execution: the editor is emptied and the prompt
printed. -/
def finishEnter (st : Sys ω) : Sys ω :=
  shPrompt env ((touchEraseDraft (touchErase st)).modify fun s => s.eraseLine.eraseDraft)

/-- `handle_enter`. -/
def handleEnter (st : Sys ω) : Sys ω × Status :=
  let res := executeTyped env (writeInternal env (st.emit .enter) (str "\r\n"))
  (finishEnter env res.1, res.2)

/-- Set the flag that the last byte was a carriage return. -/
def Shell.setLastInputWasCr (s : Shell) (b : Bool) : Shell := { s with lastInputWasCr := b }

/-- Store the decoder. -/
def Shell.setAnsi (s : Shell) (decoder : AnsiDecoder) : Shell := { s with ansi := decoder }

/-- The `switch` of `sh_input_byte`. -/
def editByte (st : Sys ω) (byte : Byte) : Sys ω × Status :=
  if byte = chr '\r' ∨ byte = chr '\n' then handleEnter env st
  else if byte = 0x08 ∨ byte = 0x7f then (backspace env st, Status.ok)
  else if byte = chr '\t' then shCompleteLineInternal env st
  else if byte = 0x03 then (cancelInputLine env st, Status.ok)
  else if byte = 0x0c then
    (shRedrawLineInternal env (writeInternal env st (clearText st.sh.cfg)), Status.ok)
  else if byte = 0x15 then (clearInputLine env st, Status.ok)
  else if byte = 0x17 then (deleteWordLeft env st, Status.ok)
  else if 32 ≤ byte ∧ byte < 127 then insertChar env st byte
  else (st, Status.ok)

/-- What the `switch` of `sh_input_byte` can come to. -/
inductive EditByteCase (st : Sys ω) (byte : Byte) : Sys ω × Status → Prop
  | enter (hbyte : byte = chr '\r' ∨ byte = chr '\n') : EditByteCase st byte (handleEnter env st)
  | backspace : EditByteCase st byte (backspace env st, Status.ok)
  | complete : EditByteCase st byte (shCompleteLineInternal env st)
  | cancel : EditByteCase st byte (cancelInputLine env st, Status.ok)
  | redraw : EditByteCase st byte
      (shRedrawLineInternal env (writeInternal env st (clearText st.sh.cfg)), Status.ok)
  | clear : EditByteCase st byte (clearInputLine env st, Status.ok)
  | word : EditByteCase st byte (deleteWordLeft env st, Status.ok)
  | char (hbyte : 32 ≤ byte ∧ byte < 127) : EditByteCase st byte (insertChar env st byte)
  | ignored : EditByteCase st byte (st, Status.ok)

/-- **The `switch` comes to one of its cases.** -/
theorem editByte_cases (st : Sys ω) (byte : Byte) :
    EditByteCase env st byte (editByte env st byte) := by
  rw [editByte]
  split_ifs with henter _ _ _ _ _ _ hchar
  · exact .enter henter
  · exact .backspace
  · exact .complete
  · exact .cancel
  · exact .redraw
  · exact .clear
  · exact .word
  · exact .char hchar
  · exact .ignored

/-- The part of `sh_input_byte` behind the check for a line feed after a carriage return. -/
def feedByte (st : Sys ω) (byte : Byte) : Sys ω × Status :=
  let fed := shAnsiFeed st.sh.ansi byte
  let st := st.modify fun s => (s.setLastInputWasCr (decide (byte = chr '\r'))).setAnsi fed.1
  if fed.2 ≠ .none then (handleEscapeKey env st fed.2, Status.ok)
  else if shAnsiLastByteConsumed fed.1 then (st, Status.ok)
  else editByte env st byte

/-- `sh_input_byte`. -/
def shInputByte (st : Sys ω) (byte : Byte) : Sys ω × Status :=
  if byte = chr '\n' ∧ st.sh.lastInputWasCr then
    (st.modify (·.setLastInputWasCr false), Status.ok)
  else feedByte env st byte

/-- One round of the loop of `sh_input`. -/
def inputStep (acc : Sys ω × Status) (byte : Byte) : Sys ω × Status :=
  let r := shInputByte env acc.1 byte
  (r.1, if acc.2 = Status.ok ∧ r.2 ≠ Status.ok then r.2 else acc.2)

/-- `sh_input`. The functions `sh_feed_byte` and `sh_feed` are `sh_input_byte` and `sh_input`. -/
def shInput (st : Sys ω) (data : List Byte) : Sys ω × Status :=
  data.foldl (inputStep env) (st, Status.ok)

/-- The system after a block of input is the one after its bytes in turn. -/
theorem shInput_fst (st : Sys ω) (data : List Byte) :
    (shInput env st data).1 = data.foldl (fun st byte => (shInputByte env st byte).1) st := by
  have hfold : ∀ acc : Sys ω × Status, (data.foldl (inputStep env) acc).1 =
      data.foldl (fun st byte => (shInputByte env st byte).1) acc.1 := by
    induction data with
    | nil => exact fun _ => rfl
    | cons byte data ih => exact fun acc => ih (inputStep env acc byte)
  exact hfold (st, Status.ok)

/-! ## Initialization -/

/-- `sh_default_config`. -/
def shDefaultConfig : Config where
  prompt := some (str "sh> ")
  lineMax := shMaxLineLen
  argcMax := shMaxArgc
  historyDepth := shHistoryDefaultDepth
  echoEnabled := true
  ansiEnabled := true
  builtinsEnabled := true
  secureClearEnabled := true
  write := none
  writeCtx := none
  transport := none
  transportWriteAttempts := 8
  userCtx := none
  shouldMaskArg := none
  maskCtx := none

/-- `sh_storage_t`. A buffer comes with the size the caller declares for it; the history buffer
has that of its slots. -/
structure Storage where
  lineBuffer : CArray Byte
  argvBuffer : CArray (Option CStr)
  historyBuffer : Option (List Byte)
  historyCapacity : ℕ
  historySlotSize : ℕ
  draftBuffer : CArray Byte

/-- The history buffer has the declared size. -/
def Storage.Sized (storage : Storage) : Prop :=
  ∀ m, storage.historyBuffer = some m →
    storage.historyCapacity * storage.historySlotSize ≤ m.length

/-- A configuration that a caller passes to `sh_init`: zero fields stand for defaults. -/
def Config.completed (cfg : Config) (storage : Storage) : Config :=
  { cfg with
    prompt := some (cfg.prompt.getD (str "sh> "))
    lineMax := if cfg.lineMax = 0 then storage.lineBuffer.count - 1 else cfg.lineMax
    argcMax := if cfg.argcMax = 0 then storage.argvBuffer.count else cfg.argcMax
    transportWriteAttempts :=
      if cfg.transportWriteAttempts = 0 then 8 else cfg.transportWriteAttempts }

/-- The checks of `sh_init` on the line and argument buffers. -/
def Config.buffersFit (cfg : Config) (storage : Storage) : Bool :=
  decide (cfg.lineMax ≠ 0) && decide (cfg.lineMax ≤ shMaxLineLen) &&
    decide (cfg.lineMax < storage.lineBuffer.count) && decide (cfg.argcMax ≠ 0) &&
    decide (cfg.argcMax ≤ shMaxArgc) && decide (cfg.argcMax ≤ storage.argvBuffer.count)

/-- The checks of `sh_init` on the history and draft buffers. -/
def Config.historyFits (cfg : Config) (storage : Storage) : Bool :=
  decide (cfg.historyDepth ≤ storage.historyCapacity) &&
    (decide (cfg.historyDepth = 0) ||
      (storage.historyBuffer.isSome && decide (cfg.lineMax < storage.historySlotSize) &&
        !storage.draftBuffer.isNull && decide (cfg.lineMax < storage.draftBuffer.count)))

/-- The contents of a buffer, or nothing for a NULL pointer. -/
def CArray.pointer {α : Type} : CArray α → Option (List α)
  | null _ => none
  | array l => some l

/-- The instance that `sh_init` sets up. -/
def initialShell (cfg : Config) (storage : Storage) : Shell where
  cfg := cfg
  commands := []
  commandSets := none
  line := Mem.store storage.lineBuffer.cells 0 [0]
  lineCapacity := cfg.lineMax + 1
  lineLen := 0
  cursor := 0
  argv := storage.argvBuffer.cells
  argvCapacity := cfg.argcMax
  historyStorage := storage.historyBuffer
  historyDepth := cfg.historyDepth
  historySlotSize := storage.historySlotSize
  historyCount := 0
  historyStart := 0
  historyView := -1
  draft := storage.draftBuffer.pointer.map fun d => Mem.store d 0 [0]
  echoEnabled := cfg.echoEnabled
  started := false
  ansi := shAnsiInit
  lastInputWasCr := false

/-- The configuration that `sh_init` works with when the caller passes one or NULL. -/
def effectiveConfig (cfg : Option Config) (storage : Storage) : Config :=
  match cfg with
  | none => shDefaultConfig
  | some cfg => cfg.completed storage

/-- `sh_init`. -/
def shInit (cfg : Option Config) (storage : Storage) : Except Status Shell :=
  if storage.lineBuffer.isNull ∨ storage.lineBuffer.count = 0 ∨ storage.argvBuffer.isNull ∨
      storage.argvBuffer.count = 0 then .error Status.errInvalidArg
  else
    let cfg := effectiveConfig cfg storage
    if !cfg.buffersFit storage || !cfg.historyFits storage then .error Status.errInvalidConfig
    else .ok (initialShell cfg storage)

/-- `sh_init_static`. -/
def shInitStatic (cfg : Option Config) (storage : Option Storage) : Except Status Shell :=
  match storage with
  | none => .error Status.errInvalidArg
  | some storage => shInit cfg storage

/-! ## Runs -/

/-- A call of the public API on an initialized shell. -/
inductive Op (ω : Type)
  | inputByte (byte : Byte)
  | input (data : List Byte)
  | executeLine (line : CStr)
  | executeArgv (argv : List CStr)
  /-- A call that a handler could make as well, or a step of the surroundings. -/
  | api (call : ApiCall ω)
  | prompt

/-- What the API functions return. -/
def callStatus (st : Sys ω) : ApiCall ω → Status
  | .write data => (backendWrite env st.sh.cfg st.io data).2
  | .flush => (shFlush env st).2
  | .registerCommands commands => (shRegisterCommands st.sh commands).2
  | .registerCommandSets sets => (shRegisterCommandSets st.sh sets).2
  | .start => (shStart env st).2
  | .stop => (shStop env st).2
  | _ => Status.ok

/-- What a call does and returns. -/
def Op.apply (st : Sys ω) : Op ω → Sys ω × Status
  | .inputByte byte => shInputByte env st byte
  | .input data => shInput env st data
  | .executeLine line => shExecuteLine env st line
  | .executeArgv argv => shExecuteArgv env st argv
  | .api call => (runCall env st call, callStatus env st call)
  | .prompt => (shPrompt env st, Status.ok)

/-- A run of calls. -/
def run (st : Sys ω) (ops : List (Op ω)) : Sys ω := ops.foldl (fun st op => (op.apply env st).1) st

/-- The statuses that the calls of a run return. -/
def statuses : Sys ω → List (Op ω) → List Status
  | _, [] => []
  | st, op :: ops => (op.apply env st).2 :: statuses (op.apply env st).1 ops

/-- The systems that a run of calls reaches from a freshly initialized shell. -/
def Reachable (st : Sys ω) : Prop :=
  ∃ (cfg : Option Config) (storage : Storage) (s : Shell) (io : ω) (ops : List (Op ω)),
    storage.Sized ∧ shInit cfg storage = .ok s ∧ st = run env ⟨s, io, [], []⟩ ops

/-! ## A small instance -/

/-- Application code that does nothing. -/
def idleEnv : Env Unit where
  output := fun _ _ io _ => io
  transport := fun _ => ⟨none, none⟩
  shouldMaskArg := fun _ _ _ _ _ => false
  handler := fun _ _ _ _ _ => ([], Status.ok)
  completion := fun _ _ _ _ _ _ => ([], none)

/-- Buffers for lines of 16 bytes, four arguments and two history entries, as `sh_init` finds
them: with contents of their own. -/
def smallStorage : Storage where
  lineBuffer := .array (List.replicate 17 (chr 'x'))
  argvBuffer := .array (List.replicate 4 none)
  historyBuffer := some (List.replicate 34 (chr 'x'))
  historyCapacity := 2
  historySlotSize := 17
  draftBuffer := .array (List.replicate 17 (chr 'x'))

/-- A configuration that fits these buffers. -/
def smallConfig : Config := { shDefaultConfig with lineMax := 16, argcMax := 4, historyDepth := 2 }

/-- The buffers have the declared sizes. -/
theorem smallStorage_sized : smallStorage.Sized := by
  intro m hm
  rw [← Option.some.inj hm, List.length_replicate]
  decide

/-- The shell that `sh_init` sets up in these buffers. -/
def smallShell : Shell := initialShell (smallConfig.completed smallStorage) smallStorage

/-- The configuration is accepted. -/
theorem shInit_small : shInit (some smallConfig) smallStorage = .ok smallShell := rfl

/-- Buffers of the least sizes for a configuration. -/
def Config.exactStorage (cfg : Config) : Storage where
  lineBuffer := .array (List.replicate (cfg.lineMax + 1) 0)
  argvBuffer := .array (List.replicate cfg.argcMax none)
  historyBuffer := some (List.replicate (cfg.historyDepth * (cfg.lineMax + 1)) 0)
  historyCapacity := cfg.historyDepth
  historySlotSize := cfg.lineMax + 1
  draftBuffer := .array (List.replicate (cfg.lineMax + 1) 0)

/-- The shell that `sh_init` sets up in these buffers. -/
def exactShell (cfg : Config) : Shell :=
  initialShell (cfg.completed cfg.exactStorage) cfg.exactStorage

/-- The buffers have the declared sizes, and the configuration is accepted. -/
theorem shInit_exact {cfg : Config} (hline : cfg.lineMax ≠ 0 ∧ cfg.lineMax ≤ shMaxLineLen)
    (hargc : cfg.argcMax ≠ 0 ∧ cfg.argcMax ≤ shMaxArgc) :
    cfg.exactStorage.Sized ∧ shInit (some cfg) cfg.exactStorage = .ok (exactShell cfg) := by
  constructor
  · intro m hm
    rw [← Option.some.inj hm, List.length_replicate]
    exact le_rfl
  · have hbuffers : (cfg.completed cfg.exactStorage).buffersFit cfg.exactStorage = true := by
      simp [Config.buffersFit, Config.completed, Config.exactStorage, CArray.count, hline, hargc]
    have hhistory : (cfg.completed cfg.exactStorage).historyFits cfg.exactStorage = true := by
      simp [Config.historyFits, Config.completed, Config.exactStorage, CArray.isNull, CArray.count,
        hline]
    unfold shInit effectiveConfig
    rw [if_neg (by simp [Config.exactStorage, CArray.isNull, CArray.count, hargc])]
    dsimp only
    rw [hbuffers, hhistory]
    rfl

/-- A leaf command with one payload argument at most. -/
def ledCommand : Cmd where
  name := some (str "led")
  usage := some (str "[on|off]")
  help := some (str "Control the LED")
  handler := some 7
  subcommands := .null 0
  flags := 0
  minArgs := 1
  maxArgs := 2
  userCtx := none
  completion := none

/-- The small shell with this command registered. -/
def ledSys : Sys Unit :=
  run idleEnv ⟨smallShell, (), [], []⟩ [.api (.registerCommands (.array [ledCommand]))]

/-- This system is reachable. -/
theorem ledSys_reachable : Reachable idleEnv ledSys :=
  ⟨some smallConfig, smallStorage, smallShell, (), _, smallStorage_sized, shInit_small, rfl⟩

end PortableShell
