import PortableShell.Text

set_option relaxedAutoImplicit false
set_option autoImplicit false

/-!
# The data of the shell

The constants of `sh_config.h`, the statuses, the command descriptors, the configuration and
the shell instance `sh_t`, field by field, and around it the system a call of the library runs
in: the application code behind function pointers (`Env`), the outside world it acts on and
a record of what happened so far (`Sys`).

## Main definitions

* `PortableShell.Status` — a `sh_status_t`, as the `int` it is passed as.
* `PortableShell.CArray` — a pointer together with the element count that travels with it.
* `PortableShell.Cmd`, `PortableShell.Config`, `PortableShell.Shell` — `sh_cmd_t`,
  `sh_config_t` and `sh_t`.
* `PortableShell.Env` — the functions behind the pointers an application installs.
* `PortableShell.Sys` — a shell instance, the outside world, and what was observed so far.

## Design

The buffers of a shell are raw memory of the size the caller handed in; nothing is known about
the bytes behind a terminator. Function and context pointers are plain numbers, so that the
shell instance stays data; `Env` says what the functions do. A handler runs inside a call of
the shell and may use the public API short of the entry points that are already running
(`sh_input*`, `sh_execute_*`), so a run of it is a list of `ApiCall`s and the value returned.
Completion providers get the shell as well and are modelled alike.
-/

namespace PortableShell

/-! ## Constants and statuses -/

/-- `SH_MAX_LINE_LEN`. -/
def shMaxLineLen : ℕ := 256

/-- `SH_MAX_ARGC`. -/
def shMaxArgc : ℕ := 32

/-- `SH_MAX_CMD_DEPTH`. -/
def shMaxCmdDepth : ℕ := 8

/-- `SH_HISTORY_DEFAULT_DEPTH`. -/
def shHistoryDefaultDepth : ℕ := 16

/-- `SH_COMPLETION_MAX_MATCHES`. -/
def shCompletionMaxMatches : ℕ := 32

/-- `SH_COMPLETION_PROVIDER_MAX_ITEMS`. -/
def shCompletionProviderMaxItems : ℕ := 256

/-- `SH_ANSI_CSI_MAX`. -/
def shAnsiCsiMax : ℕ := 8

/-- `SH_ARGS_ANY`, the largest `size_t`. -/
def shArgsAny : ℕ := 2 ^ 64 - 1

/-- `INT_MAX`. -/
def intMax : ℕ := 2 ^ 31 - 1

/-- The conversion of a `size_t` to `int`. -/
def toInt (n : ℕ) : ℤ := Int.bmod n (2 ^ 32)

/-- The subtraction of `int`. Where it overflows, it wraps around as compiled code does. -/
def intSub (a b : ℤ) : ℤ := Int.bmod (a - b) (2 ^ 32)

/-- A `sh_status_t`. Handlers may return any `int`. -/
abbrev Status := ℤ

namespace Status

/-- `SH_OK`. -/
def ok : Status := 0
/-- `SH_ERR_INVALID_ARG`. -/
def errInvalidArg : Status := -1
/-- `SH_ERR_LINE_TOO_LONG`. -/
def errLineTooLong : Status := -2
/-- `SH_ERR_TOO_MANY_ARGS`. -/
def errTooManyArgs : Status := -3
/-- `SH_ERR_UNTERMINATED_QUOTE`. -/
def errUnterminatedQuote : Status := -4
/-- `SH_ERR_UNKNOWN_COMMAND`. -/
def errUnknownCommand : Status := -5
/-- `SH_ERR_AMBIGUOUS`. -/
def errAmbiguous : Status := -6
/-- `SH_ERR_NO_MEMORY`. -/
def errNoMemory : Status := -7
/-- `SH_ERR_INVALID_CONFIG`. -/
def errInvalidConfig : Status := -8
/-- `SH_ERR_TRANSPORT`. -/
def errTransport : Status := -9
/-- `SH_ERR_WOULD_BLOCK`. -/
def errWouldBlock : Status := -10
/-- `SH_ERR_TRUNCATED`. -/
def errTruncated : Status := -11
/-- `SH_ERR_BUSY`. -/
def errBusy : Status := -12
/-- `SH_ERR_INCOMPLETE_COMMAND`. -/
def errIncompleteCommand : Status := -13

end Status

/-- A `sh_transport_status_t`; `other` is any value outside the enumeration. -/
inductive TransportStatus
  | ok
  | wouldBlock
  | errInvalidArgument
  | errIo
  | errNoProgress
  | errProtocol
  | errAttemptsExhausted
  | other (code : ℤ)
  deriving DecidableEq

/-- The address of something the application owns: a function or a context. -/
abbrev Ptr := ℕ

/-! ## Command descriptors -/

/-- A pointer to the first of a number of elements. A NULL pointer still comes with a count,
which the code has to check. -/
inductive CArray (α : Type)
  | null (count : ℕ)
  | array (cells : List α)
  deriving DecidableEq

namespace CArray

variable {α : Type}

/-- Whether the pointer is NULL. -/
def isNull : CArray α → Bool
  | null _ => true
  | array _ => false

/-- The declared number of elements. -/
def count : CArray α → ℕ
  | null n => n
  | array l => l.length

/-- The elements that exist. -/
def cells : CArray α → List α
  | null _ => []
  | array l => l

end CArray

/-- `sh_cmd_t`. The pair `subcommands`, `subcommand_count` is one `CArray`. -/
structure Cmd where
  name : Option CStr
  usage : Option CStr
  help : Option CStr
  handler : Option Ptr
  subcommands : CArray Cmd
  flags : ℕ
  minArgs : ℕ
  maxArgs : ℕ
  userCtx : Option Ptr
  completion : Option Ptr

namespace Cmd

/-- `flags & SH_CMD_FLAG_SENSITIVE`. -/
def sensitive (c : Cmd) : Bool := c.flags.testBit 0

/-- `flags & SH_CMD_FLAG_HIDDEN`. -/
def hidden (c : Cmd) : Bool := c.flags.testBit 1

/-- `flags & SH_CMD_FLAG_NO_HISTORY`. -/
def noHistory (c : Cmd) : Bool := c.flags.testBit 2

/-- `subcommands && subcommand_count`. -/
def hasSubcommands (c : Cmd) : Bool := !c.subcommands.isNull && c.subcommands.count ≠ 0

end Cmd

/-- `sh_command_set_t`. -/
structure CommandSet where
  commands : CArray Cmd

/-! ## Configuration and instance -/

/-- `sh_config_t`. -/
structure Config where
  prompt : Option CStr
  lineMax : ℕ
  argcMax : ℕ
  historyDepth : ℕ
  echoEnabled : Bool
  ansiEnabled : Bool
  builtinsEnabled : Bool
  secureClearEnabled : Bool
  write : Option Ptr
  writeCtx : Option Ptr
  transport : Option Ptr
  transportWriteAttempts : ℕ
  userCtx : Option Ptr
  shouldMaskArg : Option Ptr
  maskCtx : Option Ptr

/-- The decoder states `SH_ANSI_STATE_*`. -/
inductive AnsiState
  | idle
  | escape
  | csi
  deriving DecidableEq

/-- `sh_ansi_decoder_t`. -/
structure AnsiDecoder where
  state : AnsiState
  csiLength : ℕ
  csiOverflow : Bool
  lastByteConsumed : Bool
  csi : List Byte
  deriving DecidableEq

/-- `sh_t`. A pointer to a buffer is the raw contents of the buffer, of the size the caller
declared; an entry of `argv` is the text it points to. -/
structure Shell where
  cfg : Config
  commands : List Cmd
  commandSets : Option (List CommandSet)
  line : List Byte
  lineCapacity : ℕ
  lineLen : ℕ
  cursor : ℕ
  argv : List (Option CStr)
  argvCapacity : ℕ
  historyStorage : Option (List Byte)
  historyDepth : ℕ
  historySlotSize : ℕ
  historyCount : ℕ
  historyStart : ℕ
  historyView : ℤ
  draft : Option (List Byte)
  echoEnabled : Bool
  started : Bool
  ansi : AnsiDecoder
  lastInputWasCr : Bool

namespace Shell

/-- Set the `started` flag. -/
def setStarted (s : Shell) (b : Bool) : Shell := { s with started := b }

/-- The later setting counts. -/
@[simp] theorem setStarted_setStarted (s : Shell) (a b : Bool) :
    (s.setStarted a).setStarted b = s.setStarted b := rfl

end Shell

/-! ## Application code -/

/-- What application code can ask a shell about: `sh_echo_is_enabled`, `sh_history_capacity`,
`sh_history_count` and `sh_history_get_newest`. -/
structure View where
  echoEnabled : Bool
  historyCapacity : ℕ
  /-- The history entries, newest first. -/
  history : List CStr
  deriving DecidableEq

/-- One use of the public API by a handler or provider, or a step of its own. -/
inductive ApiCall (ω : Type)
  /-- `sh_write`, `sh_puts`, `sh_printf`: these bytes go to the output backend. -/
  | write (data : List Byte)
  | flush
  | historyClear
  | setEchoEnabled (enabled : Bool)
  | registerCommands (commands : CArray Cmd)
  | registerCommandSets (sets : CArray CommandSet)
  | start
  | stop
  /-- It acts on the outside world, not on the shell. -/
  | effect (f : ω → ω)

/-- `sh_transport_t`: what the two callbacks do to the backend. -/
structure Transport (ω : Type) where
  /-- The bytes offered give a new backend state, a status and the number of bytes accepted. -/
  write : Option (ω → List Byte → ω × TransportStatus × ℕ)
  flush : Option (ω → ω × TransportStatus)

/-- The code of the application, by address. -/
structure Env (ω : Type) where
  /-- `sh_output_fn_t`: function, context, backend state, bytes. -/
  output : Ptr → Option Ptr → ω → List Byte → ω
  /-- The `sh_transport_t` at an address. -/
  transport : Ptr → Transport ω
  /-- `sh_mask_arg_fn_t`: function, command path, argument index, argument, context. -/
  shouldMaskArg : Ptr → CStr → ℕ → CStr → Option Ptr → Bool
  /-- `sh_cmd_handler_t`: function, view of the shell, outside world, `argv`, context. The
  result is what the handler does, in order, and what it returns. -/
  handler : Ptr → View → ω → List CStr → Option Ptr → List (ApiCall ω) × Status
  /-- `sh_completion_provider_t`: function, view of the shell, outside world, argument index,
  candidate index, context. The result is what the provider does and the candidate. -/
  completion : Ptr → View → ω → ℕ → ℕ → Option Ptr → List (ApiCall ω) × Option CStr

/-! ## Running system -/

/-- What is observed of a run. -/
inductive Event
  /-- The core hands bytes to the output backend. -/
  | write (data : List Byte)
  /-- A handler or provider hands bytes to the output backend. -/
  | handlerWrite (data : List Byte)
  /-- `handle_enter` runs. -/
  | enter
  /-- `sh_command_dispatch_internal` is called. -/
  | dispatch (argv : List CStr)
  /-- An application handler is called. -/
  | handler (fn : Ptr) (argv : List CStr) (ctx : Option Ptr)
  deriving DecidableEq

/-- The buffers a caller declares to `sh_init`. -/
inductive Buffer
  | line
  | argv
  | history
  | draft
  deriving DecidableEq

/-- An access to a caller-owned buffer: `stop` is one past the greatest index used. -/
structure Access where
  buffer : Buffer
  stop : ℕ
  deriving DecidableEq

/-- A shell in its surroundings. The last two fields record the run and are read by no
operation. -/
structure Sys (ω : Type) where
  sh : Shell
  /-- The outside world: output backend and application state. -/
  io : ω
  trace : List Event
  accesses : List Access

namespace Sys

variable {ω : Type}

/-- Update the shell instance. -/
def modify (st : Sys ω) (f : Shell → Shell) : Sys ω := { st with sh := f st.sh }

/-- Record an event. -/
def emit (st : Sys ω) (e : Event) : Sys ω := { st with trace := st.trace ++ [e] }

/-- Record that a buffer was accessed below `stop`. -/
def touch (st : Sys ω) (b : Buffer) (stop : ℕ) : Sys ω :=
  { st with accesses := st.accesses ++ [⟨b, stop⟩] }

@[simp] theorem modify_sh (st : Sys ω) (f : Shell → Shell) : (st.modify f).sh = f st.sh := rfl
@[simp] theorem modify_io (st : Sys ω) (f : Shell → Shell) : (st.modify f).io = st.io := rfl
@[simp] theorem modify_trace (st : Sys ω) (f : Shell → Shell) :
    (st.modify f).trace = st.trace := rfl
@[simp] theorem emit_sh (st : Sys ω) (e : Event) : (st.emit e).sh = st.sh := rfl
@[simp] theorem emit_io (st : Sys ω) (e : Event) : (st.emit e).io = st.io := rfl
@[simp] theorem emit_trace (st : Sys ω) (e : Event) : (st.emit e).trace = st.trace ++ [e] := rfl
@[simp] theorem touch_sh (st : Sys ω) (b : Buffer) (n : ℕ) : (st.touch b n).sh = st.sh := rfl
@[simp] theorem touch_io (st : Sys ω) (b : Buffer) (n : ℕ) : (st.touch b n).io = st.io := rfl
@[simp] theorem touch_trace (st : Sys ω) (b : Buffer) (n : ℕ) :
    (st.touch b n).trace = st.trace := rfl

end Sys

end PortableShell
