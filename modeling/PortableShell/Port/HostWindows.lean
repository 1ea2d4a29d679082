import PortableShell.Keys
import PortableShell.Lib.Utf16
import PortableShell.Port.Host

set_option relaxedAutoImplicit false
set_option autoImplicit false

/-!
# The Windows host port

`sh_port_windows.c`: the key events of a console become the bytes that a terminal would send.
Characters arrive in UTF-16, one event for each unit, and are passed on in UTF-8; a key that repeats
is passed on several times.

## Main definitions

* `PortableShell.WindowsTerminal` — a `sh_host_terminal_t`.
* `PortableShell.WindowsInput` — a terminal with the input to come.
* `PortableShell.windowsReadByte` — `sh_host_terminal_read_byte`.
* `PortableShell.delivered` — what a console delivers, without a queue.
* `PortableShell.pressedKeys` — the keys behind the events of a console.

## Main results

* `PortableShell.windowsReadByte_yields` — what reads of a terminal return.
* `PortableShell.typed_text_yields` — a typed text is read in UTF-8.
* `PortableShell.delivered_eq_keys` — the same in terms of keys.

## Design

`WideCharToMultiByte` is a parameter; of its results only those for well-formed units matter.
-/

namespace PortableShell

/-! ## Data -/

/-- A handle as `GetStdHandle` returns it. -/
inductive StdHandle
  | null
  | invalid
  | handle (h : Ptr)
  deriving DecidableEq

/-- `sh_host_terminal_t` on Windows. -/
structure WindowsTerminal where
  inputHandle : StdHandle
  outputHandle : StdHandle
  originalInputMode : UInt32
  originalOutputMode : UInt32
  inputModeSaved : Bool
  outputModeSaved : Bool
  inputIsConsole : Bool
  /-- `byteQueueSize` bytes. -/
  byteQueue : List Byte
  byteQueueLength : ℕ
  byteQueuePosition : ℕ
  repeatRemaining : UInt16
  /-- 0 when there is none. -/
  pendingHighSurrogate : UInt16
  opened : Bool
  deriving DecidableEq

/-- An `INPUT_RECORD`. -/
inductive InputRecord
  /-- A `KEY_EVENT_RECORD`: `bKeyDown`, `wVirtualKeyCode`, `uChar.UnicodeChar`, `wRepeatCount`. -/
  | key (keyDown : Bool) (virtualKeyCode unicodeChar repeatCount : UInt16)
  /-- Any other type of event. -/
  | other
  deriving DecidableEq

/-- What a call of `ReadConsoleInputW` does. -/
inductive ConsoleRead
  | failed
  /-- It succeeds with `records_read == 0`. -/
  | noRecord
  | record (r : InputRecord)
  deriving DecidableEq

/-- What a call of `ReadFile` for one byte does. -/
inductive FileRead
  | failed
  /-- It succeeds with `bytes_read == 0`. -/
  | noByte
  | byte (b : Byte)
  deriving DecidableEq

/-- A terminal with the input to come. -/
structure WindowsInput where
  terminal : WindowsTerminal
  console : List ConsoleRead
  file : List FileRead
  deriving DecidableEq

/-- `WideCharToMultiByte` to UTF-8 with `WC_ERR_INVALID_CHARS`: units and the size of the buffer.
Without success there are no bytes. -/
abbrev WideCharToMultiByte : Type := List UInt16 → ℕ → List Byte

/-- The size of `byte_queue`. -/
def byteQueueSize : ℕ := 8

/-! ## The queue -/

/-- `sh_host_queue_sequence`. -/
def shHostQueueSequence (t : WindowsTerminal) (sequence : List Byte) (repeatCount : UInt16) :
    WindowsTerminal × HostStatus :=
  if sequence.length = 0 ∨ sequence.length > byteQueueSize then (t, .error)
  else
    ({ t with
        byteQueue := Mem.store t.byteQueue 0 sequence
        byteQueueLength := sequence.length
        byteQueuePosition := 0
        repeatRemaining := if repeatCount = 0 then 1 else repeatCount }, .success)

/-- `sh_host_take_queued_byte`. -/
def shHostTakeQueuedByte (t : WindowsTerminal) : WindowsTerminal × HostRead :=
  if t.byteQueuePosition ≥ t.byteQueueLength then (t, .eof)
  else
    let byte := cell t.byteQueue t.byteQueuePosition
    if t.byteQueuePosition + 1 = t.byteQueueLength then
      if t.repeatRemaining > 1 then
        ({ t with repeatRemaining := t.repeatRemaining - 1, byteQueuePosition := 0 }, .byte byte)
      else
        ({ t with byteQueueLength := 0, byteQueuePosition := 0, repeatRemaining := 0 }, .byte byte)
    else ({ t with byteQueuePosition := t.byteQueuePosition + 1 }, .byte byte)

/-- `READ_BYTE` when a sequence was queued. -/
def HostStatus.whenQueued : HostStatus → HostStatus
  | .success => .readByte
  | _ => .error

/-- The navigation keys by virtual key code, with the sequences that stand for them. -/
def specialKey (virtualKey : UInt16) : Option SequenceKey :=
  if virtualKey = 0x26 then some .up
  else if virtualKey = 0x28 then some .down
  else if virtualKey = 0x27 then some .right
  else if virtualKey = 0x25 then some .left
  else if virtualKey = 0x24 then some .home
  else if virtualKey = 0x23 then some .end
  else if virtualKey = 0x2e then some .delete
  else none

/-- `sh_host_queue_special_key`. -/
def shHostQueueSpecialKey (t : WindowsTerminal) (virtualKey repeatCount : UInt16) :
    WindowsTerminal × HostStatus :=
  match specialKey virtualKey with
  | none => (t, .success)
  | some key =>
    let r := shHostQueueSequence t key.bytes repeatCount
    (r.1, r.2.whenQueued)

variable (toUtf8 : WideCharToMultiByte)

/-- The end of `sh_host_queue_unicode`: the units are converted and queued. -/
def queueUnits (t : WindowsTerminal) (utf16 : List UInt16) (repeatCount : UInt16) :
    WindowsTerminal × HostStatus :=
  let utf8 := toUtf8 utf16 byteQueueSize
  if utf8.length = 0 then (t, .success)
  else
    let r := shHostQueueSequence t utf8 repeatCount
    (r.1, r.2.whenQueued)

/-- `sh_host_queue_unicode`. -/
def shHostQueueUnicode (t : WindowsTerminal) (character repeatCount : UInt16) :
    WindowsTerminal × HostStatus :=
  if Utf16.IsHigh character then
    ({ t with pendingHighSurrogate := character }, .success)
  else if Utf16.IsLow character then
    if t.pendingHighSurrogate = 0 then (t, .success)
    else
      queueUnits toUtf8 { t with pendingHighSurrogate := 0 } [t.pendingHighSurrogate, character]
        repeatCount
  else if character = 0 then ({ t with pendingHighSurrogate := 0 }, .success)
  else queueUnits toUtf8 { t with pendingHighSurrogate := 0 } [character] repeatCount

/-- A key that goes down, in the loop of `sh_host_terminal_read_byte`. -/
def queueKey (t : WindowsTerminal) (virtualKeyCode unicodeChar repeatCount : UInt16) :
    WindowsTerminal × HostStatus :=
  let special := shHostQueueSpecialKey t virtualKeyCode repeatCount
  if special.2 = .success then shHostQueueUnicode toUtf8 special.1 unicodeChar repeatCount
  else special

/-- The loop of `sh_host_terminal_read_byte`. -/
def consoleLoop (t : WindowsTerminal) :
    List ConsoleRead → Option (WindowsTerminal × List ConsoleRead × HostRead)
  | [] => none
  | .failed :: rest => some (t, rest, .error)
  | .noRecord :: rest => consoleLoop t rest
  | .record .other :: rest => consoleLoop t rest
  | .record (.key false _ _ _) :: rest => consoleLoop t rest
  | .record (.key true virtualKeyCode unicodeChar repeatCount) :: rest =>
    let r := queueKey toUtf8 t virtualKeyCode unicodeChar repeatCount
    match r.2 with
    | .error => some (r.1, rest, .error)
    | .readByte =>
      let taken := shHostTakeQueuedByte r.1
      some (taken.1, rest, taken.2)
    | .success => consoleLoop r.1 rest

/-- What reading a byte of a file returns. -/
def FileRead.toRead : FileRead → HostRead
  | .failed => .error
  | .noByte => .eof
  | .byte b => .byte b

/-- `sh_host_terminal_read_byte`. -/
def windowsReadByte (s : WindowsInput) : Option (WindowsInput × HostRead) :=
  if s.terminal.opened = false then some (s, .error)
  else
    let taken := shHostTakeQueuedByte s.terminal
    if taken.2 ≠ .eof then some ({ s with terminal := taken.1 }, taken.2)
    else if s.terminal.inputIsConsole = false then
      match s.file with
      | [] => none
      | r :: rest => some ({ s with file := rest }, r.toRead)
    else
      match consoleLoop toUtf8 s.terminal s.console with
      | none => none
      | some (t, rest, r) => some ({ s with terminal := t, console := rest }, r)

/-! ## Opening and closing -/

/-- The functions of the operating system, over the state of the outside world. -/
structure WindowsSystem (W : Type) where
  /-- `GetStdHandle(STD_INPUT_HANDLE)`. -/
  stdInput : W → StdHandle
  /-- `GetStdHandle(STD_OUTPUT_HANDLE)`. -/
  stdOutput : W → StdHandle
  /-- `GetConsoleMode`, without a mode when it fails. -/
  getConsoleMode : W → Ptr → Option UInt32
  /-- `SetConsoleMode`, with its success. -/
  setConsoleMode : W → Ptr → UInt32 → W × Bool

/-- A terminal filled with zeros. -/
def WindowsTerminal.zero : WindowsTerminal where
  inputHandle := .null
  outputHandle := .null
  originalInputMode := 0
  originalOutputMode := 0
  inputModeSaved := false
  outputModeSaved := false
  inputIsConsole := false
  byteQueue := List.replicate byteQueueSize 0
  byteQueueLength := 0
  byteQueuePosition := 0
  repeatRemaining := 0
  pendingHighSurrogate := 0
  opened := false

/-- The flags that input loses: `ENABLE_LINE_INPUT`, `ENABLE_ECHO_INPUT`, `ENABLE_PROCESSED_INPUT`,
`ENABLE_MOUSE_INPUT`, `ENABLE_WINDOW_INPUT`, `ENABLE_QUICK_EDIT_MODE` and
`ENABLE_VIRTUAL_TERMINAL_INPUT`. -/
def clearedInputFlags : UInt32 := 0x2 ||| 0x4 ||| 0x1 ||| 0x10 ||| 0x8 ||| 0x40 ||| 0x200

/-- `ENABLE_EXTENDED_FLAGS`. -/
def enableExtendedFlags : UInt32 := 0x80

/-- `ENABLE_VIRTUAL_TERMINAL_PROCESSING`. -/
def enableVirtualTerminalProcessing : UInt32 := 0x4

/-- `DISABLE_NEWLINE_AUTO_RETURN`. -/
def disableNewlineAutoReturn : UInt32 := 0x8

/-- The mode that is requested for input. -/
def requestedInputMode (mode : UInt32) : UInt32 :=
  (mode &&& ~~~clearedInputFlags) ||| enableExtendedFlags

variable {W : Type} (os : WindowsSystem W)

/-- The part of `sh_host_terminal_open` about the input handle; without a terminal it fails. -/
def openInput (w : W) (t : WindowsTerminal) (input : Ptr) : W × Option WindowsTerminal :=
  match os.getConsoleMode w input with
  | none => (w, some t)
  | some mode =>
    let r := os.setConsoleMode w input (requestedInputMode mode)
    if r.2 then
      (r.1, some { t with inputIsConsole := true, inputModeSaved := true,
                          originalInputMode := mode })
    else (r.1, none)

/-- The part about the output handle. -/
def openOutput (w : W) (t : WindowsTerminal) : W × WindowsTerminal :=
  match t.outputHandle with
  | .handle output =>
    match os.getConsoleMode w output with
    | none => (w, t)
    | some mode =>
      let saved := { t with outputModeSaved := true, originalOutputMode := mode }
      let r := os.setConsoleMode w output
        (mode ||| enableVirtualTerminalProcessing ||| disableNewlineAutoReturn)
      if r.2 then (r.1, saved)
      else ((os.setConsoleMode r.1 output (mode ||| enableVirtualTerminalProcessing)).1, saved)
  | _ => (w, t)

/-- A terminal with its handles. -/
def withHandles (w : W) (input : Ptr) : WindowsTerminal :=
  { WindowsTerminal.zero with
    inputHandle := .handle input
    outputHandle := if os.stdOutput w = .invalid then .null else os.stdOutput w }

/-- `sh_host_terminal_open`. -/
def windowsOpen (w : W) : W × WindowsTerminal × HostStatus :=
  match os.stdInput w with
  | .handle input =>
    let r := openInput os w (withHandles os w input) input
    match r.2 with
    | none => (r.1, .zero, .error)
    | some t =>
      let r' := openOutput os r.1 t
      (r'.1, { r'.2 with opened := true }, .success)
  | _ => (w, .zero, .error)

/-- `SetConsoleMode` on a saved handle. -/
def setMode (w : W) (handle : StdHandle) (mode : UInt32) : W × Bool :=
  match handle with
  | .handle h => os.setConsoleMode w h mode
  | _ => (w, false)

/-- The mode of a handle is set back if it was saved. -/
def restoreMode (w : W) (saved : Bool) (handle : StdHandle) (mode : UInt32) : W × Bool :=
  if saved then setMode os w handle mode else (w, true)

/-- `sh_host_terminal_close`. -/
def windowsClose (w : W) (t : WindowsTerminal) : W × WindowsTerminal × HostStatus :=
  if t.opened = false then (w, t, .success)
  else
    let input := restoreMode os w t.inputModeSaved t.inputHandle t.originalInputMode
    let output := restoreMode os input.1 t.outputModeSaved t.outputHandle t.originalOutputMode
    (output.1,
      { t with
        opened := false
        byteQueueLength := 0
        byteQueuePosition := 0
        repeatRemaining := 0
        pendingHighSurrogate := 0 },
      if input.2 = false ∨ output.2 = false then .error else .success)

/-! ## What a console delivers -/

/-- A key as a terminal sends it. -/
inductive HostKey
  | text (c : Char)
  | sequence (key : SequenceKey)
  deriving DecidableEq

/-- The bytes of a key. -/
def HostKey.bytes : HostKey → List Byte
  | text c => String.utf8EncodeChar c
  | sequence key => key.bytes

/-- The key behind a key event, if it completes one. -/
def pressedKey (pending : Option Utf16.High) (virtualKeyCode unicodeChar : UInt16) :
    Option HostKey :=
  match specialKey virtualKeyCode with
  | some key => some (.sequence key)
  | none => ((Utf16.complete pending unicodeChar).filter (· ≠ Char.ofNat 0)).map .text

/-- What waits for a low surrogate behind a key event. -/
def pendingBehind (pending : Option Utf16.High) (virtualKeyCode unicodeChar : UInt16) :
    Option Utf16.High :=
  if (specialKey virtualKeyCode).isSome then pending else Utf16.next unicodeChar

/-- How often a key is passed on. -/
def times (repeatCount : UInt16) : ℕ := if repeatCount = 0 then 1 else repeatCount.toNat

/-- The keys behind a key event, as often as the key repeats. -/
def repeatedKey (pending : Option Utf16.High) (virtualKeyCode unicodeChar repeatCount : UInt16) :
    List HostKey :=
  (pressedKey pending virtualKeyCode unicodeChar).toList.flatMap
    (List.replicate (times repeatCount))

/-- The keys behind the events of a console. -/
def pressedKeys (pending : Option Utf16.High) : List ConsoleRead → List HostKey
  | [] => []
  | .record (.key true virtualKeyCode unicodeChar repeatCount) :: rest =>
    repeatedKey pending virtualKeyCode unicodeChar repeatCount ++
      pressedKeys (pendingBehind pending virtualKeyCode unicodeChar) rest
  | _ :: rest => pressedKeys pending rest

/-- What reads of a console return: the bytes of the keys, and an error where the console has
one. -/
def delivered (pending : Option Utf16.High) : List ConsoleRead → List HostRead
  | [] => []
  | .failed :: rest => .error :: delivered pending rest
  | .record (.key true virtualKeyCode unicodeChar repeatCount) :: rest =>
    ((repeatedKey pending virtualKeyCode unicodeChar repeatCount).flatMap
        HostKey.bytes).map .byte ++
      delivered (pendingBehind pending virtualKeyCode unicodeChar) rest
  | _ :: rest => delivered pending rest

/-- The converter gets the characters right that fit into its buffer. -/
def ConvertsCharacters (toUtf8 : WideCharToMultiByte) : Prop :=
  ∀ c size, (String.utf8EncodeChar c).length ≤ size →
    toUtf8 (Utf16.encode c) size = String.utf8EncodeChar c

/-! ## The bytes in the queue -/

namespace WindowsTerminal

/-- The sequence in the queue. -/
def sequence (t : WindowsTerminal) : List Byte := t.byteQueue.take t.byteQueueLength

/-- The bytes that are still to be taken from the queue. -/
def queued (t : WindowsTerminal) : List Byte :=
  t.sequence.drop t.byteQueuePosition ++
    (List.replicate (t.repeatRemaining.toNat - 1) t.sequence).flatten

/-- The high surrogate that waits. -/
def pending (t : WindowsTerminal) : Option Utf16.High := Utf16.next t.pendingHighSurrogate

/-- What only opening and closing set. -/
def settings (t : WindowsTerminal) : WindowsTerminal :=
  { t with
    byteQueue := []
    byteQueueLength := 0
    byteQueuePosition := 0
    repeatRemaining := 0
    pendingHighSurrogate := 0 }

/-- The flags that reads look at are set by opening and closing. -/
theorem flags_of_settings {t t' : WindowsTerminal} (h : t'.settings = t.settings) :
    t'.opened = t.opened ∧ t'.inputIsConsole = t.inputIsConsole := by
  have hopened : t'.settings.opened = t.settings.opened := by rw [h]
  have hconsole : t'.settings.inputIsConsole = t.settings.inputIsConsole := by rw [h]
  exact ⟨hopened, hconsole⟩

/-- The state of a terminal between reads. -/
structure Ready (t : WindowsTerminal) : Prop where
  size : t.byteQueue.length = byteQueueSize
  length_le : t.byteQueueLength ≤ byteQueueSize
  position : t.byteQueuePosition < t.byteQueueLength ∨
    t.byteQueueLength = 0 ∧ t.byteQueuePosition = 0
  surrogate : t.pendingHighSurrogate = 0 ∨ Utf16.IsHigh t.pendingHighSurrogate

variable {t : WindowsTerminal}

/-- The length of the sequence. -/
private theorem Ready.length_sequence (h : t.Ready) : t.sequence.length = t.byteQueueLength := by
  rw [sequence, List.length_take, h.size]
  exact Nat.min_eq_left h.length_le

/-- An empty queue. -/
private theorem Ready.queued_eq_nil (h : t.Ready) : t.queued = [] ↔ t.byteQueueLength = 0 := by
  constructor
  · intro hqueued
    have hdrop := congrArg List.length (List.append_eq_nil_iff.mp hqueued).1
    rw [List.length_drop, h.length_sequence, List.length_nil] at hdrop
    rcases h.position with hlt | ⟨hzero, -⟩
    · omega
    · exact hzero
  · intro hzero
    have hsequence : t.sequence = [] := by rw [sequence, hzero, List.take_zero]
    rw [queued, hsequence, List.drop_nil, List.flatten_replicate_nil, List.append_nil]

/-- Nothing is taken from an empty queue. -/
theorem Ready.take_nil (h : t.Ready) (hqueued : t.queued = []) :
    shHostTakeQueuedByte t = (t, .eof) := by
  have hzero := h.queued_eq_nil.mp hqueued
  rw [shHostTakeQueuedByte, if_pos (by omega)]

/-- What it means to take a byte. -/
structure Takes (t t' : WindowsTerminal) (rest : List Byte) : Prop where
  ready : t'.Ready
  queued : t'.queued = rest
  pending : t'.pending = t.pending
  settings : t'.settings = t.settings

/-- **A byte is taken** from the queue, and the sequence starts again when the key repeats.

**Proof sketch.** The sequence in the buffer is not read to its end, so the next byte is the one at
the position. At the end of the sequence the position is set back if the key repeats, and the queue
is emptied if it does not. -/
theorem Ready.take_cons (h : t.Ready) {b : Byte} {rest : List Byte}
    (hqueued : t.queued = b :: rest) :
    ∃ t', shHostTakeQueuedByte t = (t', .byte b) ∧ t.Takes t' rest := by
  have hne : t.byteQueueLength ≠ 0 := by
    intro hzero
    rw [h.queued_eq_nil.mpr hzero] at hqueued
    cases hqueued
  have hlt : t.byteQueuePosition < t.byteQueueLength := by
    rcases h.position with hlt | ⟨hzero, -⟩
    · exact hlt
    · exact absurd hzero hne
  have hsize := h.size
  have hle := h.length_le
  have hlength := h.length_sequence
  have hcell : t.sequence.drop t.byteQueuePosition =
      cell t.byteQueue t.byteQueuePosition :: t.sequence.drop (t.byteQueuePosition + 1) := by
    rw [List.drop_eq_getElem_cons (by omega), cell, List.getD_eq_getElem?_getD,
      List.getElem?_eq_getElem (by omega), Option.getD_some]
    simp only [sequence, List.getElem_take]
  rw [WindowsTerminal.queued, hcell, List.cons_append] at hqueued
  obtain ⟨rfl, rfl⟩ := List.cons.inj hqueued
  have hdone : t.byteQueuePosition + 1 = t.byteQueueLength →
      t.sequence.drop (t.byteQueuePosition + 1) = [] :=
    fun hlast => List.drop_eq_nil_of_le (hlength.trans hlast.symm).le
  unfold shHostTakeQueuedByte
  rw [if_neg (by omega)]
  dsimp only
  split_ifs with hlast hrepeat
  · have hremaining : (t.repeatRemaining - 1).toNat = t.repeatRemaining.toNat - 1 :=
      UInt16.toNat_sub_of_le _ _ (UInt16.le_of_lt hrepeat)
    have hmany : 1 < t.repeatRemaining.toNat := hrepeat
    refine ⟨_, rfl, ⟨hsize, hle, .inl (Nat.pos_of_ne_zero hne), h.surrogate⟩, ?_, rfl, rfl⟩
    rw [hdone hlast, List.nil_append, WindowsTerminal.queued, hremaining]
    show t.sequence ++ (List.replicate (t.repeatRemaining.toNat - 1 - 1) t.sequence).flatten =
      (List.replicate (t.repeatRemaining.toNat - 1) t.sequence).flatten
    rw [← List.flatten_cons, ← List.replicate_succ]
    congr 2
    omega
  · have hremaining : t.repeatRemaining.toNat - 1 = 0 := by
      have hle : t.repeatRemaining.toNat ≤ 1 := UInt16.not_lt.mp hrepeat
      omega
    refine ⟨_, rfl, ⟨hsize, Nat.zero_le _, .inr ⟨rfl, rfl⟩, h.surrogate⟩, ?_, rfl, rfl⟩
    rw [hdone hlast, hremaining]
    simp only [WindowsTerminal.queued, WindowsTerminal.sequence, List.take_zero, List.drop_nil,
      List.replicate_zero, List.flatten_replicate_nil, List.flatten_nil, List.append_nil]
  · refine ⟨_, rfl, ⟨hsize, hle, .inl (by dsimp only; omega), h.surrogate⟩, rfl, rfl, rfl⟩

/-- What queueing a key does to a terminal with an empty queue: bytes are ready, unless there are
none. -/
structure Queues (t : WindowsTerminal) (r : WindowsTerminal × HostStatus) (bytes : List Byte)
    (pending : Option Utf16.High) : Prop where
  ready : r.1.Ready
  queued : r.1.queued = bytes
  status : r.2 = if bytes = [] then .success else .readByte
  pending : r.1.pending = pending
  settings : r.1.settings = t.settings

/-- A sequence that fits is queued as often as the key repeats.

**Proof sketch.** The bytes are stored from the start of the buffer. The repeat counter holds the
repetitions but the first, and a count of zero means one. -/
private theorem Ready.queueSequence (h : t.Ready) {bytes : List Byte} (hne : bytes ≠ [])
    (hfits : bytes.length ≤ byteQueueSize) (repeatCount : UInt16) :
    t.Queues ((shHostQueueSequence t bytes repeatCount).1,
      (shHostQueueSequence t bytes repeatCount).2.whenQueued)
      (List.replicate (times repeatCount) bytes).flatten t.pending := by
  have hpos : 0 < bytes.length := List.length_pos_of_ne_nil hne
  have hroom : 0 + bytes.length ≤ t.byteQueue.length := by
    rw [Nat.zero_add, h.size]
    exact hfits
  have hstored : (Mem.store t.byteQueue 0 bytes).take bytes.length = bytes := by
    rw [Mem.store_eq hroom, List.take_zero, List.nil_append]
    exact List.take_left
  have hzero : ∀ n : UInt16, n ≠ 0 → n.toNat ≠ 0 := fun n hn heq => hn (UInt16.toNat_inj.mp heq)
  have htimes : (if repeatCount = 0 then 1 else repeatCount : UInt16).toNat - 1 + 1 =
      times repeatCount := by
    unfold times
    split_ifs with hrepeat
    · rfl
    · have := hzero repeatCount hrepeat
      omega
  have hbytes : (List.replicate (times repeatCount) bytes).flatten ≠ [] := by
    rw [← htimes, List.replicate_succ, List.flatten_cons]
    exact fun heq => hne (List.append_eq_nil_iff.mp heq).1
  unfold shHostQueueSequence
  rw [if_neg (by omega)]
  refine ⟨⟨(Mem.length_store _ _ _).trans h.size, hfits, .inl hpos, h.surrogate⟩, ?_, ?_, rfl, rfl⟩
  · rw [← htimes, List.replicate_succ, List.flatten_cons]
    show ((Mem.store t.byteQueue 0 bytes).take bytes.length).drop 0 ++ _ = _
    rw [hstored]
    show bytes ++ (List.replicate _ ((Mem.store t.byteQueue 0 bytes).take bytes.length)).flatten = _
    rw [hstored]
  · rw [if_neg hbytes]
    rfl

/-- Nothing is queued. -/
private theorem Ready.queueNothing (h : t.Ready) (hqueued : t.queued = []) {surrogate : UInt16}
    (hsurrogate : surrogate = 0 ∨ Utf16.IsHigh surrogate) :
    t.Queues ({ t with pendingHighSurrogate := surrogate }, .success) [] (Utf16.next surrogate) :=
  ⟨⟨h.size, h.length_le, h.position, hsurrogate⟩, hqueued, rfl, rfl, rfl⟩

/-- The units of a character are queued in UTF-8. -/
theorem Ready.queueUnits (h : t.Ready) {toUtf8 : WideCharToMultiByte}
    (hconvert : ConvertsCharacters toUtf8) (c : Char) (repeatCount : UInt16) :
    t.Queues (PortableShell.queueUnits toUtf8 t (Utf16.encode c) repeatCount)
      (List.replicate (times repeatCount) (String.utf8EncodeChar c)).flatten t.pending := by
  have hfits : (String.utf8EncodeChar c).length ≤ byteQueueSize := by
    rw [String.length_utf8EncodeChar]
    exact (Char.utf8Size_le_four c).trans (by decide)
  have hne : String.utf8EncodeChar c ≠ [] := String.utf8EncodeChar_ne_nil
  unfold PortableShell.queueUnits
  dsimp only
  rw [hconvert c byteQueueSize hfits, if_neg (mt List.length_eq_zero_iff.mp hne)]
  exact h.queueSequence hne hfits repeatCount

/-- The bytes of a repeated key. -/
private theorem flatMap_repeated (key : HostKey) (n : ℕ) :
    ([key].flatMap (List.replicate n)).flatMap HostKey.bytes =
      (List.replicate n key.bytes).flatten := by
  rw [List.flatMap_singleton, List.flatMap, List.map_replicate]

/-- Nothing waits behind another unit than a high surrogate. -/
private theorem next_eq_none {surrogate : UInt16} (h : ¬Utf16.IsHigh surrogate) :
    Utf16.next surrogate = none := dif_neg h

/-- **A unit that completes a character** other than NUL.

**Proof sketch.** A character is completed by the low half of a pair or by a unit that belongs to no
pair; each is its own branch of `sh_host_queue_unicode`. That a high half waits is the invariant on
the surrogate. -/
theorem Ready.queueUnicode_complete (h : t.Ready) (toUtf8 : WideCharToMultiByte)
    {character : UInt16} {c : Char} (hc : Utf16.complete t.pending character = some c)
    (hne : c ≠ Char.ofNat 0) (repeatCount : UInt16) :
    shHostQueueUnicode toUtf8 t character repeatCount =
        PortableShell.queueUnits toUtf8 { t with pendingHighSurrogate := 0 } (Utf16.encode c)
          repeatCount ∧
      Utf16.next character = none := by
  have hunits := Utf16.encode_of_complete hc
  unfold Utf16.complete at hc
  split_ifs at hc with hhigh hlow
  · obtain ⟨high, hpending, -⟩ := Option.map_eq_some_iff.mp hc
    have hwaits : t.pendingHighSurrogate = high.1 ∧ t.pendingHighSurrogate ≠ 0 := by
      rcases h.surrogate with hzero | hsome
      · rw [WindowsTerminal.pending, hzero] at hpending
        cases hpending
      · rw [WindowsTerminal.pending, Utf16.next, dif_pos hsome] at hpending
        obtain rfl := Option.some.inj hpending
        refine ⟨rfl, fun hzero => ?_⟩
        rw [hzero] at hsome
        exact absurd hsome (by decide)
    refine ⟨?_, next_eq_none hhigh⟩
    rw [hunits, if_pos hlow, hpending, shHostQueueUnicode, if_neg hhigh,
      if_pos hlow, if_neg hwaits.2, hwaits.1]
    rfl
  · obtain rfl := Option.some.inj hc
    have hzero : character ≠ 0 := by
      rintro rfl
      exact hne rfl
    refine ⟨?_, next_eq_none hhigh⟩
    rw [hunits, if_neg hlow, shHostQueueUnicode, if_neg hhigh,
      if_neg hlow, if_neg hzero]

/-- **A unit that completes nothing**, or NUL.

**Proof sketch.** A high half waits for the next unit. A low half completes nothing only when no
high half waits, and any other unit that completes nothing but NUL is NUL itself. -/
theorem Ready.queueUnicode_nothing (h : t.Ready) (toUtf8 : WideCharToMultiByte) {character : UInt16}
    (hc : (Utf16.complete t.pending character).filter (· ≠ Char.ofNat 0) = none)
    (repeatCount : UInt16) :
    ∃ surrogate, shHostQueueUnicode toUtf8 t character repeatCount =
        ({ t with pendingHighSurrogate := surrogate }, .success) ∧
      (surrogate = 0 ∨ Utf16.IsHigh surrogate) ∧ Utf16.next surrogate = Utf16.next character := by
  have hnul : ∀ c, Utf16.complete t.pending character = some c → character = 0 := by
    intro c hcomplete
    rw [Option.filter_eq_none_iff] at hc
    have hzero : c = Char.ofNat 0 := by simpa using hc c hcomplete
    exact Utf16.complete_eq_zero_iff.mp (hcomplete.trans (congrArg some hzero))
  unfold shHostQueueUnicode
  by_cases hhigh : Utf16.IsHigh character
  · exact ⟨character, if_pos hhigh, .inr hhigh, rfl⟩
  refine ⟨0, ?_, .inl rfl, (next_eq_none hhigh).symm⟩
  rw [if_neg hhigh]
  by_cases hlow : Utf16.IsLow character
  · have hzero : t.pendingHighSurrogate = 0 := by
      rcases h.surrogate with hzero | hsome
      · exact hzero
      · have hcomplete : Utf16.complete t.pending character =
            some (Utf16.pair t.pendingHighSurrogate character) := by
          rw [Utf16.complete, if_neg hhigh, if_pos hlow, WindowsTerminal.pending, Utf16.next,
            dif_pos hsome]
          rfl
        rw [hnul _ hcomplete] at hlow
        exact absurd hlow (by decide)
    rw [if_pos hlow, if_pos hzero, ← hzero]
  · have hzero : character = 0 := by
      refine hnul (Char.ofNat character.toNat) ?_
      rw [Utf16.complete, if_neg hhigh, if_neg hlow]
    rw [if_neg hlow, if_pos hzero]

/-- **A key event**: its key, if it completes one, is queued as often as it repeats.

**Proof sketch.** A key without a character is queued as its sequence. Else the unit completes a
character, which is converted to UTF-8 and queued, or nothing. -/
theorem Ready.queueKey (h : t.Ready) (hqueued : t.queued = []) {toUtf8 : WideCharToMultiByte}
    (hconvert : ConvertsCharacters toUtf8) (virtualKeyCode unicodeChar repeatCount : UInt16) :
    t.Queues (PortableShell.queueKey toUtf8 t virtualKeyCode unicodeChar repeatCount)
      ((repeatedKey t.pending virtualKeyCode unicodeChar repeatCount).flatMap HostKey.bytes)
      (pendingBehind t.pending virtualKeyCode unicodeChar) := by
  unfold PortableShell.queueKey shHostQueueSpecialKey repeatedKey pressedKey pendingBehind
  cases hspecial : specialKey virtualKeyCode with
  | some key =>
    have hne : key.bytes ≠ [] := List.cons_ne_nil _ _
    have hfits : key.bytes.length ≤ byteQueueSize := by cases key <;> decide
    have hqueues := h.queueSequence hne hfits repeatCount
    have hstatus : (shHostQueueSequence t key.bytes repeatCount).2.whenQueued ≠ .success := by
      cases (shHostQueueSequence t key.bytes repeatCount).2 <;> decide
    dsimp only
    rw [if_neg hstatus, Option.toList_some, flatMap_repeated]
    exact hqueues
  | none =>
    dsimp only
    rw [if_pos rfl]
    cases hc : (Utf16.complete t.pending unicodeChar).filter (· ≠ Char.ofNat 0) with
    | none =>
      obtain ⟨surrogate, heq, hsurrogate, hnext⟩ := h.queueUnicode_nothing toUtf8 hc repeatCount
      rw [heq]
      have hqueues := h.queueNothing hqueued hsurrogate
      rw [hnext] at hqueues
      exact hqueues
    | some c =>
      obtain ⟨hcomplete, hne⟩ := Option.filter_eq_some_iff.mp hc
      obtain ⟨heq, hnext⟩ :=
        h.queueUnicode_complete toUtf8 hcomplete (by simpa using hne) repeatCount
      have hcleared : ({ t with pendingHighSurrogate := 0 } : WindowsTerminal).Ready :=
        ⟨h.size, h.length_le, h.position, .inl rfl⟩
      obtain ⟨hready, hbytes, hstatus, hpending, hsettings⟩ :=
        hcleared.queueUnits hconvert c repeatCount
      rw [heq, Option.map_some, Option.toList_some, flatMap_repeated]
      exact ⟨hready, hbytes, hstatus, hpending.trans hnext.symm, hsettings⟩

/-- What the loop over console events finds: the first of the results, with a terminal from which
the others follow. -/
def Finds (toUtf8 : WideCharToMultiByte) (t : WindowsTerminal) (console : List ConsoleRead) :
    List HostRead → Prop
  | [] => consoleLoop toUtf8 t console = none
  | r :: results => ∃ t' rest, consoleLoop toUtf8 t console = some (t', rest, r) ∧ t'.Ready ∧
      t'.settings = t.settings ∧ t'.queued.map .byte ++ delivered t'.pending rest = results

/-- The same from another terminal and other events that the loop passes through. -/
theorem Finds.of_eq {toUtf8 : WideCharToMultiByte} {t t' : WindowsTerminal}
    {console console' : List ConsoleRead} {results : List HostRead}
    (h : t'.Finds toUtf8 console' results)
    (hloop : consoleLoop toUtf8 t console = consoleLoop toUtf8 t' console')
    (hsettings : t'.settings = t.settings) : t.Finds toUtf8 console results := by
  cases results with
  | nil => exact hloop.trans h
  | cons r results =>
    obtain ⟨t'', rest, hfound, hready, hsame, hresults⟩ := h
    exact ⟨t'', rest, hloop.trans hfound, hready, hsame.trans hsettings, hresults⟩

/-- **The loop over console events** finds what the console delivers.

**Proof sketch.** Induction on the reads. A record without a key press or a key without bytes leaves
nothing queued, so the loop goes on; a key with bytes queues them, and the first one is taken. -/
theorem Ready.finds {toUtf8 : WideCharToMultiByte} (hconvert : ConvertsCharacters toUtf8)
    (h : t.Ready) (hqueued : t.queued = []) (console : List ConsoleRead) :
    t.Finds toUtf8 console (delivered t.pending console) := by
  induction console generalizing t with
  | nil => rfl
  | cons read console ih =>
    have hskip := ih h hqueued
    cases read with
    | failed =>
      refine ⟨t, console, rfl, h, rfl, ?_⟩
      rw [hqueued]
      rfl
    | noRecord => exact hskip.of_eq rfl rfl
    | record r =>
      cases r with
      | other => exact hskip.of_eq rfl rfl
      | key keyDown virtualKeyCode unicodeChar repeatCount =>
        cases keyDown with
        | false => exact hskip.of_eq rfl rfl
        | true =>
          have hkey := h.queueKey hqueued hconvert virtualKeyCode unicodeChar repeatCount
          have hstatus := hkey.status
          have hnext := hkey.pending
          rw [delivered, ← hnext]
          cases hbytes : (repeatedKey t.pending virtualKeyCode unicodeChar repeatCount).flatMap
              HostKey.bytes with
          | nil =>
            rw [hbytes, if_pos rfl] at hstatus
            refine (ih hkey.ready (hkey.queued.trans hbytes)).of_eq ?_ hkey.settings
            rw [consoleLoop, hstatus]
          | cons b bytes =>
            rw [hbytes, if_neg (List.cons_ne_nil b bytes)] at hstatus
            obtain ⟨t', htaken, htakes⟩ := hkey.ready.take_cons (hkey.queued.trans hbytes)
            refine ⟨t', console, ?_, htakes.ready, htakes.settings.trans hkey.settings, ?_⟩
            · rw [consoleLoop, hstatus]
              dsimp only
              rw [htaken]
            · rw [htakes.queued, htakes.pending]
              rfl

end WindowsTerminal

/-! ## Reading -/

/-- What reads of a terminal return. -/
def WindowsInput.results (s : WindowsInput) : List HostRead :=
  s.terminal.queued.map .byte ++
    if s.terminal.inputIsConsole = true then delivered s.terminal.pending s.console
    else s.file.map FileRead.toRead

/-- What a read does: it returns the first of the results and leaves the others, or it waits. -/
def WindowsInput.Reads (toUtf8 : WideCharToMultiByte) (s : WindowsInput) : List HostRead → Prop
  | [] => windowsReadByte toUtf8 s = none
  | r :: results => ∃ s', windowsReadByte toUtf8 s = some (s', r) ∧ s'.terminal.Ready ∧
      s'.terminal.opened = true ∧ s'.results = results

/-- **A read** of an open terminal.

**Proof sketch.** Case split on the queue and on the kind of the input. A queued byte is taken; else
a file gives its next byte, and a console is `Ready.finds`. -/
theorem WindowsInput.reads {toUtf8 : WideCharToMultiByte} (hconvert : ConvertsCharacters toUtf8)
    {s : WindowsInput} (hready : s.terminal.Ready) (hopened : s.terminal.opened = true) :
    s.Reads toUtf8 s.results := by
  have hclosed : ¬s.terminal.opened = false := by simp [hopened]
  cases hqueued : s.terminal.queued with
  | cons b bytes =>
    obtain ⟨t', htaken, htakes⟩ := hready.take_cons hqueued
    obtain ⟨hopened', hconsole⟩ := WindowsTerminal.flags_of_settings htakes.settings
    rw [WindowsInput.results, hqueued]
    refine ⟨{ s with terminal := t' }, ?_, htakes.ready, hopened'.trans hopened, ?_⟩
    · rw [windowsReadByte, if_neg hclosed, htaken]
      rfl
    · rw [WindowsInput.results, htakes.queued]
      dsimp only
      rw [hconsole, htakes.pending]
      rfl
  | nil =>
    have htaken := hready.take_nil hqueued
    rw [WindowsInput.results, hqueued, List.map_nil, List.nil_append]
    cases hconsole : s.terminal.inputIsConsole with
    | false =>
      rw [if_neg Bool.false_ne_true]
      cases hfile : s.file with
      | nil =>
        show windowsReadByte toUtf8 s = none
        rw [windowsReadByte, if_neg hclosed, htaken, if_neg (not_not.mpr rfl), if_pos hconsole,
          hfile]
      | cons r rest =>
        refine ⟨{ s with file := rest }, ?_, hready, hopened, ?_⟩
        · rw [windowsReadByte, if_neg hclosed, htaken, if_neg (not_not.mpr rfl), if_pos hconsole,
            hfile]
        · rw [WindowsInput.results, hqueued, hconsole]
          rfl
    | true =>
      have hfile : ¬s.terminal.inputIsConsole = false := by simp [hconsole]
      have hfinds := hready.finds hconvert hqueued s.console
      rw [if_pos rfl]
      cases hresults : delivered s.terminal.pending s.console with
      | nil =>
        rw [hresults] at hfinds
        have hloop : consoleLoop toUtf8 s.terminal s.console = none := hfinds
        show windowsReadByte toUtf8 s = none
        rw [windowsReadByte, if_neg hclosed, htaken, if_neg (not_not.mpr rfl), if_neg hfile, hloop]
      | cons r results =>
        rw [hresults] at hfinds
        obtain ⟨t', rest, hloop, hready', hsettings, hrest⟩ := hfinds
        obtain ⟨hopened', hconsole'⟩ := WindowsTerminal.flags_of_settings hsettings
        refine ⟨{ s with terminal := t', console := rest }, ?_, hready', hopened'.trans hopened, ?_⟩
        · rw [windowsReadByte, if_neg hclosed, htaken, if_neg (not_not.mpr rfl), if_neg hfile,
            hloop]
        · rw [WindowsInput.results]
          dsimp only
          rw [hconsole', hconsole, if_pos rfl, hrest]

/-- **Reads of an open terminal**: the bytes of the queue, then what the console delivers or what
the file holds. -/
theorem windowsReadByte_yields {toUtf8 : WideCharToMultiByte} (hconvert : ConvertsCharacters toUtf8)
    {s : WindowsInput} (hready : s.terminal.Ready) (hopened : s.terminal.opened = true) :
    Yields (windowsReadByte toUtf8) s.results s := by
  have hreads := s.reads hconvert hready hopened
  generalize hresults : s.results = results at hreads
  induction results generalizing s with
  | nil => exact hreads
  | cons r results ih =>
    obtain ⟨s', hread, hready', hopened', hrest⟩ := hreads
    have hreads' := s'.reads hconvert hready' hopened'
    rw [hrest] at hreads'
    exact ⟨s', hread, ih hready' hopened' hrest hreads'⟩

/-! ## Keys and texts -/

/-- **A console** that does not fail delivers the bytes of the keys. -/
theorem delivered_eq_keys {console : List ConsoleRead} (h : .failed ∉ console)
    (pending : Option Utf16.High) :
    delivered pending console =
      ((pressedKeys pending console).flatMap HostKey.bytes).map .byte := by
  induction console generalizing pending with
  | nil => rfl
  | cons read console ih =>
    have hrest : .failed ∉ console := fun hmem => h (List.mem_cons_of_mem _ hmem)
    cases read with
    | failed => exact absurd List.mem_cons_self h
    | noRecord => exact ih hrest pending
    | record r =>
      cases r with
      | other => exact ih hrest pending
      | key keyDown virtualKeyCode unicodeChar repeatCount =>
        cases keyDown with
        | false => exact ih hrest pending
        | true => rw [delivered, pressedKeys, ih hrest, List.flatMap_append, List.map_append]

/-- An event of somebody who types a text: nothing, a key that goes up, another event, or a unit of
a character, once. -/
def ConsoleRead.Types : ConsoleRead → Prop
  | .failed => False
  | .record (.key true virtualKeyCode _ repeatCount) =>
    specialKey virtualKeyCode = none ∧ repeatCount ≤ 1
  | _ => True

/-- The unit of a key that goes down. -/
def ConsoleRead.unit : ConsoleRead → Option UInt16
  | .record (.key true _ unicodeChar _) => some unicodeChar
  | _ => none

/-- The keys of somebody who types are the characters of the units, apart from NUL.

**Proof sketch.** Induction on the reads. A key of somebody who types is its unit, once, so the keys
are what decoding the units gives. -/
private theorem pressedKeys_text {console : List ConsoleRead} (h : ∀ r ∈ console, r.Types)
    (pending : Option Utf16.High) :
    pressedKeys pending console =
      ((Utf16.decode pending (console.filterMap ConsoleRead.unit)).filter
        (· ≠ Char.ofNat 0)).map .text := by
  induction console generalizing pending with
  | nil => rfl
  | cons read console ih =>
    obtain ⟨hread, hrest⟩ := List.forall_mem_cons.mp h
    cases read with
    | failed => exact hread.elim
    | noRecord => exact ih hrest pending
    | record r =>
      cases r with
      | other => exact ih hrest pending
      | key keyDown virtualKeyCode unicodeChar repeatCount =>
        cases keyDown with
        | false => exact ih hrest pending
        | true =>
          obtain ⟨hspecial, honce⟩ := hread
          have htimes : times repeatCount = 1 := by
            have hle : repeatCount.toNat ≤ 1 := honce
            unfold times
            split_ifs with hzero
            · rfl
            · have hne : repeatCount.toNat ≠ 0 := fun heq => hzero (UInt16.toNat_inj.mp heq)
              omega
          have hbehind : pendingBehind pending virtualKeyCode unicodeChar =
              Utf16.next unicodeChar := by
            rw [pendingBehind, hspecial]
            rfl
          rw [pressedKeys, ih hrest, hbehind, repeatedKey, pressedKey, hspecial, htimes]
          show _ = ((Utf16.decode pending (unicodeChar :: console.filterMap
            ConsoleRead.unit)).filter _).map _
          rw [Utf16.decode, List.filter_append, List.map_append]
          congr 1
          cases Utf16.complete pending unicodeChar with
          | none => rfl
          | some c => by_cases hc : c = Char.ofNat 0 <;> simp [Option.filter, hc]

/-! ## Reading from the start -/

section Opened

variable {W : Type} {os : WindowsSystem W} {w : W}

/-- What a terminal is like behind a successful `sh_host_terminal_open`. -/
structure WindowsTerminal.Fresh (t : WindowsTerminal) : Prop where
  ready : t.Ready
  queued : t.queued = []
  pending : t.pending = none

/-- A terminal with an empty queue. -/
private theorem WindowsTerminal.fresh_of_zero {t : WindowsTerminal}
    (hqueue : t.byteQueue = List.replicate byteQueueSize 0) (hlength : t.byteQueueLength = 0)
    (hposition : t.byteQueuePosition = 0) (hpending : t.pendingHighSurrogate = 0) : t.Fresh := by
  have hready : t.Ready := by
    refine ⟨?_, hlength.le.trans (Nat.zero_le _), .inr ⟨hlength, hposition⟩, .inl hpending⟩
    rw [hqueue, List.length_replicate]
  refine ⟨hready, hready.queued_eq_nil.mpr hlength, ?_⟩
  rw [WindowsTerminal.pending, hpending]
  rfl

/-- Opening the input leaves the queue alone. -/
private theorem openInput_fresh {t t' : WindowsTerminal} {input : Ptr} (h : t.Fresh)
    (hopen : (openInput os w t input).2 = some t') : t'.Fresh := by
  unfold openInput at hopen
  cases hmode : os.getConsoleMode w input with
  | none =>
    rw [hmode] at hopen
    obtain rfl := Option.some.inj hopen
    exact h
  | some mode =>
    rw [hmode] at hopen
    dsimp only at hopen
    split_ifs at hopen
    obtain rfl := Option.some.inj hopen
    exact ⟨⟨h.ready.size, h.ready.length_le, h.ready.position, h.ready.surrogate⟩, h.queued,
      h.pending⟩

/-- Opening the output does, too. -/
private theorem openOutput_fresh {t : WindowsTerminal} (h : t.Fresh) :
    (openOutput os w t).2.Fresh := by
  unfold openOutput
  cases houtput : t.outputHandle with
  | null => exact h
  | invalid => exact h
  | handle output =>
    dsimp only
    cases os.getConsoleMode w output with
    | none => exact h
    | some mode =>
      have hsaved : ({ t with outputModeSaved := true, originalOutputMode := mode } :
          WindowsTerminal).Fresh :=
        ⟨⟨h.ready.size, h.ready.length_le, h.ready.position, h.ready.surrogate⟩, h.queued,
          h.pending⟩
      rw [houtput] at hsaved
      dsimp only
      split_ifs <;> exact hsaved

/-- **What a successful `sh_host_terminal_open` has done**. -/
theorem windowsOpen_success (hopen : (windowsOpen os w).2.2 = .success) :
    ∃ input w' t, os.stdInput w = .handle input ∧
      openInput os w (withHandles os w input) input = (w', some t) ∧
      windowsOpen os w =
        ((openOutput os w' t).1, { (openOutput os w' t).2 with opened := true }, .success) := by
  unfold windowsOpen at hopen ⊢
  cases hinput : os.stdInput w with
  | null =>
    rw [hinput] at hopen
    cases hopen
  | invalid =>
    rw [hinput] at hopen
    cases hopen
  | handle input =>
    rw [hinput] at hopen
    dsimp only at hopen ⊢
    cases hterminal : (openInput os w (withHandles os w input) input).2 with
    | none =>
      rw [hterminal] at hopen
      cases hopen
    | some t => exact ⟨input, _, t, rfl, Prod.ext rfl hterminal, rfl⟩

/-- An opened terminal is fresh. -/
theorem windowsOpen_fresh (hopen : (windowsOpen os w).2.2 = .success) :
    (windowsOpen os w).2.1.Fresh ∧ (windowsOpen os w).2.1.opened = true := by
  obtain ⟨input, w', t, -, hinput, heq⟩ := windowsOpen_success hopen
  have hhandles : (withHandles os w input).Fresh :=
    WindowsTerminal.fresh_of_zero rfl rfl rfl rfl
  have hfresh : (openOutput os w' t).2.Fresh :=
    openOutput_fresh (openInput_fresh hhandles (congrArg Prod.snd hinput))
  rw [heq]
  exact ⟨⟨⟨hfresh.ready.size, hfresh.ready.length_le, hfresh.ready.position,
    hfresh.ready.surrogate⟩, hfresh.queued, hfresh.pending⟩, rfl⟩

/-- Reads of a console behind `sh_host_terminal_open`. -/
theorem windowsOpen_yields (hopen : (windowsOpen os w).2.2 = .success)
    (hconsole : (windowsOpen os w).2.1.inputIsConsole = true) {toUtf8 : WideCharToMultiByte}
    (hconvert : ConvertsCharacters toUtf8) (console : List ConsoleRead) (file : List FileRead) :
    Yields (windowsReadByte toUtf8) (delivered none console)
      ⟨(windowsOpen os w).2.1, console, file⟩ := by
  obtain ⟨hfresh, hopened⟩ := windowsOpen_fresh hopen
  have hyields := windowsReadByte_yields hconvert
    (s := ⟨(windowsOpen os w).2.1, console, file⟩) hfresh.ready hopened
  rw [WindowsInput.results, if_pos hconsole, hfresh.queued, hfresh.pending] at hyields
  exact hyields

/-- A console has no end. -/
private theorem eof_not_mem_delivered (pending : Option Utf16.High) (console : List ConsoleRead) :
    .eof ∉ delivered pending console := by
  induction console generalizing pending with
  | nil => exact List.not_mem_nil
  | cons read console ih =>
    cases read with
    | failed =>
      intro hmem
      rcases List.mem_cons.mp hmem with heq | hmem
      · cases heq
      · exact ih pending hmem
    | noRecord => exact ih pending
    | record r =>
      cases r with
      | other => exact ih pending
      | key keyDown virtualKeyCode unicodeChar repeatCount =>
        cases keyDown with
        | false => exact ih pending
        | true =>
          intro hmem
          rcases List.mem_append.mp hmem with hmem | hmem
          · obtain ⟨b, -, heq⟩ := List.mem_map.mp hmem
            cases heq
          · exact ih _ hmem

/-- **Reads of a console** return, one after the other, the bytes of its keys, each as often as it
repeats, and an error wherever the console has one. Other events, and keys that go up, are passed
over; there is never an end. -/
theorem console_reads (hopen : (windowsOpen os w).2.2 = .success)
    (hconsole : (windowsOpen os w).2.1.inputIsConsole = true) {toUtf8 : WideCharToMultiByte}
    (hconvert : ConvertsCharacters toUtf8) (console : List ConsoleRead) (file : List FileRead)
    (n : ℕ) :
    readMany (windowsReadByte toUtf8) n ⟨(windowsOpen os w).2.1, console, file⟩ =
        (delivered none console).take n ∧
      .eof ∉ readMany (windowsReadByte toUtf8) n ⟨(windowsOpen os w).2.1, console, file⟩ := by
  have hreads := (windowsOpen_yields hopen hconsole hconvert console file).readMany n
  refine ⟨hreads, ?_⟩
  rw [hreads]
  exact fun hmem => eof_not_mem_delivered none console (List.mem_of_mem_take hmem)

/-- A converter that behaves as documented: it fails when the units are not those of a text, or when
the bytes do not fit. -/
def exactConverter : WideCharToMultiByte := fun units size =>
  let text := Utf16.decode none units
  let bytes := text.flatMap String.utf8EncodeChar
  if text.flatMap Utf16.encode = units ∧ bytes.length ≤ size then bytes else []

/-- It converts characters. -/
theorem exactConverter_converts : ConvertsCharacters exactConverter := by
  intro c size hsize
  have hdecode : Utf16.decode none (Utf16.encode c) = [c] := by
    rw [← List.append_nil (Utf16.encode c), Utf16.decode_encode_append]
    rfl
  unfold exactConverter
  dsimp only
  rw [hdecode, List.flatMap_singleton, List.flatMap_singleton, if_pos ⟨rfl, hsize⟩]

/-- A system with a console: the world are the modes of its handles. -/
def smallWindows : WindowsSystem (Ptr → Option UInt32) where
  stdInput := fun _ => .handle 1
  stdOutput := fun _ => .handle 2
  getConsoleMode := fun w h => w h
  setConsoleMode := fun w h mode =>
    if (w h).isSome then (Function.update w h (some mode), true) else (w, false)

/-- The modes of its console. -/
def smallModes : Ptr → Option UInt32 := fun h =>
  if h = 1 then some 0x1f7 else if h = 2 then some 0x3 else none

/-- Keys of a console: one that goes up, the Up key twice, another event, a character in two units
with a key that goes up between them, and a carriage return. -/
def smallConsole : List ConsoleRead :=
  [.record (.key false 0x0d 0x0d 1), .record (.key true 0x26 0 2), .noRecord, .record .other,
    .record (.key true 0x00 0xd83d 1), .record (.key false 0x41 0x61 1),
    .record (.key true 0x00 0xde00 1), .record (.key true 0x0d 0x0d 0)]

/-- The first reads of this console. -/
theorem console_reads_small :
    readMany (windowsReadByte exactConverter) 8
        ⟨(windowsOpen smallWindows smallModes).2.1, smallConsole, []⟩ =
        (delivered none smallConsole).take 8 ∧
      .eof ∉ readMany (windowsReadByte exactConverter) 8
        ⟨(windowsOpen smallWindows smallModes).2.1, smallConsole, []⟩ :=
  console_reads (by decide) (by decide) exactConverter_converts smallConsole [] 8

/-- Among them is the character. -/
example : delivered none smallConsole =
    ([esc, chr '[', chr 'A', esc, chr '[', chr 'A', 0xf0, 0x9f, 0x98, 0x80, chr '\r'] :
      List Byte).map .byte := by decide

/-- **A typed text** is read in UTF-8: its characters arrive as UTF-16 units, among keys that go up
and other events, and each of its bytes is read once, in order. -/
theorem typed_text_reads (hopen : (windowsOpen os w).2.2 = .success)
    (hconsole : (windowsOpen os w).2.1.inputIsConsole = true) {toUtf8 : WideCharToMultiByte}
    (hconvert : ConvertsCharacters toUtf8) {console : List ConsoleRead}
    (htypes : ∀ r ∈ console, r.Types) {text : List Char} (hnul : Char.ofNat 0 ∉ text)
    (hunits : console.filterMap ConsoleRead.unit = text.flatMap Utf16.encode)
    (file : List FileRead) (n : ℕ) :
    readMany (windowsReadByte toUtf8) n ⟨(windowsOpen os w).2.1, console, file⟩ =
      ((text.flatMap String.utf8EncodeChar).map .byte).take n := by
  have hquiet : .failed ∉ console := fun hmem => htypes _ hmem
  have hkeys : pressedKeys none console = text.map .text := by
    rw [pressedKeys_text htypes, hunits, Utf16.decode_encode, List.filter_eq_self.mpr]
    intro c hc
    simpa using fun heq : c = Char.ofNat 0 => hnul (heq ▸ hc)
  rw [(windowsOpen_yields hopen hconsole hconvert console file).readMany n,
    delivered_eq_keys hquiet, hkeys, List.flatMap_map]
  rfl

/-- A text of two characters. -/
theorem typed_text_reads_small :
    readMany (windowsReadByte exactConverter) 6
        ⟨(windowsOpen smallWindows smallModes).2.1,
          [.record (.key true 0x00 0xe9 1), .record (.key false 0x00 0xe9 1),
            .record (.key true 0x00 0xd83d 1), .noRecord, .record (.key true 0x00 0xde00 1)], []⟩ =
      (([Char.ofNat 0xe9, Char.ofNat 0x1f600].flatMap String.utf8EncodeChar).map .byte).take 6 :=
  typed_text_reads (by decide) (by decide) exactConverter_converts
    (by simp [ConsoleRead.Types, specialKey]) (by decide) (by decide) [] 6

end Opened

end PortableShell
