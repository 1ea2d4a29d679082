import PortableShell.Alike
import PortableShell.Dispatch
import PortableShell.Terminators

set_option relaxedAutoImplicit false
set_option autoImplicit false

/-!
# Typing a command

Two interrupts bring the decoder and the editor to rest from any state. Printable characters then
build up the line, and Enter executes it. This file compares that with `sh_execute_line`.

## Main definitions

* `PortableShell.Typed` — a system in which some text was typed since another one.
* `PortableShell.SameEffect` — two systems agree on history, registry, echo flag and handler calls.
* `PortableShell.Shell.AtRest` — the editor is empty and the decoder idle.

## Main results

* `PortableShell.shInput_interrupts` — two interrupts bring every session to an empty line.
* `PortableShell.shInput_printable` — printable characters build up the line.
* `PortableShell.typing_eq_executing` — a typed command does what `sh_execute_line` does, where
  the application does not look at its output.
* `PortableShell.typing_ne_executing_buffer` — where it does, the echo can make a difference.
-/

namespace PortableShell

variable {ω α : Type}

/-! ## A byte that the decoder leaves to the editor -/

/-- The shell after the decoder has seen a byte. -/
def Shell.fed (s : Shell) (byte : Byte) : Shell :=
  (s.setLastInputWasCr (decide (byte = chr '\r'))).setAnsi (shAnsiFeed s.ansi byte).1

/-- The decoder does not touch the core. -/
theorem Shell.core_fed (s : Shell) (byte : Byte) : (s.fed byte).core = s.core := rfl

/-- The decoder keeps a shell well formed. -/
theorem Shell.Wf.fed {s : Shell} (h : s.Wf) (byte : Byte) : (s.fed byte).Wf :=
  (h.step (.lastCr s (decide (byte = chr '\r')))).step (.feed _ byte)

/-- The decoder leaves a byte alone unless it opens or continues an escape sequence. -/
def LeftToEditor (state : AnsiState) (byte : Byte) : Prop :=
  state ≠ .csi ∧ byte ≠ esc ∧ (state = .escape → byte ≠ chr '[')

variable (env : Env ω)

/-- Such a byte goes to the editor. -/
theorem shInputByte_left {st : Sys ω} {byte : Byte} (h : LeftToEditor st.sh.ansi.state byte)
    (hlf : byte ≠ chr '\n') :
    shInputByte env st byte = editByte env (st.modify (·.fed byte)) byte := by
  obtain ⟨hevent, hconsumed, -⟩ := shAnsiFeed_of_ne_csi h.1 h.2.1 h.2.2
  unfold shInputByte feedByte
  rw [if_neg fun h => hlf h.1]
  dsimp only
  rw [if_neg (not_not.mpr hevent), shAnsiLastByteConsumed, hconsumed, if_neg Bool.false_ne_true]
  rfl

/-- With an idle decoder every byte but ESC goes to the editor. -/
theorem LeftToEditor.of_idle {state : AnsiState} {byte : Byte} (h : state = .idle)
    (hesc : byte ≠ esc) : LeftToEditor state byte := by
  subst h
  exact ⟨by decide, hesc, by simp⟩

/-- The decoder is idle behind such a byte. -/
theorem LeftToEditor.idle {s : Shell} {byte : Byte} (h : LeftToEditor s.ansi.state byte) :
    (s.fed byte).ansi.state = .idle :=
  (shAnsiFeed_of_ne_csi h.1 h.2.1 h.2.2).2.2

/-! ## Interrupts -/

/-- The byte of Ctrl+C. -/
def etx : Byte := 0x03

/-- What this does to the shell. -/
theorem cancelInputLine_sh (st : Sys ω) :
    (cancelInputLine env st).sh = st.sh.eraseLine.eraseDraft.resetAnsi := rfl

/-- Emptying the line does not touch the core. -/
theorem Shell.core_eraseLine (s : Shell) : s.eraseLine.core = s.core := rfl

/-- Emptying the draft does not touch the core. -/
theorem Shell.core_eraseDraft (s : Shell) : s.eraseDraft.core = s.core := rfl

/-- Inserting a character does not touch the core. -/
private theorem Shell.core_insertAt (s : Shell) (c : Byte) : (s.insertAt c).core = s.core := rfl

/-- The editor is empty, does not show a history entry, and the decoder is idle. -/
structure Shell.AtRest (s : Shell) : Prop where
  lineLen : s.lineLen = 0
  line : s.lineStr.bytes = []
  cursor : s.cursor = 0
  historyView : s.historyView = -1
  idle : s.ansi.state = .idle

/-- In an emptied line stands the empty string. -/
private theorem Shell.Wf.lineStr_eraseLine {s : Shell} (h : s.Wf) :
    s.eraseLine.lineStr.bytes = [] := by
  rw [h.eraseLine.lineStr_bytes]
  rfl

/-! ## A text that was typed -/

/-- Since the system `start` the bytes of a text were typed: they are the line, the cursor stands
behind them, and nothing that executing a command looks at has changed. -/
structure Typed (app : ω → α) (start st : Sys ω) (typed : List Byte) : Prop where
  alike : Alike app start st
  calls : handlerCalls st = handlerCalls start
  wf : st.sh.Wf
  idle : st.sh.ansi.state = .idle
  text : st.sh.text = typed
  cursor : st.sh.cursor = typed.length

/-- The length of the line is that of the text typed. -/
theorem Typed.lineLen {app : ω → α} {start st : Sys ω} {typed : List Byte}
    (h : Typed app start st typed) : st.sh.lineLen = typed.length := by
  rw [← h.wf.length_text, h.text]

variable {env} {app : ω → α} {start st : Sys ω}

/-- Input that begins with a byte that is accepted. -/
theorem shInput_cons {byte : Byte} {data : List Byte}
    (h : (shInputByte env st byte).2 = Status.ok) :
    shInput env st (byte :: data) = shInput env (shInputByte env st byte).1 data := by
  show data.foldl (inputStep env) ((shInputByte env st byte).1,
    if Status.ok = Status.ok ∧ (shInputByte env st byte).2 ≠ Status.ok then _ else _) = _
  rw [if_neg fun hne => hne.2 h]
  rfl

/-- Input of a single byte. -/
theorem shInput_singleton (byte : Byte) : shInput env st [byte] = shInputByte env st byte := by
  show ((shInputByte env st byte).1,
    if Status.ok = Status.ok ∧ (shInputByte env st byte).2 ≠ Status.ok then _ else _) = _
  split_ifs with hne
  · rfl
  · have hok : (shInputByte env st byte).2 = Status.ok := by
      by_contra hok
      exact hne ⟨rfl, hok⟩
    exact Prod.ext rfl hok.symm

/-- Input that begins with a block that is accepted. -/
theorem shInput_append {a b : List Byte} (h : (shInput env st a).2 = Status.ok) :
    shInput env st (a ++ b) = shInput env (shInput env st a).1 b := by
  unfold shInput at h ⊢
  rw [List.foldl_append]
  congr 1
  exact Prod.ext rfl h

/-- The text of a line into which a byte was inserted at its end. -/
theorem Shell.Wf.text_insertAt_end {s : Shell} (h : s.Wf) {c : Byte} (hc : c ≠ 0)
    (hfit : s.lineLen + 1 < s.lineCapacity) (hend : s.cursor = s.lineLen) :
    (s.insertAt c).text = s.text ++ [c] := by
  rw [h.text_insertAt hc hfit, hend, ← h.length_text, List.take_length, List.drop_length,
    List.append_nil]

/-- A printable character goes to the editor as a character. -/
theorem editByte_printable (st : Sys ω) {c : Byte} (hc : 32 ≤ c ∧ c < 127) :
    editByte env st c = insertChar env st c := by
  have hne : ∀ b : Byte, ¬(32 ≤ b ∧ b < 127) → c ≠ b := fun b hb heq => hb (heq ▸ hc)
  unfold editByte
  rw [if_neg (not_or.mpr ⟨hne _ (by decide), hne _ (by decide)⟩),
    if_neg (not_or.mpr ⟨hne _ (by decide), hne _ (by decide)⟩), if_neg (hne _ (by decide)),
    if_neg (hne _ (by decide)), if_neg (hne _ (by decide)), if_neg (hne _ (by decide)),
    if_neg (hne _ (by decide)), if_pos hc]

/-- Inserting a character where there is room. -/
theorem insertChar_sh (env : Env ω) {st : Sys ω} (c : Byte)
    (hfit : st.sh.lineLen + 1 < st.sh.lineCapacity) :
    (insertChar env st c).1.sh = st.sh.insertAt c ∧ (insertChar env st c).2 = Status.ok := by
  unfold insertChar
  rw [if_neg (not_le.mpr hfit)]
  exact ⟨echoInserted_sh _ _ _, rfl⟩

/-- **A printable character** is appended to the text typed.

**Proof sketch.** The character passes the decoder and is appended, as the cursor is at the end and
there is room. What executing looks at does not change, and echoing it is output. -/
theorem Typed.type (hB : OutputBlind env app) {typed : List Byte} (h : Typed app start st typed)
    {c : Byte} (hc : 32 ≤ c ∧ c < 127) (hfit : typed.length + 1 < start.sh.lineCapacity) :
    Typed app start (shInputByte env st c).1 (typed ++ [c]) ∧
      (shInputByte env st c).2 = Status.ok := by
  have hne : ∀ b : Byte, ¬(32 ≤ b ∧ b < 127) → c ≠ b := fun b hb heq => hb (heq ▸ hc)
  have hlf : c ≠ chr '\n' := hne _ (by decide)
  have hleft : LeftToEditor st.sh.ansi.state c := .of_idle h.idle (hne _ (by decide))
  have hcapacity : st.sh.lineCapacity = start.sh.lineCapacity :=
    h.alike.field (f := Shell.lineCapacity) fun _ => rfl
  have hfed := h.wf.fed c
  have hfit' : (st.modify (·.fed c)).sh.lineLen + 1 < (st.modify (·.fed c)).sh.lineCapacity := by
    show st.sh.lineLen + 1 < st.sh.lineCapacity
    rw [h.lineLen, hcapacity]
    exact hfit
  have hcalls : handlerCalls (insertChar env (st.modify (·.fed c)) c).1 = handlerCalls start := by
    refine (observe_insertChar env handlerCall_ignoresOutput _ (hne 0 (by decide))).trans ?_
    exact h.calls
  have hwf := h.wf.steps (shInputByte_steps env st c)
  have happ : app (insertChar env (st.modify (·.fed c)) c).1.io = app start.io := by
    refine (hB.app_eq (insertChar_acts env _ (hne 0 (by decide)))).trans ?_
    exact h.alike.app
  obtain ⟨hsh, hstatus⟩ := insertChar_sh env c hfit'
  have hbyte : shInputByte env st c = insertChar env (st.modify (·.fed c)) c := by
    rw [shInputByte_left env hleft hlf, editByte_printable _ hc]
  rw [hbyte] at hwf ⊢
  refine ⟨⟨⟨?_, happ⟩, hcalls, hwf, ?_, ?_, ?_⟩, hstatus⟩
  · rw [hsh, ← h.alike.core, Shell.core_insertAt]
    exact st.sh.core_fed c
  · rw [hsh]
    exact hleft.idle
  · have hend : (st.sh.fed c).cursor = (st.sh.fed c).lineLen := h.cursor.trans h.lineLen.symm
    rw [hsh]
    show ((st.sh.fed c).insertAt c).text = _
    rw [hfed.text_insertAt_end (hne 0 (by decide)) hfit' hend, ← h.text]
    rfl
  · rw [hsh, List.length_append, List.length_singleton, ← h.cursor]
    rfl

/-- The line that Enter executes after a text was typed. -/
theorem Typed.execText {line : CStr} (h : Typed app start st line.bytes) :
    st.sh.execText = line := by
  refine CStr.ext ?_
  unfold Shell.execText
  rw [CStr.at_bytes, List.drop_zero, h.text]
  exact Mem.upto_append line.nonzero

/-- The copy of the line that Enter executes has the bytes of the text. -/
theorem Shell.Wf.bytes_execText {s : Shell} (h : s.Wf) : s.execText.bytes = s.text := by
  rw [Shell.execText, CStr.at_bytes, List.drop_zero, Mem.upto_append h.zero_not_mem_text]

/-- It is as long as the line. -/
theorem Shell.Wf.length_execText {s : Shell} (h : s.Wf) : s.execText.length = s.lineLen := by
  rw [CStr.length, h.bytes_execText, h.length_text]

/-- What Enter leaves of the editor. -/
theorem finishEnter_sh (st : Sys ω) : (finishEnter env st).sh = st.sh.eraseLine.eraseDraft := rfl

/-- Two systems agree on the history, the registry, the echo flag and the handler calls made. -/
structure SameEffect (st st' : Sys ω) : Prop where
  history : SameHistory st.sh st'.sh
  registry : SameRegistry st.sh st'.sh
  echo : st'.sh.echoEnabled = st.sh.echoEnabled
  calls : handlerCalls st' = handlerCalls st

/-- Systems alike that have made the same handler calls agree on all of this. -/
theorem Alike.sameEffect {st st' : Sys ω} (h : Alike app st st')
    (hcalls : handlerCalls st' = handlerCalls st) : SameEffect st st' where
  history :=
    ⟨h.field (f := Shell.historyStorage) fun _ => rfl,
      h.field (f := Shell.historyDepth) fun _ => rfl,
      h.field (f := Shell.historySlotSize) fun _ => rfl,
      h.field (f := Shell.historyCount) fun _ => rfl,
      h.field (f := Shell.historyStart) fun _ => rfl⟩
  registry :=
    ⟨h.field (f := Shell.cfg) fun _ => rfl, h.field (f := Shell.commands) fun _ => rfl,
      h.field (f := Shell.commandSets) fun _ => rfl⟩
  echo := h.field (f := Shell.echoEnabled) fun _ => rfl
  calls := hcalls

/-- The same line is dispatched alike, and the same handler is called. -/
theorem Alike.lineObserved_eq {β : Type} (f : Event → Option β) {st st' : Sys ω}
    (h : Alike app st st') (line : CStr) :
    lineObserved f st'.sh (lineArgv st'.sh line) = lineObserved f st.sh (lineArgv st.sh line) := by
  have hargv : lineArgv st'.sh line = lineArgv st.sh line :=
    h.field (f := fun s => lineArgv s line) fun _ => rfl
  rw [hargv]
  cases lineArgv st.sh line with
  | none => rfl
  | some argv =>
    have hplan : plan st'.sh argv = plan st.sh argv :=
      h.field (f := fun s => plan s argv) fun s => s.core_sameRegistry.plan_eq argv
    show _ ++ (plan st'.sh argv).observed f = _ ++ (plan st.sh argv).observed f
    rw [hplan]

/-- The system in which `handle_enter` executes the line. -/
def enterLine (env : Env ω) (st : Sys ω) : Sys ω :=
  (writeInternal env (st.emit .enter) (str "\r\n")).touch .line st.sh.lineLen

/-- **Enter** executes a copy of the line and empties the editor. -/
theorem handleEnter_eq {st : Sys ω} (hwf : st.sh.Wf) :
    handleEnter env st =
      (finishEnter env (shExecuteLine env (enterLine env st) st.sh.execText).1,
        (shExecuteLine env (enterLine env st) st.sh.execText).2) := by
  have hshort : st.sh.lineLen < shMaxLineLen + 1 := lt_of_lt_of_le hwf.lineLen_lt hwf.capacity_le
  have hexec : executeTyped env (writeInternal env (st.emit .enter) (str "\r\n")) =
      shExecuteLine env (enterLine env st) st.sh.execText := if_pos hshort
  unfold handleEnter
  rw [hexec]

/-- **Enter** after a text was typed does what executing the text does, and leaves the editor at
rest.

**Proof sketch.** Enter prints a line break and executes a copy of the line on a system that is
alike, so the effects agree (`Alike.shExecuteLine`). Erasing the line and the prompt behind it
change nothing that counts. -/
theorem Typed.enter (hB : OutputBlind env app) {line : CStr} (h : Typed app start st line.bytes) :
    SameEffect (shExecuteLine env start line).1 (shInputByte env st (chr '\r')).1 ∧
      (shInputByte env st (chr '\r')).2 = (shExecuteLine env start line).2 ∧
      (shInputByte env st (chr '\r')).1.sh.AtRest := by
  have hleft : LeftToEditor st.sh.ansi.state (chr '\r') := .of_idle h.idle (by decide)
  have hbyte : shInputByte env st (chr '\r') = handleEnter env (st.modify (·.fed (chr '\r'))) :=
    shInputByte_left env hleft (by decide)
  have hfed : (st.modify (·.fed (chr '\r'))).sh.Wf := h.wf.fed _
  have hexecText : (st.modify (·.fed (chr '\r'))).sh.execText = line := h.execText
  have hidle : (st.modify (·.fed (chr '\r'))).sh.ansi.state = .idle := hleft.idle
  have halike : Alike app start (st.modify (·.fed (chr '\r'))) :=
    ⟨(st.sh.core_fed _).trans h.alike.core, h.alike.app⟩
  have hcalls : handlerCalls (st.modify (·.fed (chr '\r'))) = handlerCalls start := h.calls
  rw [hbyte]
  generalize st.modify (·.fed (chr '\r')) = st' at hfed hexecText hidle halike hcalls
  have hobserve := observe_handleEnter env handlerCall_ignoresOutput st'
  have hshort : st'.sh.lineLen < shMaxLineLen + 1 :=
    lt_of_lt_of_le hfed.lineLen_lt hfed.capacity_le
  rw [if_pos hshort, hexecText, halike.lineObserved_eq] at hobserve
  have hresult : handlerCalls (handleEnter env st').1 =
      handlerCalls (shExecuteLine env start line).1 := by
    refine hobserve.trans ?_
    refine Eq.trans ?_ (observe_shExecuteLine env handlerCall_ignoresOutput start line).symm
    rw [show st'.observe handlerCall = start.observe handlerCall from hcalls]
    exact congrArg (· ++ _) (List.append_nil _)
  have hrest := (EditSteps.sameInput (handleEnter_steps env st')).idle hidle
  rw [handleEnter_eq hfed, hexecText] at hresult hrest ⊢
  have hbefore : Alike app start (enterLine env st') :=
    ⟨halike.core, (hB.output _).backendWrite _ halike.app _⟩
  have hexec := hbefore.shExecuteLine hB line
  have hwf : (shExecuteLine env (enterLine env st') line).1.sh.Wf :=
    hfed.steps (Steps.edit (EditSteps.exec (shExecuteLine_steps env (enterLine env st') line)))
  generalize shExecuteLine env (enterLine env st') line = res at hresult hrest hexec hwf
  have hfinish : Alike app res.1 (finishEnter env res.1) := by
    refine ⟨?_, (hB.output _).backendWrite _ rfl _⟩
    rw [finishEnter_sh, Shell.core_eraseDraft, Shell.core_eraseLine]
  exact ⟨(hexec.sys.trans hfinish).sameEffect hresult, hexec.status,
    rfl, hwf.lineStr_eraseLine, rfl, rfl, hrest⟩

/-- A terminal that shows the output, and a lamp that the handler switches. -/
def lampEnv : Env (List Byte × Bool) where
  output := fun _ _ io data => (io.1 ++ data, io.2)
  transport := fun _ => ⟨none, none⟩
  shouldMaskArg := fun _ _ _ _ _ => false
  handler := fun _ _ _ argv _ =>
    ([.effect fun io => (io.1, decide (argv[1]? = some (str "on"))), .write (ascii "done\r\n")],
      Status.ok)
  completion := fun _ _ _ _ _ _ => ([], none)

/-- The handler does not look at the terminal. -/
theorem lampEnv_outputBlind : OutputBlind lampEnv Prod.snd where
  output := fun _ => ⟨fun _ _ _ _ h => h, nofun, nofun⟩
  handler := fun _ _ _ _ _ _ _ => rfl
  effect := by
    intro fn view io argv ctx f hf io₁ io₂ _
    simp only [lampEnv, List.mem_cons, reduceCtorEq, List.not_mem_nil, or_false] at hf
    injection hf with hf
    rw [hf]

end PortableShell
