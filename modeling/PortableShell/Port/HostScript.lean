import PortableShell.LineEndings
import PortableShell.Port.HostShell
import PortableShell.TerminalView
import PortableShell.Typing

set_option relaxedAutoImplicit false
set_option autoImplicit false

/-!
# Scripts

With a script the host program starts the shell, feeds a file in blocks of 17 bytes and stops. This
file says what a script of printable characters and line endings means: its lines are executed one
by one, wherever the blocks end, in whatever way the lines end.

## Main definitions

* `PortableShell.hostScript` — `main` behind the options, with a script.
* `PortableShell.LineReader` — what has been read of a text: whole lines and the beginning of one.
* `PortableShell.scriptLines` — the lines of a file.
* `PortableShell.executeLines` — lines that are executed one by one.

## Main results

* `PortableShell.LineReader.read_lines` — reading byte by byte finds the lines.
* `PortableShell.Reads.byte` — a byte of input makes the shell follow the reader.
* `PortableShell.script_executes` — a script executes its lines in order.
-/

namespace PortableShell

variable {ω α : Type}

/-! ## The program -/

/-- The part of `main` with a script, behind the initialization, with the exit code. -/
def hostScript (env : Env ω) (exitRequested : ω → Bool) (st : Sys ω) (file : Option ScriptFile) :
    Sys ω × ℕ :=
  let r := runScript env exitRequested (shStart env st).1 file
  ((shStop env r.1).1, r.2)

/-! ## Reading lines -/

/-- What has been read of a text: the whole lines, the beginning of one, and whether the last byte
was a carriage return. -/
structure LineReader where
  lines : List (List Byte)
  text : List Byte
  afterCr : Bool

/-- One more byte. -/
def LineReader.feed (r : LineReader) (byte : Byte) : LineReader :=
  if byte = chr '\n' ∧ r.afterCr = true then { r with afterCr := false }
  else if isTerminator byte then ⟨r.lines ++ [r.text], [], decide (byte = chr '\r')⟩
  else ⟨r.lines, r.text ++ [byte], false⟩

/-- More bytes. -/
def LineReader.read (r : LineReader) (bytes : List Byte) : LineReader := bytes.foldl feed r

/-- The lines of a file. What stands behind the last line ending is a line unless it is empty. -/
def scriptLines (bytes : List Byte) : List (List Byte) :=
  let lines := (lf bytes).splitOn (chr '\n')
  if lines.getLast? = some [] then lines.dropLast else lines

namespace LineReader

/-- Nothing has been read. -/
def start : LineReader := ⟨[], [], false⟩

/-- Reading a byte and then more. -/
private theorem read_cons (r : LineReader) (byte : Byte) (bytes : List Byte) :
    r.read (byte :: bytes) = (r.feed byte).read bytes := rfl

/-- What reading a byte does to the lines that are left: a line ending closes the line, and any
other byte belongs to it.

**Proof sketch.** Case split on the byte: the line feed of a pair is dropped on both sides, a
terminator is a line feed of the normalised bytes and splits there, and any other byte is put behind
the text. -/
private theorem feed_splits (r : LineReader) (byte : Byte) (bytes : List Byte) :
    r.lines ++ ((lfFrom r.afterCr (byte :: bytes)).splitOn (chr '\n')).modifyHead (r.text ++ ·) =
      (r.feed byte).lines ++ ((lfFrom (r.feed byte).afterCr bytes).splitOn (chr '\n')).modifyHead
        ((r.feed byte).text ++ ·) := by
  have hprepend : ∀ lines : List (List Byte), lines.modifyHead ([] ++ ·) = lines := by
    intro lines
    cases lines <;> rfl
  rw [lfFrom]
  unfold feed
  split_ifs with hpair hterm
  · rfl
  · have hfeed : lineFeed byte = chr '\n' := by
      unfold lineFeed
      split_ifs with hcr
      · rfl
      · simpa [isTerminator, hcr] using hterm
    rw [hfeed, List.splitOn_cons_eq_if_modifyHead, if_pos (beq_self_eq_true _), hprepend]
    simp only [List.modifyHead_cons, List.append_nil, List.append_assoc, List.singleton_append]
  · have hne : ¬byte = chr '\r' ∧ ¬byte = chr '\n' := by
      simpa [isTerminator] using hterm
    have hfeed : lineFeed byte = byte := if_neg hne.1
    rw [hfeed, List.splitOn_cons_eq_if_modifyHead, if_neg (by simpa using hne.2),
      decide_eq_false hne.1]
    simp only [List.modifyHead_modifyHead, Function.comp_def, List.append_assoc,
      List.singleton_append]

/-- **Reading byte by byte finds the lines**: those that a reader has, with what it has of the next
one, are those of the bytes. -/
theorem read_lines (r : LineReader) (bytes : List Byte) :
    (r.read bytes).lines ++ [(r.read bytes).text] =
      r.lines ++ ((lfFrom r.afterCr bytes).splitOn (chr '\n')).modifyHead (r.text ++ ·) := by
  induction bytes generalizing r with
  | nil =>
    rw [read, List.foldl_nil, lfFrom, List.splitOn_nil]
    simp only [List.modifyHead_cons, List.append_nil]
  | cons byte bytes ih => rw [read_cons, ih, feed_splits]

/-- Reading keeps the lines that are there. -/
private theorem lines_prefix (r : LineReader) (bytes : List Byte) :
    r.lines <+: (r.read bytes).lines := by
  induction bytes generalizing r with
  | nil => exact List.prefix_rfl
  | cons byte bytes ih =>
    refine List.IsPrefix.trans ?_ (ih (r.feed byte))
    unfold feed
    split_ifs
    · exact List.prefix_rfl
    · exact List.prefix_append _ _
    · exact List.prefix_rfl

/-- Behind a carriage return the next line is empty. -/
private theorem text_nil {r : LineReader} (h : r.afterCr = true → r.text = []) (bytes : List Byte) :
    (r.read bytes).afterCr = true → (r.read bytes).text = [] := by
  induction bytes generalizing r with
  | nil => exact h
  | cons byte bytes ih =>
    refine ih (r := r.feed byte) ?_
    unfold feed
    split_ifs
    · exact nofun
    · exact fun _ => rfl
    · exact nofun

/-- The lines of a file are those that the reader has at its end, with the beginning of another one
unless it is empty. -/
private theorem scriptLines_eq (bytes : List Byte) :
    scriptLines bytes =
      if (start.read bytes).text = [] then (start.read bytes).lines
      else (start.read bytes).lines ++ [(start.read bytes).text] := by
  have hlines := read_lines start bytes
  have hsplit : ∀ lines : List (List Byte), start.lines ++ lines.modifyHead (start.text ++ ·) =
      lines := by
    intro lines
    cases lines <;> rfl
  rw [hsplit, show start.afterCr = false from rfl, lfFrom_false] at hlines
  unfold scriptLines
  dsimp only
  rw [← hlines, List.getLast?_concat, List.dropLast_concat]
  simp only [Option.some.injEq]

end LineReader

example : scriptLines (ascii "a\r\nbc\n\rd") = [ascii "a", ascii "bc", [], ascii "d"] := by decide

/-! ## Executing lines -/

/-- A line as a string, cut to the length that the editor takes. -/
def commandLine (max : ℕ) (line : List Byte) : CStr := (CStr.at (line ++ [0]) 0).take max

/-- Lines that are executed one by one. -/
def executeLines (env : Env ω) (max : ℕ) (st : Sys ω) (lines : List (List Byte)) : Sys ω :=
  lines.foldl (fun st line => (shExecuteLine env st (commandLine max line)).1) st

/-- The bytes of the string. -/
private theorem commandLine_bytes (max : ℕ) {line : List Byte} (h : 0 ∉ line) :
    (commandLine max line).bytes = line.take max := by
  rw [commandLine, CStr.take_bytes, CStr.at_bytes, List.drop_zero, Mem.upto_append h]

/-- One more line. -/
private theorem executeLines_append (env : Env ω) (max : ℕ) (st : Sys ω) (lines : List (List Byte))
    (line : List Byte) :
    executeLines env max st (lines ++ [line]) =
      (shExecuteLine env (executeLines env max st lines) (commandLine max line)).1 := by
  rw [executeLines, List.foldl_append]
  rfl

/-- Executing lines does not change the size of the line buffer. -/
private theorem executeLines_lineCapacity (env : Env ω) (max : ℕ) (st : Sys ω)
    (lines : List (List Byte)) :
    (executeLines env max st lines).sh.lineCapacity = st.sh.lineCapacity := by
  induction lines using List.reverseRecOn with
  | nil => rfl
  | append_singleton lines line ih =>
    have hsteps := Steps.edit (EditSteps.exec (shExecuteLine_steps env
      (executeLines env max st lines) (commandLine max line)))
    rw [executeLines_append, hsteps.sameSetup.lineCapacity, ih]

/-! ## The shell follows the reader -/

variable {env : Env ω} {app : ω → α} {start st : Sys ω}

/-- A character that does not fit leaves the text typed as it is.

**Proof sketch.** The character is refused with a message and a prompt, which leave everything but
the decoder alone. -/
private theorem Typed.type_full (hB : OutputBlind env app) {typed : List Byte}
    (h : Typed app start st typed) {c : Byte} (hc : 32 ≤ c ∧ c < 127)
    (hfull : start.sh.lineCapacity ≤ typed.length + 1) :
    Typed app start (shInputByte env st c).1 typed := by
  have hne : ∀ b : Byte, ¬(32 ≤ b ∧ b < 127) → c ≠ b := fun b hb heq => hb (heq ▸ hc)
  have hleft : LeftToEditor st.sh.ansi.state c := .of_idle h.idle (hne _ (by decide))
  have hcapacity : st.sh.lineCapacity = start.sh.lineCapacity :=
    h.alike.field (f := Shell.lineCapacity) fun _ => rfl
  have hfull' : (st.modify (·.fed c)).sh.lineLen + 1 ≥ (st.modify (·.fed c)).sh.lineCapacity := by
    show st.sh.lineLen + 1 ≥ st.sh.lineCapacity
    rw [h.lineLen, hcapacity]
    exact hfull
  have hcalls : handlerCalls (insertChar env (st.modify (·.fed c)) c).1 = handlerCalls start := by
    refine (observe_insertChar env handlerCall_ignoresOutput _ (hne 0 (by decide))).trans ?_
    exact h.calls
  have happ : app (insertChar env (st.modify (·.fed c)) c).1.io = app start.io := by
    refine (hB.app_eq (insertChar_acts env _ (hne 0 (by decide)))).trans ?_
    exact h.alike.app
  have hsh : (insertChar env (st.modify (·.fed c)) c).1.sh = st.sh.fed c := by
    unfold insertChar
    rw [if_pos hfull']
    show (shPrompt env (writeInternal env (st.modify (·.fed c)) _)).sh = _
    rw [shPrompt, writeInternal_sh, writeInternal_sh]
    rfl
  rw [shInputByte_left env hleft (hne _ (by decide)), editByte_printable _ hc]
  refine ⟨⟨?_, happ⟩, hcalls, ?_, ?_, ?_, ?_⟩
  · rw [hsh, Shell.core_fed, h.alike.core]
  · rw [hsh]
    exact h.wf.fed c
  · rw [hsh]
    exact hleft.idle
  · rw [hsh]
    exact h.text
  · rw [hsh]
    exact h.cursor

/-- What the decoder does with a byte that it leaves to the editor changes nothing about the text
typed. -/
theorem Typed.fed {typed : List Byte} (h : Typed app start st typed) {byte : Byte}
    (hesc : byte ≠ esc) : Typed app start (st.modify (·.fed byte)) typed where
  alike := ⟨(st.sh.core_fed byte).trans h.alike.core, h.alike.app⟩
  calls := h.calls
  wf := h.wf.fed byte
  idle := (LeftToEditor.of_idle h.idle hesc).idle
  text := h.text
  cursor := h.cursor

/-- `handle_enter` behind a text that was typed executes it, and nothing is typed behind that. -/
theorem Typed.handleEnter (hB : OutputBlind env app) {line : CStr}
    (h : Typed app start st line.bytes) :
    Typed app (shExecuteLine env start line).1 (PortableShell.handleEnter env st).1 [] := by
  have hcalls : handlerCalls (PortableShell.handleEnter env st).1 =
      handlerCalls (shExecuteLine env start line).1 := by
    have hshort : st.sh.lineLen < shMaxLineLen + 1 :=
      lt_of_lt_of_le h.wf.lineLen_lt h.wf.capacity_le
    have hobserve := observe_handleEnter env handlerCall_ignoresOutput st
    have hexec := observe_shExecuteLine env handlerCall_ignoresOutput start line
    rw [if_pos hshort, h.execText, h.alike.lineObserved_eq] at hobserve
    refine hobserve.trans (Eq.trans ?_ hexec.symm)
    rw [show st.observe handlerCall = start.observe handlerCall from h.calls]
    exact congrArg (· ++ _) (List.append_nil _)
  have hidle := (EditSteps.sameInput (handleEnter_steps env st)).idle h.idle
  have hwf := h.wf.steps (.edit (handleEnter_steps env st))
  rw [handleEnter_eq h.wf, h.execText] at hcalls hidle hwf ⊢
  have hbefore : Alike app start (enterLine env st) :=
    ⟨h.alike.core, ((hB.output (app start.io)).backendWrite _ h.alike.app _)⟩
  have hexec := (hbefore.shExecuteLine hB line).sys
  generalize shExecuteLine env (enterLine env st) line = res at hcalls hidle hwf hexec ⊢
  refine ⟨⟨?_, ?_⟩, hcalls, hwf, hidle, rfl, rfl⟩
  · rw [finishEnter_sh, Shell.core_eraseDraft, Shell.core_eraseLine, hexec.core]
  · exact (hB.output _).backendWrite _ hexec.app _

/-- A line ending that does not end a pair, with an idle decoder, is the Enter key. -/
private theorem shInputByte_terminator (env : Env ω) {st : Sys ω} {byte : Byte}
    (hterm : isTerminator byte = true) (hidle : st.sh.ansi.state = .idle)
    (hpair : ¬(byte = chr '\n' ∧ st.sh.lastInputWasCr = true)) :
    shInputByte env st byte = handleEnter env (st.modify (·.fed byte)) := by
  have hbyte : byte = chr '\r' ∨ byte = chr '\n' := by
    simpa [isTerminator] using hterm
  have hesc : byte ≠ esc := by
    rcases hbyte with rfl | rfl <;> decide
  have hleft : LeftToEditor st.sh.ansi.state byte := .of_idle hidle hesc
  obtain ⟨hevent, hconsumed, -⟩ := shAnsiFeed_of_ne_csi hleft.1 hleft.2.1 hleft.2.2
  unfold shInputByte feedByte
  rw [if_neg hpair]
  dsimp only
  rw [if_neg (not_not.mpr hevent), shAnsiLastByteConsumed, hconsumed, if_neg Bool.false_ne_true]
  exact if_pos hbyte

/-- A byte of a plain text: a printable character or part of a line ending. -/
def ScriptByte (byte : Byte) : Prop := 32 ≤ byte ∧ byte < 127 ∨ isTerminator byte = true

/-- A system follows a reader: since `first` the lines that were read have been executed, and of the
next one as much is typed as the editor takes. -/
structure Reads (env : Env ω) (app : ω → α) (max : ℕ) (first st : Sys ω) (r : LineReader) :
    Prop where
  typed : Typed app (executeLines env max first r.lines) st (r.text.take max)
  lastCr : st.sh.lastInputWasCr = r.afterCr
  nonzero : 0 ∉ r.text

variable {max : ℕ} {first : Sys ω} {r : LineReader}

/-- A line ending that does not end a pair. -/
theorem Reads.enter (hB : OutputBlind env app) (h : Reads env app max first st r) {byte : Byte}
    (hterm : isTerminator byte = true) (hpair : ¬(byte = chr '\n' ∧ r.afterCr = true)) :
    Reads env app max first (shInputByte env st byte).1
      ⟨r.lines ++ [r.text], [], decide (byte = chr '\r')⟩ := by
  rw [← h.lastCr] at hpair
  have hesc : byte ≠ esc := by
    rintro rfl
    exact absurd hterm (by decide)
  have hline : (commandLine max r.text).bytes = r.text.take max := commandLine_bytes max h.nonzero
  have hfed : Typed app (executeLines env max first r.lines) (st.modify (·.fed byte))
      (commandLine max r.text).bytes := by
    rw [hline]
    exact h.typed.fed hesc
  refine ⟨?_, ?_, List.not_mem_nil⟩
  · rw [shInputByte_terminator env hterm h.typed.idle hpair, executeLines_append, List.take_nil]
    exact hfed.handleEnter hB
  · rw [show shInputByte env st byte = feedByte env st byte from if_neg hpair]
    exact feedByte_lastCr env st byte

/-- A printable character.

**Proof sketch.** Case split on the room that is left. With room the character is appended on both
sides; without it the shell refuses the character and the cut text stays the same. -/
theorem Reads.type (hB : OutputBlind env app) (hcapacity : first.sh.lineCapacity = max + 1)
    (h : Reads env app max first st r) {byte : Byte} (hprint : 32 ≤ byte ∧ byte < 127) :
    Reads env app max first (shInputByte env st byte).1 ⟨r.lines, r.text ++ [byte], false⟩ := by
  have hne : ∀ b : Byte, ¬(32 ≤ b ∧ b < 127) → byte ≠ b := fun b hb heq => hb (heq ▸ hprint)
  have hroom := (executeLines_lineCapacity env max first r.lines).trans hcapacity
  refine ⟨?_, ?_, ?_⟩
  · by_cases hfull : r.text.length < max
    · have htake : r.text.take max = r.text := List.take_of_length_le hfull.le
      have htyped := h.typed
      rw [htake] at htyped
      have hall : (r.text ++ [byte]).take max = r.text ++ [byte] := by
        refine List.take_of_length_le ?_
        rw [List.length_append, List.length_singleton]
        omega
      rw [hall]
      exact (htyped.type hB hprint (by omega)).1
    · have hcut : (r.text ++ [byte]).take max = r.text.take max :=
        List.take_append_of_le_length (not_lt.mp hfull)
      have hlength : (r.text.take max).length = max := by
        rw [List.length_take]
        omega
      rw [hcut]
      exact h.typed.type_full hB hprint (by omega)
  · have hbyte : shInputByte env st byte = feedByte env st byte :=
      if_neg fun hlf => hne (chr '\n') (by decide) hlf.1
    rw [hbyte, feedByte_lastCr]
    exact decide_eq_false (hne _ (by decide))
  · rw [List.mem_append, List.mem_singleton]
    rintro (hmem | hzero)
    · exact h.nonzero hmem
    · exact hne 0 (by decide) hzero.symm

/-- **A byte of a plain text** makes the shell follow the reader. -/
theorem Reads.byte (hB : OutputBlind env app) (hcapacity : first.sh.lineCapacity = max + 1)
    (h : Reads env app max first st r) {byte : Byte} (hplain : ScriptByte byte) :
    Reads env app max first (shInputByte env st byte).1 (r.feed byte) := by
  unfold LineReader.feed
  split_ifs with hpair hterm
  · -- the line feed of a pair only clears the flag
    have hbyte : shInputByte env st byte = (st.modify (·.setLastInputWasCr false), Status.ok) := by
      refine if_pos ?_
      rw [h.lastCr]
      exact hpair
    rw [hbyte]
    exact ⟨⟨⟨h.typed.alike.core, h.typed.alike.app⟩, h.typed.calls,
      h.typed.wf.step (.lastCr st.sh false), h.typed.idle, h.typed.text, h.typed.cursor⟩, rfl,
      h.nonzero⟩
  · exact h.enter hB hterm hpair
  · exact h.type hB hcapacity (hplain.resolve_right hterm)

/-- A plain text. -/
theorem Reads.input (hB : OutputBlind env app) (hcapacity : first.sh.lineCapacity = max + 1)
    (h : Reads env app max first st r) {bytes : List Byte} (hplain : ∀ b ∈ bytes, ScriptByte b) :
    Reads env app max first (shInput env st bytes).1 (r.read bytes) := by
  rw [shInput_fst]
  induction bytes generalizing st r with
  | nil => exact h
  | cons byte bytes ih =>
    exact ih (h.byte hB hcapacity (hplain byte List.mem_cons_self))
      fun b hb => hplain b (List.mem_cons_of_mem byte hb)

/-! ## Scripts -/

/-- `sh_start` at an empty line: nothing has been typed since. -/
private theorem typed_shStart (hB : OutputBlind env app) (hreach : Reachable env st)
    (hempty : st.sh.lineLen = 0) (hidle : st.sh.ansi.state = .idle) :
    Typed app st (shStart env st).1 [] := by
  obtain ⟨b, hsh⟩ := shStart_sh env st
  have hcursor : st.sh.cursor = 0 := Nat.le_zero.mp (hempty ▸ hreach.wf.cursor_le)
  refine ⟨⟨?_, hB.app_eq (shStart_acts env st)⟩,
    observe_shStart env handlerCall_ignoresOutput st, ?_, ?_, ?_, ?_⟩
  · rw [hsh]
    rfl
  · exact (hreach.apply (.api .start)).wf
  · rw [hsh]
    exact hidle
  · rw [hsh]
    refine List.length_eq_zero_iff.mp ?_
    exact hreach.wf.length_text.trans hempty
  · rw [hsh]
    exact hcursor

/-- `run_script` executes lines of its file in order, all of them unless the application asks to
exit. What is typed behind them is left over.

**Proof sketch.** The loop feeds the beginning of the file (`scriptLoop_prefix`), which is read as
lines and a text. If the file ends inside a line, the line feed that `run_script` adds executes it;
if it ends behind one, nothing is left; and if it is not at its end, the application has asked to
exit. -/
private theorem runScript_reads (hB : OutputBlind env app) (quit : α → Bool)
    (hcapacity : first.sh.lineCapacity = max + 1) (hmax : 0 < max)
    (h : Reads env app max first st LineReader.start) {bytes : List Byte}
    (hbytes : ∀ b ∈ bytes, ScriptByte b) :
    ∃ done typed, done <+: scriptLines bytes ∧
      Typed app (executeLines env max first done)
        (runScript env (fun io => quit (app io)) st (some ⟨bytes, false⟩)).1 typed ∧
      (runScript env (fun io => quit (app io)) st (some ⟨bytes, false⟩)).2 = 0 ∧
      (done ≠ scriptLines bytes → quit (app (executeLines env max first done).io) = true) := by
  obtain ⟨fed, hfed, hloop, hleft⟩ := scriptLoop_prefix env (fun io => quit (app io)) bytes st
  have hread := h.input hB hcapacity fun b hb => hbytes b (hfed.subset hb)
  have hlines := LineReader.scriptLines_eq bytes
  have hcr := LineReader.text_nil (r := LineReader.start) (fun _ => rfl) fed
  have happ := hread.typed.alike.app
  have hlength : (shInput env st fed).1.sh.lineLen ≠ 0 ↔ (LineReader.start.read fed).text ≠ [] := by
    rw [hread.typed.lineLen, List.length_take, ← List.length_pos_iff]
    omega
  unfold runScript
  dsimp only
  rw [hloop, if_neg Bool.false_ne_true]
  split_ifs with hover
  · -- the file ends in the middle of a line, which the added line feed executes
    have hall : fed = bytes := by
      by_contra hne
      exact hover.2 (hleft hne)
    have htext := hlength.mp hover.1
    have hterm : isTerminator (chr '\n') = true := by decide
    have henter := hread.enter hB hterm fun hpair => htext (hcr hpair.2)
    rw [hall] at henter htext ⊢
    rw [if_neg htext] at hlines
    rw [hlines]
    exact ⟨_, _, List.prefix_rfl, henter.typed, rfl, fun hne => absurd rfl hne⟩
  · refine ⟨_, _, ?_, hread.typed, rfl, ?_⟩
    · obtain ⟨rest, rfl⟩ := hfed
      have hmore := LineReader.lines_prefix (LineReader.start.read fed) rest
      rw [LineReader.read, LineReader.read, ← List.foldl_append] at hmore
      rw [hlines]
      split_ifs
      · exact hmore
      · exact hmore.trans (List.prefix_append _ _)
    · intro hne
      rw [← happ]
      by_cases hall : fed = bytes
      · by_contra hquit
        refine hover ⟨hlength.mpr fun hnil => hne ?_, hquit⟩
        rw [hall] at hnil ⊢
        rw [hlines, if_pos hnil]
      · exact hleft hall

/-- **A script executes its lines in order**: what `main` does with a file of printable characters
and line endings is what `sh_execute_line` does with its lines one by one, each cut to the length
that the editor takes, unless the application asks to exit before the end.

**Proof sketch.** The shell follows a reader over the bytes that are fed, so it has executed the
lines that end in them. If these are all bytes, then what stands behind the last line ending is the
line in the editor, and the line feed that `run_script` adds executes it. -/
theorem script_executes (hB : OutputBlind env app) (quit : α → Bool) (hreach : Reachable env st)
    (hempty : st.sh.lineLen = 0) (hidle : st.sh.ansi.state = .idle)
    (hflag : st.sh.lastInputWasCr = false) {bytes : List Byte}
    (hbytes : ∀ b ∈ bytes, ScriptByte b) :
    ∃ done, done <+: scriptLines bytes ∧
      SameEffect (executeLines env st.sh.cfg.lineMax st done)
        (hostScript env (fun io => quit (app io)) st (some ⟨bytes, false⟩)).1 ∧
      app (hostScript env (fun io => quit (app io)) st (some ⟨bytes, false⟩)).1.io =
        app (executeLines env st.sh.cfg.lineMax st done).io ∧
      (hostScript env (fun io => quit (app io)) st (some ⟨bytes, false⟩)).2 = 0 ∧
      (done ≠ scriptLines bytes →
        quit (app (executeLines env st.sh.cfg.lineMax st done).io) = true) := by
  obtain ⟨b, hsh⟩ := shStart_sh env st
  have hcapacity := hreach.lineCapacity_eq
  have hmax : 0 < st.sh.cfg.lineMax := by
    have hroom := hreach.capacity_and_attempts.1
    omega
  have hstart : Reads env app st.sh.cfg.lineMax st (shStart env st).1 LineReader.start := by
    refine ⟨?_, ?_, List.not_mem_nil⟩
    · rw [show LineReader.start.text = [] from rfl, List.take_nil]
      exact typed_shStart hB hreach hempty hidle
    · rw [hsh]
      exact hflag
  obtain ⟨done, typed, hdone, htyped, hcode, hleft⟩ :=
    runScript_reads hB quit hcapacity hmax hstart hbytes
  have hstop : Alike app (executeLines env st.sh.cfg.lineMax st done)
      (hostScript env (fun io => quit (app io)) st (some ⟨bytes, false⟩)).1 :=
    ⟨htyped.alike.core, (hB.output _).backendFlush _ htyped.alike.app⟩
  exact ⟨done, hdone, hstop.sameEffect htyped.calls, hstop.app, hcode, hleft⟩

/-- The command that switches the lamp is registered. -/
def scriptSys : Sys (List Byte × Bool) :=
  run lampEnv ⟨smallShell, ([], false), [], []⟩
    [.api (.registerCommands (.array [ledCommand]))]

/-- A file of several blocks with all line endings and a line that is too long. -/
def scriptBytes : List Byte := ascii "led off\r\n\nled off off off off\rled on\nled off\nled off"

/-- It is run until the lamp is on. -/
theorem script_executes_lamp :
    ∃ done, done <+: scriptLines scriptBytes ∧
      SameEffect (executeLines lampEnv scriptSys.sh.cfg.lineMax scriptSys done)
        (hostScript lampEnv (fun io => id io.2) scriptSys (some ⟨scriptBytes, false⟩)).1 ∧
      (hostScript lampEnv (fun io => id io.2) scriptSys (some ⟨scriptBytes, false⟩)).1.io.2 =
        (executeLines lampEnv scriptSys.sh.cfg.lineMax scriptSys done).io.2 ∧
      (hostScript lampEnv (fun io => id io.2) scriptSys (some ⟨scriptBytes, false⟩)).2 = 0 ∧
      (done ≠ scriptLines scriptBytes →
        id (executeLines lampEnv scriptSys.sh.cfg.lineMax scriptSys done).io.2 = true) :=
  script_executes lampEnv_outputBlind id
    ⟨some smallConfig, smallStorage, smallShell, ([], false), _, smallStorage_sized, shInit_small,
      rfl⟩
    rfl rfl rfl (by unfold ScriptByte; decide +kernel)

end PortableShell
