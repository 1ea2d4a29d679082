import PortableShell.Display

set_option relaxedAutoImplicit false
set_option autoImplicit false

/-!
# The line editor

The editing operations of `sh_shell.c`. Each one updates the line buffer in place together with
the length, the cursor and the history position, and redraws the line.

## Main definitions

* `PortableShell.moveHistory`, `insertChar`, `backspace`, `deleteAtCursor`, `clearInputLine`,
  `deleteWordLeft`, `cancelInputLine` — the functions of the source.
* `PortableShell.handleEscapeKey` — `handle_escape_key`.

## Main results

* `PortableShell.touchWalk_sh`, `echoInserted_sh`, … — reading and echoing leave the shell alone.
-/

namespace PortableShell

variable {ω : Type}

/-! ## Updates of the shell -/

namespace Shell

/-- `set_line`. -/
def setLine (s : Shell) (line : CStr) : Shell :=
  let len := if line.length ≥ s.lineCapacity then s.lineCapacity - 1 else line.length
  { s with
    line := Mem.store (Mem.store s.line 0 (line.bytes.take len)) len [0]
    lineLen := len
    cursor := len }

/-- The copy of the line to the draft in `move_history`. -/
def saveDraft (s : Shell) : Shell :=
  let len := if s.lineLen ≥ s.lineCapacity then s.lineCapacity - 1 else s.lineLen
  { s with draft := s.draft.map fun d => Mem.store (Mem.store d 0 (s.line.take len)) len [0] }

/-- The change of the history position in `move_history`. -/
def stepView (s : Shell) (direction : ℤ) : Shell :=
  { s with
    historyView :=
      if direction < 0 then
        if s.historyView < intSub (toInt s.historyCount) 1 then s.historyView + 1
        else s.historyView
      else if s.historyView ≥ 0 then s.historyView - 1 else s.historyView }

/-- The line that `move_history` shows at the history position. -/
def recalled (s : Shell) : CStr :=
  if s.historyView < 0 then CStr.at (s.draft.getD []) 0
  else (shHistoryGetNewest s s.historyView.toNat).getD CStr.empty

/-- What `move_history` does to the shell when there is a history. -/
def walk (s : Shell) (direction : ℤ) : Shell :=
  let s := (if s.historyView < 0 then s.saveDraft else s).stepView direction
  s.setLine s.recalled

/-- What `insert_char` does to the shell when there is room. -/
def insertAt (s : Shell) (c : Byte) : Shell :=
  { s with
    line := Mem.store (Mem.move s.line (s.cursor + 1) s.cursor (s.lineLen - s.cursor + 1))
      s.cursor [c]
    cursor := s.cursor + 1
    lineLen := s.lineLen + 1
    historyView := -1 }

/-- What `backspace`, `delete_at_cursor` and `delete_word_left` do to the shell: the bytes from
`start` to `stop` are removed and the cursor stands at `start`. -/
def deleteRange (s : Shell) (start stop : ℕ) : Shell :=
  { s with
    line := Mem.move s.line start stop (s.lineLen - stop + 1)
    cursor := start
    lineLen := s.lineLen - (stop - start)
    historyView := -1 }

/-- The line is emptied: overwritten as a whole when secure clearing is on. -/
def eraseLine (s : Shell) : Shell :=
  { s with
    lineLen := 0
    cursor := 0
    line :=
      if s.cfg.secureClearEnabled then Mem.fill s.line 0 0 s.lineCapacity
      else Mem.store s.line 0 [0]
    historyView := -1 }

/-- The draft is overwritten as a whole when secure clearing is on. -/
def wipeDraft (s : Shell) : Shell :=
  if s.cfg.secureClearEnabled then
    { s with draft := s.draft.map fun d => Mem.fill d 0 0 s.lineCapacity }
  else s

/-- The draft is emptied: overwritten as a whole when secure clearing is on. -/
def eraseDraft (s : Shell) : Shell :=
  { s with
    draft := s.draft.map fun d =>
      if s.cfg.secureClearEnabled then Mem.fill d 0 0 s.lineCapacity else Mem.store d 0 [0] }

/-- The decoder forgets a sequence that has begun. -/
def resetAnsi (s : Shell) : Shell := { s with ansi := shAnsiReset s.ansi }

/-- The cursor moves within the line. -/
def setCursor (s : Shell) (cursor : ℕ) : Shell := { s with cursor := cursor }

/-- The loop that skips whitespace to the left. -/
def skipSpacesLeft (s : Shell) : ℕ → ℕ
  | 0 => 0
  | start + 1 => if isspace (cell s.line start) then s.skipSpacesLeft start else start + 1

/-- The loop that skips a word to the left. -/
def skipWordLeft (s : Shell) : ℕ → ℕ
  | 0 => 0
  | start + 1 => if isspace (cell s.line start) then start + 1 else s.skipWordLeft start

/-- The start of the word that `delete_word_left` removes. -/
def wordStart (s : Shell) : ℕ := s.skipWordLeft (s.skipSpacesLeft s.cursor)

end Shell

/-! ## Reads and writes of the buffers -/

/-- The accesses of `set_line` and `move_history`. -/
def touchWalk (st : Sys ω) (direction : ℤ) : Sys ω :=
  let s := (if st.sh.historyView < 0 then st.sh.saveDraft else st.sh).stepView direction
  let st :=
    if st.sh.historyView < 0 then
      (st.touch .line st.sh.lineLen).touch .draft (min st.sh.lineLen (st.sh.lineCapacity - 1) + 1)
    else st
  let st :=
    if s.historyView < 0 then st.touch .draft (s.recalled.length + 1)
    else st.touch .history (newestStop s s.historyView.toNat)
  st.touch .line (min s.recalled.length (s.lineCapacity - 1) + 1)

/-- The accesses of `clear_input_line`, `cancel_input_line` and `handle_enter` to the line. -/
def touchErase (st : Sys ω) : Sys ω :=
  st.touch .line (if st.sh.cfg.secureClearEnabled then st.sh.lineCapacity else 1)

/-- The accesses of `cancel_input_line` and `handle_enter` to the draft. -/
def touchEraseDraft (st : Sys ω) : Sys ω :=
  st.touch .draft
    (if st.sh.draft.isNone then 0
      else if st.sh.cfg.secureClearEnabled then st.sh.lineCapacity else 1)

@[simp] theorem touchWalk_sh (st : Sys ω) (direction : ℤ) : (touchWalk st direction).sh = st.sh :=
  by
  rw [touchWalk]
  split_ifs <;> rfl

@[simp] theorem touchWalk_trace (st : Sys ω) (direction : ℤ) :
    (touchWalk st direction).trace = st.trace := by
  rw [touchWalk]
  split_ifs <;> rfl

@[simp] theorem touchWalk_io (st : Sys ω) (direction : ℤ) : (touchWalk st direction).io = st.io :=
  by
  rw [touchWalk]
  split_ifs <;> rfl

/-! ## The operations -/

variable (env : Env ω)

/-- `move_history`. -/
def moveHistory (st : Sys ω) (direction : ℤ) : Sys ω :=
  if st.sh.historyCount = 0 then st
  else shRedrawLineInternal env ((touchWalk st direction).modify (·.walk direction))

/-- The echo of `insert_char`: one byte when it was appended, else the whole line. -/
def echoInserted (appended : Bool) (st : Sys ω) : Sys ω :=
  if st.sh.echoEnabled ∧ appended then
    (shWrite env (touchDisplay st)
      [cell (buildDisplayLine env st.sh displaySize) (st.sh.cursor - 1)]).1
  else shRedrawLineInternal env st

@[simp] theorem echoInserted_sh (appended : Bool) (st : Sys ω) :
    (echoInserted env appended st).sh = st.sh := by
  rw [echoInserted]
  split_ifs
  · rfl
  · exact shRedrawLineInternal_sh env st

/-- `insert_char`. -/
def insertChar (st : Sys ω) (c : Byte) : Sys ω × Status :=
  if st.sh.lineLen + 1 ≥ st.sh.lineCapacity then
    (shPrompt env (writeInternal env st (str "\r\nerror: line too long\r\n")),
      Status.errLineTooLong)
  else
    (echoInserted env (decide (st.sh.cursor = st.sh.lineLen))
      ((st.touch .line (st.sh.lineLen + 2)).modify (·.insertAt c)), Status.ok)

/-- `backspace`. -/
def backspace (st : Sys ω) : Sys ω :=
  if st.sh.cursor = 0 then st
  else
    shRedrawLineInternal env ((st.touch .line (st.sh.lineLen + 1)).modify
      fun s => s.deleteRange (s.cursor - 1) s.cursor)

/-- `delete_at_cursor`. -/
def deleteAtCursor (st : Sys ω) : Sys ω :=
  if st.sh.cursor ≥ st.sh.lineLen then st
  else
    shRedrawLineInternal env ((st.touch .line (st.sh.lineLen + 1)).modify
      fun s => s.deleteRange s.cursor (s.cursor + 1))

/-- `clear_input_line`. -/
def clearInputLine (st : Sys ω) : Sys ω :=
  let st := touchErase st
  let st := st.touch .draft
    (if st.sh.draft.isSome ∧ st.sh.cfg.secureClearEnabled then st.sh.lineCapacity else 0)
  shRedrawLineInternal env (st.modify fun s => s.eraseLine.wipeDraft)

/-- `delete_word_left`. -/
def deleteWordLeft (st : Sys ω) : Sys ω :=
  let start := st.sh.wordStart
  let st := st.touch .line st.sh.cursor
  if start = st.sh.cursor then st
  else
    shRedrawLineInternal env ((st.touch .line (st.sh.lineLen + 1)).modify
      fun s => s.deleteRange start s.cursor)

/-- `cancel_input_line`. -/
def cancelInputLine (st : Sys ω) : Sys ω :=
  let st := touchEraseDraft (touchErase (writeInternal env st (str "^C\r\n")))
  shPrompt env (st.modify fun s => s.eraseLine.eraseDraft.resetAnsi)

/-- `handle_escape_key`. -/
def handleEscapeKey (st : Sys ω) (key : AnsiEvent) : Sys ω :=
  match key with
  | .up => moveHistory env st (-1)
  | .down => moveHistory env st 1
  | .right =>
    if st.sh.cursor < st.sh.lineLen then
      shRedrawLineInternal env (st.modify fun s => s.setCursor (s.cursor + 1))
    else st
  | .left =>
    if st.sh.cursor > 0 then
      shRedrawLineInternal env (st.modify fun s => s.setCursor (s.cursor - 1))
    else st
  | .home =>
    if st.sh.cursor ≠ 0 then shRedrawLineInternal env (st.modify fun s => s.setCursor 0) else st
  | .end =>
    if st.sh.cursor ≠ st.sh.lineLen then
      shRedrawLineInternal env (st.modify fun s => s.setCursor s.lineLen)
    else st
  | .delete => deleteAtCursor env st
  | .none => st

end PortableShell
