import PortableShell.Keys
import PortableShell.Lib.Terminal
import PortableShell.Masking

set_option relaxedAutoImplicit false
set_option autoImplicit false

/-!
# What the terminal shows

The output of the line editor, interpreted by a terminal. Keys are typed after `sh_start`; after
each of them the current row of the terminal should be the prompt and the displayed line, with the
cursor in the place of the editor's. A redraw achieves this from any clean terminal. The editor
relies on what is already on the screen in one place, where it echoes an appended character, and
does not restore the line after the message for a full line.

## Main definitions

* `PortableShell.AcceptsAll` — an output backend that accepts every byte, with what it received.
* `PortableShell.ShowsEditor` — the terminal shows the prompt, the displayed line and the cursor.
* `PortableShell.KeepsScreen` — the condition under which a key leaves the terminal in step.

## Main results

* `PortableShell.press_shows` — a key leaves the terminal in step exactly under that condition.
* `PortableShell.showsEditor_iff` — the same for whole sessions.
-/

namespace PortableShell

variable {ω : Type}

/-! ## The output received -/

/-- The backend that a configuration names accepts every byte it is offered, and `received` is
everything it has been given. -/
structure AcceptsAll (env : Env ω) (cfg : Config) (received : ω → List Byte) : Prop where
  transport : ∀ t, cfg.transport = some t → ∃ write, (env.transport t).write = some write ∧
    ∀ io data, received (write io data).1 = received io ++ data ∧
      (write io data).2 = (TransportStatus.ok, data.length)
  callback : cfg.transport = none → ∃ f, cfg.write = some f ∧
    ∀ io data, received (env.output f cfg.writeCtx io data) = received io ++ data

variable {env : Env ω} {received : ω → List Byte}

/-- Such a backend receives what the core prints.

**Proof sketch.** Over a callback the text is written at once. Over a transport the first attempt
takes all of it, so the loop makes no second one. -/
theorem AcceptsAll.backendWrite {cfg : Config} (h : AcceptsAll env cfg received)
    (hattempts : cfg.transportWriteAttempts ≠ 0) (io : ω) (data : List Byte) :
    received (backendWrite env cfg io data).1 = received io ++ data ∧
      (backendWrite env cfg io data).2 = Status.ok := by
  unfold PortableShell.backendWrite
  cases ht : cfg.transport with
  | none =>
    obtain ⟨f, hf, houtput⟩ := h.callback ht
    rw [hf]
    dsimp only
    refine ⟨?_, rfl⟩
    split_ifs with hempty
    · exact houtput io data
    · rw [List.length_eq_zero_iff.mp (not_not.mp hempty), List.append_nil]
  | some t =>
    obtain ⟨write, hwrite, haccepts⟩ := h.transport t ht
    obtain ⟨n, hn⟩ := Nat.exists_eq_succ_of_ne_zero hattempts
    obtain ⟨hreceived, hresult⟩ := haccepts io data
    have hall : shTransportWriteAll (env.transport t) io data cfg.transportWriteAttempts =
        ⟨if data.length = 0 then io else (write io data).1, .ok, data.length⟩ := by
      unfold shTransportWriteAll
      rw [hwrite, hn]
      dsimp only
      by_cases hempty : data.length = 0
      · rw [if_pos hempty, if_pos hempty, hempty]
      · rw [if_neg hempty, if_neg hempty, if_neg n.succ_ne_zero]
        have hpos : 0 < data.length := Nat.pos_of_ne_zero hempty
        simp [writeLoop, hpos, hresult, isCallbackStatus]
    dsimp only
    rw [hall]
    refine ⟨?_, if_pos ⟨rfl, rfl⟩⟩
    dsimp only
    split_ifs with hempty
    · rw [List.length_eq_zero_iff.mp hempty, List.append_nil]
    · exact hreceived

/-- What the terminal shows of the output so far. -/
def screen (received : ω → List Byte) (st : Sys ω) : Terminal :=
  Terminal.blank.feed (received st.io)

/-- The prompt and the displayed line. -/
def Shell.shown (env : Env ω) (s : Shell) : List Byte :=
  s.cfg.promptText.bytes ++ buildDisplayLine env s displaySize

/-- The column of the cursor behind the prompt. -/
def Shell.shownColumn (s : Shell) : ℕ := s.cfg.promptText.length + s.cursor

/-- **The terminal shows what the editor holds**: the current row is the prompt and the displayed
line, and the cursor stands where that of the editor does. -/
def ShowsEditor (env : Env ω) (received : ω → List Byte) (st : Sys ω) : Prop :=
  (screen received st).rows (screen received st).row = st.sh.shown env ∧
    (screen received st).col = st.sh.shownColumn

/-- The displayed line consists of printable bytes. -/
def Shell.Displayable (env : Env ω) (s : Shell) : Prop :=
  ∀ b ∈ buildDisplayLine env s displaySize, Terminal.Printable b

/-- The condition under which a character leaves the terminal in step: there is room for it, and if
it is appended, the characters before it are displayed as they were. -/
def CharKeepsScreen (env : Env ω) (s : Shell) (c : Byte) : Prop :=
  s.lineLen + 1 < s.lineCapacity ∧
    if s.cursor = s.lineLen then
      (buildDisplayLine env (s.insertAt c) displaySize).take s.lineLen =
        buildDisplayLine env s displaySize
    else (s.insertAt c).Displayable env

/-- **The condition** under which a key leaves the terminal in step. A key that redraws the line
needs one that can be displayed. -/
def KeepsScreen (env : Env ω) (s : Shell) : Key → Prop
  | .char c _ => CharKeepsScreen env s c
  | .control key => (key.edit s).Displayable env
  | .sequence key => (key.event.edit s).Displayable env

/-! ## Printing -/

/-- What does not change during a session on such a terminal. -/
structure OnTerminal (env : Env ω) (received : ω → List Byte) (s : Shell) : Prop where
  wf : s.Wf
  capacity : 1 < s.lineCapacity
  attempts : s.cfg.transportWriteAttempts ≠ 0
  accepts : AcceptsAll env s.cfg received
  prompt : ∀ b ∈ s.cfg.promptText.bytes, Terminal.Printable b
  echo : s.echoEnabled = true
  ansi : s.cfg.ansiEnabled = true
  idle : s.ansi.state = .idle
  buffer : s.ansi.csi.length = shAnsiCsiMax

variable {st : Sys ω}

/-- The core prints to the terminal. -/
private theorem screen_shWrite (st : Sys ω) (h : OnTerminal env received st.sh) (data : List Byte) :
    screen received (shWrite env st data).1 = (screen received st).feed data := by
  have hreceived := (h.accepts.backendWrite h.attempts st.io data).1
  show Terminal.blank.feed (received (backendWrite env st.sh.cfg st.io data).1) = _
  rw [hreceived, Terminal.feed_append]
  rfl

/-- The core prints several texts to the terminal. -/
private theorem screen_writes (st : Sys ω) (h : OnTerminal env received st.sh)
    (texts : List (List Byte)) :
    screen received (writes env st texts) = (screen received st).feed texts.flatten := by
  induction texts generalizing st with
  | nil => rfl
  | cons data texts ih =>
    rw [writes_cons, ih (shWrite env st data).1 h, screen_shWrite st h, List.flatten_cons,
      Terminal.feed_append]

/-- A byte of the displayed line is one of the text or a star. -/
private theorem mem_buildDisplayLine {s : Shell} (hwf : s.Wf) {b : Byte}
    (hb : b ∈ buildDisplayLine env s displaySize) : b = star ∨ b ∈ s.text := by
  obtain ⟨p, hp⟩ := List.mem_iff_getElem?.mp hb
  rw [getElem?_buildDisplayLine env hwf] at hp
  obtain ⟨c, hc, hshown⟩ := Option.map_eq_some_iff.mp hp
  split_ifs at hshown
  · exact .inl hshown.symm
  · exact .inr (hshown ▸ List.mem_of_getElem? hc)

/-- The displayed line is printed as a whole. -/
private theorem displayed_bytes {s : Shell} (hwf : s.Wf) :
    (CStr.at (buildDisplayLine env s displaySize ++ [0]) 0).bytes =
      buildDisplayLine env s displaySize := by
  refine Mem.upto_append fun hzero => ?_
  rcases mem_buildDisplayLine hwf hzero with hstar | htext
  · exact absurd hstar (by decide)
  · exact hwf.zero_not_mem_text htext

/-- There is a displayed byte for every byte of the line. -/
private theorem Shell.Wf.length_display {s : Shell} (hwf : s.Wf) :
    (buildDisplayLine env s displaySize).length = s.lineLen := by
  have hlt := hwf.lineLen_lt
  have hcapacity := hwf.capacity_le
  have hsize := hwf.line_size
  exact buildDisplayLine_length env (show s.lineLen < displaySize by unfold displaySize; omega)
    (by omega)

/-- A line that can be displayed follows the prompt. -/
private theorem OnTerminal.printable_shown {s : Shell} (h : OnTerminal env received s)
    (hdisplay : s.Displayable env) : ∀ b ∈ s.shown env, Terminal.Printable b := by
  intro b hb
  rcases List.mem_append.mp hb with hb | hb
  · exact h.prompt b hb
  · exact hdisplay b hb

/-- A line that is shown can be displayed. -/
private theorem ShowsEditor.displayable (h : ShowsEditor env received st) :
    st.sh.Displayable env := by
  intro b hb
  have hlegible : (screen received st).Legible := Terminal.legible_blank.feed _
  refine hlegible (screen received st).row b ?_
  rw [h.1]
  exact List.mem_append_right _ hb

/-! ## Redrawing -/

/-- The terminal is clean and shows what the editor holds. -/
def InStep (env : Env ω) (received : ω → List Byte) (st : Sys ω) : Prop :=
  (screen received st).Shows (st.sh.shown env) st.sh.shownColumn

/-- Then it shows the editor. -/
theorem InStep.showsEditor (h : InStep env received st) : ShowsEditor env received st :=
  ⟨h.current, h.column⟩

/-- The sequence that `sh_writef_internal` prints for a number below `2 ^ 32`. -/
private theorem cursorText_eq {n : ℕ} (hn : n < 2 ^ 32) :
    vprintfBytes (ascii "\x1b[" ++ fmtUnsigned n ++ ascii "D") = Terminal.leftSequence n := by
  have hlength : (Nat.toDigits 10 n).length ≤ 10 :=
    (Nat.length_toDigits_le_iff (by decide) (by decide)).mpr (by omega)
  have hfmt : fmtUnsigned n = Terminal.digits n := by
    rw [fmtUnsigned, Nat.mod_eq_of_lt hn]
    rfl
  have htext : ascii "\x1b[" ++ fmtUnsigned n ++ ascii "D" = Terminal.leftSequence n := by
    rw [hfmt]
    rfl
  have hshort : ¬(Terminal.leftSequence n).length ≥ 256 := by
    simp only [Terminal.leftSequence, Terminal.digits, List.length_append, List.length_map,
      List.length_cons, List.length_nil]
    omega
  rw [htext, vprintfBytes, if_neg hshort]

/-- The cursor is moved back from the end of the line.

**Proof sketch.** The cursor is at the end of the row and is moved back by the number of bytes
behind it, or not at all if there are none. -/
private theorem shows_cursorTexts (hs : OnTerminal env received st.sh) {t : Terminal}
    (h : t.Shows (st.sh.shown env) (st.sh.shown env).length) :
    (t.feed (cursorTexts st.sh).flatten).Shows (st.sh.shown env) st.sh.shownColumn := by
  have hlength : (st.sh.shown env).length = st.sh.cfg.promptText.length + st.sh.lineLen := by
    rw [Shell.shown, List.length_append, hs.wf.length_display]
    rfl
  have hcursor := hs.wf.cursor_le
  have hback : st.sh.cfg.promptText.length + st.sh.lineLen - (st.sh.lineLen - st.sh.cursor) =
      st.sh.shownColumn := by
    unfold Shell.shownColumn
    omega
  unfold cursorTexts
  by_cases hend : st.sh.cursor < st.sh.lineLen
  · have hsmall : st.sh.lineLen - st.sh.cursor < 2 ^ 32 := by
      have hlt := hs.wf.lineLen_lt
      have hcapacity := hs.wf.capacity_le
      unfold shMaxLineLen at hcapacity
      omega
    rw [if_pos ⟨hs.ansi, hend⟩, cursorText_eq hsmall, List.flatten_singleton]
    have hleft := h.left (Nat.sub_pos_of_lt hend)
    rw [hlength, hback] at hleft
    exact hleft
  · rw [if_neg fun hc => hend hc.2, List.flatten_nil, Terminal.feed_nil]
    have hcolumn : (st.sh.shown env).length = st.sh.shownColumn := by
      rw [hlength, Shell.shownColumn]
      omega
    rw [hcolumn] at h
    exact h

/-- **A redraw** of a line that can be displayed brings a clean terminal in step. -/
theorem inStep_redraw (st : Sys ω) (hs : OnTerminal env received st.sh)
    (hclean : (screen received st).Clean) (hdisplay : st.sh.Displayable env) :
    InStep env received (shRedrawLineInternal env st) := by
  have htouch : screen received (touchDisplay st) = screen received st := rfl
  have htexts : (redrawTexts env st.sh).flatten =
      Terminal.eraseSequence ++ st.sh.shown env ++ (cursorTexts st.sh).flatten := by
    have herase : (str "\r\x1b[2K").bytes = Terminal.eraseSequence := by decide +kernel
    rw [redrawTexts, if_pos hs.ansi, herase, displayed_bytes hs.wf]
    simp [Shell.shown]
  unfold InStep
  rw [shRedrawLineInternal_sh, shRedrawLineInternal, if_pos hs.echo,
    screen_writes (touchDisplay st) hs, htouch, htexts, Terminal.feed_append,
    Terminal.feed_append]
  have herased : ((screen received st).feed Terminal.eraseSequence).Shows []
      ([] : List Byte).length := hclean.erase
  exact shows_cursorTexts hs (herased.print (hs.printable_shown hdisplay))

/-! ## What a key prints -/

/-- An operation redraws the line after a change of the editor, or leaves the editor alone and
prints nothing. -/
inductive Redraws (env : Env ω) (st : Sys ω) : Sys ω → Prop
  | line {st' : Sys ω} (hio : st'.io = st.io) : Redraws env st (shRedrawLineInternal env st')
  | nothing {st' : Sys ω} (hsh : st'.sh = st.sh) (hio : st'.io = st.io) : Redraws env st st'

/-- Such an operation ends in step when the line can be displayed. -/
private theorem Redraws.inStep {st' : Sys ω} (hr : Redraws env st st')
    (hs : OnTerminal env received st'.sh)
    (h : InStep env received st) (hdisplay : st'.sh.Displayable env) :
    InStep env received st' := by
  cases hr with
  | @line st' hio =>
    rw [shRedrawLineInternal_sh] at hs hdisplay
    refine inStep_redraw st' hs ?_ hdisplay
    rw [screen, hio]
    exact h.toClean
  | nothing hsh hio =>
    rw [InStep, screen, hio, hsh]
    exact h

variable (env) (st)

/-- An escape key redraws the line or does nothing. -/
private theorem handleEscapeKey_redraws (event : AnsiEvent) :
    Redraws env st (handleEscapeKey env st event) := by
  have hwalk : ∀ direction, Redraws env st (moveHistory env st direction) := by
    intro direction
    unfold moveHistory
    split_ifs
    · exact .nothing rfl rfl
    · exact .line (touchWalk_io st direction)
  cases event with
  | none => exact .nothing rfl rfl
  | up => exact hwalk (-1)
  | down => exact hwalk 1
  | delete =>
    unfold handleEscapeKey deleteAtCursor
    dsimp only
    split_ifs
    · exact .nothing rfl rfl
    · exact .line rfl
  | _ =>
    unfold handleEscapeKey
    dsimp only
    split_ifs
    · exact .line rfl
    · exact .nothing rfl rfl

variable {env} {st}

/-- The prompt is printed into a blank row. -/
private theorem shows_prompt (hs : OnTerminal env received st.sh)
    (hblank : (screen received st).Shows [] 0) :
    (screen received (shPrompt env st)).Shows st.sh.cfg.promptText.bytes
      st.sh.cfg.promptText.length := by
  have hprompt : screen received (shPrompt env st) =
      (screen received st).feed st.sh.cfg.promptText.bytes := screen_shWrite st hs _
  have hend : (screen received st).Shows [] ([] : List Byte).length := hblank
  rw [hprompt]
  exact hend.print hs.prompt

/-- The prompt in a blank row shows an empty line. -/
private theorem inStep_prompt (hs : OnTerminal env received st.sh) (hempty : st.sh.lineLen = 0)
    (hblank : (screen received st).Shows [] 0) : InStep env received (shPrompt env st) := by
  have hdisplay : buildDisplayLine env st.sh displaySize = [] := by
    rw [← List.length_eq_zero_iff, hs.wf.length_display, hempty]
  have hcursor : st.sh.cursor = 0 := by
    have hle := hs.wf.cursor_le
    omega
  have hprompt := shows_prompt hs hblank
  rw [InStep, shPrompt_sh, Shell.shown, Shell.shownColumn, hdisplay, hcursor, List.append_nil]
  exact hprompt

/-- **An interrupt** leads to a new row with a prompt. -/
theorem inStep_cancelInputLine (hs : OnTerminal env received st.sh)
    (hs' : OnTerminal env received (cancelInputLine env st).sh)
    (hclean : (screen received st).Clean) : InStep env received (cancelInputLine env st) := by
  have htext : (str "^C\r\n").bytes = [0x5e, 0x43] ++ Terminal.crlf := by decide +kernel
  have hprintable : ∀ b ∈ ([0x5e, 0x43] : List Byte), Terminal.Printable b := by decide +kernel
  have hscreen : screen received (writeInternal env st (str "^C\r\n")) =
      (screen received st).feed (str "^C\r\n").bytes := screen_shWrite st hs _
  have hblank : (screen received (writeInternal env st (str "^C\r\n"))).Shows [] 0 := by
    rw [hscreen, htext, Terminal.feed_append]
    exact (hclean.print hprintable).newline
  exact inStep_prompt hs' rfl hblank

/-- A control key ends in step when the line can be displayed.

**Proof sketch.** One case per key. Each redraws the line, starts a new one or does nothing; Ctrl+L
clears the screen before it redraws. -/
private theorem editByte_control_inStep {key : ControlKey} (hs : OnTerminal env received st.sh)
    (hs' : OnTerminal env received (editByte env st key.byte).1.sh) (h : InStep env received st)
    (hdisplay : (editByte env st key.byte).1.sh.Displayable env) :
    InStep env received (editByte env st key.byte).1 := by
  have hbackspace : Redraws env st (backspace env st) := by
    unfold backspace
    split_ifs
    · exact .nothing rfl rfl
    · exact .line rfl
  cases key with
  | backspace => exact hbackspace.inStep hs' h hdisplay
  | del => exact hbackspace.inStep hs' h hdisplay
  | ctrlC => exact inStep_cancelInputLine hs hs' h.toClean
  | ctrlL =>
    have htext : (clearText st.sh.cfg).bytes = Terminal.clearSequence := by
      rw [clearText, if_pos hs.ansi]
      decide +kernel
    have hscreen : screen received (writeInternal env st (clearText st.sh.cfg)) =
        (screen received st).feed (clearText st.sh.cfg).bytes := screen_shWrite st hs _
    refine inStep_redraw (writeInternal env st (clearText st.sh.cfg)) hs ?_ ?_
    · rw [hscreen, htext]
      exact h.toClean.clear.toClean
    · have hsh := shRedrawLineInternal_sh env (writeInternal env st (clearText st.sh.cfg))
      exact hsh ▸ hdisplay
  | ctrlU =>
    have hredraws : Redraws env st (clearInputLine env st) := .line rfl
    exact hredraws.inStep hs' h hdisplay
  | ctrlW =>
    have hredraws : Redraws env st (deleteWordLeft env st) := by
      unfold deleteWordLeft
      dsimp only
      split_ifs
      · exact .nothing rfl rfl
      · exact .line rfl
    exact hredraws.inStep hs' h hdisplay

/-- A full line: the message and a prompt, but not the line. -/
private theorem shows_overflow (hs : OnTerminal env received st.sh)
    (hclean : (screen received st).Clean)
    {c : Byte} (hfull : ¬st.sh.lineLen + 1 < st.sh.lineCapacity) :
    (insertChar env st c).1.sh = st.sh ∧
      (screen received (insertChar env st c).1).Shows st.sh.cfg.promptText.bytes
        st.sh.cfg.promptText.length := by
  have htext : (str "\r\nerror: line too long\r\n").bytes =
      Terminal.crlf ++ ascii "error: line too long" ++ Terminal.crlf := by decide +kernel
  have hprintable : ∀ b ∈ ascii "error: line too long", Terminal.Printable b := by decide +kernel
  have hscreen : screen received (writeInternal env st (str "\r\nerror: line too long\r\n")) =
      (screen received st).feed (str "\r\nerror: line too long\r\n").bytes := screen_shWrite st hs _
  have hblank : (screen received
      (writeInternal env st (str "\r\nerror: line too long\r\n"))).Shows [] 0 := by
    rw [hscreen, htext, Terminal.feed_append, Terminal.feed_append]
    exact (hclean.newline.toClean.print hprintable).newline
  unfold insertChar
  rw [if_pos (not_lt.mp hfull)]
  exact ⟨rfl, shows_prompt hs hblank⟩

/-- The characters displayed before an appended one, and the one displayed for it.

**Proof sketch.** The display has one byte more than the line had. That byte is the character, which
is printable, or a star. -/
private theorem display_appended (hs : OnTerminal env received st.sh) {c : Byte}
    (hc : Terminal.Printable c) (hroom : st.sh.lineLen + 1 < st.sh.lineCapacity)
    (hend : st.sh.cursor = st.sh.lineLen) :
    let display := buildDisplayLine env (st.sh.insertAt c) displaySize
    display = display.take st.sh.lineLen ++ [cell display st.sh.lineLen] ∧
      Terminal.Printable (cell display st.sh.lineLen) := by
  have hne : c ≠ 0 := by
    rintro rfl
    exact absurd hc (by decide)
  have hwf := hs.wf.insertAt hne hroom
  intro display
  have hlength : display.length = st.sh.lineLen + 1 := hwf.length_display
  have hlast : display[st.sh.lineLen]? = some (cell display st.sh.lineLen) := by
    rw [cell, List.getD_eq_getElem?_getD, List.getElem?_eq_getElem (by omega), Option.getD_some]
  refine ⟨?_, ?_⟩
  · have hsplit : display.take (st.sh.lineLen + 1) = _ := List.take_add_one
    rw [hlast, ← hlength, List.take_length] at hsplit
    exact hsplit
  · have htext : (st.sh.insertAt c).text[st.sh.lineLen]? = some c := by
      rw [hs.wf.text_insertAt_end hne hroom hend, ← hs.wf.length_text, List.getElem?_concat_length]
    rw [getElem?_buildDisplayLine env hwf, htext, Option.map_some, Option.some.injEq] at hlast
    rw [← hlast]
    split_ifs
    · decide
    · exact hc

/-- The column behind the row when the cursor stands at the end of the line. -/
private theorem OnTerminal.shownColumn_eq {s : Shell} (hs : OnTerminal env received s)
    (hend : s.cursor = s.lineLen) : s.shownColumn = (s.shown env).length := by
  rw [Shell.shown, List.length_append, hs.wf.length_display, Shell.shownColumn, hend]
  rfl

/-- An appended character: one byte behind the row. -/
private theorem shows_appended (hs : OnTerminal env received st.sh) (h : InStep env received st)
    {c : Byte} (hc : Terminal.Printable c) (hroom : st.sh.lineLen + 1 < st.sh.lineCapacity)
    (hend : st.sh.cursor = st.sh.lineLen)
    (hs' : OnTerminal env received (st.sh.insertAt c)) :
    let b := cell (buildDisplayLine env (st.sh.insertAt c) displaySize) st.sh.lineLen
    (screen received (insertChar env st c).1).Shows (st.sh.shown env ++ [b])
      (st.sh.shown env ++ [b]).length := by
  intro b
  have hprintable : ∀ d ∈ [b], Terminal.Printable d := by
    intro d hd
    rw [List.mem_singleton.mp hd]
    exact (display_appended hs hc hroom hend).2
  have hscreen : screen received (insertChar env st c).1 = (screen received st).feed [b] := by
    unfold insertChar echoInserted
    rw [if_neg (not_le.mpr hroom), decide_eq_true hend, if_pos ⟨hs.echo, rfl⟩]
    show screen received (shWrite env _ [cell _ (st.sh.cursor + 1 - 1)]).1 = _
    rw [Nat.add_sub_cancel, hend]
    exact screen_shWrite
      (touchDisplay ((st.touch .line (st.sh.lineLen + 2)).modify (·.insertAt c))) hs' _
  rw [InStep, hs.shownColumn_eq hend] at h
  rw [hscreen]
  exact h.print hprintable

/-- **A character** leaves the terminal in step exactly under its condition.

**Proof sketch.** Case split on the room and on the place of the cursor. At the end the displayed
byte is printed behind the row, so the row is right exactly when the rest of the display has not
changed. Elsewhere the line is redrawn, and without room the row holds the prompt only although the
line is not empty. -/
theorem insertChar_shows (hs : OnTerminal env received st.sh) (h : InStep env received st)
    {c : Byte} (hc : Terminal.Printable c)
    (hs' : OnTerminal env received (insertChar env st c).1.sh) :
    (ShowsEditor env received (insertChar env st c).1 → CharKeepsScreen env st.sh c) ∧
      (CharKeepsScreen env st.sh c → InStep env received (insertChar env st c).1) := by
  unfold CharKeepsScreen
  by_cases hroom : st.sh.lineLen + 1 < st.sh.lineCapacity
  · have hsh : (insertChar env st c).1.sh = st.sh.insertAt c := (insertChar_sh env c hroom).1
    by_cases hend : st.sh.cursor = st.sh.lineLen
    · -- the row is that of before with one byte more
      rw [hsh] at hs'
      have hshows := shows_appended hs h hc hroom hend hs'
      obtain ⟨hsplit, -⟩ := display_appended hs hc hroom hend
      rw [if_pos hend]
      refine ⟨fun hshown => ⟨hroom, ?_⟩, fun hkeeps => ?_⟩
      · have hrow := hshows.current.symm.trans hshown.1
        rw [hsh, Shell.shown, Shell.shown, List.append_assoc] at hrow
        have hdisplay := List.append_cancel_left hrow
        rw [hsplit] at hdisplay
        exact ((List.append_inj' hdisplay rfl).1).symm
      · have hdisplay : (st.sh.insertAt c).shown env = st.sh.shown env ++
            [cell (buildDisplayLine env (st.sh.insertAt c) displaySize) st.sh.lineLen] := by
          rw [hkeeps.2] at hsplit
          exact (congrArg (st.sh.cfg.promptText.bytes ++ ·) hsplit).trans
            (List.append_assoc _ _ _).symm
        have hcolumn : (st.sh.insertAt c).cursor = (st.sh.insertAt c).lineLen :=
          congrArg (· + 1) hend
        rw [InStep, hsh, hs'.shownColumn_eq hcolumn, hdisplay]
        exact hshows
    · have hinsert : (insertChar env st c).1 = shRedrawLineInternal env
          ((st.touch .line (st.sh.lineLen + 2)).modify (·.insertAt c)) := by
        unfold insertChar echoInserted
        rw [if_neg (not_le.mpr hroom), decide_eq_false hend, if_neg (by simp)]
      have hredraws : Redraws env st (insertChar env st c).1 := hinsert ▸ .line rfl
      rw [if_neg hend]
      refine ⟨fun hshown => ⟨hroom, hsh ▸ hshown.displayable⟩, fun hkeeps => ?_⟩
      exact hredraws.inStep hs' h (hsh.symm ▸ hkeeps.2)
  · obtain ⟨hsh, hshows⟩ := shows_overflow hs h.toClean (c := c) hroom
    refine ⟨fun hshown => ?_, fun hkeeps => absurd hkeeps.1 hroom⟩
    -- the row holds the prompt only, but the line is not empty
    have hrow := hshows.current.symm.trans hshown.1
    rw [hsh, Shell.shown, List.self_eq_append_right, ← List.length_eq_zero_iff,
      hs.wf.length_display] at hrow
    have hcapacity := hs.capacity
    omega

/-! ## One key -/

/-- What does not change stays as it is over steps that keep the echo flag and end with an idle
decoder. -/
theorem OnTerminal.steps {s s' : Shell} (h : OnTerminal env received s) (hsteps : Steps s s')
    (hecho : s'.echoEnabled = s.echoEnabled) (hidle : s'.ansi.state = .idle) :
    OnTerminal env received s' := by
  have hsetup := hsteps.sameSetup
  exact
    { wf := h.wf.steps hsteps
      capacity := hsetup.lineCapacity ▸ h.capacity
      attempts := hsetup.cfg ▸ h.attempts
      accepts := hsetup.cfg ▸ h.accepts
      prompt := hsetup.cfg ▸ h.prompt
      echo := hecho.trans h.echo
      ansi := hsetup.cfg ▸ h.ansi
      idle := hidle
      buffer := hsteps.csi_length.trans h.buffer }

/-- A decoded key leaves the terminal in step exactly under the condition. -/
private theorem Key.apply_shows (key : Key) (hs : OnTerminal env received st.sh)
    (hs' : OnTerminal env received (key.apply env st).sh) (h : InStep env received st) :
    (ShowsEditor env received (key.apply env st) → KeepsScreen env st.sh key) ∧
      (KeepsScreen env st.sh key → InStep env received (key.apply env st)) := by
  have hsh := key.apply_sh env st
  have hdisplay : ShowsEditor env received (key.apply env st) →
      (key.edit st.sh).Displayable env := by
    intro hshown
    rw [← hsh]
    exact hshown.displayable
  cases key with
  | char c hc => exact insertChar_shows hs h hc hs'
  | control key =>
    refine ⟨hdisplay, fun hkeeps => editByte_control_inStep hs hs' h ?_⟩
    exact hsh.symm ▸ hkeeps
  | sequence key =>
    refine ⟨hdisplay, fun hkeeps => (handleEscapeKey_redraws env st key.event).inStep hs' h ?_⟩
    exact hsh.symm ▸ hkeeps

/-- The input state does not matter to the condition. -/
private theorem keepsScreen_decoded (key : Key) (s : Shell) (cr : Bool) (decoder : AnsiDecoder) :
    KeepsScreen env (s.decoded cr decoder) key ↔ KeepsScreen env s key := by
  have hdisplay : ∀ s' : Shell, (∃ cr' decoder', s' = (key.edit s).decoded cr' decoder') →
      (s'.Displayable env ↔ (key.edit s).Displayable env) := by
    rintro s' ⟨cr', decoder', hs⟩
    rw [Shell.Displayable, hs, display_decoded]
    rfl
  cases key with
  | char c hc =>
    have hinsert : (s.decoded cr decoder).insertAt c = (s.insertAt c).decoded cr decoder := rfl
    show CharKeepsScreen env (s.decoded cr decoder) c ↔ CharKeepsScreen env s c
    unfold CharKeepsScreen Shell.Displayable
    rw [hinsert, display_decoded, display_decoded]
    exact Iff.rfl
  | control key => exact hdisplay _ (Key.edit_decoded (.control key) s cr decoder)
  | sequence key => exact hdisplay _ (Key.edit_decoded (.sequence key) s cr decoder)

/-- The system after a key. -/
def press (env : Env ω) (st : Sys ω) (key : Key) : Sys ω := (shInput env st key.bytes).1

/-- The editor acts on the decoded key. -/
private theorem OnTerminal.press_eq (hs : OnTerminal env received st.sh) (key : Key) :
    press env st key = key.apply env (st.modify (·.fedAll key.bytes)) ∧
      (st.sh.fedAll key.bytes).ansi.state = .idle :=
  shInput_key hs.idle (by rw [hs.buffer]; decide) key

/-- **What does not change** stays as it is over a key. -/
theorem OnTerminal.press (hs : OnTerminal env received st.sh) (key : Key) :
    OnTerminal env received (PortableShell.press env st key).sh := by
  obtain ⟨hpress, hidle⟩ := hs.press_eq key
  refine hs.steps (shInput_steps env st key.bytes) ?_ ?_
  · obtain ⟨cr, decoder, hfed⟩ := st.sh.fedAll_eq key.bytes
    rw [hpress, Key.apply_sh, Key.edit_echoEnabled, Sys.modify_sh, hfed]
    rfl
  · rw [hpress]
    exact (EditSteps.sameInput (key.apply_steps _)).idle hidle

/-- **One key** leaves the terminal in step exactly under the condition. -/
theorem press_shows (hs : OnTerminal env received st.sh) (h : InStep env received st) (key : Key) :
    (ShowsEditor env received (press env st key) → KeepsScreen env st.sh key) ∧
      (KeepsScreen env st.sh key → InStep env received (press env st key)) := by
  obtain ⟨hpress, hidle⟩ := hs.press_eq key
  obtain ⟨cr, decoder, hfed⟩ := st.sh.fedAll_eq key.bytes
  have hs' := hs.press key
  have hfedAll : OnTerminal env received (st.modify (·.fedAll key.bytes)).sh := by
    refine hs.steps (st.sh.fedAll_steps key.bytes) ?_ hidle
    rw [Sys.modify_sh, hfed]
    rfl
  have hshown : (st.sh.decoded cr decoder).shown env = st.sh.shown env :=
    congrArg (st.sh.cfg.promptText.bytes ++ ·) (display_decoded st.sh cr decoder)
  have hin : InStep env received (st.modify (·.fedAll key.bytes)) := by
    rw [InStep, Sys.modify_sh, hfed, hshown]
    exact h
  rw [hpress] at hs' ⊢
  have hkey := key.apply_shows hfedAll hs' hin
  rw [Sys.modify_sh, hfed, keepsScreen_decoded] at hkey
  exact hkey

/-! ## A line without secrets -/

/-- Where no token is masked, the text is displayed as it is. -/
private theorem display_of_plain {s : Shell} (hwf : s.Wf)
    (hplain : ∀ argv i arg,
      tokenMasked env s.cfg (shResolveCommandInternal s argv) i arg = false) :
    buildDisplayLine env s displaySize = s.text := by
  refine List.ext_getElem? fun p => ?_
  rw [getElem?_buildDisplayLine env hwf]
  have hnone : ∀ argv argv' i, ¬TokenHides env s (shResolveCommandInternal s argv) argv' p i := by
    intro argv argv' i hhides
    exact absurd hhides.1 (by rw [hplain]; decide)
  simp [hnone]

/-- **Where no token is masked**, an appended character that finds room leaves the terminal in
step. -/
theorem charKeepsScreen_of_plain {s : Shell} (hwf : s.Wf)
    (hplain : ∀ argv i arg, tokenMasked env s.cfg (shResolveCommandInternal s argv) i arg = false)
    {c : Byte} (hc : c ≠ 0) (hroom : s.lineLen + 1 < s.lineCapacity) (hend : s.cursor = s.lineLen) :
    CharKeepsScreen env s c := by
  have hafter : buildDisplayLine env (s.insertAt c) displaySize = (s.insertAt c).text :=
    display_of_plain (hwf.insertAt hc hroom) hplain
  refine ⟨hroom, ?_⟩
  rw [if_pos hend, hafter, display_of_plain hwf hplain, hwf.text_insertAt_end hc hroom hend,
    ← hwf.length_text, List.take_left]

/-! ## A session -/

/-- A session can be started on a terminal: a reachable shell that was stopped, with an idle
decoder, echo and ANSI output enabled, a printable prompt and a backend that accepts every byte.
The terminal is at the start of a blank row. -/
structure StartsOn (env : Env ω) (received : ω → List Byte) (st : Sys ω) : Prop where
  reachable : Reachable env st
  stopped : st.sh.started = false
  idle : st.sh.ansi.state = .idle
  echo : st.sh.echoEnabled = true
  ansi : st.sh.cfg.ansiEnabled = true
  prompt : ∀ b ∈ st.sh.cfg.promptText.bytes, Terminal.Printable b
  accepts : AcceptsAll env st.sh.cfg received
  blank : (screen received st).Shows [] 0

/-- The system after `sh_start` and some keys. -/
def afterKeys (env : Env ω) (st : Sys ω) (keys : List Key) : Sys ω :=
  (shInput env (shStart env st).1 (keys.flatMap Key.bytes)).1

/-- One more key. -/
private theorem afterKeys_append (keys : List Key) (key : Key) :
    afterKeys env st (keys ++ [key]) = press env (afterKeys env st keys) key := by
  rw [afterKeys, List.flatMap_append, List.flatMap_singleton, press, afterKeys]
  simp only [shInput_fst, List.foldl_append]

/-- What `sh_init` has made sure of. -/
theorem Reachable.capacity_and_attempts (h : Reachable env st) :
    1 < st.sh.lineCapacity ∧ st.sh.cfg.transportWriteAttempts ≠ 0 := by
  obtain ⟨cfg, storage, s, io, ops, -, hinit, rfl⟩ := h
  have hsetup := (run_steps env ⟨s, io, [], []⟩ ops).sameSetup
  rw [hsetup.lineCapacity, hsetup.cfg]
  obtain ⟨rfl, -, -, hfit, -⟩ := shInit_eq_ok hinit
  refine ⟨?_, ?_⟩
  · have hmax : (effectiveConfig cfg storage).lineMax ≠ 0 := by
      simp only [Config.buffersFit, Bool.and_eq_true, decide_eq_true_eq] at hfit
      exact hfit.1.1.1.1.1
    exact Nat.succ_lt_succ (Nat.pos_of_ne_zero hmax)
  · show (effectiveConfig cfg storage).transportWriteAttempts ≠ 0
    cases cfg with
    | none => exact Nat.succ_ne_zero 7
    | some cfg =>
      show (if cfg.transportWriteAttempts = 0 then 8 else cfg.transportWriteAttempts) ≠ 0
      split_ifs with hzero
      · decide
      · exact hzero

/-- **The start of a session**: the prompt is printed into the blank row. -/
theorem StartsOn.start (h : StartsOn env received st) :
    ∃ st' : Sys ω, (shStart env st).1 = shPrompt env st' ∧ st'.sh = st.sh.setStarted true ∧
      OnTerminal env received st'.sh ∧ (screen received st').Shows [] 0 := by
  obtain ⟨hcapacity, hattempts⟩ := h.reachable.capacity_and_attempts
  have hwf : (st.sh.setStarted true).Wf :=
    h.reachable.wf.step (.edit (.exec (.app (.started st.sh true))))
  have hok := (h.accepts.backendWrite hattempts st.io st.sh.cfg.promptText.bytes).2
  refine ⟨st.modify (·.setStarted true), ?_, rfl, ?_, h.blank⟩
  · unfold shStart
    rw [if_neg (by rw [h.stopped]; decide)]
    exact congrArg Prod.fst (if_neg (not_not.mpr hok))
  · exact ⟨hwf, hcapacity, hattempts, h.accepts, h.prompt, h.echo, h.ansi, h.idle,
      h.reachable.csi_length⟩

/-- The session goes on on the terminal. -/
private theorem StartsOn.onTerminal (h : StartsOn env received st) (keys : List Key) :
    OnTerminal env received (afterKeys env st keys).sh := by
  induction keys using List.reverseRecOn with
  | nil =>
    obtain ⟨st', hstart, -, hs, -⟩ := h.start
    show OnTerminal env received (shStart env st).1.sh
    rw [hstart, shPrompt_sh]
    exact hs
  | append_singleton keys key ih =>
    rw [afterKeys_append]
    exact ih.press key

/-- The session starts in step exactly when the line is empty. -/
private theorem StartsOn.start_shows (h : StartsOn env received st) :
    (ShowsEditor env received (afterKeys env st []) → st.sh.lineLen = 0) ∧
      (st.sh.lineLen = 0 → InStep env received (afterKeys env st [])) := by
  obtain ⟨st', hstart, hsh, hs, hblank⟩ := h.start
  have hafter : afterKeys env st [] = shPrompt env st' := hstart
  have hlineLen : st'.sh.lineLen = st.sh.lineLen := by
    rw [hsh]
    rfl
  rw [hafter, ← hlineLen]
  refine ⟨fun hshown => ?_, fun hempty => inStep_prompt hs hempty hblank⟩
  have hrow := (shows_prompt hs hblank).current.symm.trans hshown.1
  rw [shPrompt_sh, Shell.shown, List.self_eq_append_right, ← List.length_eq_zero_iff,
    hs.wf.length_display] at hrow
  exact hrow

/-- Under the condition the terminal stays in step. -/
private theorem StartsOn.inStep (h : StartsOn env received st) (hempty : st.sh.lineLen = 0)
    {keys : List Key}
    (hkeeps : ∀ pre key, pre ++ [key] <+: keys → KeepsScreen env (afterKeys env st pre).sh key) :
    InStep env received (afterKeys env st keys) := by
  induction keys using List.reverseRecOn with
  | nil => exact h.start_shows.2 hempty
  | append_singleton keys key ih =>
    have hbefore := ih fun pre key' hpre => hkeeps pre key' (hpre.trans (List.prefix_append _ _))
    rw [afterKeys_append]
    exact (press_shows (h.onTerminal keys) hbefore key).2 (hkeeps keys key List.prefix_rfl)

/-- When the terminal shows the editor after every key, it is in step. -/
private theorem StartsOn.inStep_of_shows (h : StartsOn env received st) {keys : List Key}
    (hshows : ∀ pre, pre <+: keys → ShowsEditor env received (afterKeys env st pre)) :
    InStep env received (afterKeys env st keys) := by
  induction keys using List.reverseRecOn with
  | nil => exact h.start_shows.2 (h.start_shows.1 (hshows [] List.prefix_rfl))
  | append_singleton keys key ih =>
    have hbefore := ih fun pre hpre => hshows pre (hpre.trans (List.prefix_append _ _))
    have hkey := press_shows (h.onTerminal keys) hbefore key
    have hshown := hshows (keys ++ [key]) List.prefix_rfl
    rw [afterKeys_append] at hshown ⊢
    exact hkey.2 (hkey.1 hshown)

/-- **The terminal shows what the editor holds** after `sh_start` and after every key of a stream
exactly when the session starts with an empty line and every key meets its condition.

**Proof sketch.** A redraw depends on nothing but a clean terminal, and an appended character on
the row being in step, so one key keeps the terminal in step under its condition, and without the
condition the row differs. The stream is cut at its end, key by key. -/
theorem showsEditor_iff (h : StartsOn env received st) (keys : List Key) :
    (∀ pre, pre <+: keys → ShowsEditor env received (afterKeys env st pre)) ↔
      st.sh.lineLen = 0 ∧
        ∀ pre key, pre ++ [key] <+: keys → KeepsScreen env (afterKeys env st pre).sh key := by
  constructor
  · intro hshows
    refine ⟨h.start_shows.1 (hshows [] List.nil_prefix), fun pre key hpre => ?_⟩
    have hbefore : InStep env received (afterKeys env st pre) :=
      h.inStep_of_shows fun pre' hpre' =>
        hshows pre' ((hpre'.trans (List.prefix_append pre [key])).trans hpre)
    have hshown := hshows (pre ++ [key]) hpre
    rw [afterKeys_append] at hshown
    exact (press_shows (h.onTerminal pre) hbefore key).1 hshown
  · rintro ⟨hempty, hkeeps⟩ pre hpre
    exact (h.inStep hempty fun pre' key hpre' => hkeeps pre' key (hpre'.trans hpre)).showsEditor

/-- The keys that type a text. -/
def charKeys (text : List Byte) : List Key :=
  text.filterMap fun c => if h : Terminal.Printable c then some (.char c h) else none

/-- The small shell with a backend that keeps everything, and the sensitive command. -/
def consoleSys : Sys (List Byte) :=
  run loginEnv
    ⟨initialShell ({ smallConfig with write := some 0 }.completed smallStorage) smallStorage, [],
      [], []⟩
    [.api (.registerCommands (.array [loginCommand]))]

/-- A session can be started on it. -/
theorem startsOn_consoleSys : StartsOn loginEnv id consoleSys where
  reachable := ⟨some { smallConfig with write := some 0 }, smallStorage, _, [], _,
    smallStorage_sized, rfl, rfl⟩
  stopped := by decide +kernel
  idle := by decide +kernel
  echo := by decide +kernel
  ansi := by decide +kernel
  prompt := by decide +kernel
  accepts :=
    { transport := by
        intro t ht
        have hnone : consoleSys.sh.cfg.transport = none := by decide +kernel
        rw [hnone] at ht
        cases ht
      callback := fun _ => ⟨0, by decide +kernel, fun _ _ => rfl⟩ }
  blank := Terminal.shows_blank

/-- Typing the sensitive command and the beginning of a secret. -/
theorem showsEditor_iff_console :
    (∀ pre, pre <+: charKeys (ascii "login a") →
        ShowsEditor loginEnv id (afterKeys loginEnv consoleSys pre)) ↔
      consoleSys.sh.lineLen = 0 ∧ ∀ pre key, pre ++ [key] <+: charKeys (ascii "login a") →
        KeepsScreen loginEnv (afterKeys loginEnv consoleSys pre).sh key :=
  showsEditor_iff startsOn_consoleSys _

/-- The row is wrong behind a full line, which is not printed again, and behind a backslash, which
changes how the characters before it are displayed. -/
theorem not_showsEditor_console :
    StartsOn loginEnv id consoleSys ∧ consoleSys.sh.lineLen = 0 ∧
      ¬ShowsEditor loginEnv id
        (afterKeys loginEnv consoleSys (charKeys (ascii "0123456789abcdefg"))) ∧
      ¬ShowsEditor loginEnv id (afterKeys loginEnv consoleSys (charKeys (ascii "login a\\"))) := by
  refine ⟨startsOn_consoleSys, by decide +kernel, fun h => ?_, fun h => ?_⟩
  · exact absurd h.1 (by decide +kernel)
  · exact absurd h.1 (by decide +kernel)

end PortableShell
