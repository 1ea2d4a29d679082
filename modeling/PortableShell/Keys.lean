import Mathlib.Data.List.Induction
import PortableShell.Typing

set_option relaxedAutoImplicit false
set_option autoImplicit false

/-!
# The editing keys

The keys of the line editor besides Enter and Tab: printable characters, control bytes and escape
sequences. The decoder passes each of them on as one event, and what it does to the editor does not
depend on the state of the decoder.

## Main definitions

* `PortableShell.Key` — the editing keys, with the bytes they send.
* `PortableShell.Key.edit` — what a key does to the shell.
* `PortableShell.Key.apply` — what the editor does with a decoded key.

## Main results

* `PortableShell.shInput_sequence` — an escape key is decoded and handled.
* `PortableShell.shInput_key` — every key is.
* `PortableShell.Key.apply_sh` — the shell after a key.
* `PortableShell.Shell.AwaitsKey.press` — a key press, from a shell with an idle decoder to one.
-/

namespace PortableShell

variable {ω : Type}

/-! ## Keys -/

/-- The editing keys that send one control byte. -/
inductive ControlKey
  | backspace
  | del
  | ctrlC
  | ctrlL
  | ctrlU
  | ctrlW
  deriving DecidableEq

/-- The byte of such a key. -/
def ControlKey.byte : ControlKey → Byte
  | backspace => 0x08
  | del => 0x7f
  | ctrlC => etx
  | ctrlL => 0x0c
  | ctrlU => 0x15
  | ctrlW => 0x17

/-- The editing keys that send an escape sequence; Home and End have two. -/
inductive SequenceKey
  | up
  | down
  | right
  | left
  | home
  | «end»
  | delete
  | homeTilde
  | endTilde
  deriving DecidableEq

/-- The parameter bytes of the sequence. -/
def SequenceKey.params : SequenceKey → List Byte
  | homeTilde => [chr '1']
  | delete => [chr '3']
  | endTilde => [chr '4']
  | _ => []

/-- The byte that ends the sequence. -/
def SequenceKey.final : SequenceKey → Byte
  | up => chr 'A'
  | down => chr 'B'
  | right => chr 'C'
  | left => chr 'D'
  | home => chr 'H'
  | «end» => chr 'F'
  | delete | homeTilde | endTilde => chr '~'

/-- The sequence of such a key. -/
def SequenceKey.bytes (key : SequenceKey) : List Byte :=
  esc :: chr '[' :: (key.params ++ [key.final])

/-- What the decoder makes of the sequence. -/
def SequenceKey.event : SequenceKey → AnsiEvent
  | up => .up
  | down => .down
  | right => .right
  | left => .left
  | home | homeTilde => .home
  | «end» | endTilde => .end
  | delete => .delete

/-- The editing keys. -/
inductive Key
  | char (c : Byte) (printable : 32 ≤ c ∧ c < 127)
  | control (key : ControlKey)
  | sequence (key : SequenceKey)

/-- The bytes a key sends. -/
def Key.bytes : Key → List Byte
  | char c _ => [c]
  | control key => [key.byte]
  | sequence key => key.bytes

/-- The editor after a control key. -/
def ControlKey.edit (s : Shell) : ControlKey → Shell
  | backspace | del => if s.cursor = 0 then s else s.deleteRange (s.cursor - 1) s.cursor
  | ctrlC => s.eraseLine.eraseDraft.resetAnsi
  | ctrlL => s
  | ctrlU => s.eraseLine.wipeDraft
  | ctrlW => if s.wordStart = s.cursor then s else s.deleteRange s.wordStart s.cursor

/-- The editor after an escape key. -/
def AnsiEvent.edit (s : Shell) : AnsiEvent → Shell
  | none => s
  | up => if s.historyCount = 0 then s else s.walk (-1)
  | down => if s.historyCount = 0 then s else s.walk 1
  | right => if s.cursor < s.lineLen then s.setCursor (s.cursor + 1) else s
  | left => if s.cursor > 0 then s.setCursor (s.cursor - 1) else s
  | home => if s.cursor ≠ 0 then s.setCursor 0 else s
  | «end» => if s.cursor ≠ s.lineLen then s.setCursor s.lineLen else s
  | delete => if s.cursor ≥ s.lineLen then s else s.deleteRange s.cursor (s.cursor + 1)

/-- The editor after a key. -/
def Key.edit (s : Shell) : Key → Shell
  | char c _ => if s.lineLen + 1 < s.lineCapacity then s.insertAt c else s
  | control key => key.edit s
  | sequence key => key.event.edit s

/-! ## Decoding keys -/

variable {env : Env ω} {st : Sys ω}

/-- A byte inside an escape sequence reaches the decoder only. -/
private theorem shInputByte_consumed {byte : Byte} (hlf : byte ≠ chr '\n')
    (hevent : (shAnsiFeed st.sh.ansi byte).2 = .none)
    (hconsumed : (shAnsiFeed st.sh.ansi byte).1.lastByteConsumed = true) :
    shInputByte env st byte = (st.modify (·.fed byte), Status.ok) := by
  unfold shInputByte feedByte
  rw [if_neg fun h => hlf h.1]
  dsimp only
  rw [if_neg (not_not.mpr hevent), shAnsiLastByteConsumed, hconsumed, if_pos rfl]
  rfl

/-- The last byte of an escape sequence presses a key. -/
private theorem shInputByte_key {byte : Byte} (hlf : byte ≠ chr '\n') {key : AnsiEvent}
    (hevent : (shAnsiFeed st.sh.ansi byte).2 = key) (hkey : key ≠ .none) :
    shInputByte env st byte = (handleEscapeKey env (st.modify (·.fed byte)) key, Status.ok) := by
  unfold shInputByte feedByte
  rw [if_neg fun h => hlf h.1]
  dsimp only
  rw [hevent, if_pos hkey]
  rfl

/-- The decoder when a control sequence has begun and some parameter bytes were received. -/
structure Collected (params : List Byte) (decoder : AnsiDecoder) : Prop where
  state : decoder.state = .csi
  csiLength : decoder.csiLength = params.length
  csiOverflow : decoder.csiOverflow = false
  stored : decoder.csi.take params.length = params

/-- ESC and `[` begin a control sequence. -/
private theorem collected_nil {decoder : AnsiDecoder} (hidle : decoder.state = .idle) :
    (shAnsiFeed decoder esc).2 = .none ∧ (shAnsiFeed decoder esc).1.lastByteConsumed = true ∧
      (shAnsiFeed (shAnsiFeed decoder esc).1 (chr '[')).2 = .none ∧
      (shAnsiFeed (shAnsiFeed decoder esc).1 (chr '[')).1.lastByteConsumed = true ∧
      Collected [] (shAnsiFeed (shAnsiFeed decoder esc).1 (chr '[')).1 := by
  have hesc : shAnsiFeed decoder esc =
      ({ decoder with state := .escape, lastByteConsumed := true }, .none) := by
    simp [shAnsiFeed, hidle]
  rw [hesc]
  exact ⟨rfl, rfl, rfl, rfl, rfl, rfl, rfl, List.take_zero⟩

/-- Another parameter byte. -/
private theorem Collected.param {params : List Byte} {decoder : AnsiDecoder}
    (h : Collected params decoder) {byte : Byte}
    (hbyte : shAnsiIsParameterOrIntermediate byte = true) (hroom : params.length < shAnsiCsiMax)
    (hfits : params.length < decoder.csi.length) :
    (shAnsiFeed decoder byte).2 = .none ∧ (shAnsiFeed decoder byte).1.lastByteConsumed = true ∧
      Collected (params ++ [byte]) (shAnsiFeed decoder byte).1 := by
  obtain ⟨hlow, hhigh⟩ : 32 ≤ byte.toNat ∧ byte.toNat ≤ 63 := by
    simpa [shAnsiIsParameterOrIntermediate, UInt8.le_iff_toNat_le] using hbyte
  have hesc : byte ≠ esc := by
    rintro rfl
    exact absurd hlow (by decide)
  have hfinal : shAnsiIsFinalByte byte = false := by
    have hlt : ¬64 ≤ byte.toNat := by omega
    simp [shAnsiIsFinalByte, UInt8.le_iff_toNat_le, hlt]
  have hfeed : shAnsiFeed decoder byte =
      ({ decoder with lastByteConsumed := true,
                      csi := Mem.store decoder.csi params.length [byte],
                      csiLength := params.length + 1 }, .none) := by
    simp [shAnsiFeed, h.state, hesc, hfinal, hbyte, h.csiLength, hroom]
  have hstore : params.length + [byte].length ≤ decoder.csi.length := hfits
  rw [hfeed]
  refine ⟨rfl, rfl, h.state, by simp, h.csiOverflow, ?_⟩
  show (Mem.store decoder.csi params.length [byte]).take (params ++ [byte]).length = _
  rw [Mem.store_eq hstore, h.stored, List.take_left]

/-- The byte that ends the sequence. -/
theorem Collected.final {params : List Byte} {decoder : AnsiDecoder}
    (h : Collected params decoder) {byte : Byte} (hbyte : shAnsiIsFinalByte byte = true) :
    shAnsiFeed decoder byte =
      (shAnsiFinishSequence { decoder with lastByteConsumed := true },
        shAnsiDecodeCsi decoder byte) := by
  have hesc : byte ≠ esc := by
    rintro rfl
    exact absurd hbyte (by decide)
  simp only [shAnsiFeed, h.state, hesc, hbyte, h.csiOverflow, if_true, if_false]
  rfl

/-- The sequence of a key is decoded to its event. -/
theorem Collected.event {key : SequenceKey} {decoder : AnsiDecoder}
    (h : Collected key.params decoder) : shAnsiDecodeCsi decoder key.final = key.event := by
  have hlength := h.csiLength
  have hfirst : ∀ c, key.params = [c] → decoder.csi.getD 0 0 = c := by
    intro c hc
    have hstored := h.stored
    rw [hc] at hstored
    cases hcsi : decoder.csi with
    | nil => simp [hcsi] at hstored
    | cons b rest => simpa [hcsi] using hstored
  unfold shAnsiDecodeCsi
  rw [hlength]
  cases key with
  | homeTilde =>
    rw [hfirst _ rfl]
    rfl
  | delete =>
    rw [hfirst _ rfl]
    rfl
  | endTilde =>
    rw [hfirst _ rfl]
    rfl
  | _ => rfl

/-- The shell after the decoder has seen several bytes. -/
def Shell.fedAll (s : Shell) (data : List Byte) : Shell := data.foldl Shell.fed s

/-- Parameter bytes are consumed.

**Proof sketch.** Induction on the bytes. Each one is collected behind the others, as there is room
in the buffer, and the decoder asks for more. -/
private theorem shInput_params (env : Env ω) (st : Sys ω) {params : List Byte}
    (h : Collected params st.sh.ansi) {data : List Byte}
    (hdata : ∀ b ∈ data, shAnsiIsParameterOrIntermediate b = true)
    (hroom : params.length + data.length ≤ shAnsiCsiMax)
    (hfits : params.length + data.length ≤ st.sh.ansi.csi.length) :
    shInput env st data = (st.modify (·.fedAll data), Status.ok) ∧
      Collected (params ++ data) (st.sh.fedAll data).ansi := by
  induction data generalizing st params with
  | nil =>
    rw [List.append_nil]
    exact ⟨rfl, h⟩
  | cons b data ih =>
    have hb : shAnsiIsParameterOrIntermediate b = true := hdata b List.mem_cons_self
    have hlf : b ≠ chr '\n' := by
      rintro rfl
      exact absurd hb (by decide)
    have hlength : (params ++ [b]).length = params.length + 1 := List.length_append
    rw [List.length_cons] at hroom hfits
    obtain ⟨hnone, hconsumed, hnext⟩ := h.param hb (by omega) (by omega)
    have hbyte : shInputByte env st b = (st.modify (·.fed b), Status.ok) :=
      shInputByte_consumed hlf hnone hconsumed
    have hsize : (st.modify (·.fed b)).sh.ansi.csi.length = st.sh.ansi.csi.length :=
      shAnsiFeed_csi_length st.sh.ansi b
    obtain ⟨hrest, hcollected⟩ := ih (st.modify (·.fed b)) hnext
      (fun c hc => hdata c (List.mem_cons_of_mem b hc)) (by omega) (by omega)
    refine ⟨?_, ?_⟩
    · rw [shInput_cons (congrArg Prod.snd hbyte), hbyte, hrest]
      rfl
    · rw [List.append_cons]
      exact hcollected

/-- **An escape key** is decoded and handled, and leaves the decoder idle.

**Proof sketch.** `ESC` and `[` open the sequence, `shInput_params` collects its parameters, and the
final byte is decoded to the key and handled. -/
theorem shInput_sequence (env : Env ω) (hidle : st.sh.ansi.state = .idle) (key : SequenceKey)
    (hfits : key.params.length ≤ st.sh.ansi.csi.length) :
    shInput env st key.bytes =
        (handleEscapeKey env (st.modify (·.fedAll key.bytes)) key.event, Status.ok) ∧
      (st.sh.fedAll key.bytes).ansi.state = .idle := by
  obtain ⟨hnone, hconsumed, hnone', hconsumed', hopened⟩ := collected_nil hidle
  have hparams : ∀ b ∈ key.params, shAnsiIsParameterOrIntermediate b = true := by
    cases key <;> decide +kernel
  have hroom : ([] : List Byte).length + key.params.length ≤ shAnsiCsiMax := by
    cases key <;> decide
  have hfinal : shAnsiIsFinalByte key.final = true ∧ key.final ≠ chr '\n' := by
    cases key <;> decide
  have hevent : key.event ≠ .none := by cases key <;> decide
  have hfirst : shInputByte env st esc = (st.modify (·.fed esc), Status.ok) :=
    shInputByte_consumed (by decide) hnone hconsumed
  have hsecond : shInputByte env (st.modify (·.fed esc)) (chr '[') =
      ((st.modify (·.fed esc)).modify (·.fed (chr '[')), Status.ok) :=
    shInputByte_consumed (by decide) hnone' hconsumed'
  obtain ⟨hrest, hcollected⟩ := shInput_params env
    ((st.modify (·.fed esc)).modify (·.fed (chr '['))) hopened hparams hroom (by
      rw [List.length_nil, Nat.zero_add]
      exact hfits.trans (((shAnsiFeed_csi_length _ _).trans (shAnsiFeed_csi_length _ _)).ge))
  rw [List.nil_append] at hcollected
  have hfeed := hcollected.final hfinal.1
  rw [hcollected.event] at hfeed
  simp only [Sys.modify_sh] at hfeed
  have hall : key.bytes.foldl Shell.fed st.sh =
      (((st.sh.fed esc).fed (chr '[')).fedAll key.params).fed key.final := by
    rw [SequenceKey.bytes, List.foldl_cons, List.foldl_cons, List.foldl_append]
    rfl
  have hlast : (st.sh.fedAll key.bytes).ansi.state = .idle := by
    rw [Shell.fedAll, hall, Shell.fed, hfeed]
    rfl
  refine ⟨?_, hlast⟩
  rw [SequenceKey.bytes, shInput_cons (congrArg Prod.snd hfirst), hfirst,
    shInput_cons (congrArg Prod.snd hsecond), hsecond, shInput_append (congrArg Prod.snd hrest),
    hrest, shInput_singleton, shInputByte_key hfinal.2 (congrArg Prod.snd hfeed) hevent]
  simp only [Sys.modify, Shell.fedAll, List.foldl_cons, List.foldl_append, List.foldl_nil]

/-! ## What a key does to the editor -/

/-- The decoder and the flag for a carriage return are set. -/
def Shell.decoded (s : Shell) (cr : Bool) (decoder : AnsiDecoder) : Shell :=
  (s.setLastInputWasCr cr).setAnsi decoder

/-- The decoder changes nothing else. -/
theorem Shell.fedAll_eq (s : Shell) (data : List Byte) :
    ∃ cr decoder, s.fedAll data = s.decoded cr decoder := by
  induction data generalizing s with
  | nil => exact ⟨s.lastInputWasCr, s.ansi, rfl⟩
  | cons b data ih =>
    obtain ⟨cr, decoder, h⟩ := ih (s.fed b)
    refine ⟨cr, decoder, ?_⟩
    rw [Shell.fedAll, List.foldl_cons, ← Shell.fedAll, h]
    rfl

/-- The input state is not displayed. -/
theorem display_decoded (s : Shell) (cr : Bool) (decoder : AnsiDecoder) :
    buildDisplayLine env (s.decoded cr decoder) displaySize =
      buildDisplayLine env s displaySize := rfl

section Decoded

variable (s : Shell) (cr : Bool) (decoder : AnsiDecoder)

/-- The input state does not matter to the walk through the history. -/
private theorem Shell.walk_decoded (direction : ℤ) :
    (s.decoded cr decoder).walk direction = (s.walk direction).decoded cr decoder := by
  dsimp only [Shell.walk, Shell.decoded, Shell.setLastInputWasCr, Shell.setAnsi]
  split_ifs <;> rfl

/-- The input state does not matter to the word left of the cursor. -/
private theorem Shell.wordStart_decoded : (s.decoded cr decoder).wordStart = s.wordStart :=
  SameLine.wordStart_eq (s := s) ⟨rfl, rfl, rfl⟩

/-- The input state does not matter to what a control key edits. -/
theorem ControlKey.edit_decoded (key : ControlKey) :
    ∃ cr' decoder', key.edit (s.decoded cr decoder) = (key.edit s).decoded cr' decoder' := by
  have hdelete := (apply_ite (·.decoded cr decoder) (s.cursor = 0) s
    (s.deleteRange (s.cursor - 1) s.cursor)).symm
  cases key with
  | backspace => exact ⟨cr, decoder, hdelete⟩
  | del => exact ⟨cr, decoder, hdelete⟩
  | ctrlC => exact ⟨cr, shAnsiReset decoder, rfl⟩
  | ctrlL => exact ⟨cr, decoder, rfl⟩
  | ctrlU =>
    refine ⟨cr, decoder, ?_⟩
    exact (apply_ite (·.decoded cr decoder) (s.cfg.secureClearEnabled = true)
      { s.eraseLine with draft := s.draft.map fun d => Mem.fill d 0 0 s.lineCapacity }
      s.eraseLine).symm
  | ctrlW =>
    refine ⟨cr, decoder, ?_⟩
    show (if (s.decoded cr decoder).wordStart = s.cursor then s.decoded cr decoder
      else (s.decoded cr decoder).deleteRange (s.decoded cr decoder).wordStart s.cursor) = _
    rw [Shell.wordStart_decoded]
    exact (apply_ite (·.decoded cr decoder) (s.wordStart = s.cursor) s
      (s.deleteRange s.wordStart s.cursor)).symm

/-- The input state does not matter to an escape key. -/
theorem AnsiEvent.edit_decoded (event : AnsiEvent) :
    event.edit (s.decoded cr decoder) = (event.edit s).decoded cr decoder := by
  have hwalk : ∀ direction,
      (if s.historyCount = 0 then s.decoded cr decoder else (s.decoded cr decoder).walk direction) =
        (if s.historyCount = 0 then s else s.walk direction).decoded cr decoder := by
    intro direction
    rw [Shell.walk_decoded]
    exact (apply_ite (·.decoded cr decoder) (s.historyCount = 0) s (s.walk direction)).symm
  cases event with
  | none => rfl
  | up => exact hwalk (-1)
  | down => exact hwalk 1
  | right =>
    exact (apply_ite (·.decoded cr decoder) (s.cursor < s.lineLen) (s.setCursor (s.cursor + 1))
      s).symm
  | left =>
    exact (apply_ite (·.decoded cr decoder) (s.cursor > 0) (s.setCursor (s.cursor - 1)) s).symm
  | home => exact (apply_ite (·.decoded cr decoder) (s.cursor ≠ 0) (s.setCursor 0) s).symm
  | «end» =>
    exact (apply_ite (·.decoded cr decoder) (s.cursor ≠ s.lineLen) (s.setCursor s.lineLen) s).symm
  | delete =>
    exact (apply_ite (·.decoded cr decoder) (s.cursor ≥ s.lineLen) s
      (s.deleteRange s.cursor (s.cursor + 1))).symm

end Decoded

/-! ## The editor on a decoded key -/

variable (env) in
/-- A key press in a history that is not empty walks. -/
theorem moveHistory_sh {st : Sys ω} (direction : ℤ) (h : st.sh.historyCount ≠ 0) :
    (moveHistory env st direction).sh = st.sh.walk direction := by
  unfold moveHistory
  rw [if_neg h, shRedrawLineInternal_sh, Sys.modify_sh, touchWalk_sh]

/-- What an escape key does to the editor.

**Proof sketch.** One case per event. A redraw leaves the shell alone, so only the update of the
branch is left. -/
private theorem AnsiEvent.handle_sh (event : AnsiEvent) (st : Sys ω) :
    (handleEscapeKey env st event).sh = event.edit st.sh := by
  have hwalk : ∀ direction, (moveHistory env st direction).sh =
      if st.sh.historyCount = 0 then st.sh else st.sh.walk direction := by
    intro direction
    split_ifs with hcount
    · rw [moveHistory, if_pos hcount]
    · exact moveHistory_sh env direction hcount
  cases event with
  | none => rfl
  | up => exact hwalk (-1)
  | down => exact hwalk 1
  | delete =>
    unfold handleEscapeKey deleteAtCursor AnsiEvent.edit
    dsimp only
    split_ifs
    · rfl
    · rw [shRedrawLineInternal_sh]
      rfl
  | _ =>
    unfold handleEscapeKey AnsiEvent.edit
    dsimp only
    split_ifs
    · rw [shRedrawLineInternal_sh]
      rfl
    · rfl

/-- What a control key does to the editor.

**Proof sketch.** One case per key, as for the escape keys. `Ctrl+W` does nothing where no word is
left of the cursor. -/
private theorem ControlKey.editByte_sh (key : ControlKey) (st : Sys ω) :
    (editByte env st key.byte).1.sh = key.edit st.sh := by
  have hbackspace : (PortableShell.backspace env st).sh = ControlKey.backspace.edit st.sh := by
    unfold PortableShell.backspace ControlKey.edit
    dsimp only
    split_ifs
    · rfl
    · rw [shRedrawLineInternal_sh]
      rfl
  cases key with
  | backspace => exact hbackspace
  | del => exact hbackspace
  | ctrlC => exact cancelInputLine_sh env st
  | ctrlL => exact shRedrawLineInternal_sh env _
  | ctrlU => exact shRedrawLineInternal_sh env _
  | ctrlW =>
    show (deleteWordLeft env st).sh = ControlKey.ctrlW.edit st.sh
    by_cases hstart : st.sh.wordStart = st.sh.cursor
    · have hop : deleteWordLeft env st = st.touch .line st.sh.cursor := if_pos hstart
      have hedit : ControlKey.ctrlW.edit st.sh = st.sh := if_pos hstart
      rw [hop, hedit, Sys.touch_sh]
    · have hop : deleteWordLeft env st = shRedrawLineInternal env _ := if_neg hstart
      have hedit : ControlKey.ctrlW.edit st.sh =
        st.sh.deleteRange st.sh.wordStart st.sh.cursor := if_neg hstart
      rw [hop, hedit, shRedrawLineInternal_sh]
      rfl

/-- What the editor does with a decoded key. -/
def Key.apply (env : Env ω) (st : Sys ω) : Key → Sys ω
  | char c _ => (insertChar env st c).1
  | control key => (editByte env st key.byte).1
  | sequence key => handleEscapeKey env st key.event

/-- What this does to the shell. -/
theorem Key.apply_sh (key : Key) (env : Env ω) (st : Sys ω) :
    (key.apply env st).sh = key.edit st.sh := by
  cases key with
  | char c hc =>
    unfold Key.apply Key.edit
    dsimp only
    split_ifs with hroom
    · exact (insertChar_sh env c hroom).1
    · rw [insertChar, if_pos (not_lt.mp hroom)]
      rfl
  | control key => exact key.editByte_sh st
  | sequence key => exact key.event.handle_sh st

/-- These are editing steps. -/
theorem Key.apply_steps (key : Key) (st : Sys ω) : EditSteps st.sh (key.apply env st).sh := by
  cases key with
  | char c hc =>
    refine insertChar_steps env ?_
    rintro rfl
    exact absurd hc (by decide)
  | control key => exact editByte_steps env st key.byte
  | sequence key => exact handleEscapeKey_steps env st key.event

/-- No key changes the echo flag.

**Proof sketch.** One case per key: no update of the editor writes that field. -/
theorem Key.edit_echoEnabled (key : Key) (s : Shell) :
    (key.edit s).echoEnabled = s.echoEnabled := by
  have hwalk : ∀ direction, (s.walk direction).echoEnabled = s.echoEnabled := by
    intro direction
    unfold Shell.walk
    split_ifs <;> rfl
  cases key with
  | char c hc =>
    unfold Key.edit
    dsimp only
    split_ifs <;> rfl
  | control key =>
    have hwipe : s.eraseLine.wipeDraft.echoEnabled = s.echoEnabled := by
      unfold Shell.wipeDraft
      split_ifs <;> rfl
    cases key with
    | ctrlU => exact hwipe
    | ctrlC => rfl
    | ctrlL => rfl
    | _ =>
      unfold Key.edit ControlKey.edit
      dsimp only
      split_ifs <;> rfl
  | sequence key =>
    unfold Key.edit AnsiEvent.edit
    dsimp only
    cases key.event with
    | none => rfl
    | up =>
      dsimp only
      split_ifs
      · rfl
      · exact hwalk (-1)
    | down =>
      dsimp only
      split_ifs
      · rfl
      · exact hwalk 1
    | _ =>
      dsimp only
      split_ifs <;> rfl

/-- The input state does not matter to what a key edits. -/
theorem Key.edit_decoded (key : Key) (s : Shell) (cr : Bool) (decoder : AnsiDecoder) :
    ∃ cr' decoder', key.edit (s.decoded cr decoder) = (key.edit s).decoded cr' decoder' := by
  cases key with
  | char c hc =>
    refine ⟨cr, decoder, ?_⟩
    exact (apply_ite (·.decoded cr decoder) (s.lineLen + 1 < s.lineCapacity) (s.insertAt c) s).symm
  | control key => exact key.edit_decoded s cr decoder
  | sequence key => exact ⟨cr, decoder, key.event.edit_decoded s cr decoder⟩

/-- **A key** is decoded, and the editor acts on it with an idle decoder. -/
theorem shInput_key (hidle : st.sh.ansi.state = .idle) (hsize : 0 < st.sh.ansi.csi.length)
    (key : Key) :
    (shInput env st key.bytes).1 = key.apply env (st.modify (·.fedAll key.bytes)) ∧
      (st.sh.fedAll key.bytes).ansi.state = .idle := by
  have hbyte : ∀ byte : Byte, byte ≠ esc → byte ≠ chr '\n' →
      (shInput env st [byte]).1 = (editByte env (st.modify (·.fedAll [byte])) byte).1 ∧
        (st.sh.fedAll [byte]).ansi.state = .idle := by
    intro byte hesc hlf
    have hleft : LeftToEditor st.sh.ansi.state byte := .of_idle hidle hesc
    rw [shInput_singleton, shInputByte_left env hleft hlf]
    exact ⟨rfl, hleft.idle⟩
  cases key with
  | char c hc =>
    have hne : ∀ b : Byte, ¬(32 ≤ b ∧ b < 127) → c ≠ b := fun b hb heq => hb (heq ▸ hc)
    have h := hbyte c (hne _ (by decide)) (hne _ (by decide))
    rw [editByte_printable _ hc] at h
    exact h
  | control key => exact hbyte key.byte (by cases key <;> decide) (by cases key <;> decide)
  | sequence key =>
    have hfits : key.params.length ≤ 1 := by cases key <;> decide
    obtain ⟨hinput, hlast⟩ := shInput_sequence env hidle key (hfits.trans hsize)
    exact ⟨congrArg Prod.fst hinput, hlast⟩

/-- The decoder takes steps. -/
theorem Shell.fedAll_steps (s : Shell) (data : List Byte) : Steps s (s.fedAll data) := by
  refine List.foldlRecOn (motive := fun s' : Shell => Steps s s') data Shell.fed .refl ?_
  intro s' hs byte _
  exact (hs.tail (.lastCr s' (decide (byte = chr '\r')))).tail (.feed _ byte)

/-! ## Key presses -/

/-- What inserting a character returns. -/
private theorem insertChar_status (env : Env ω) (st : Sys ω) (c : Byte) :
    (insertChar env st c).2 =
      if st.sh.lineLen + 1 < st.sh.lineCapacity then Status.ok else Status.errLineTooLong := by
  unfold insertChar
  by_cases hroom : st.sh.lineLen + 1 < st.sh.lineCapacity
  · rw [if_neg (not_le.mpr hroom), if_pos hroom]
  · rw [if_pos (not_lt.mp hroom), if_neg hroom]

/-- What a key press returns: a character that does not fit is refused. -/
theorem shInput_key_status (hidle : st.sh.ansi.state = .idle) (hsize : 0 < st.sh.ansi.csi.length)
    (key : Key) :
    (shInput env st key.bytes).2 = match key with
      | .char _ _ =>
        if st.sh.lineLen + 1 < st.sh.lineCapacity then Status.ok else Status.errLineTooLong
      | _ => Status.ok := by
  have hbyte : ∀ byte : Byte, byte ≠ esc → byte ≠ chr '\n' →
      (shInput env st [byte]).2 = (editByte env (st.modify (·.fed byte)) byte).2 := by
    intro byte hesc hlf
    rw [shInput_singleton, shInputByte_left env (.of_idle hidle hesc) hlf]
  cases key with
  | char c hc =>
    have hne : ∀ b : Byte, ¬(32 ≤ b ∧ b < 127) → c ≠ b := fun b hb heq => hb (heq ▸ hc)
    rw [Key.bytes, hbyte c (hne _ (by decide)) (hne _ (by decide)), editByte_printable _ hc]
    exact insertChar_status env (st.modify (·.fed c)) c
  | control key =>
    rw [Key.bytes, hbyte key.byte (by cases key <;> decide) (by cases key <;> decide)]
    cases key <;> rfl
  | sequence key =>
    have hfits : key.params.length ≤ 1 := by cases key <;> decide
    exact congrArg Prod.snd (shInput_sequence env hidle key (hfits.trans hsize)).1

/-- A well-formed shell whose decoder is idle. -/
structure Shell.AwaitsKey (s : Shell) : Prop where
  wf : s.Wf
  idle : s.ansi.state = .idle
  buffer : 0 < s.ansi.csi.length

/-- A reachable shell with an idle decoder is one. -/
theorem Reachable.awaitsKey (h : Reachable env st) (hidle : st.sh.ansi.state = .idle) :
    st.sh.AwaitsKey :=
  ⟨h.wf, hidle, by rw [h.csi_length]; decide⟩

/-- **A key press** edits the shell that the decoder leaves, and the decoder is idle again. -/
theorem Shell.AwaitsKey.press (h : st.sh.AwaitsKey) (env : Env ω) (key : Key) :
    (∃ cr decoder, (st.sh.decoded cr decoder).Wf ∧
        (shInput env st key.bytes).1.sh = key.edit (st.sh.decoded cr decoder)) ∧
      (shInput env st key.bytes).1.sh.AwaitsKey := by
  obtain ⟨hpress, hidle⟩ := @shInput_key _ env _ h.idle h.buffer key
  have hsteps := shInput_steps env st key.bytes
  obtain ⟨cr, decoder, hfed⟩ := st.sh.fedAll_eq key.bytes
  refine ⟨⟨cr, decoder, ?_, ?_⟩, h.wf.steps hsteps, ?_, ?_⟩
  · rw [← hfed]
    exact h.wf.steps (st.sh.fedAll_steps key.bytes)
  · rw [hpress, Key.apply_sh, ← hfed]
    rfl
  · rw [hpress]
    exact (EditSteps.sameInput (key.apply_steps _)).idle hidle
  · rw [hsteps.csi_length]
    exact h.buffer

/-- The system behind some keys. -/
def typeKeys (env : Env ω) (st : Sys ω) (keys : List Key) : Sys ω :=
  (shInput env st (keys.flatMap Key.bytes)).1

/-- No keys. -/
theorem typeKeys_nil : typeKeys env st [] = st := rfl

/-- One more key. -/
theorem typeKeys_concat (keys : List Key) (key : Key) :
    typeKeys env st (keys ++ [key]) = (shInput env (typeKeys env st keys) key.bytes).1 := by
  simp only [typeKeys, shInput_fst, List.flatMap_append, List.flatMap_singleton, List.foldl_append]

/-- Behind some keys the decoder is idle again. -/
theorem Shell.AwaitsKey.typeKeys (h : st.sh.AwaitsKey) (env : Env ω) (keys : List Key) :
    (PortableShell.typeKeys env st keys).sh.AwaitsKey := by
  induction keys using List.reverseRecOn with
  | nil => exact h
  | append_singleton keys key ih =>
    rw [typeKeys_concat]
    exact (ih.press env key).2

end PortableShell
