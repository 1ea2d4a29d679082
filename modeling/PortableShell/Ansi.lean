import PortableShell.Types

set_option relaxedAutoImplicit false
set_option autoImplicit false

/-!
# The ANSI decoder

`sh_ansi.c`: an incremental decoder for the escape sequences of the editing keys. It sees every
input byte before the line editor does and says whether it consumed the byte.

## Main definitions

* `PortableShell.AnsiEvent` — `sh_ansi_event_t`.
* `PortableShell.shAnsiFeed` — `sh_ansi_feed`.

## Main results

* `PortableShell.shAnsiFeed_csiLength_le` — the parameter buffer does not overflow.
* `PortableShell.shAnsiFeed_of_ne_csi` — outside the parameter phase every byte but ESC and, after
  ESC, `[` is left to the editor.
* `PortableShell.shAnsiFeed_of_csi` — in the parameter phase every byte is consumed.
-/

namespace PortableShell

/-- A `sh_ansi_event_t`. -/
inductive AnsiEvent
  | none
  | up
  | down
  | right
  | left
  | home
  | «end»
  | delete
  deriving DecidableEq

/-- The byte that opens an escape sequence. -/
def esc : Byte := 0x1b

/-- `sh_ansi_finish_sequence`. -/
def shAnsiFinishSequence (decoder : AnsiDecoder) : AnsiDecoder :=
  { decoder with state := .idle, csiLength := 0, csiOverflow := false }

/-- `sh_ansi_is_final_byte`. -/
def shAnsiIsFinalByte (byte : Byte) : Bool := 0x40 ≤ byte && byte ≤ 0x7e

/-- `sh_ansi_is_parameter_or_intermediate`. -/
def shAnsiIsParameterOrIntermediate (byte : Byte) : Bool := 0x20 ≤ byte && byte ≤ 0x3f

/-- `sh_ansi_decode_csi`. -/
def shAnsiDecodeCsi (decoder : AnsiDecoder) (finalByte : Byte) : AnsiEvent :=
  if decoder.csiLength = 0 then
    if finalByte = chr 'A' then .up
    else if finalByte = chr 'B' then .down
    else if finalByte = chr 'C' then .right
    else if finalByte = chr 'D' then .left
    else if finalByte = chr 'H' then .home
    else if finalByte = chr 'F' then .end
    else .none
  else if finalByte ≠ chr '~' ∨ decoder.csiLength ≠ 1 then .none
  else if decoder.csi.getD 0 0 = chr '1' then .home
  else if decoder.csi.getD 0 0 = chr '3' then .delete
  else if decoder.csi.getD 0 0 = chr '4' then .end
  else .none

/-- `sh_ansi_reset`. -/
def shAnsiReset (decoder : AnsiDecoder) : AnsiDecoder :=
  { decoder with state := .idle, csiLength := 0, csiOverflow := false, lastByteConsumed := false }

/-- `sh_ansi_init`, on the zeroed memory of a new shell. -/
def shAnsiInit : AnsiDecoder :=
  shAnsiReset ⟨.idle, 0, false, false, List.replicate shAnsiCsiMax 0⟩

/-- `sh_ansi_feed`. -/
def shAnsiFeed (decoder : AnsiDecoder) (byte : Byte) : AnsiDecoder × AnsiEvent :=
  match decoder.state with
  | .idle =>
    if byte = esc then ({ decoder with state := .escape, lastByteConsumed := true }, .none)
    else ({ decoder with lastByteConsumed := false }, .none)
  | .escape =>
    let decoder := { decoder with lastByteConsumed := true }
    if byte = chr '[' then
      ({ decoder with state := .csi, csiLength := 0, csiOverflow := false }, .none)
    else if byte ≠ esc then
      ({ shAnsiFinishSequence decoder with lastByteConsumed := false }, .none)
    else (decoder, .none)
  | .csi =>
    let decoder := { decoder with lastByteConsumed := true }
    if byte = esc then
      ({ decoder with state := .escape, csiLength := 0, csiOverflow := false }, .none)
    else if shAnsiIsFinalByte byte then
      (shAnsiFinishSequence decoder,
        if decoder.csiOverflow then .none else shAnsiDecodeCsi decoder byte)
    else if !shAnsiIsParameterOrIntermediate byte then (shAnsiFinishSequence decoder, .none)
    else if decoder.csiLength < shAnsiCsiMax then
      ({ decoder with csi := Mem.store decoder.csi decoder.csiLength [byte],
                      csiLength := decoder.csiLength + 1 }, .none)
    else ({ decoder with csiOverflow := true }, .none)

/-- `sh_ansi_last_byte_consumed`. -/
def shAnsiLastByteConsumed (decoder : AnsiDecoder) : Bool := decoder.lastByteConsumed

/-! ## What one byte does -/

/-- The decoder never counts more parameter bytes than its buffer holds. -/
theorem shAnsiFeed_csiLength_le {decoder : AnsiDecoder} (byte : Byte)
    (h : decoder.csiLength ≤ shAnsiCsiMax) :
    (shAnsiFeed decoder byte).1.csiLength ≤ shAnsiCsiMax := by
  unfold shAnsiFeed
  cases decoder.state with
  | idle => dsimp only; split_ifs <;> exact h
  | escape => dsimp only; split_ifs <;> simp [shAnsiFinishSequence, h]
  | csi => dsimp only; split_ifs <;> simp [shAnsiFinishSequence] <;> omega

/-- The parameter buffer keeps its size. -/
theorem shAnsiFeed_csi_length (decoder : AnsiDecoder) (byte : Byte) :
    (shAnsiFeed decoder byte).1.csi.length = decoder.csi.length := by
  unfold shAnsiFeed
  cases decoder.state with
  | idle => dsimp only; split_ifs <;> rfl
  | escape => dsimp only; split_ifs <;> rfl
  | csi => dsimp only; split_ifs <;> simp [shAnsiFinishSequence]

/-- **Outside the parameter phase** a byte that neither opens a sequence nor continues ESC is
left to the editor, and the decoder is idle. -/
theorem shAnsiFeed_of_ne_csi {decoder : AnsiDecoder} {byte : Byte} (hs : decoder.state ≠ .csi)
    (he : byte ≠ esc) (hb : decoder.state = .escape → byte ≠ chr '[') :
    (shAnsiFeed decoder byte).2 = .none ∧ (shAnsiFeed decoder byte).1.lastByteConsumed = false ∧
      (shAnsiFeed decoder byte).1.state = .idle := by
  unfold shAnsiFeed
  cases h : decoder.state with
  | idle => simp [he]
  | escape => simp [he, hb h, shAnsiFinishSequence]
  | csi => exact absurd h hs

/-- **In the parameter phase** every byte is consumed. -/
theorem shAnsiFeed_of_csi {decoder : AnsiDecoder} (byte : Byte) (hs : decoder.state = .csi) :
    (shAnsiFeed decoder byte).1.lastByteConsumed = true := by
  unfold shAnsiFeed
  rw [hs]
  dsimp only
  split_ifs <;> rfl

/-- An event ends the sequence. -/
theorem shAnsiFeed_idle_of_event {decoder : AnsiDecoder} {byte : Byte}
    (h : (shAnsiFeed decoder byte).2 ≠ .none) : (shAnsiFeed decoder byte).1.state = .idle := by
  unfold shAnsiFeed at h ⊢
  cases hs : decoder.state with
  | idle => simp only [hs] at h; split_ifs at h <;> exact absurd rfl h
  | escape => simp only [hs] at h; split_ifs at h <;> exact absurd rfl h
  | csi =>
    simp only [hs] at h ⊢
    split_ifs at h ⊢ with hesc hfinal hover hparam hfull
    all_goals first | rfl | exact absurd rfl h

/-- A byte left to the editor leaves the decoder idle. -/
theorem shAnsiFeed_idle_of_not_consumed {decoder : AnsiDecoder} {byte : Byte}
    (h : (shAnsiFeed decoder byte).1.lastByteConsumed = false) :
    (shAnsiFeed decoder byte).1.state = .idle := by
  cases hs : decoder.state with
  | idle =>
    unfold shAnsiFeed at h ⊢
    simp only [hs] at h ⊢
    split_ifs at h ⊢
    rfl
  | escape =>
    unfold shAnsiFeed at h ⊢
    simp only [hs] at h ⊢
    split_ifs at h ⊢
    rfl
  | csi =>
    rw [shAnsiFeed_of_csi byte hs] at h
    exact absurd h (by decide)

/-! ## The state of the decoder -/

/-- The state of the decoder after one more byte. -/
def AnsiState.feed (state : AnsiState) (byte : Byte) : AnsiState :=
  if byte = esc then .escape
  else
    match state with
    | .idle => .idle
    | .escape => if byte = chr '[' then .csi else .idle
    | .csi =>
      if shAnsiIsFinalByte byte then .idle
      else if shAnsiIsParameterOrIntermediate byte then .csi
      else .idle

/-- **The state** depends on the state and the byte only. -/
theorem shAnsiFeed_state (decoder : AnsiDecoder) (byte : Byte) :
    (shAnsiFeed decoder byte).1.state = decoder.state.feed byte := by
  unfold shAnsiFeed AnsiState.feed
  cases hs : decoder.state with
  | idle =>
    dsimp only
    split_ifs <;> rfl
  | escape =>
    by_cases hesc : byte = esc
    · have hne : esc ≠ chr '[' := by decide
      simp [hesc, hne]
    · simp only [hesc, if_false, ne_eq, not_false_eq_true, if_true]
      split_ifs <;> rfl
  | csi =>
    dsimp only
    split_ifs <;> simp_all [shAnsiFinishSequence]

/-- The decoder after a block of bytes. -/
def ansiAfter (data : List Byte) : AnsiDecoder :=
  data.foldl (fun decoder byte => (shAnsiFeed decoder byte).1) shAnsiInit

/-- The state after a block of bytes. -/
theorem ansiAfter_state (data : List Byte) :
    (ansiAfter data).state = data.foldl AnsiState.feed .idle := by
  have hfold : ∀ decoder : AnsiDecoder,
      (data.foldl (fun decoder byte => (shAnsiFeed decoder byte).1) decoder).state =
        data.foldl AnsiState.feed decoder.state := by
    induction data with
    | nil => exact fun _ => rfl
    | cons byte data ih =>
      intro decoder
      rw [List.foldl_cons, List.foldl_cons, ih, shAnsiFeed_state]
  exact hfold shAnsiInit

end PortableShell
