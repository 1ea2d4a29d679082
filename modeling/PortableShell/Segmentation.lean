import Mathlib.Data.List.Induction
import PortableShell.Ansi

set_option relaxedAutoImplicit false
set_option autoImplicit false

/-!
# Escape sequences as a grammar

A stream of input bytes falls into single bytes for the editor and escape sequences, which may be
begun several times before they end. This file has that grammar, apart from any decoder, and shows
that `sh_ansi_feed` decides a stream as its segmentation says.

## Main definitions

* `PortableShell.Segment`, `PortableShell.Segmentation` — the grammar; a value renders to the bytes
  it stands for.
* `PortableShell.Segmentation.outputs` — the event of every byte and whether it is consumed.
* `PortableShell.Segmentation.push` — one byte more.
* `PortableShell.ansiOutputs` — what the decoder says of the bytes of a stream.

## Main results

* `PortableShell.Segmentation.foldl_push` — a segmentation is found from its bytes.
* `PortableShell.Decodes.feed` — a byte keeps the decoder in step with the segmentation.
* `PortableShell.ansi_decodes_segmentation` — the decoder is the unique segmentation.
-/

namespace PortableShell

/-! ## The grammar -/

/-- The bytes of a parameter phase. -/
@[ext]
structure Params where
  bytes : List Byte
  isParam : ∀ b ∈ bytes, shAnsiIsParameterOrIntermediate b = true

/-- No parameters. -/
def Params.empty : Params := ⟨[], nofun⟩

/-- One parameter more. -/
def Params.push (ps : Params) (b : Byte) (hb : shAnsiIsParameterOrIntermediate b = true) :
    Params where
  bytes := ps.bytes ++ [b]
  isParam := by
    intro c hc
    rcases List.mem_append.mp hc with hc | hc
    · exact ps.isParam c hc
    · rwa [List.mem_singleton.mp hc]

/-- The beginning of a sequence. -/
inductive Attempt
  | escape
  | csi (params : Params)

/-- The bytes of a beginning: ESC, or ESC `[` with parameters. -/
def Attempt.bytes : Attempt → List Byte
  | escape => [esc]
  | csi params => esc :: chr '[' :: params.bytes

/-- The last beginning of a sequence, with the byte that ends it. -/
inductive Ending
  /-- Directly behind ESC: the byte is left to the editor. -/
  | left (b : Byte) (hesc : b ≠ esc) (hopen : b ≠ chr '[')
  /-- In the parameter phase: a final byte, or a byte that is dropped. -/
  | ended (params : Params) (b : Byte) (hesc : b ≠ esc)
      (hb : shAnsiIsParameterOrIntermediate b = false)

/-- The bytes of an ending. -/
def Ending.bytes : Ending → List Byte
  | left b _ _ => [esc, b]
  | ended params b _ _ => (Attempt.csi params).bytes ++ [b]

/-- A piece of a stream. In a sequence every ESC starts again. -/
inductive Segment
  | text (b : Byte) (hesc : b ≠ esc)
  | sequence (restarted : List Attempt) (ending : Ending)

/-- The bytes of a piece. -/
def Segment.bytes : Segment → List Byte
  | text b _ => [b]
  | sequence restarted ending => restarted.flatMap Attempt.bytes ++ ending.bytes

/-- The pieces of a stream, and the beginnings of a sequence that has not ended. -/
@[ext]
structure Segmentation where
  segments : List Segment
  pending : Option (List Attempt × Attempt)

namespace Segmentation

/-- The bytes behind the last piece. -/
def pendingBytes : Option (List Attempt × Attempt) → List Byte
  | none => []
  | some (restarted, attempt) => restarted.flatMap Attempt.bytes ++ attempt.bytes

/-- The bytes of a stream. -/
def bytes (g : Segmentation) : List Byte :=
  g.segments.flatMap Segment.bytes ++ pendingBytes g.pending

end Segmentation

/-! ## What a stream means -/

/-- The event of a sequence, by its parameters and the byte that ends it. -/
def sequenceEvent (params : List Byte) (final : Byte) : AnsiEvent :=
  if params = [] ∧ final = chr 'A' then .up
  else if params = [] ∧ final = chr 'B' then .down
  else if params = [] ∧ final = chr 'C' then .right
  else if params = [] ∧ final = chr 'D' then .left
  else if params = [] ∧ final = chr 'H' then .home
  else if params = [] ∧ final = chr 'F' then .end
  else if params = [chr '1'] ∧ final = chr '~' then .home
  else if params = [chr '3'] ∧ final = chr '~' then .delete
  else if params = [chr '4'] ∧ final = chr '~' then .end
  else .none

/-- The outputs of bytes that are consumed without an event. -/
def consumed (data : List Byte) : List (AnsiEvent × Bool) := data.map fun _ => (.none, true)

@[simp] theorem consumed_nil : consumed [] = [] := rfl

@[simp] theorem consumed_cons (b : Byte) (data : List Byte) :
    consumed (b :: data) = (.none, true) :: consumed data := rfl

@[simp] theorem consumed_append (a b : List Byte) : consumed (a ++ b) = consumed a ++ consumed b :=
  List.map_append

/-- The outputs of an ending. -/
def Ending.outputs : Ending → List (AnsiEvent × Bool)
  | left _ _ _ => [(.none, true), (.none, false)]
  | ended params b _ _ => consumed (Attempt.csi params).bytes ++
      [(sequenceEvent params.bytes b, true)]

/-- The outputs of a piece. -/
def Segment.outputs : Segment → List (AnsiEvent × Bool)
  | text _ _ => [(.none, false)]
  | sequence restarted ending => consumed (restarted.flatMap Attempt.bytes) ++ ending.outputs

/-- For every byte of a stream its event and whether it is consumed. -/
def Segmentation.outputs (g : Segmentation) : List (AnsiEvent × Bool) :=
  g.segments.flatMap Segment.outputs ++ consumed (pendingBytes g.pending)

/-! ## Finding the segmentation -/

namespace Segmentation

/-- Nothing was received. -/
def empty : Segmentation := ⟨[], none⟩

/-- One byte more. -/
def push (g : Segmentation) (b : Byte) : Segmentation :=
  match g.pending with
  | none =>
    if h : b = esc then ⟨g.segments, some ([], .escape)⟩
    else ⟨g.segments ++ [.text b h], none⟩
  | some (restarted, .escape) =>
    if hesc : b = esc then ⟨g.segments, some (restarted ++ [.escape], .escape)⟩
    else if hopen : b = chr '[' then ⟨g.segments, some (restarted, .csi .empty)⟩
    else ⟨g.segments ++ [.sequence restarted (.left b hesc hopen)], none⟩
  | some (restarted, .csi params) =>
    if hesc : b = esc then ⟨g.segments, some (restarted ++ [.csi params], .escape)⟩
    else if hb : shAnsiIsParameterOrIntermediate b = true then
      ⟨g.segments, some (restarted, .csi (params.push b hb))⟩
    else
      ⟨g.segments ++ [.sequence restarted (.ended params b hesc (Bool.not_eq_true _ ▸ hb))], none⟩

/-- The segmentation of a stream. -/
def ofBytes (data : List Byte) : Segmentation := data.foldl push empty

/-- A byte more is a byte more in the stream. -/
private theorem bytes_push (g : Segmentation) (b : Byte) : (g.push b).bytes = g.bytes ++ [b] := by
  obtain ⟨segments, pending⟩ := g
  rcases pending with _ | ⟨restarted, _ | params⟩
  · rw [push]
    dsimp only
    split_ifs with hesc
    · simp [bytes, pendingBytes, Attempt.bytes, hesc]
    · simp [bytes, pendingBytes, Segment.bytes]
  · rw [push]
    dsimp only
    split_ifs with hesc hopen
    · simp [bytes, pendingBytes, Attempt.bytes, hesc]
    · simp [bytes, pendingBytes, Attempt.bytes, Params.empty, hopen]
    · simp [bytes, pendingBytes, Segment.bytes, Ending.bytes, Attempt.bytes]
  · rw [push]
    dsimp only
    split_ifs with hesc hb
    · simp [bytes, pendingBytes, Attempt.bytes, hesc]
    · simp [bytes, pendingBytes, Attempt.bytes, Params.push]
    · simp [bytes, pendingBytes, Segment.bytes, Ending.bytes, Attempt.bytes]

/-- The segmentation of a stream has its bytes. -/
private theorem bytes_ofBytes (data : List Byte) : (ofBytes data).bytes = data := by
  have hfold : ∀ g : Segmentation, (data.foldl push g).bytes = g.bytes ++ data := by
    induction data with
    | nil => exact fun g => (List.append_nil _).symm
    | cons b data ih =>
      intro g
      rw [List.foldl_cons, ih, bytes_push, List.append_assoc, List.singleton_append]
  exact hfold empty

/-- Parameters go to the beginning that is open. -/
private theorem foldl_params (segments : List Segment) (restarted : List Attempt) (ps : Params)
    (data : List Byte) (hdata : ∀ b ∈ data, shAnsiIsParameterOrIntermediate b = true) :
    ∃ qs : Params, qs.bytes = ps.bytes ++ data ∧
      data.foldl push ⟨segments, some (restarted, .csi ps)⟩ =
        ⟨segments, some (restarted, .csi qs)⟩ := by
  induction data generalizing ps with
  | nil => exact ⟨ps, (List.append_nil _).symm, rfl⟩
  | cons b data ih =>
    have hb := hdata b List.mem_cons_self
    have hesc : b ≠ esc := by
      rintro rfl
      exact absurd hb (by decide)
    obtain ⟨qs, hqs, hfold⟩ := ih (ps.push b hb) fun c hc => hdata c (List.mem_cons_of_mem b hc)
    refine ⟨qs, by rw [hqs, Params.push, List.append_assoc, List.singleton_append], ?_⟩
    rw [List.foldl_cons, ← hfold, push]
    dsimp only
    rw [dif_neg hesc, dif_pos hb]

/-- A beginning is recognized wherever it stands. -/
private theorem foldl_attempt (segments : List Segment) (pending : Option (List Attempt × Attempt))
    (attempt : Attempt) :
    attempt.bytes.foldl push ⟨segments, pending⟩ =
      ⟨segments, some (pending.elim [] fun p => p.1 ++ [p.2], attempt)⟩ := by
  have hesc : push ⟨segments, pending⟩ esc =
      ⟨segments, some (pending.elim [] fun p => p.1 ++ [p.2], .escape)⟩ := by
    rcases pending with _ | ⟨restarted, _ | params⟩ <;> simp [push]
  cases attempt with
  | escape => exact hesc
  | csi params =>
    obtain ⟨qs, hqs, hfold⟩ := foldl_params segments (pending.elim [] fun p => p.1 ++ [p.2]) .empty
      params.bytes params.isParam
    obtain rfl : qs = params := Params.ext hqs
    have hopen : push ⟨segments, some (pending.elim [] fun p => p.1 ++ [p.2], .escape)⟩ (chr '[') =
        ⟨segments, some (pending.elim [] fun p => p.1 ++ [p.2], .csi .empty)⟩ := by
      have hne : chr '[' ≠ esc := by decide
      simp [push, hne]
    rw [Attempt.bytes, List.foldl_cons, List.foldl_cons, hesc, hopen, hfold]

/-- Several beginnings in a row. -/
private theorem foldl_attempts (segments : List Segment) (restarted : List Attempt)
    (last : Attempt) :
    (restarted.flatMap Attempt.bytes ++ last.bytes).foldl push ⟨segments, none⟩ =
      ⟨segments, some (restarted, last)⟩ := by
  induction restarted using List.reverseRecOn generalizing last with
  | nil => exact foldl_attempt segments none last
  | append_singleton restarted attempt ih =>
    rw [List.flatMap_append, List.flatMap_singleton, List.foldl_append, ih, foldl_attempt]
    rfl

/-- A piece is recognized behind others. -/
private theorem foldl_segment (segments : List Segment) (piece : Segment) :
    piece.bytes.foldl push ⟨segments, none⟩ = ⟨segments ++ [piece], none⟩ := by
  cases piece with
  | text b hesc => exact dif_neg hesc
  | sequence restarted ending =>
    cases ending with
    | left b hesc hopen =>
      have hlast : (Ending.left b hesc hopen).bytes = Attempt.escape.bytes ++ [b] := rfl
      rw [Segment.bytes, hlast, ← List.append_assoc, List.foldl_append, foldl_attempts]
      exact (dif_neg hesc).trans (dif_neg hopen)
    | ended params b hesc hb =>
      rw [Segment.bytes, Ending.bytes, ← List.append_assoc, List.foldl_append, foldl_attempts]
      exact (dif_neg hesc).trans (dif_neg (by rw [hb]; decide))

/-- **A segmentation is found** from its bytes.

**Proof sketch.** Piece by piece, from the left: an ESC opens or restarts a sequence, and the bytes
behind it are those that the grammar allows there. -/
theorem foldl_push (g : Segmentation) : ofBytes g.bytes = g := by
  obtain ⟨segments, pending⟩ := g
  have hpieces : (segments.flatMap Segment.bytes).foldl push empty = ⟨segments, none⟩ := by
    induction segments using List.reverseRecOn with
    | nil => rfl
    | append_singleton segments piece ih =>
      rw [List.flatMap_append, List.flatMap_singleton, List.foldl_append, ih, foldl_segment]
  rw [ofBytes, bytes, List.foldl_append, hpieces]
  rcases pending with _ | ⟨restarted, last⟩
  · rfl
  · exact foldl_attempts segments restarted last

end Segmentation

/-! ## The decoder -/

/-- The outputs of the decoder for a stream. -/
def ansiOutputs : AnsiDecoder → List Byte → List (AnsiEvent × Bool)
  | _, [] => []
  | decoder, b :: rest =>
    let fed := shAnsiFeed decoder b
    (fed.2, shAnsiLastByteConsumed fed.1) :: ansiOutputs fed.1 rest

/-- The decoder after a stream. -/
def ansiFed (decoder : AnsiDecoder) (data : List Byte) : AnsiDecoder :=
  data.foldl (fun decoder b => (shAnsiFeed decoder b).1) decoder

/-- The decoder in a parameter phase: the buffer holds the first parameters, and the flag says
whether there were more. -/
structure Collects (params : List Byte) (decoder : AnsiDecoder) : Prop where
  state : decoder.state = .csi
  csiLength : decoder.csiLength = min params.length shAnsiCsiMax
  csiOverflow : decoder.csiOverflow = decide (shAnsiCsiMax < params.length)
  stored : decoder.csi.take (min params.length shAnsiCsiMax) = params.take shAnsiCsiMax

/-- The decoder is in step with a segmentation. -/
structure Decodes (g : Segmentation) (decoder : AnsiDecoder) : Prop where
  size : decoder.csi.length = shAnsiCsiMax
  idle : g.pending = none → decoder.state = .idle
  escape : ∀ restarted, g.pending = some (restarted, .escape) → decoder.state = .escape
  csi : ∀ restarted params, g.pending = some (restarted, .csi params) →
    Collects params.bytes decoder

/-- ESC opens or restarts a sequence. -/
private theorem shAnsiFeed_esc (decoder : AnsiDecoder) :
    (shAnsiFeed decoder esc).2 = .none ∧ (shAnsiFeed decoder esc).1.lastByteConsumed = true ∧
      (shAnsiFeed decoder esc).1.state = .escape := by
  have hne : esc ≠ chr '[' := by decide
  unfold shAnsiFeed
  cases decoder.state <;> simp [hne]

/-- The event of a sequence in the buffer. -/
theorem Collects.event {params : List Byte} {decoder : AnsiDecoder} (h : Collects params decoder)
    (b : Byte) :
    (if decoder.csiOverflow then .none else shAnsiDecodeCsi decoder b) =
        sequenceEvent params b := by
  have hmax : shAnsiCsiMax = 8 := rfl
  have hlength := h.csiLength
  have hover := h.csiOverflow
  have hstored := h.stored
  rw [hmax] at hlength hover hstored
  match params with
  | [] => simp [hover, shAnsiDecodeCsi, hlength, sequenceEvent]
  | [c] =>
    have hfirst : decoder.csi[0]? = some c := by
      cases hcsi : decoder.csi with
      | nil => simp [hcsi] at hstored
      | cons x rest => simpa [hcsi] using hstored
    by_cases hfinal : b = chr '~' <;>
      simp [hover, shAnsiDecodeCsi, hlength, sequenceEvent, hfirst, hfinal]
  | c :: c' :: rest =>
    have hlong : min (rest.length + 1 + 1) 8 ≠ 0 ∧ min (rest.length + 1 + 1) 8 ≠ 1 := by omega
    simp [shAnsiDecodeCsi, hlength, sequenceEvent, hlong]

/-- A byte that no sequence contains has no event. -/
private theorem sequenceEvent_of_not_final {params : List Byte} {b : Byte}
    (hb : shAnsiIsFinalByte b = false) : sequenceEvent params b = .none := by
  have hne : ∀ c : Byte, shAnsiIsFinalByte c = true → b ≠ c := by
    rintro c hc rfl
    exact absurd (hc.symm.trans hb) (by decide)
  simp [sequenceEvent, hne (chr 'A') (by decide), hne (chr 'B') (by decide),
    hne (chr 'C') (by decide), hne (chr 'D') (by decide), hne (chr 'H') (by decide),
    hne (chr 'F') (by decide), hne (chr '~') (by decide)]

/-- A parameter is no final byte. -/
private theorem not_final_of_param {b : Byte} (hb : shAnsiIsParameterOrIntermediate b = true) :
    shAnsiIsFinalByte b = false := by
  obtain ⟨-, hhigh⟩ : 32 ≤ b.toNat ∧ b.toNat ≤ 63 := by
    simpa [shAnsiIsParameterOrIntermediate, UInt8.le_iff_toNat_le] using hb
  have hlt : ¬64 ≤ b.toNat := by omega
  simp [shAnsiIsFinalByte, UInt8.le_iff_toNat_le, hlt]

/-- A parameter is stored, or counted as too many.

**Proof sketch.** With room in the buffer the byte is stored behind the others and counted. Without
room the buffer stays and the overflow is noted. -/
theorem Collects.push {params : List Byte} {decoder : AnsiDecoder} (h : Collects params decoder)
    (hsize : decoder.csi.length = shAnsiCsiMax) {b : Byte} (hesc : b ≠ esc)
    (hb : shAnsiIsParameterOrIntermediate b = true) :
    (shAnsiFeed decoder b).2 = .none ∧ (shAnsiFeed decoder b).1.lastByteConsumed = true ∧
      Collects (params ++ [b]) (shAnsiFeed decoder b).1 := by
  have hfinal := not_final_of_param hb
  have hlength := h.csiLength
  have hstored := h.stored
  by_cases hroom : params.length < shAnsiCsiMax
  · have hmin : min params.length shAnsiCsiMax = params.length := by omega
    rw [hmin] at hlength hstored
    rw [List.take_of_length_le (by omega : params.length ≤ shAnsiCsiMax)] at hstored
    have hfeed : shAnsiFeed decoder b =
        ({ decoder with lastByteConsumed := true,
                        csi := Mem.store decoder.csi params.length [b],
                        csiLength := params.length + 1 }, .none) := by
      simp [shAnsiFeed, h.state, hesc, hfinal, hb, hlength, hroom]
    have hstore : params.length + [b].length ≤ decoder.csi.length := by
      rw [List.length_singleton, hsize]
      omega
    rw [hfeed]
    refine ⟨rfl, rfl, h.state, ?_, ?_, ?_⟩
    · simp only [List.length_append, List.length_singleton]
      omega
    · have hover := h.csiOverflow
      simp only [List.length_append, List.length_singleton]
      rw [hover, decide_eq_false (by omega), decide_eq_false (by omega)]
    · show (Mem.store decoder.csi params.length [b]).take _ = _
      have hlen : min (params ++ [b]).length shAnsiCsiMax = params.length + [b].length := by
        simp only [List.length_append, List.length_singleton]
        omega
      rw [hlen, Mem.store_eq hstore, hstored, List.take_left' (List.length_append),
        List.take_of_length_le (by simp only [List.length_append, List.length_singleton]; omega)]
  · have hmin : min params.length shAnsiCsiMax = shAnsiCsiMax := by omega
    rw [hmin] at hlength hstored
    have hfeed : shAnsiFeed decoder b =
        ({ decoder with lastByteConsumed := true, csiOverflow := true }, .none) := by
      simp [shAnsiFeed, h.state, hesc, hfinal, hb, hlength]
    rw [hfeed]
    refine ⟨rfl, rfl, h.state, ?_, ?_, ?_⟩
    · simp only [List.length_append, List.length_singleton]
      omega
    · simp only [List.length_append, List.length_singleton]
      exact (decide_eq_true (by omega)).symm
    · have hlen : min (params ++ [b]).length shAnsiCsiMax = shAnsiCsiMax := by
        simp only [List.length_append, List.length_singleton]
        omega
      rw [hlen, hstored, List.take_append_of_le_length (by omega)]

/-- Any other byte ends the sequence. -/
theorem Collects.ended {params : List Byte} {decoder : AnsiDecoder} (h : Collects params decoder)
    {b : Byte} (hesc : b ≠ esc) (hb : shAnsiIsParameterOrIntermediate b = false) :
    (shAnsiFeed decoder b).2 = sequenceEvent params b ∧
      (shAnsiFeed decoder b).1.lastByteConsumed = true ∧
      (shAnsiFeed decoder b).1.state = .idle := by
  have hevent : (if ({ decoder with lastByteConsumed := true } : AnsiDecoder).csiOverflow then .none
      else shAnsiDecodeCsi { decoder with lastByteConsumed := true } b) = sequenceEvent params b :=
    h.event b
  unfold shAnsiFeed
  rw [h.state]
  dsimp only
  rw [if_neg hesc]
  by_cases hfinal : shAnsiIsFinalByte b = true
  · rw [if_pos hfinal]
    exact ⟨hevent, rfl, rfl⟩
  · have hnot : shAnsiIsFinalByte b = false := by simpa using hfinal
    rw [if_neg hfinal, if_pos (by rw [hb]; rfl)]
    exact ⟨(sequenceEvent_of_not_final hnot).symm, rfl, rfl⟩

namespace Decodes

variable {g : Segmentation} {decoder : AnsiDecoder}

/-- A decoder that waits for a sequence. -/
theorem of_idle (hsize : decoder.csi.length = shAnsiCsiMax) (hstate : decoder.state = .idle)
    (hpending : g.pending = none) : Decodes g decoder where
  size := hsize
  idle := fun _ => hstate
  escape := fun _ h => by
    rw [hpending] at h
    exact nomatch h
  csi := fun _ _ h => by
    rw [hpending] at h
    exact nomatch h

/-- A decoder behind ESC. -/
private theorem of_escape {restarted : List Attempt} (hsize : decoder.csi.length = shAnsiCsiMax)
    (hstate : decoder.state = .escape) (hpending : g.pending = some (restarted, .escape)) :
    Decodes g decoder where
  size := hsize
  idle := fun h => by
    rw [hpending] at h
    exact nomatch h
  escape := fun _ _ => hstate
  csi := fun _ _ h => by
    rw [hpending] at h
    exact nomatch h

/-- A decoder in a parameter phase. -/
private theorem of_csi {restarted : List Attempt} {params : Params}
    (hsize : decoder.csi.length = shAnsiCsiMax) (hcollects : Collects params.bytes decoder)
    (hpending : g.pending = some (restarted, .csi params)) : Decodes g decoder where
  size := hsize
  idle := fun h => by
    rw [hpending] at h
    exact nomatch h
  escape := fun _ h => by
    rw [hpending] at h
    exact nomatch h
  csi := fun _ _ h => by
    rw [hpending] at h
    cases h
    exact hcollects

/-- **A byte** keeps the decoder in step, and its output is that of the segmentation.

**Proof sketch.** ESC opens or restarts a sequence in every state. Any other byte is taken by the
state that the pending attempt stands for: text, the byte behind ESC, or a byte of the control
sequence, which is a parameter, its end, or not allowed there. -/
theorem feed (h : Decodes g decoder) (b : Byte) :
    Decodes (g.push b) (shAnsiFeed decoder b).1 ∧
      (g.push b).outputs =
        g.outputs ++
          [((shAnsiFeed decoder b).2, shAnsiLastByteConsumed (shAnsiFeed decoder b).1)] := by
  have hsize := (shAnsiFeed_csi_length decoder b).trans h.size
  obtain ⟨segments, pending⟩ := g
  by_cases hesc : b = esc
  · -- ESC opens or restarts a sequence in every state
    subst hesc
    obtain ⟨hevent, hconsumed, hstate⟩ := shAnsiFeed_esc decoder
    have hpush := Segmentation.foldl_attempt segments pending .escape
    rw [Attempt.bytes, List.foldl_cons, List.foldl_nil] at hpush
    rw [hpush, shAnsiLastByteConsumed, hevent, hconsumed]
    refine ⟨.of_escape hsize hstate rfl, ?_⟩
    have hesc : Attempt.escape.bytes = [esc] := rfl
    rcases pending with _ | ⟨restarted, attempt⟩ <;>
      simp [Segmentation.outputs, Segmentation.pendingBytes, hesc]
  · rcases pending with _ | ⟨restarted, _ | params⟩
    · have hpush : Segmentation.push ⟨segments, none⟩ b = ⟨segments ++ [.text b hesc], none⟩ :=
        dif_neg hesc
      obtain ⟨hevent, hconsumed, hstate⟩ := @shAnsiFeed_of_ne_csi decoder b
        (by rw [h.idle rfl]; decide) hesc (fun hs => by rw [h.idle rfl] at hs; exact nomatch hs)
      rw [hpush, shAnsiLastByteConsumed, hevent, hconsumed]
      refine ⟨.of_idle hsize hstate rfl, ?_⟩
      simp [Segmentation.outputs, Segmentation.pendingBytes, Segment.outputs]
    · by_cases hopen : b = chr '['
      · have hpush : Segmentation.push ⟨segments, some (restarted, .escape)⟩ b =
            ⟨segments, some (restarted, .csi .empty)⟩ := (dif_neg hesc).trans (dif_pos hopen)
        have hfeed : shAnsiFeed decoder b = ({ decoder with
            lastByteConsumed := true, state := .csi, csiLength := 0, csiOverflow := false },
          .none) := by
          simp [shAnsiFeed, h.escape restarted rfl, hopen]
        rw [hfeed] at hsize
        rw [hpush, hfeed]
        refine ⟨.of_csi hsize ⟨rfl, rfl, rfl, rfl⟩ rfl, ?_⟩
        simp [Segmentation.outputs, Segmentation.pendingBytes, Attempt.bytes,
          Params.empty, shAnsiLastByteConsumed]
      · have hpush : Segmentation.push ⟨segments, some (restarted, .escape)⟩ b =
            ⟨segments ++ [.sequence restarted (.left b hesc hopen)], none⟩ :=
          (dif_neg hesc).trans (dif_neg hopen)
        obtain ⟨hevent, hconsumed, hstate⟩ := @shAnsiFeed_of_ne_csi decoder b
          (by rw [h.escape restarted rfl]; decide) hesc fun _ => hopen
        rw [hpush, shAnsiLastByteConsumed, hevent, hconsumed]
        refine ⟨.of_idle hsize hstate rfl, ?_⟩
        simp [Segmentation.outputs, Segmentation.pendingBytes, Segment.outputs,
          Ending.outputs, Attempt.bytes]
    · have hcollects := h.csi restarted params rfl
      by_cases hb : shAnsiIsParameterOrIntermediate b = true
      · have hpush : Segmentation.push ⟨segments, some (restarted, .csi params)⟩ b =
            ⟨segments, some (restarted, .csi (params.push b hb))⟩ :=
          (dif_neg hesc).trans (dif_pos hb)
        obtain ⟨hevent, hconsumed, hnext⟩ := hcollects.push h.size hesc hb
        rw [hpush, shAnsiLastByteConsumed, hevent, hconsumed]
        refine ⟨.of_csi hsize hnext rfl, ?_⟩
        simp [Segmentation.outputs, Segmentation.pendingBytes, Attempt.bytes, Params.push]
      · have hb' : shAnsiIsParameterOrIntermediate b = false := by simpa using hb
        have hpush : Segmentation.push ⟨segments, some (restarted, .csi params)⟩ b =
            ⟨segments ++ [.sequence restarted (.ended params b hesc hb')], none⟩ :=
          (dif_neg hesc).trans (dif_neg hb)
        obtain ⟨hevent, hconsumed, hstate⟩ := hcollects.ended hesc hb'
        rw [hpush, shAnsiLastByteConsumed, hevent, hconsumed]
        refine ⟨.of_idle hsize hstate rfl, ?_⟩
        simp [Segmentation.outputs, Segmentation.pendingBytes, Segment.outputs,
          Ending.outputs]

/-- A stream keeps the decoder in step. -/
theorem foldl (h : Decodes g decoder) (data : List Byte) :
    Decodes (data.foldl Segmentation.push g) (ansiFed decoder data) ∧
      (data.foldl Segmentation.push g).outputs = g.outputs ++ ansiOutputs decoder data := by
  induction data generalizing g decoder with
  | nil => exact ⟨h, (List.append_nil _).symm⟩
  | cons b data ih =>
    obtain ⟨hnext, houtput⟩ := h.feed b
    obtain ⟨hlast, houtputs⟩ := ih hnext
    refine ⟨hlast, ?_⟩
    rw [List.foldl_cons, houtputs, houtput, List.append_assoc]
    rfl

end Decodes

/-- **The decoder is the unique segmentation.** A decoder that `sh_ansi_init` sets up, whatever its
buffer held before, emits the events of the segmentation of the stream and leaves the same bytes to
the editor; behind every piece it is idle. -/
theorem ansi_decodes_segmentation (decoder : AnsiDecoder)
    (hsize : decoder.csi.length = shAnsiCsiMax)
    (data : List Byte) :
    ∃ g : Segmentation, (g.bytes = data ∧ ∀ g' : Segmentation, g'.bytes = data → g' = g) ∧
      ansiOutputs (shAnsiReset decoder) data = g.outputs ∧
      ∀ front back, g.segments = front ++ back →
        (ansiFed (shAnsiReset decoder) (front.flatMap Segment.bytes)).state = .idle := by
  have hstart : Decodes .empty (shAnsiReset decoder) := .of_idle hsize rfl rfl
  refine ⟨.ofBytes data, ⟨Segmentation.bytes_ofBytes data, ?_⟩, ?_, ?_⟩
  · rintro g rfl
    exact g.foldl_push.symm
  · exact (hstart.foldl data).2.symm
  · intro front back _
    have hfront : Segmentation.ofBytes (front.flatMap Segment.bytes) = ⟨front, none⟩ := by
      have hfound := Segmentation.foldl_push ⟨front, none⟩
      rwa [Segmentation.bytes, Segmentation.pendingBytes, List.append_nil] at hfound
    refine (hstart.foldl (front.flatMap Segment.bytes)).1.idle ?_
    rw [← Segmentation.ofBytes, hfront]

/-- A restarted sequence, a text byte and a sequence of too many parameters. -/
theorem ansi_decodes_segmentation_small :
    ∃ g : Segmentation, (g.bytes = ascii "\x1b[9\x1b[Ax\x1b[123456789~" ∧
        ∀ g' : Segmentation, g'.bytes = ascii "\x1b[9\x1b[Ax\x1b[123456789~" → g' = g) ∧
      ansiOutputs (shAnsiReset shAnsiInit) (ascii "\x1b[9\x1b[Ax\x1b[123456789~") = g.outputs ∧
      ∀ front back, g.segments = front ++ back →
        (ansiFed (shAnsiReset shAnsiInit) (front.flatMap Segment.bytes)).state = .idle :=
  ansi_decodes_segmentation shAnsiInit rfl _

end PortableShell
