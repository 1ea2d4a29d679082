import Mathlib.Tactic.Common

set_option relaxedAutoImplicit false
set_option autoImplicit false

/-!
# UTF-16

A character outside the basic plane is sent as two units, a high and a low surrogate. A decoder that
gets one unit at a time keeps the high surrogate until the low one arrives.

## Main definitions

* `Utf16.encode` — the units of a character.
* `Utf16.complete`, `Utf16.next` — what a decoder makes of a unit, and what it keeps.
* `Utf16.decode` — the characters of a stream of units.

## Main results

* `Utf16.encode_of_complete` — a completed character has the units that were seen.
* `Utf16.decode_encode` — a text is decoded to itself.
-/

namespace Utf16

/-- A high surrogate. -/
def IsHigh (u : UInt16) : Prop := 0xd800 ≤ u ∧ u ≤ 0xdbff
  deriving Decidable

/-- A low surrogate. -/
def IsLow (u : UInt16) : Prop := 0xdc00 ≤ u ∧ u ≤ 0xdfff
  deriving Decidable

/-- A high surrogate that waits for its low surrogate. -/
abbrev High : Type := {u : UInt16 // IsHigh u}

/-- The high surrogate of a character outside the basic plane. -/
def highUnit (c : Char) : UInt16 := UInt16.ofNat (0xd800 + (c.toNat - 0x10000) / 0x400)

/-- Its low surrogate. -/
def lowUnit (c : Char) : UInt16 := UInt16.ofNat (0xdc00 + (c.toNat - 0x10000) % 0x400)

/-- The units of a character. -/
def encode (c : Char) : List UInt16 :=
  if c.toNat < 0x10000 then [UInt16.ofNat c.toNat] else [highUnit c, lowUnit c]

/-- The character of a pair of surrogates. -/
def pair (high low : UInt16) : Char :=
  Char.ofNat (0x10000 + (high.toNat - 0xd800) * 0x400 + (low.toNat - 0xdc00))

/-- The character that a unit completes, if any. -/
def complete (pending : Option High) (u : UInt16) : Option Char :=
  if IsHigh u then none
  else if IsLow u then pending.map fun high => pair high.1 u
  else some (Char.ofNat u.toNat)

/-- What waits for a low surrogate behind a unit. -/
def next (u : UInt16) : Option High := if h : IsHigh u then some ⟨u, h⟩ else none

/-- The characters of a stream of units. Surrogates without their other half are dropped. -/
def decode : Option High → List UInt16 → List Char
  | _, [] => []
  | pending, u :: rest => (complete pending u).toList ++ decode (next u) rest

/-! ## Ranges -/

/-- The range of high surrogates. -/
theorem isHigh_iff {u : UInt16} : IsHigh u ↔ 0xd800 ≤ u.toNat ∧ u.toNat ≤ 0xdbff := Iff.rfl

/-- The range of low surrogates. -/
theorem isLow_iff {u : UInt16} : IsLow u ↔ 0xdc00 ≤ u.toNat ∧ u.toNat ≤ 0xdfff := Iff.rfl

/-- A low surrogate is not a high one. -/
theorem IsLow.not_isHigh {u : UInt16} (h : IsLow u) : ¬IsHigh u := by
  rw [isHigh_iff]
  rw [isLow_iff] at h
  omega

/-- The code of a character from a code point. -/
theorem toNat_ofNat {n : ℕ} (h : n.isValidChar) : (Char.ofNat n).toNat = n := by
  rw [Char.ofNat, dif_pos h]
  rfl

/-- The code points. -/
theorem isValidChar_toNat (c : Char) : c.toNat < 0xd800 ∨ 0xdfff < c.toNat ∧ c.toNat < 0x110000 :=
  c.valid

/-- The unit of a character of the basic plane. -/
theorem toNat_unit {c : Char} (h : c.toNat < 0x10000) : (UInt16.ofNat c.toNat).toNat = c.toNat :=
  UInt16.toNat_ofNat_of_lt h

/-- The high surrogate of a character. -/
theorem toNat_highUnit (c : Char) :
    (highUnit c).toNat = 0xd800 + (c.toNat - 0x10000) / 0x400 := by
  have hvalid := isValidChar_toNat c
  refine UInt16.toNat_ofNat_of_lt ?_
  show _ < 65536
  omega

/-- The low surrogate of a character. -/
theorem toNat_lowUnit (c : Char) : (lowUnit c).toNat = 0xdc00 + (c.toNat - 0x10000) % 0x400 := by
  refine UInt16.toNat_ofNat_of_lt ?_
  show _ < 65536
  omega

/-- It is one. -/
theorem isHigh_highUnit (c : Char) : IsHigh (highUnit c) := by
  have hvalid := isValidChar_toNat c
  rw [isHigh_iff, toNat_highUnit]
  omega

/-- It is one. -/
theorem isLow_lowUnit (c : Char) : IsLow (lowUnit c) := by
  rw [isLow_iff, toNat_lowUnit]
  omega

/-! ## Completed characters -/

/-- The code point of a unit that is not a surrogate. -/
theorem toNat_single {u : UInt16} (hhigh : ¬IsHigh u) (hlow : ¬IsLow u) :
    (Char.ofNat u.toNat).toNat = u.toNat := by
  rw [isHigh_iff] at hhigh
  rw [isLow_iff] at hlow
  have hlt : u.toNat < 0x10000 := u.toNat_lt
  refine toNat_ofNat ?_
  unfold Nat.isValidChar
  omega

/-- The unit of a character of the basic plane. -/
theorem encode_single {u : UInt16} (hhigh : ¬IsHigh u) (hlow : ¬IsLow u) :
    encode (Char.ofNat u.toNat) = [u] := by
  have hlt : u.toNat < 0x10000 := u.toNat_lt
  rw [encode, toNat_single hhigh hlow, if_pos hlt, UInt16.ofNat_toNat]

/-- The code point of a pair of surrogates. -/
theorem toNat_pair {high low : UInt16} (hhigh : IsHigh high) (hlow : IsLow low) :
    (pair high low).toNat =
      0x10000 + (high.toNat - 0xd800) * 0x400 + (low.toNat - 0xdc00) := by
  rw [isHigh_iff] at hhigh
  rw [isLow_iff] at hlow
  refine toNat_ofNat ?_
  unfold Nat.isValidChar
  omega

/-- The units of a character outside it. -/
theorem encode_pair {high low : UInt16} (hhigh : IsHigh high) (hlow : IsLow low) :
    encode (pair high low) = [high, low] := by
  have hcode := toNat_pair hhigh hlow
  rw [isHigh_iff] at hhigh
  rw [isLow_iff] at hlow
  have hfirst : highUnit (pair high low) = high := by
    apply UInt16.toNat_inj.mp
    rw [toNat_highUnit, hcode]
    omega
  have hsecond : lowUnit (pair high low) = low := by
    apply UInt16.toNat_inj.mp
    rw [toNat_lowUnit, hcode]
    omega
  rw [encode, if_neg (by omega), hfirst, hsecond]

/-- The character of its surrogates. -/
theorem pair_units {c : Char} (h : ¬c.toNat < 0x10000) : pair (highUnit c) (lowUnit c) = c := by
  have hcode : 0x10000 + ((highUnit c).toNat - 0xd800) * 0x400 + ((lowUnit c).toNat - 0xdc00) =
      c.toNat := by
    rw [toNat_highUnit, toNat_lowUnit]
    omega
  rw [pair, hcode, Char.ofNat_toNat]

/-- **A completed character** has the unit that completes it, behind the high surrogate that waited
if this is a low one. -/
theorem encode_of_complete {pending : Option High} {u : UInt16} {c : Char}
    (h : complete pending u = some c) :
    encode c = if IsLow u then pending.toList.map Subtype.val ++ [u] else [u] := by
  unfold complete at h
  split_ifs at h with hhigh hlow
  · obtain ⟨high, rfl, rfl⟩ := Option.map_eq_some_iff.mp h
    rw [if_pos hlow, encode_pair high.2 hlow]
    rfl
  · obtain rfl := Option.some.inj h
    rw [if_neg hlow, encode_single hhigh hlow]

/-- **NUL** is completed by the unit 0 only. -/
theorem complete_eq_zero_iff {pending : Option High} {u : UInt16} :
    complete pending u = some (Char.ofNat 0) ↔ u = 0 := by
  constructor
  · intro h
    unfold complete at h
    split_ifs at h with hhigh hlow
    · obtain ⟨high, -, hpair⟩ := Option.map_eq_some_iff.mp h
      have hcode := toNat_pair high.2 hlow
      rw [hpair] at hcode
      have hzero : (Char.ofNat 0).toNat = 0 := rfl
      omega
    · have hcode := toNat_single hhigh hlow
      rw [Option.some.inj h] at hcode
      exact UInt16.toNat_inj.mp hcode.symm
  · rintro rfl
    rfl

/-! ## Texts -/

/-- What a decoder makes of the units of a character. -/
theorem decode_encode_append (pending : Option High) (c : Char) (rest : List UInt16) :
    decode pending (encode c ++ rest) = c :: decode none rest := by
  have hvalid := isValidChar_toNat c
  unfold encode
  split_ifs with hbasic
  · have hhigh : ¬IsHigh (UInt16.ofNat c.toNat) := by
      rw [isHigh_iff, toNat_unit hbasic]
      omega
    have hlow : ¬IsLow (UInt16.ofNat c.toNat) := by
      rw [isLow_iff, toNat_unit hbasic]
      omega
    rw [List.singleton_append, decode, complete, if_neg hhigh, if_neg hlow, toNat_unit hbasic,
      Char.ofNat_toNat, next, dif_neg hhigh]
    rfl
  · have hlow := isLow_lowUnit c
    rw [List.cons_append, List.singleton_append, decode, decode, complete,
      if_pos (isHigh_highUnit c), next, dif_pos (isHigh_highUnit c), complete,
      if_neg hlow.not_isHigh, if_pos hlow, Option.map_some, pair_units hbasic, next,
      dif_neg hlow.not_isHigh]
    rfl

/-- **A text** is decoded to itself, whatever waited before it. -/
theorem decode_encode (pending : Option High) (text : List Char) :
    decode pending (text.flatMap encode) = text := by
  induction text generalizing pending with
  | nil => rfl
  | cons c text ih => rw [List.flatMap_cons, decode_encode_append, ih]

end Utf16
