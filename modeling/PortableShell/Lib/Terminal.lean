import Mathlib.Data.List.Basic
import Mathlib.Logic.Function.Basic
import Mathlib.Tactic.Common

set_option relaxedAutoImplicit false
set_option autoImplicit false

/-!
# A terminal of unbounded width

The part of an ANSI terminal that a line editor uses: printable bytes, CR, LF, and the control
sequences ESC[2K, ESC[2J, ESC[H and ESC[nD. Rows are as long as what was written into them, so
the width is not bounded, and rows below the last one used are blank.

## Main definitions

* `Terminal` — the rows, the cursor, and the sequence that has begun.
* `Terminal.step`, `Terminal.feed` — what a byte and a block of bytes do.
* `Terminal.Clean` — no sequence has begun and the rows below the cursor are blank.
* `Terminal.Shows` — a clean terminal with a given current row and column.
* `Terminal.Legible` — every cell holds a printable byte.

## Main results

* `Terminal.Shows.print` — printing at the end of the row extends it.
* `Terminal.Clean.erase`, `Terminal.Clean.newline`, `Terminal.Clean.clear` — three ways to a blank
  row.
* `Terminal.Shows.left` — the sequence that moves the cursor back.
* `Terminal.Legible.feed` — whatever is received, the cells stay printable.
-/

namespace Terminal

/-- What the bytes received so far have begun. -/
inductive Mode
  /-- Nothing: the next byte stands for itself. -/
  | ground
  /-- An escape sequence, by its ESC. -/
  | escape
  /-- A control sequence, by ESC[ and the digits of a number. -/
  | control (number : Option ℕ)
  deriving DecidableEq

end Terminal

/-- The state of a terminal. -/
structure Terminal where
  /-- The bytes written into each row, counted from the top. -/
  rows : ℕ → List UInt8
  row : ℕ
  col : ℕ
  mode : Terminal.Mode

namespace Terminal

/-! ## What a byte does -/

/-- A byte that is shown as a character. -/
def Printable (b : UInt8) : Prop := 32 ≤ b ∧ b < 127

instance (b : UInt8) : Decidable (Printable b) := inferInstanceAs (Decidable (_ ∧ _))

/-- A digit. -/
def IsDigit (b : UInt8) : Prop := 0x30 ≤ b ∧ b ≤ 0x39

instance (b : UInt8) : Decidable (IsDigit b) := inferInstanceAs (Decidable (_ ∧ _))

/-- A terminal that has received nothing. -/
def blank : Terminal := ⟨fun _ => [], 0, 0, .ground⟩

/-- A row into which a byte is written at a column. Cells left of it that were never written get
spaces. -/
def writeCell (cells : List UInt8) (col : ℕ) (b : UInt8) : List UInt8 :=
  cells.take col ++ List.replicate (col - cells.length) 32 ++ b :: cells.drop (col + 1)

/-- A printable byte is written at the cursor, which moves on. -/
def put (t : Terminal) (b : UInt8) : Terminal :=
  { t with rows := Function.update t.rows t.row (writeCell (t.rows t.row) t.col b)
           col := t.col + 1 }

/-- What a control sequence does: ESC[2K, ESC[2J, ESC[H and ESC[nD. -/
def control (t : Terminal) (number : Option ℕ) (final : UInt8) : Terminal :=
  if final = 0x4b ∧ number = some 2 then { t with rows := Function.update t.rows t.row [] }
  else if final = 0x4a ∧ number = some 2 then { t with rows := fun _ => [] }
  else if final = 0x48 ∧ number = none then { t with row := 0, col := 0 }
  else if final = 0x44 then { t with col := t.col - max 1 (number.getD 1) }
  else t

/-- What one byte does. -/
def step (t : Terminal) (b : UInt8) : Terminal :=
  match t.mode with
  | .ground =>
    if b = 0x1b then { t with mode := .escape }
    else if b = 0x0d then { t with col := 0 }
    else if b = 0x0a then { t with row := t.row + 1 }
    else if Printable b then t.put b
    else t
  | .escape => { t with mode := if b = 0x5b then .control none else .ground }
  | .control number =>
    if IsDigit b then { t with mode := .control (some (10 * number.getD 0 + (b.toNat - 0x30))) }
    else { t.control number b with mode := .ground }

/-- What a block of bytes does. -/
def feed (t : Terminal) (data : List UInt8) : Terminal := data.foldl step t

@[simp] theorem feed_nil (t : Terminal) : t.feed [] = t := rfl

@[simp] theorem feed_cons (t : Terminal) (b : UInt8) (data : List UInt8) :
    t.feed (b :: data) = (t.step b).feed data := rfl

/-- Two blocks, one after the other. -/
theorem feed_append (t : Terminal) (a b : List UInt8) : t.feed (a ++ b) = (t.feed a).feed b :=
  List.foldl_append

/-! ## The sequences of a line editor -/

/-- CR and LF. -/
def crlf : List UInt8 := [0x0d, 0x0a]

/-- CR and ESC[2K. -/
def eraseSequence : List UInt8 := [0x0d, 0x1b, 0x5b, 0x32, 0x4b]

/-- ESC[2J and ESC[H. -/
def clearSequence : List UInt8 := [0x1b, 0x5b, 0x32, 0x4a, 0x1b, 0x5b, 0x48]

/-- The decimal digits of a number. -/
def digits (n : ℕ) : List UInt8 := (Nat.toDigits 10 n).map fun c => UInt8.ofNat c.toNat

/-- ESC[nD. -/
def leftSequence (n : ℕ) : List UInt8 := [0x1b, 0x5b] ++ digits n ++ [0x44]

/-- No sequence has begun, and the rows below the cursor are blank. -/
structure Clean (t : Terminal) : Prop where
  ground : t.mode = .ground
  below : ∀ i > t.row, t.rows i = []

/-- A clean terminal with a given current row and cursor column. -/
structure Shows (t : Terminal) (text : List UInt8) (col : ℕ) : Prop extends Clean t where
  current : t.rows t.row = text
  column : t.col = col

/-- A terminal that has received nothing shows nothing. -/
theorem shows_blank : blank.Shows [] 0 where
  ground := rfl
  below := fun _ _ => rfl
  current := rfl
  column := rfl

variable {t : Terminal} {text : List UInt8} {col : ℕ}

/-- A printable byte is none of the control bytes. -/
theorem step_printable {b : UInt8} (hground : t.mode = .ground) (hb : Printable b) :
    t.step b = t.put b := by
  have hne : ∀ c : UInt8, ¬Printable c → b ≠ c := fun c hc heq => hc (heq ▸ hb)
  unfold step
  rw [hground]
  dsimp only
  rw [if_neg (hne _ (by decide)), if_neg (hne _ (by decide)), if_neg (hne _ (by decide)), if_pos hb]

/-- Writing a byte keeps a terminal clean. -/
theorem Clean.put (h : t.Clean) (b : UInt8) : (t.put b).Clean where
  ground := h.ground
  below := fun i hi => (Function.update_of_ne (Nat.ne_of_gt hi) _ _).trans (h.below i hi)

/-- **Printing** keeps a terminal clean. -/
theorem Clean.print (h : t.Clean) {data : List UInt8} (hdata : ∀ b ∈ data, Printable b) :
    (t.feed data).Clean := by
  induction data generalizing t with
  | nil => exact h
  | cons b data ih =>
    rw [feed_cons, step_printable h.ground (hdata b List.mem_cons_self)]
    exact ih (h.put b) fun c hc => hdata c (List.mem_cons_of_mem b hc)

/-- A byte written behind the last cell of a row. -/
theorem writeCell_length (cells : List UInt8) (b : UInt8) :
    writeCell cells cells.length b = cells ++ [b] := by
  simp [writeCell]

/-- Writing a byte behind the row extends it. -/
theorem Shows.put (h : t.Shows text text.length) (b : UInt8) :
    (t.put b).Shows (text ++ [b]) (text ++ [b]).length where
  toClean := h.toClean.put b
  current := by
    refine (Function.update_self t.row (writeCell (t.rows t.row) t.col b) t.rows).trans ?_
    rw [h.current, h.column, writeCell_length]
  column := by
    rw [List.length_append, List.length_singleton, ← h.column]
    rfl

/-- **Printing behind the row** extends it. -/
theorem Shows.print (h : t.Shows text text.length) {data : List UInt8}
    (hdata : ∀ b ∈ data, Printable b) :
    (t.feed data).Shows (text ++ data) (text ++ data).length := by
  induction data generalizing t text with
  | nil =>
    rw [List.append_nil]
    exact h
  | cons b data ih =>
    rw [feed_cons, step_printable h.ground (hdata b List.mem_cons_self), List.append_cons]
    exact ih (h.put b) fun c hc => hdata c (List.mem_cons_of_mem b hc)

/-- **CR LF** leads to a blank row. -/
theorem Clean.newline (h : t.Clean) : (t.feed crlf).Shows [] 0 := by
  have hfeed : t.feed crlf = { t with row := t.row + 1, col := 0 } := by
    simp [crlf, step, h.ground]
  rw [hfeed]
  exact ⟨⟨h.ground, fun i hi => h.below i (Nat.lt_of_succ_lt hi)⟩,
    h.below _ t.row.lt_succ_self, rfl⟩

/-- **CR ESC[2K** blanks the current row. -/
theorem Clean.erase (h : t.Clean) : (t.feed eraseSequence).Shows [] 0 := by
  have hfeed : t.feed eraseSequence =
      { t with rows := Function.update t.rows t.row [], col := 0 } := by
    simp [eraseSequence, step, control, IsDigit, h.ground]
  rw [hfeed]
  exact ⟨⟨h.ground, fun i hi => (Function.update_of_ne (Nat.ne_of_gt hi) _ _).trans (h.below i hi)⟩,
    Function.update_self _ _ _, rfl⟩

/-- **ESC[2J ESC[H** blanks all rows and moves to the first. -/
theorem Clean.clear (h : t.Clean) : (t.feed clearSequence).Shows [] 0 := by
  have hfeed : t.feed clearSequence = { t with rows := fun _ => [], row := 0, col := 0 } := by
    simp [clearSequence, step, control, IsDigit, h.ground]
  rw [hfeed]
  exact ⟨⟨h.ground, fun _ _ => rfl⟩, rfl, rfl⟩

/-! ## The number of a control sequence -/

/-- The byte of a decimal digit is a digit of the same value. -/
theorem isDigit_ofNat {c : Char} (hc : c.isDigit = true) :
    IsDigit (UInt8.ofNat c.toNat) ∧ (UInt8.ofNat c.toNat).toNat = c.toNat := by
  obtain ⟨hlow, hhigh⟩ : 48 ≤ c.toNat ∧ c.toNat ≤ 57 := by
    simpa [Char.isDigit, UInt32.le_iff_toNat_le] using hc
  have hvalue : (UInt8.ofNat c.toNat).toNat = c.toNat :=
    UInt8.toNat_ofNat_of_lt' (show c.toNat < 256 by omega)
  refine ⟨⟨?_, ?_⟩, hvalue⟩
  · rw [UInt8.le_iff_toNat_le, hvalue]
    exact hlow
  · rw [UInt8.le_iff_toNat_le, hvalue]
    exact hhigh

/-- A digit extends the number of a control sequence. -/
theorem step_digit {number : Option ℕ} (hmode : t.mode = .control number) {c : Char}
    (hc : c.isDigit = true) :
    t.step (UInt8.ofNat c.toNat) =
      { t with mode := .control (some (10 * number.getD 0 + (c.toNat - 48))) } := by
  obtain ⟨hdigit, hvalue⟩ := isDigit_ofNat hc
  unfold step
  rw [hmode]
  dsimp only
  rw [if_pos hdigit, hvalue]

/-- Digits extend the number that has begun. -/
theorem feed_digits {cs : List Char} (hcs : ∀ c ∈ cs, c.isDigit = true) {n : ℕ}
    (hmode : t.mode = .control (some n)) :
    t.feed (cs.map fun c => UInt8.ofNat c.toNat) =
      { t with mode := .control (some (Nat.ofDigitChars 10 cs n)) } := by
  induction cs generalizing t n with
  | nil =>
    rw [Nat.ofDigitChars_nil, ← hmode]
    rfl
  | cons c cs ih =>
    rw [List.map_cons, feed_cons, step_digit hmode (hcs c List.mem_cons_self),
      Nat.ofDigitChars_cons]
    exact ih (fun d hd => hcs d (List.mem_cons_of_mem c hd)) rfl

/-- The digits of a number are read back as the number. -/
theorem feed_toDigits (n : ℕ) (hmode : t.mode = .control none) :
    t.feed (digits n) = { t with mode := .control (some n) } := by
  have hdigits : ∀ c ∈ Nat.toDigits 10 n, c.isDigit = true :=
    fun c hc => Nat.isDigit_of_mem_toDigits (by decide) (by decide) hc
  have hvalue : Nat.ofDigitChars 10 (Nat.toDigits 10 n) 0 = n := Nat.ofDigitChars_ten_toDigits
  unfold digits
  cases hcs : Nat.toDigits 10 n with
  | nil => exact absurd hcs Nat.toDigits_ne_nil
  | cons c cs =>
    rw [hcs] at hdigits hvalue
    rw [Nat.ofDigitChars_cons] at hvalue
    rw [List.map_cons, feed_cons, step_digit hmode (hdigits c List.mem_cons_self),
      feed_digits (fun d hd => hdigits d (List.mem_cons_of_mem c hd)) rfl]
    exact congrArg (fun m => { t with mode := .control (some m) }) hvalue

/-- **ESC[nD** moves the cursor back. -/
theorem Shows.left (h : t.Shows text col) {n : ℕ} (hn : 0 < n) :
    (t.feed (leftSequence n)).Shows text (col - n) := by
  have hopen : t.feed [0x1b, 0x5b] = { t with mode := .control none } := by
    simp [step, h.ground]
  have hclose : ({ t with mode := .control (some n) } : Terminal).feed [0x44] =
      { t with col := t.col - n, mode := .ground } := by
    simp [step, control, IsDigit, Nat.max_eq_right (Nat.succ_le_of_lt hn)]
  have hfeed : t.feed (leftSequence n) = { t with col := t.col - n, mode := .ground } := by
    rw [leftSequence, feed_append, feed_append, hopen, feed_toDigits n rfl, hclose]
  rw [hfeed]
  exact ⟨⟨rfl, h.below⟩, h.current, congrArg (· - n) h.column⟩

/-! ## The cells -/

/-- Every cell holds a printable byte. -/
def Legible (t : Terminal) : Prop := ∀ i, ∀ b ∈ t.rows i, Printable b

/-- Nothing is illegible on a blank terminal. -/
theorem legible_blank : blank.Legible := fun _ _ hb => absurd hb List.not_mem_nil

/-- Changing a row to one of printable bytes keeps a terminal legible. -/
theorem Legible.update (h : t.Legible) {cells : List UInt8} (hcells : ∀ b ∈ cells, Printable b)
    (row : ℕ) {i : ℕ} : ∀ b ∈ Function.update t.rows row cells i, Printable b := by
  by_cases hi : i = row
  · rw [hi, Function.update_self]
    exact hcells
  · rw [Function.update_of_ne hi]
    exact h i

/-- Writing a printable byte keeps the cells of a row printable. -/
theorem printable_writeCell {cells : List UInt8} (h : ∀ b ∈ cells, Printable b) (col : ℕ)
    {c : UInt8} (hc : Printable c) : ∀ b ∈ writeCell cells col c, Printable b := by
  intro b hb
  rw [writeCell, List.mem_append, List.mem_append, List.mem_cons] at hb
  rcases hb with (hb | hb) | hb | hb
  · exact h b (List.mem_of_mem_take hb)
  · rw [(List.mem_replicate.mp hb).2]
    decide
  · exact hb ▸ hc
  · exact h b (List.mem_of_mem_drop hb)

/-- One byte keeps a terminal legible.

**Proof sketch.** One case per mode and meaning of the byte. Only a printable byte is put into a
cell, and everything else moves the cursor or erases. -/
theorem Legible.step (h : t.Legible) (b : UInt8) : (t.step b).Legible := by
  have hnone : ∀ c ∈ ([] : List UInt8), Printable c := fun _ hc => absurd hc List.not_mem_nil
  unfold Terminal.step
  cases t.mode with
  | ground =>
    dsimp only
    split_ifs with _ _ _ hb
    · exact h
    · exact h
    · exact h
    · exact fun i => h.update (printable_writeCell (h t.row) t.col hb) t.row
    · exact h
  | escape => exact h
  | control number =>
    dsimp only
    split_ifs
    · exact h
    · intro i
      unfold control
      split_ifs
      · exact h.update hnone t.row
      · exact hnone
      · exact h i
      · exact h i
      · exact h i

/-- **The cells** stay printable. -/
theorem Legible.feed (h : t.Legible) (data : List UInt8) : (t.feed data).Legible := by
  induction data generalizing t with
  | nil => exact h
  | cons b data ih => exact ih (h.step b)

end Terminal
