import PortableShell.Steps

set_option relaxedAutoImplicit false
set_option autoImplicit false

/-!
# Well-formed shells

The fields of a shell that have to fit each other: the line with its length and cursor, the
history ring with the history position, the draft, the decoder. Every elementary step keeps them
fitting.

## Main definitions

* `PortableShell.Shell.Wf` — the invariant.

## Main results

* `PortableShell.Shell.Wf.text_insertAt`, `text_deleteRange`, … — the text of the line behind an
  update.
* `PortableShell.Shell.Wf.step` — an elementary step keeps the invariant.
-/

namespace PortableShell

/-- Wiping the argument vector leaves the history alone. -/
theorem Shell.sameHistory_wipeArgv (s : Shell) : SameHistory s s.wipeArgv := by
  unfold Shell.wipeArgv
  split_ifs <;> exact ⟨rfl, rfl, rfl, rfl, rfl⟩

/-- The invariant of a shell. -/
structure Shell.Wf (s : Shell) : Prop where
  /-- The line buffer holds a string of `lineLen` bytes. -/
  line : ∃ text, Mem.Holds 0 s.line text ∧ text.length = s.lineLen
  cursor_le : s.cursor ≤ s.lineLen
  lineLen_lt : s.lineLen < s.lineCapacity
  capacity_le : s.lineCapacity ≤ shMaxLineLen + 1
  line_size : s.lineCapacity ≤ s.line.length
  argv_pos : s.argvCapacity ≠ 0
  argv_le : s.argvCapacity ≤ shMaxArgc
  argv_size : s.argvCapacity ≤ s.argv.length
  history : HistoryWf s
  /-- A slot takes every line. -/
  slot_size : s.historyDepth ≠ 0 → s.lineCapacity ≤ s.historySlotSize
  view_ge : -1 ≤ s.historyView
  view_lt : s.historyView < s.historyCount
  /-- With the history enabled there is a draft that holds a string. -/
  draft : s.historyDepth ≠ 0 →
    ∃ d, s.draft = some d ∧ s.lineCapacity ≤ d.length ∧ 0 ∈ d.take s.lineCapacity
  csi_le : s.ansi.csiLength ≤ shAnsiCsiMax

/-- The text is what the line buffer holds. -/
private theorem Shell.text_eq_of_holds {s : Shell} {text : List Byte} (h : Mem.Holds 0 s.line text)
    (hlen : s.lineLen = text.length) : s.text = text := by
  rw [Shell.text, hlen, h.take_eq]

namespace Shell.Wf

variable {s : Shell}

/-! ## The text of the line -/

/-- The line buffer holds the text. -/
theorem holds_text (h : s.Wf) : Mem.Holds 0 s.line s.text := by
  obtain ⟨text, hh, hlen⟩ := h.line
  rwa [Shell.text_eq_of_holds hh hlen.symm]

/-- The text has the declared length. -/
theorem length_text (h : s.Wf) : s.text.length = s.lineLen := by
  rw [Shell.text, List.length_take, Nat.min_eq_left]
  have := h.lineLen_lt
  have := h.line_size
  omega

/-- The text holds no NUL. -/
theorem zero_not_mem_text (h : s.Wf) : 0 ∉ s.text := h.holds_text.not_mem

/-- The contents of the line buffer as a string. -/
theorem lineStr_bytes (h : s.Wf) : s.lineStr.bytes = s.text := by
  obtain ⟨rest, hr⟩ := h.holds_text.exists_rest
  rw [Shell.lineStr, CStr.at_bytes, List.drop_zero, hr]
  exact Mem.upto_append h.zero_not_mem_text

/-- A byte of the text. -/
theorem getElem?_text (h : s.Wf) {i : ℕ} (hi : i < s.lineLen) :
    s.text[i]? = some (cell s.line i) := by
  have hlt := h.lineLen_lt
  have hsize := h.line_size
  rw [text, List.getElem?_take_of_lt hi, cell, List.getD_eq_getElem?_getD,
    List.getElem?_eq_getElem (by omega)]
  rfl

/-- The text, split at a position. -/
private theorem text_split (h : s.Wf) {i : ℕ} (hi : i ≤ s.lineLen) :
    ∃ a b, s.text = a ++ b ∧ a.length = i ∧ b.length = s.lineLen - i := by
  refine ⟨s.text.take i, s.text.drop i, (List.take_append_drop _ _).symm, ?_, ?_⟩
  · rw [List.length_take, h.length_text]
    omega
  · rw [List.length_drop, h.length_text]

/-- The text, split at two positions. -/
private theorem text_split₂ (h : s.Wf) {i j : ℕ} (hij : i ≤ j) (hj : j ≤ s.lineLen) :
    ∃ a x b, s.text = a ++ x ++ b ∧ a.length = i ∧ x.length = j - i ∧ b.length = s.lineLen - j := by
  obtain ⟨ax, b, hab, hax, hb⟩ := h.text_split hj
  refine ⟨ax.take i, ax.drop i, b, by rw [List.take_append_drop, hab], ?_, ?_, hb⟩
  · rw [List.length_take, hax]
    omega
  · rw [List.length_drop, hax]

/-! ## Changing parts of the shell -/

/-- Leaving the line buffer to an edit that keeps the string well formed. -/
theorem edited (h : s.Wf) {line text : List Byte} (cursor : ℕ) (hl : Mem.Holds 0 line text)
    (hsize : line.length = s.line.length) (hcursor : cursor ≤ text.length)
    (hlen : text.length < s.lineCapacity) :
    Shell.Wf { s with line := line, lineLen := text.length, cursor := cursor, historyView := -1 } :=
  { h with
    line := ⟨text, hl, rfl⟩
    cursor_le := hcursor
    lineLen_lt := hlen
    line_size := by
      have := h.line_size
      dsimp only
      omega
    history := h.history.frame ⟨rfl, rfl, rfl, rfl, rfl⟩
    view_ge := by simp
    view_lt := by
      dsimp only
      omega }

/-- The line behind an inserted byte. -/
private theorem holds_insertAt (h : s.Wf) {c : Byte} (hc : c ≠ 0)
    (hfit : s.lineLen + 1 < s.lineCapacity) :
    Mem.Holds 0 (s.insertAt c).line (s.text.take s.cursor ++ [c] ++ s.text.drop s.cursor) := by
  obtain ⟨a, b, hab, ha, hb⟩ := h.text_split h.cursor_le
  have hhold := h.holds_text
  have hsize := h.line_size
  have hcursor := h.cursor_le
  rw [hab] at hhold
  have hins := hhold.insert hc (by omega)
  rw [ha, hb] at hins
  rw [hab, List.take_left' ha, List.drop_left' ha]
  exact hins

/-- Inserting a byte where there is room. -/
theorem insertAt (h : s.Wf) {c : Byte} (hc : c ≠ 0) (hfit : s.lineLen + 1 < s.lineCapacity) :
    (s.insertAt c).Wf := by
  have hcursor := h.cursor_le
  have htext := h.length_text
  have hlen : (s.text.take s.cursor ++ [c] ++ s.text.drop s.cursor).length = s.lineLen + 1 := by
    simp only [List.length_append, List.length_singleton, List.length_take, List.length_drop]
    omega
  have hw := h.edited (s.cursor + 1) (h.holds_insertAt hc hfit)
    (by simp [Shell.insertAt]) (by omega) (by omega)
  rw [hlen] at hw
  exact hw

/-- The text with an inserted byte. -/
theorem text_insertAt (h : s.Wf) {c : Byte} (hc : c ≠ 0) (hfit : s.lineLen + 1 < s.lineCapacity) :
    (s.insertAt c).text = s.text.take s.cursor ++ [c] ++ s.text.drop s.cursor := by
  refine Shell.text_eq_of_holds (h.holds_insertAt hc hfit) ?_
  have hcursor := h.cursor_le
  have htext := h.length_text
  simp only [List.length_append, List.length_singleton, List.length_take, List.length_drop,
    Shell.insertAt]
  omega

/-- The line behind the removal of a part of it. -/
private theorem holds_deleteRange (h : s.Wf) {start stop : ℕ} (hs : start ≤ stop)
    (hstop : stop ≤ s.lineLen) :
    Mem.Holds 0 (s.deleteRange start stop).line (s.text.take start ++ s.text.drop stop) := by
  obtain ⟨a, x, b, hab, ha, hx, hb⟩ := h.text_split₂ hs hstop
  have hhold := h.holds_text
  rw [hab] at hhold
  have hdel := hhold.delete
  have hax : (a ++ x).length = stop := by
    rw [List.length_append]
    omega
  rw [ha, hx, hb, Nat.add_sub_cancel' hs] at hdel
  rw [hab, List.drop_left' hax, List.append_assoc, List.take_left' ha]
  exact hdel

/-- The length of the text without a part of it. -/
private theorem length_take_drop (h : s.Wf) {start stop : ℕ} (hs : start ≤ stop)
    (hstop : stop ≤ s.lineLen) :
    (s.text.take start ++ s.text.drop stop).length = s.lineLen - (stop - start) := by
  have htext := h.length_text
  rw [List.length_append, List.length_take, List.length_drop]
  omega

/-- Removing a part of the line. -/
theorem deleteRange (h : s.Wf) {start stop : ℕ} (hs : start ≤ stop) (hstop : stop ≤ s.lineLen) :
    (s.deleteRange start stop).Wf := by
  have hlt := h.lineLen_lt
  have hlen := h.length_take_drop hs hstop
  have hw := h.edited start (h.holds_deleteRange hs hstop) (by simp [Shell.deleteRange]) (by omega)
    (by omega)
  rw [hlen] at hw
  exact hw

/-- The text without a part of it. -/
theorem text_deleteRange (h : s.Wf) {start stop : ℕ} (hs : start ≤ stop)
    (hstop : stop ≤ s.lineLen) :
    (s.deleteRange start stop).text = s.text.take start ++ s.text.drop stop :=
  Shell.text_eq_of_holds (h.holds_deleteRange hs hstop) (h.length_take_drop hs hstop).symm

/-- The line behind the replacement of a part of it.

**Proof sketch.** The text is cut into what is in front of the range, the range and what follows.
The rest is moved and the replacement is stored in front of it; with one blank the two stores are
one. -/
theorem holds_replaceRange (h : s.Wf) {start stop space : ℕ} (replacement : CStr)
    (hs : start ≤ stop) (hstop : stop ≤ s.lineLen) (hspace : space ≤ 1)
    (hfit : start + replacement.length + space + (s.lineLen - stop) < s.lineCapacity) :
    ∃ a x b, s.text = a ++ x ++ b ∧ a.length = start ∧ b.length = s.lineLen - stop ∧
      Mem.Holds 0 (s.replaceRange start stop replacement space).line
        (a ++ (replacement.bytes ++ List.replicate space (chr ' ')) ++ b) := by
  obtain ⟨a, x, b, hab, ha, hx, hb⟩ := h.text_split₂ hs hstop
  refine ⟨a, x, b, hab, ha, hb, ?_⟩
  have hhold := h.holds_text
  have hsize := h.line_size
  rw [hab] at hhold
  -- the replacement with the space behind it
  set y := replacement.bytes ++ List.replicate space (chr ' ') with hy
  have hylen : y.length = replacement.length + space := by simp [hy, CStr.length]
  have hyz : 0 ∉ y := by
    rw [hy, List.mem_append, not_or]
    refine ⟨replacement.nonzero, fun hm => ?_⟩
    exact absurd (List.eq_of_mem_replicate hm) (by decide)
  have hrep := hhold.replace hyz (by omega)
  have hstop' : a.length + x.length = stop := by omega
  rw [hstop', ha, hb, hylen, ← Nat.add_assoc] at hrep
  have hline : (s.replaceRange start stop replacement space).line =
      Mem.store (Mem.move s.line (start + replacement.length + space) stop (s.lineLen - stop + 1))
        start y := by
    rw [Shell.replaceRange]
    dsimp only
    have hle : start + replacement.bytes.length + (List.replicate space (chr ' ')).length ≤
        (Mem.move s.line (start + replacement.length + space) stop
          (s.lineLen - stop + 1)).length := by
      rw [Mem.length_move, List.length_replicate]
      rw [CStr.length] at hfit
      omega
    have hstore := Mem.store_store _ hle
    rw [← hy] at hstore
    rcases Nat.le_one_iff_eq_zero_or_eq_one.mp hspace with h0 | h1
    · rw [if_neg (by simpa using h0), hy, h0]
      simp
    · rw [if_pos (by omega), ← hstore, h1]
      rfl
  rw [hline]
  exact hrep

/-- Replacing a part of the line. -/
theorem replaceRange (h : s.Wf) {start stop space : ℕ} (replacement : CStr) (hs : start ≤ stop)
    (hstop : stop ≤ s.lineLen) (hspace : space ≤ 1)
    (hfit : start + replacement.length + space + (s.lineLen - stop) < s.lineCapacity) :
    (s.replaceRange start stop replacement space).Wf := by
  obtain ⟨a, x, b, -, ha, hb, hhold⟩ := h.holds_replaceRange replacement hs hstop hspace hfit
  have hlen : (a ++ (replacement.bytes ++ List.replicate space (chr ' ')) ++ b).length =
      start + replacement.length + space + (s.lineLen - stop) := by
    simp only [List.length_append, List.length_replicate, CStr.length]
    omega
  have hsize : (s.replaceRange start stop replacement space).line.length = s.line.length := by
    rw [Shell.replaceRange]
    dsimp only
    split_ifs <;> simp
  have hw := h.edited (start + replacement.length + space) hhold hsize (by omega) (by omega)
  rw [hlen] at hw
  exact hw

/-- The text with a part of it replaced. -/
theorem text_replaceRange (h : s.Wf) {start stop space : ℕ} (replacement : CStr)
    (hs : start ≤ stop) (hstop : stop ≤ s.lineLen) (hspace : space ≤ 1)
    (hfit : start + replacement.length + space + (s.lineLen - stop) < s.lineCapacity) :
    (s.replaceRange start stop replacement space).text =
      s.text.take start ++ (replacement.bytes ++ List.replicate space (chr ' ')) ++
        s.text.drop stop := by
  obtain ⟨a, x, b, hab, ha, hb, hhold⟩ := h.holds_replaceRange replacement hs hstop hspace hfit
  have htext := h.length_text
  have hlen : (s.replaceRange start stop replacement space).lineLen =
      (a ++ (replacement.bytes ++ List.replicate space (chr ' ')) ++ b).length := by
    simp only [List.length_append, List.length_replicate, Shell.replaceRange, CStr.length]
    omega
  have hax : (a ++ x).length = stop := by
    rw [hab, List.length_append] at htext
    omega
  rw [Shell.text_eq_of_holds hhold hlen, hab, List.drop_left' hax, List.append_assoc a x,
    List.take_left' ha]

/-- Emptying the line. -/
theorem eraseLine (h : s.Wf) : s.eraseLine.Wf := by
  have hlt := h.lineLen_lt
  have hsize := h.line_size
  have hhold : Mem.Holds 0 s.eraseLine.line [] := by
    rw [Shell.eraseLine]
    dsimp only
    split_ifs
    · exact Mem.holds_fill (by omega) hsize
    · exact Mem.holds_store [] List.not_mem_nil (by simp only [List.length_nil]; omega)
  have hlen : s.eraseLine.line.length = s.line.length := by
    rw [Shell.eraseLine]
    dsimp only
    split_ifs <;> simp
  exact h.edited 0 hhold hlen le_rfl (by simp only [List.length_nil]; omega)

/-- An emptied line has no text. -/
theorem text_eraseLine (s : Shell) : s.eraseLine.text = [] := List.take_zero

/-- The line replaced by a string, cut to the capacity. -/
private theorem holds_setLine (h : s.Wf) (t : CStr) :
    Mem.Holds 0 (s.setLine t).line (t.bytes.take (s.lineCapacity - 1)) ∧
      (s.setLine t).lineLen = (t.bytes.take (s.lineCapacity - 1)).length := by
  have hlt := h.lineLen_lt
  have hsize := h.line_size
  have hlen : (if t.length ≥ s.lineCapacity then s.lineCapacity - 1 else t.length) =
      (t.bytes.take (s.lineCapacity - 1)).length := by
    rw [List.length_take, CStr.length]
    split_ifs <;> omega
  have hle := List.length_take_le (s.lineCapacity - 1) t.bytes
  have htake : t.bytes.take (t.bytes.take (s.lineCapacity - 1)).length =
      t.bytes.take (s.lineCapacity - 1) := by
    rw [List.length_take, ← List.take_take, List.take_length]
  have hstore := Mem.store_store (m := s.line) (a := t.bytes.take (s.lineCapacity - 1)) (b := [0]) 0
    (by rw [List.length_singleton]; omega)
  rw [Nat.zero_add] at hstore
  refine ⟨?_, hlen⟩
  rw [Shell.setLine]
  dsimp only
  rw [hlen, htake, hstore]
  exact Mem.holds_store _ (t.take (s.lineCapacity - 1)).nonzero (by omega)

/-- Replacing the whole line by a string, cut to the capacity. -/
theorem setLine (h : s.Wf) (t : CStr) : (s.setLine t).Wf := by
  have hlt := h.lineLen_lt
  have hsize := h.line_size
  obtain ⟨hhold, hlen⟩ := h.holds_setLine t
  have hle := List.length_take_le (s.lineCapacity - 1) t.bytes
  exact { h with
    line := ⟨_, hhold, hlen.symm⟩
    cursor_le := le_rfl
    lineLen_lt := by
      rw [hlen]
      show (t.bytes.take (s.lineCapacity - 1)).length < s.lineCapacity
      omega
    line_size := by
      have hlength : (s.setLine t).line.length = s.line.length := by simp [Shell.setLine]
      rw [hlength]
      exact hsize
    history := h.history.frame ⟨rfl, rfl, rfl, rfl, rfl⟩ }

/-- The text of a line replaced by a string. -/
theorem text_setLine (h : s.Wf) (t : CStr) :
    (s.setLine t).text = t.bytes.take (s.lineCapacity - 1) :=
  Shell.text_eq_of_holds (h.holds_setLine t).1 (h.holds_setLine t).2

/-- A draft for the shell to keep: either there is none and no need of one, or it holds a string. -/
theorem withDraft (h : s.Wf) {f : List Byte → List Byte}
    (hf : ∀ d, s.lineCapacity ≤ d.length → s.lineCapacity ≤ (f d).length ∧
      0 ∈ (f d).take s.lineCapacity) : Shell.Wf { s with draft := s.draft.map f } :=
  { h with
    history := h.history.frame ⟨rfl, rfl, rfl, rfl, rfl⟩
    draft := fun hd => by
      obtain ⟨d, hd, hsize, -⟩ := h.draft hd
      exact ⟨f d, by simp [hd], hf d hsize⟩ }

/-- A block filled with NUL bytes holds one. -/
private theorem zero_mem_take_fill {d : List Byte} {n : ℕ} (hn : 0 < n) (hd : n ≤ d.length) :
    0 ∈ (Mem.fill d 0 0 n).take n :=
  (Mem.holds_fill hn hd).mem_take (by simpa using hn)

/-- Emptying the draft. -/
theorem eraseDraft (h : s.Wf) : s.eraseDraft.Wf := by
  have hlt := h.lineLen_lt
  refine h.withDraft fun d hd => ?_
  split_ifs
  · exact ⟨by simpa using hd, zero_mem_take_fill (by omega) hd⟩
  · refine ⟨by simpa using hd, ?_⟩
    exact (Mem.holds_store [] List.not_mem_nil
      (by simp only [List.length_nil]; omega)).mem_take (by simp only [List.length_nil]; omega)

/-- Wiping the draft. -/
theorem wipeDraft (h : s.Wf) : s.wipeDraft.Wf := by
  have hlt := h.lineLen_lt
  rw [Shell.wipeDraft]
  split_ifs
  · exact h.withDraft fun d hd => ⟨by simpa using hd, zero_mem_take_fill (by omega) hd⟩
  · exact h

/-- Copying the line to the draft. -/
theorem saveDraft (h : s.Wf) : s.saveDraft.Wf := by
  have hlt := h.lineLen_lt
  refine h.withDraft fun d hd => ⟨by simpa using hd, ?_⟩
  rw [if_neg (by omega)]
  have htext := h.length_text
  rw [Shell.text] at htext
  have hstore := Mem.store_store (m := d) (a := s.line.take s.lineLen) (b := [0]) 0
    (by simp only [htext, List.length_singleton]; omega)
  rw [htext, Nat.zero_add] at hstore
  rw [hstore]
  exact (Mem.holds_store _ h.zero_not_mem_text (by rw [h.length_text]; omega)).mem_take
    (by rw [h.length_text]; omega)

/-- A line saved to the draft is what the draft holds. -/
theorem draft_saveDraft (h : s.Wf) (hdepth : s.historyDepth ≠ 0) :
    ∃ d, s.saveDraft.draft = some d ∧ CStr.at d 0 = s.execText := by
  obtain ⟨d, hdraft, hsize, -⟩ := h.draft hdepth
  have hlt := h.lineLen_lt
  have htext := h.length_text
  have hstore := Mem.store_store (m := d) (a := s.text) (b := [0]) 0
    (by simp only [htext, List.length_singleton]; omega)
  have hhold := Mem.holds_store (m := d) s.text h.zero_not_mem_text (by rw [htext]; omega)
  obtain ⟨rest, hrest⟩ := hhold.exists_rest
  rw [htext, Nat.zero_add] at hstore
  refine ⟨s.text ++ 0 :: rest, ?_, CStr.ext ?_⟩
  · unfold Shell.saveDraft
    dsimp only
    rw [if_neg (by omega), hdraft, Option.map_some]
    exact congrArg some (hstore.trans hrest)
  · unfold Shell.execText
    rw [CStr.at_bytes, CStr.at_bytes, List.drop_zero, List.drop_zero,
      Mem.upto_append h.zero_not_mem_text, Mem.upto_append h.zero_not_mem_text]

/-- The conversion to `int` does not increase a count. -/
theorem toInt_le (n : ℕ) : toInt n ≤ n := by
  have hbmod : ∀ m : ℕ, Int.bmod n m ≤ n := by
    intro m
    have hmod : (n : ℤ) % m ≤ n := by exact_mod_cast Nat.mod_le n m
    rw [Int.bmod_def]
    split_ifs <;> omega
  exact hbmod _

/-- The bound of `move_history` does not exceed the last position. -/
private theorem intSub_toInt_le (n : ℕ) : intSub (toInt n) 1 ≤ n - 1 := by
  unfold intSub toInt
  rw [Int.bmod_sub_bmod, Int.bmod_def]
  push_cast
  split_ifs <;> omega

/-- It is the last position of a positive count. -/
theorem intSub_toInt_of_pos {n : ℕ} (h : 0 < toInt n) : intSub (toInt n) 1 = toInt n - 1 := by
  have hle : toInt n ≤ 2 ^ 31 - 1 := by
    unfold toInt
    rw [Int.bmod_def]
    push_cast
    split_ifs <;> omega
  rw [intSub, Int.bmod_def]
  push_cast
  split_ifs <;> omega

/-- Moving in the history. -/
theorem stepView (h : s.Wf) (direction : ℤ) : (s.stepView direction).Wf := by
  have hge := h.view_ge
  have hlt := h.view_lt
  have hint := intSub_toInt_le s.historyCount
  refine { h with
    history := h.history.frame ⟨rfl, rfl, rfl, rfl, rfl⟩
    view_ge := ?_
    view_lt := ?_ }
  all_goals
    rw [Shell.stepView]
    dsimp only
    split_ifs <;> omega

/-- Walking through the history. -/
theorem walk (h : s.Wf) (direction : ℤ) : (s.walk direction).Wf := by
  rw [Shell.walk]
  split_ifs
  · exact (h.saveDraft.stepView direction).setLine _
  · exact (h.stepView direction).setLine _

/-- Moving the cursor. -/
theorem setCursor (h : s.Wf) {cursor : ℕ} (hc : cursor ≤ s.cursor ∨ cursor ≤ s.lineLen) :
    (s.setCursor cursor).Wf :=
  { h with
    cursor_le := hc.elim (fun h' => h'.trans h.cursor_le) id
    history := h.history.frame ⟨rfl, rfl, rfl, rfl, rfl⟩ }

/-- The start of a word lies left of the cursor. -/
theorem skipSpacesLeft_le (s : Shell) (n : ℕ) : s.skipSpacesLeft n ≤ n := by
  induction n with
  | zero => exact le_rfl
  | succ n ih =>
    rw [Shell.skipSpacesLeft]
    split_ifs <;> omega

/-- The start of a word lies left of its end. -/
theorem skipWordLeft_le (s : Shell) (n : ℕ) : s.skipWordLeft n ≤ n := by
  induction n with
  | zero => exact le_rfl
  | succ n ih =>
    rw [Shell.skipWordLeft]
    split_ifs <;> omega

/-- The word removed ends at the cursor. -/
theorem wordStart_le (s : Shell) : s.wordStart ≤ s.cursor :=
  (skipWordLeft_le s _).trans (skipSpacesLeft_le s _)

/-- Writing a history entry. -/
theorem storeEntry (h : s.Wf) (hd : s.historyDepth ≠ 0) (line : CStr) : (s.storeEntry line).Wf :=
  { h with
    history := ⟨fun _ => (h.history.enabled hd).storeEntry line, fun h0 => absurd h0 hd⟩
    view_lt := by
      have := h.view_lt
      change s.historyView < ((if s.historyCount < s.historyDepth then s.historyCount + 1
        else s.historyCount : ℕ) : ℤ)
      split_ifs <;> omega }

/-- Clearing the history. -/
theorem clearHistory (h : s.Wf) : s.clearHistory.Wf :=
  { h with
    history := h.history.clearHistory
    view_ge := by simp [Shell.clearHistory]
    view_lt := by simp [Shell.clearHistory]
    draft := fun hd => by
      obtain ⟨d, hdraft, hsize, -⟩ := h.draft hd
      have hpos : 0 < s.lineCapacity := Nat.zero_lt_of_lt h.lineLen_lt
      refine ⟨Mem.fill d 0 0 s.lineCapacity, by simp [Shell.clearHistory, hdraft], ?_,
        zero_mem_take_fill hpos hsize⟩
      rw [Mem.length_fill]
      exact hsize }

/-- What application code does. -/
theorem shellStep {s' : Shell} (hstep : ShellStep s s') (h : s.Wf) : s'.Wf := by
  cases hstep with
  | clear => exact h.clearHistory
  | echo enabled => exact { h with history := h.history.frame ⟨rfl, rfl, rfl, rfl, rfl⟩ }
  | commands l =>
    rcases shRegisterCommands_cases s l with hc | ⟨e, -, hc⟩
    · rw [hc]
      exact { h with history := h.history.frame ⟨rfl, rfl, rfl, rfl, rfl⟩ }
    · rw [hc]
      exact h
  | commandSets l =>
    rcases shRegisterCommandSets_cases s l with hc | ⟨e, -, hc⟩
    · rw [hc]
      exact { h with history := h.history.frame ⟨rfl, rfl, rfl, rfl, rfl⟩ }
    · rw [hc]
      exact h
  | started b => exact { h with history := h.history.frame ⟨rfl, rfl, rfl, rfl, rfl⟩ }
  | stopped =>
    exact { h with history := h.history.frame ⟨rfl, rfl, rfl, rfl, rfl⟩, csi_le := Nat.zero_le _ }

/-- An update of an execution keeps the invariant. -/
theorem execStep {s' : Shell} (hstep : ExecStep s s') (h : s.Wf) : s'.Wf := by
  cases hstep with
  | app ha => exact shellStep ha h
  | store line _ _ hdepth _ => exact h.storeEntry hdepth line
  | argv texts =>
    exact { h with
      argv_size := by
        rw [Shell.setArgv, Mem.length_store]
        exact h.argv_size
      history := h.history.frame ⟨rfl, rfl, rfl, rfl, rfl⟩ }
  | wipeArgv =>
    rw [Shell.wipeArgv]
    split_ifs
    · exact { h with
        argv_size := by
          rw [Mem.length_fill]
          exact h.argv_size
        history := h.history.frame ⟨rfl, rfl, rfl, rfl, rfl⟩ }
    · exact h

/-- An update of an editing byte keeps the invariant. -/
theorem editStep {s' : Shell} (hstep : EditStep s s') (h : s.Wf) : s'.Wf := by
  cases hstep with
  | exec he => exact execStep he h
  | resetAnsi =>
    exact { h with history := h.history.frame ⟨rfl, rfl, rfl, rfl, rfl⟩, csi_le := Nat.zero_le _ }
  | walk direction _ => exact h.walk direction
  | insert hc hfit => exact h.insertAt hc hfit
  | backspace _ => exact h.deleteRange (Nat.sub_le _ _) h.cursor_le
  | delete hlt => exact h.deleteRange (Nat.le_succ _) hlt
  | word => exact h.deleteRange (wordStart_le s) h.cursor_le
  | eraseLine => exact h.eraseLine
  | eraseDraft => exact h.eraseDraft
  | wipeDraft => exact h.wipeDraft
  | cursor hc => exact h.setCursor hc
  | replace replacement hs hstop hspace hfit =>
      exact h.replaceRange replacement hs hstop hspace hfit

/-- **An elementary step keeps the invariant.** -/
theorem step {s' : Shell} (hstep : Step s s') (h : s.Wf) : s'.Wf := by
  cases hstep with
  | edit he => exact editStep he h
  | lastCr b => exact { h with history := h.history.frame ⟨rfl, rfl, rfl, rfl, rfl⟩ }
  | feed byte =>
    exact { h with
      history := h.history.frame ⟨rfl, rfl, rfl, rfl, rfl⟩
      csi_le := shAnsiFeed_csiLength_le byte h.csi_le }

/-- A sequence of steps keeps the invariant. -/
theorem steps {s' : Shell} (hsteps : Steps s s') (h : s.Wf) : s'.Wf :=
  keeps_of_steps (T := Step) (fun _ _ hstep hs => step hstep hs) hsteps h

end Shell.Wf

end PortableShell
