import PortableShell.MaskedHistory
import PortableShell.Rescan

set_option relaxedAutoImplicit false
set_option autoImplicit false

/-!
# Reading a completion back

Tab replaces the bytes around the cursor between two places found by a scan for whitespace, and
inserts the candidate as it is. What `sh_tokenize` makes of the new line is the tokens before and
the candidate exactly when the place found is a boundary of tokens, there is room for one more
argument and the candidate is a plain word.

## Main definitions

* `PortableShell.ReadsBack` — a text and a candidate behind it are read as one more token.
* `PortableShell.tabMatches` — the candidates that Tab finds.
* `PortableShell.CompletesTo` — the line left of the cursor is read as the given tokens.

## Main results

* `PortableShell.tokenize_candidate_iff` — reading a text with a candidate behind it.
* `PortableShell.completesTo_iff` — the completed line reads back as the candidate exactly when the
  candidate reads back behind the text in front of it.
-/

namespace PortableShell

variable {ω : Type}

/-! ## Counting bytes -/

namespace Lex

/-- The bytes of all tokens of a state. -/
def total (l : Lex) : ℕ := l.tokens.flatten.length

/-- The whitespace bytes of a text. -/
def spaces (bytes : List Byte) : ℕ := bytes.countP isspace

/-- The tokens of a state inside a token. -/
private theorem total_word (done : List (List Byte)) (cur : List Byte) (quote : Byte) :
    (word done cur quote).total = done.flatten.length + cur.length := by
  simp [total, tokens]

/-- The tokens of a state behind a backslash. -/
private theorem total_escape (done : List (List Byte)) (cur : List Byte) (quote : Byte) :
    (escape done cur quote).total = done.flatten.length + cur.length := by
  simp [total, tokens]

/-- The tokens of a state between tokens. -/
private theorem total_gap (done : List (List Byte)) : (gap done).total = done.flatten.length := rfl

/-- A byte inside a token gives one byte at most. -/
private theorem total_wordStep_le (done : List (List Byte)) (cur : List Byte) (quote c : Byte) :
    (wordStep done cur quote c).total ≤ done.flatten.length + cur.length + 1 := by
  unfold wordStep
  split_ifs <;> simp [total, tokens] <;> omega

/-- No more bytes come out than go in. -/
private theorem total_run_le (cap : ℕ) (l : Lex) (bytes : List Byte) :
    (l.run cap bytes).total ≤ l.total + bytes.length := by
  induction bytes generalizing l with
  | nil => exact le_rfl
  | cons c bytes ih =>
    have hstep : (l.step cap c).total ≤ l.total + 1 := by
      cases l with
      | failed => exact Nat.zero_le _
      | gap done =>
        rw [step]
        split_ifs
        · exact Nat.le_succ _
        · exact Nat.zero_le _
        · exact total_wordStep_le done [] 0 c
      | word done cur quote =>
        rw [total_word]
        exact total_wordStep_le done cur quote c
      | escape done cur quote =>
        rw [step, total_word, total_escape, List.length_append, List.length_singleton]
        omega
    have := ih (l.step cap c)
    rw [run_cons, List.length_cons]
    omega

/-- A byte that is special or whitespace gives none outside quotations. -/
private theorem total_wordStep_bad (done : List (List Byte)) (cur : List Byte) {c : Byte}
    (hc : Special c ∨ isspace c = true) :
    (wordStep done cur 0 c).total = done.flatten.length + cur.length := by
  unfold wordStep
  split_ifs with hspace hbackslash _ hquote
  · simp [total, tokens]
  · exact total_escape done cur 0
  · exact total_word done cur c
  · rw [isQuote, Bool.or_eq_true, decide_eq_true_eq, decide_eq_true_eq] at hquote
    rcases hc with (h | h | h) | h
    · exact absurd (.inl h) hquote
    · exact absurd ⟨h, by decide⟩ hbackslash
    · exact absurd (.inr h) hquote
    · exact absurd ⟨rfl, h⟩ hspace
  · exact absurd rfl ‹¬(0 : Byte) = 0›
  · exact absurd rfl ‹¬(0 : Byte) = 0›

/-- A backslash that is not read yet is the last byte. -/
private theorem eq_backslash_of_step {cap : ℕ} {l : Lex} {c : Byte} {done : List (List Byte)}
    {cur : List Byte} {quote : Byte} (h : l.step cap c = escape done cur quote) :
    c = backslash := by
  have hword : ∀ {done' cur' quote'}, wordStep done' cur' quote' c = escape done cur quote →
      c = backslash := by
    intro done' cur' quote' heq
    unfold wordStep at heq
    split_ifs at heq with _ hbackslash
    exact hbackslash.1
  cases l with
  | failed => cases h
  | gap done' =>
    rw [step] at h
    split_ifs at h
    exact hword h
  | word done' cur' quote' => exact hword h
  | escape done' cur' quote' => cases h

/-! ## Reading on behind a boundary -/

/-- A state from which a word can be read: between tokens with room for one more, or in a token
outside quotations. -/
inductive Ready (cap : ℕ) : Lex → Prop
  | gap (done : List (List Byte)) (hroom : done.length < cap ∧ done.length < intMax) :
      Ready cap (gap done)
  | word (done : List (List Byte)) (cur : List Byte) : Ready cap (word done cur 0)

/-- Plain bytes are copied. -/
theorem Ready.run_plain {cap : ℕ} {l : Lex} (h : l.Ready cap) {bytes : List Byte}
    (hbytes : ∀ c ∈ bytes, ¬Special c ∧ isspace c = false) :
    (l.run cap bytes).Ready cap ∧ (l.run cap bytes).total = l.total + bytes.length := by
  cases h with
  | gap done hroom =>
    cases bytes with
    | nil => exact ⟨.gap done hroom, rfl⟩
    | cons c bytes =>
      rw [run_gap_cons hroom (hbytes c List.mem_cons_self).2, Lex.run_plain cap done [] hbytes,
        total_word, total_gap, List.nil_append]
      exact ⟨.word done _, rfl⟩
  | word done cur =>
    rw [Lex.run_plain cap done cur hbytes, total_word, total_word, List.length_append,
        Nat.add_assoc]
    exact ⟨.word done _, rfl⟩

/-- A byte that is special or whitespace is lost. -/
private theorem Ready.total_step {cap : ℕ} {l : Lex} (h : l.Ready cap) {c : Byte}
    (hc : Special c ∨ isspace c = true) : (l.step cap c).total = l.total := by
  cases h with
  | gap done hroom =>
    rw [step]
    split_ifs
    · rfl
    · omega
    · exact total_wordStep_bad done [] hc
  | word done cur => exact (total_wordStep_bad done cur hc).trans (total_word done cur 0).symm

/-- A text that is not plain gives fewer bytes than it has. -/
private theorem Ready.total_run_lt {cap : ℕ} {l : Lex} (h : l.Ready cap) {bytes : List Byte}
    (hbytes : ¬∀ c ∈ bytes, ¬Special c ∧ isspace c = false) :
    (l.run cap bytes).total < l.total + bytes.length := by
  induction bytes generalizing l with
  | nil => exact absurd (fun c hc => absurd hc List.not_mem_nil) hbytes
  | cons c bytes ih =>
    rw [run_cons, List.length_cons]
    by_cases hc : ¬Special c ∧ isspace c = false
    · have hone : (l.step cap c).Ready cap ∧ (l.run cap [c]).total = l.total + 1 :=
        h.run_plain fun d hd => List.mem_singleton.mp hd ▸ hc
      have hrest : ¬∀ d ∈ bytes, ¬Special d ∧ isspace d = false := fun hall =>
        hbytes fun d hd => (List.mem_cons.mp hd).elim (fun heq => heq ▸ hc) (hall d)
      have hlt := ih hone.1 hrest
      have htotal : (l.step cap c).total = l.total + 1 := hone.2
      omega
    · have hlost : Special c ∨ isspace c = true := by
        by_contra hnot
        rw [not_or] at hnot
        exact hc ⟨hnot.1, by simpa using hnot.2⟩
      have htotal := h.total_step hlost
      have hle := total_run_le cap (l.step cap c) bytes
      omega

/-- The blank that may follow the candidate.

**Proof sketch.** There is no blank or one. One blank ends a token or is skipped, stays in an open
quotation, which is then never closed, or is escaped. -/
private theorem run_blanks {cap : ℕ} {l : Lex} {space : ℕ} (hspace : space ≤ 1)
    {toks : List (List Byte)} (h : (l.run cap (List.replicate space blank)).finish = .ok toks) :
    l.tokens = toks ∨ ∃ done cur quote, l = escape done cur quote ∧
      toks = done ++ [cur ++ [blank]] := by
  rcases Nat.le_one_iff_eq_zero_or_eq_one.mp hspace with rfl | rfl
  · exact .inl (tokens_of_finish h)
  · have hone : l.run cap (List.replicate 1 blank) = l.step cap blank := rfl
    rw [hone] at h
    cases l with
    | failed => cases h
    | gap done => exact .inl (Except.ok.inj h)
    | word done cur quote =>
      change (wordStep done cur quote blank).finish = _ at h
      have hbackslash : blank ≠ backslash := by decide
      by_cases hquote : quote = 0
      · subst hquote
        exact .inl (Except.ok.inj h)
      · rw [wordStep, if_neg fun h => hquote h.1, if_neg fun h => hbackslash h.1,
          if_neg hquote] at h
        split_ifs at h
        · exact .inl (Except.ok.inj h)
        · rw [finish, if_pos hquote] at h
          cases h
    | escape done cur quote =>
      refine .inr ⟨done, cur, quote, rfl, ?_⟩
      exact (tokens_of_finish h).symm

/-- A state behind a backslash was reached by one. -/
private theorem exists_backslash {cap : ℕ} {l : Lex} (hl : l.Ready cap) {bytes : List Byte}
    {done : List (List Byte)} {cur : List Byte} {quote : Byte}
    (h : l.run cap bytes = escape done cur quote) : ∃ b, bytes = b ++ [backslash] := by
  induction bytes using List.reverseRecOn with
  | nil =>
    cases hl with
    | gap done hroom => cases h
    | word done cur => cases h
  | append_singleton bytes c _ =>
    rw [run_append] at h
    exact ⟨bytes, by rw [eq_backslash_of_step h]⟩

/-- **A candidate that is not plain** does not come out as it went in. -/
theorem Ready.plain_of_finish {cap : ℕ} {l : Lex} (hl : l.Ready cap) {m : List Byte} {space : ℕ}
    (hspace : space ≤ 1) {front : List (List Byte)}
    (htotal : (front ++ [m]).flatten.length = l.total + m.length)
    (h : (l.run cap (m ++ List.replicate space blank)).finish = .ok (front ++ [m])) :
    ∀ c ∈ m, ¬Special c ∧ isspace c = false := by
  by_contra hbad
  have hlt := hl.total_run_lt hbad
  rw [run_append] at h
  rcases run_blanks hspace h with htokens | ⟨done, cur, quote, hescape, htoks⟩
  · rw [total, htokens] at hlt
    omega
  · -- the blank would be the last byte of the candidate, and that is a backslash
    obtain ⟨b, hb⟩ := exists_backslash hl hescape
    have hlast := congrArg List.getLast? htoks
    rw [List.getLast?_concat, List.getLast?_concat, Option.some.injEq] at hlast
    have hboth := congrArg List.getLast? (hb.symm.trans hlast)
    rw [List.getLast?_concat, List.getLast?_concat, Option.some.injEq] at hboth
    exact absurd hboth (by decide)

/-! ## Reading on inside a token -/

/-- The whitespace bytes of two pieces. -/
private theorem spaces_append (a b : List Byte) : spaces (a ++ b) = spaces a + spaces b :=
  List.countP_append

/-- No quotation is open, or one of quote characters. -/
def QuoteOk (quote : Byte) : Prop := quote = 0 ∨ isQuote quote = true

/-- A quote character is no whitespace. -/
private theorem isspace_of_isQuote {c : Byte} (h : isQuote c = true) : isspace c = false := by
  by_contra hspace
  have := (RawScan.ne_of_isspace (by simpa using hspace)).2
  rw [h] at this
  cases this

/-- **Reading on inside a token**: the token is not finished and has all the whitespace that was
read, or there is a whitespace byte that finishes it.

**Proof sketch.** Induction on the bytes, from the end, with one case per branch of `wordStep`.
Whitespace outside a quotation finishes the token; any other whitespace is copied, and the bytes
that are not copied are not whitespace. -/
theorem run_word_cases (cap : ℕ) (done : List (List Byte)) (cur : List Byte) {quote : Byte}
    (hquote : QuoteOk quote) (bytes : List Byte) :
    (∃ x q, ((word done cur quote).run cap bytes = word done x q ∨
        (word done cur quote).run cap bytes = escape done x q) ∧ QuoteOk q ∧
        spaces x = spaces cur + spaces bytes) ∨
      ∃ a c rest x, bytes = a ++ c :: rest ∧ isspace c = true ∧
        (word done cur quote).run cap a = word done x 0 := by
  induction bytes using List.reverseRecOn with
  | nil => exact .inl ⟨cur, quote, .inl rfl, hquote, rfl⟩
  | append_singleton bytes c ih =>
    rcases ih with ⟨x, q, hrun, hq, hspaces⟩ | ⟨a, d, rest, x, rfl, hd, hrun⟩
    · have hcopy : spaces (x ++ [c]) = spaces cur + spaces (bytes ++ [c]) := by
        rw [spaces_append, spaces_append, hspaces, Nat.add_assoc]
      have hlost : isspace c = false → spaces x = spaces cur + spaces (bytes ++ [c]) := by
        intro hc
        have hone : spaces [c] = 0 := by
          rw [spaces, List.countP_singleton, if_neg (by simp [hc])]
        rw [spaces_append, hone, hspaces]
        rfl
      rw [run_append]
      rcases hrun with hrun | hrun
      · rw [hrun]
        show (∃ x' q', (wordStep done x q c = word done x' q' ∨
          wordStep done x q c = escape done x' q') ∧ _) ∨ _
        unfold wordStep
        split_ifs with hspace hbackslash hzero hopen hclose
        · refine .inr ⟨bytes, c, [], x, rfl, hspace.2, ?_⟩
          rw [hrun, hspace.1]
        · exact .inl ⟨x, q, .inr rfl, hq, hlost (by rw [hbackslash.1]; decide)⟩
        · exact .inl ⟨x, c, .inl rfl, .inr hopen, hlost (isspace_of_isQuote hopen)⟩
        · exact .inl ⟨x ++ [c], q, .inl rfl, hq, hcopy⟩
        · have hc : isQuote c = true := by
            rw [hclose]
            exact hq.resolve_left hzero
          exact .inl ⟨x, 0, .inl rfl, .inl rfl, hlost (isspace_of_isQuote hc)⟩
        · exact .inl ⟨x ++ [c], q, .inl rfl, hq, hcopy⟩
      · rw [hrun]
        exact .inl ⟨x ++ [c], q, .inl rfl, hq, hcopy⟩
    · exact .inr ⟨a, d, rest ++ [c], x, by rw [List.append_assoc, List.cons_append], hd, hrun⟩

/-- Reading on without whitespace stays inside the token. -/
private theorem run_word_of_no_space (cap : ℕ) (done : List (List Byte)) (cur : List Byte)
    {quote : Byte}
    (hquote : QuoteOk quote) {bytes : List Byte} (hbytes : ∀ c ∈ bytes, isspace c = false)
    {toks : List (List Byte)} (h : ((word done cur quote).run cap bytes).finish = .ok toks) :
    ∃ x, toks = done ++ [x] := by
  rcases run_word_cases cap done cur hquote bytes with
    ⟨x, q, hrun | hrun, -⟩ | ⟨a, c, rest, x, rfl, hc, -⟩
  · rw [hrun] at h
    exact ⟨x, (tokens_of_finish h).symm⟩
  · rw [hrun] at h
    cases h
  · rw [hbytes c (List.mem_append_right a List.mem_cons_self)] at hc
    cases hc

/-- What is open is a quote character.

**Proof sketch.** Induction on the bytes, from the end. Only a quote character opens a quotation,
and closing it sets the mark back to zero. -/
private theorem quoteOk_run {cap : ℕ} {bytes : List Byte} {done : List (List Byte)}
    {cur : List Byte} {quote : Byte} (h : (gap []).run cap bytes = word done cur quote ∨
      (gap []).run cap bytes = escape done cur quote) : QuoteOk quote := by
  induction bytes using List.reverseRecOn generalizing done cur quote with
  | nil => rcases h with h | h <;> cases h
  | append_singleton bytes c ih =>
    rw [run_append] at h
    have hstep : ∀ done' cur' q, QuoteOk q → (wordStep done' cur' q c = word done cur quote ∨
        wordStep done' cur' q c = escape done cur quote) → QuoteOk quote := by
      intro done' cur' q hq heq
      unfold wordStep at heq
      split_ifs at heq with _ _ _ hopen <;> rcases heq with heq | heq <;> cases heq
      · exact hq
      · exact .inr hopen
      · exact hq
      · exact .inl rfl
      · exact hq
    generalize hl : (gap []).run cap bytes = l at h ih
    cases l with
    | failed => rcases h with h | h <;> cases h
    | gap done' =>
      change (gap done').step cap c = _ ∨ (gap done').step cap c = _ at h
      rw [step] at h
      split_ifs at h
      · rcases h with h | h <;> cases h
      · rcases h with h | h <;> cases h
      · exact hstep done' [] 0 (.inl rfl) h
    | word done' cur' q => exact hstep done' cur' q (ih (.inl rfl)) h
    | escape done' cur' q =>
      have hq := ih (.inr rfl)
      rcases h with h | h
      · cases h
        exact hq
      · cases h

/-- Whitespace inside a token is part of it.

**Proof sketch.** Case split on what was being read. Whitespace that leaves the reader inside a
token was quoted or escaped, so it was copied. -/
private theorem spaces_pos_of_run {cap : ℕ} {bytes : List Byte} {c : Byte} (hc : isspace c = true)
    {done : List (List Byte)} {cur : List Byte} {quote : Byte}
    (h : (gap []).run cap (bytes ++ [c]) = word done cur quote) : 0 < spaces cur := by
  have hcopied : ∀ cur' : List Byte, cur = cur' ++ [c] → 0 < spaces cur := by
    rintro cur' rfl
    rw [spaces_append, spaces, spaces, List.countP_singleton, if_pos hc]
    exact Nat.succ_pos _
  have hquote := (RawScan.ne_of_isspace hc).2
  rw [run_append] at h
  cases hl : (gap []).run cap bytes with
  | failed =>
    rw [hl] at h
    cases h
  | gap done' =>
    rw [hl, run_cons, run_nil, step, if_pos hc] at h
    cases h
  | word done' cur' q =>
    rw [hl, run_cons, run_nil, step, wordStep] at h
    split_ifs at h with hspace hb hzero hopen hclose
    · rw [hquote] at hopen
      cases hopen
    · exact absurd ⟨hzero, hc⟩ hspace
    · have hq := (quoteOk_run (.inl hl)).resolve_left hzero
      rw [← hclose, hquote] at hq
      cases hq
    · cases h
      exact hcopied cur' rfl
  | escape done' cur' q =>
    rw [hl] at h
    cases h
    exact hcopied cur' rfl

/-- Reading on behind a token: only whitespace, or more tokens. -/
private theorem finish_gap_cases {cap : ℕ} {done : List (List Byte)} {bytes : List Byte}
    {toks : List (List Byte)} (h : ((gap done).run cap bytes).finish = .ok toks) :
    (∀ c ∈ bytes, isspace c = true) ∨ done.length < toks.length := by
  induction bytes generalizing done with
  | nil => exact .inl fun c hc => absurd hc List.not_mem_nil
  | cons c bytes ih =>
    rw [run_cons, step] at h
    split_ifs at h with hspace hfull
    · rcases ih h with hall | hlt
      · refine .inl fun d hd => ?_
        rcases List.mem_cons.mp hd with rfl | hd
        · exact hspace
        · exact hall d hd
      · exact .inr hlt
    · rw [run_failed] at h
      cases h
    · have hne : (wordStep done [] 0 c).run cap bytes ≠ failed := by
        intro hfailed
        rw [hfailed] at h
        cases h
      have hle := length_tokens_le_run hne
      rw [length_tokens_wordStep, tokens_of_finish h] at hle
      exact .inr hle

end Lex

/-! ## Reading the candidate -/

/-- **A text and a candidate behind it are read as one more token.** Between tokens there has to be
room for one more, and the candidate has to be a plain word. Inside a token, the part of it that is
in the text has to spell the candidate together with the candidate itself, up to whitespace at the
end of the candidate; this is a coincidence. -/
def ReadsBack (cap : ℕ) (text pre m : List Byte) : Prop :=
  match (Lex.gap []).run cap text with
  | .failed => False
  | .gap done => done.length < cap ∧ m ≠ [] ∧ ∀ c ∈ m, ¬Special c ∧ isspace c = false
  | .word done cur quote => pre ≠ [] ∧ ∃ a ws, m = a ++ ws ∧ ws ≠ [] ∧
      (∀ c ∈ ws, isspace c = true) ∧ (Lex.word done cur quote).run cap a = .word done m 0
  | .escape _ _ _ => False

section Candidate

variable {cap : ℕ} {text pre m : List Byte} {toks : List (List Byte)} {space : ℕ}

/-- A candidate behind the end of a token.

**Proof sketch.** Between tokens a plain text is read as one token if there is room for it.
Conversely, a reader without room fails at the next byte, and one with room loses length at every
special byte and ends the token at whitespace. -/
private theorem tokenize_candidate_gap {done : List (List Byte)} (hcap : cap ≤ intMax)
    (hspace : space ≤ 1) :
    ((Lex.gap done).run cap (m ++ List.replicate space blank)).finish = .ok (done ++ [m]) ↔
      done.length < cap ∧ m ≠ [] ∧ ∀ c ∈ m, ¬Special c ∧ isspace c = false := by
  constructor
  · intro h
    have hone : done.length < (done ++ [m]).length := by simp
    have hroom : done.length < cap := by
      by_contra hfull
      have hskip : ∀ bytes : List Byte,
          ((Lex.gap done).run cap bytes).finish = .ok (done ++ [m]) → False := by
        intro bytes
        induction bytes with
        | nil =>
          intro hend
          have := congrArg List.length (Except.ok.inj hend)
          omega
        | cons c bytes ih =>
          rw [Lex.run_cons, Lex.step]
          split_ifs
          · exact ih
          · rw [Lex.run_failed]
            intro h
            cases h
          · omega
      exact hskip _ h
    have hready : (Lex.gap done).Ready cap := .gap done ⟨hroom, by omega⟩
    have hplain := hready.plain_of_finish hspace (by simp [Lex.total_gap]) h
    refine ⟨hroom, ?_, hplain⟩
    rintro rfl
    rw [List.nil_append, Lex.run_gap_spaces fun c hc => ?_] at h
    · have := congrArg List.length (Except.ok.inj h)
      omega
    · rw [List.eq_of_mem_replicate hc]
      decide
  · rintro ⟨hroom, hne, hplain⟩
    obtain ⟨c, bytes, rfl⟩ := List.exists_cons_of_ne_nil hne
    rw [Lex.run_append, Lex.run_gap_cons ⟨hroom, by omega⟩ (hplain c List.mem_cons_self).2,
      Lex.run_plain cap done [] hplain]
    rcases Nat.le_one_iff_eq_zero_or_eq_one.mp hspace with rfl | rfl <;> rfl

/-- A candidate behind an escaped blank. -/
private theorem tokenize_candidate_escaped {done : List (List Byte)} {cur : List Byte}
    (hspace : space ≤ 1) :
    ((Lex.word done cur 0).run cap (m ++ List.replicate space blank)).finish ≠
      .ok (done ++ [cur] ++ [m]) := by
  intro h
  have hready : (Lex.word done cur 0).Ready cap := .word done cur
  have hplain := hready.plain_of_finish hspace (by simp [Lex.total_word, Nat.add_assoc]) h
  rw [Lex.run_append, Lex.run_plain cap done cur hplain] at h
  have htokens : (Lex.word done (cur ++ m) 0).tokens = done ++ [cur] ++ [m] := by
    rcases Lex.run_blanks hspace h with htokens | ⟨_, _, _, hescape, -⟩
    · exact htokens
    · cases hescape
  have := congrArg List.length htokens
  simp [Lex.tokens] at this

/-- A candidate inside a token with whitespace.

**Proof sketch.** By `run_word_cases` the candidate either stays inside the token, which then has
more whitespace than the candidate, or is cut by a whitespace byte that ends the token. Everything
behind that byte must be whitespace, as it would start another token. -/
private theorem tokenize_candidate_word {done : List (List Byte)} {cur : List Byte} {quote : Byte}
    (hquote : Lex.QuoteOk quote) (hcur : 0 < Lex.spaces cur) (hspace : space ≤ 1) :
    ((Lex.word done cur quote).run cap (m ++ List.replicate space blank)).finish =
        .ok (done ++ [m]) ↔
      ∃ a ws, m = a ++ ws ∧ ws ≠ [] ∧ (∀ c ∈ ws, isspace c = true) ∧
        (Lex.word done cur quote).run cap a = .word done m 0 := by
  have hblanks : ∀ c ∈ List.replicate space blank, isspace c = true := by
    intro c hc
    rw [List.eq_of_mem_replicate hc]
    decide
  constructor
  · intro h
    rcases Lex.run_word_cases cap done cur hquote m with ⟨x, q, hrun, -, hspaces⟩ |
        ⟨a, c, rest, x, rfl, hc, hrun⟩
    · -- all whitespace of the candidate is in the token, and some more
      exfalso
      rw [Lex.run_append] at h
      rcases Lex.run_blanks hspace h with htokens | ⟨done', cur', q', hescape, htoks⟩
      · have hx : x = m := by
          rcases hrun with hrun | hrun <;> rw [hrun] at htokens <;>
            exact List.singleton_inj.mp (List.append_cancel_left htokens)
        rw [hx] at hspaces
        omega
      · rcases hrun with hrun | hrun
        · rw [hrun] at hescape
          cases hescape
        · rw [hrun] at hescape
          obtain ⟨rfl, rfl, rfl⟩ := Lex.escape.inj hescape
          have hx : m = x ++ [blank] := List.singleton_inj.mp (List.append_cancel_left htoks)
          have hmore := congrArg Lex.spaces hx
          rw [Lex.spaces_append] at hmore
          omega
    · have hfinish : (Lex.word done x 0).finish = .ok (done ++ [x]) := rfl
      have hgap : (Lex.word done x 0).run cap [c] = .gap (done ++ [x]) :=
        Lex.run_spaces_of_finish hfinish (List.cons_ne_nil _ _) fun d hd =>
          List.mem_singleton.mp hd ▸ hc
      rw [List.append_assoc, Lex.run_append, hrun,
        show c :: rest ++ List.replicate space blank = [c] ++ (rest ++ List.replicate space blank)
          from rfl, Lex.run_append, hgap] at h
      rcases Lex.finish_gap_cases h with hall | hlt
      · rw [Lex.run_gap_spaces hall] at h
        have hx : x = a ++ c :: rest :=
          List.singleton_inj.mp (List.append_cancel_left (Except.ok.inj h))
        refine ⟨a, c :: rest, rfl, List.cons_ne_nil _ _, fun d hd => ?_, by rw [hrun, ← hx]⟩
        rcases List.mem_cons.mp hd with rfl | hd
        · exact hc
        · exact hall d (List.mem_append_left _ hd)
      · simp at hlt
  · rintro ⟨a, ws, hm, hne, hws, hrun⟩
    have hfinish : (Lex.word done m 0).finish = .ok (done ++ [m]) := rfl
    rw [show m ++ List.replicate space blank = a ++ (ws ++ List.replicate space blank) by
        rw [← List.append_assoc, ← hm], Lex.run_append, hrun,
      Lex.run_spaces_of_finish hfinish (List.append_ne_nil_of_left_ne_nil hne _) fun c hc => ?_]
    · rfl
    · exact (List.mem_append.mp hc).elim (hws c) (hblanks c)

/-- **Reading a text with a candidate behind it.** The text ends at whitespace or is empty, and was
followed by a part of a word when it was read.

**Proof sketch.** Case split on where the reader stands at the end of the text: between tokens,
inside one, or behind a backslash. Each case is one of the lemmas above, once the token that `pre`
belongs to is told apart from the finished ones. -/
theorem tokenize_candidate_iff (hcap : cap ≤ intMax)
    (htext : text = [] ∨ ∃ a c, text = a ++ [c] ∧ isspace c = true)
    (hpre : ∀ c ∈ pre, isspace c = false) (h : tokenize cap (text ++ pre) = .ok toks)
    (hspace : space ≤ 1) :
    tokenize cap (text ++ (m ++ List.replicate space blank)) =
        .ok ((if pre = [] then toks else toks.dropLast) ++ [m]) ↔ ReadsBack cap text pre m := by
  rw [tokenize, Lex.run_append] at h ⊢
  unfold ReadsBack
  cases hl : (Lex.gap []).run cap text with
  | failed =>
    rw [hl, Lex.run_failed] at h
    cases h
  | gap done =>
    have htoks : (if pre = [] then toks else toks.dropLast) = done := by
      rw [hl] at h
      split_ifs with hnil
      · rw [hnil] at h
        exact (Except.ok.inj h).symm
      · obtain ⟨c, bytes, rfl⟩ := List.exists_cons_of_ne_nil hnil
        have hc := hpre c List.mem_cons_self
        have hroom : done.length < cap ∧ done.length < intMax := by
          by_contra hfull
          rw [Lex.run_cons, Lex.step, if_neg (by simp [hc]), if_pos (by omega),
            Lex.run_failed] at h
          cases h
        rw [Lex.run_gap_cons hroom hc] at h
        obtain ⟨x, rfl⟩ := Lex.run_word_of_no_space cap done [] (.inl rfl) hpre h
        exact List.dropLast_concat
    rw [htoks]
    exact tokenize_candidate_gap hcap hspace
  | word done cur quote =>
    have hquote := Lex.quoteOk_run (.inl hl)
    rw [hl] at h
    by_cases hnil : pre = []
    · rw [hnil] at h
      have hzero : quote = 0 := by
        by_contra hne
        rw [Lex.run_nil, Lex.finish, if_pos hne] at h
        cases h
      subst hzero
      rw [if_pos hnil, ← Except.ok.inj h]
      exact iff_of_false (tokenize_candidate_escaped hspace) fun hcond => hcond.1 hnil
    · obtain ⟨x, rfl⟩ := Lex.run_word_of_no_space cap done cur hquote hpre h
      have hcur : 0 < Lex.spaces cur := by
        rcases htext with rfl | ⟨a, c, rfl, hc⟩
        · cases hl
        · exact Lex.spaces_pos_of_run hc hl
      rw [if_neg hnil, List.dropLast_concat]
      exact (tokenize_candidate_word hquote hcur hspace).trans (and_iff_right hnil).symm
  | escape done cur quote =>
    exfalso
    rcases htext with rfl | ⟨a, c, rfl, hc⟩
    · cases hl
    · rw [Lex.run_append] at hl
      exact (RawScan.ne_of_isspace hc).1 (Lex.eq_backslash_of_step hl)

end Candidate

/-! ## The place of a completion -/

namespace Shell

/-- The start of a word is a boundary, and no whitespace lies behind it. -/
private theorem skipWordLeft_spec (s : Shell) (n : ℕ) :
    (∀ i, s.skipWordLeft n ≤ i → i < n → isspace (cell s.line i) = false) ∧
      (s.skipWordLeft n = 0 ∨ ∃ i, s.skipWordLeft n = i + 1 ∧ isspace (cell s.line i) = true) := by
  induction n with
  | zero => exact ⟨fun i _ hi => absurd hi (Nat.not_lt_zero i), .inl rfl⟩
  | succ n ih =>
    rw [skipWordLeft]
    split_ifs with hspace
    · refine ⟨fun i hle hlt => ?_, .inr ⟨n, rfl, hspace⟩⟩
      omega
    · refine ⟨fun i hle hlt => ?_, ih.2⟩
      rcases Nat.lt_succ_iff_lt_or_eq.mp hlt with hlt | rfl
      · exact ih.1 i hle hlt
      · simpa using hspace

/-- The word right of a place does not end before it. -/
private theorem le_skipWordRight (s : Shell) (n stop : ℕ) :
    stop ≤ s.skipWordRight n stop ∧ s.skipWordRight n stop ≤ stop + n := by
  induction n generalizing stop with
  | zero => exact ⟨le_rfl, le_rfl⟩
  | succ n ih =>
    rw [skipWordRight]
    split_ifs
    · omega
    · have := ih (stop + 1)
      omega

namespace Wf

variable {s : Shell}

/-- The bounds of the token at the cursor. -/
theorem token_bounds (h : s.Wf) :
    s.tokenStart ≤ s.cursor ∧ s.cursor ≤ s.tokenEnd ∧ s.tokenEnd ≤ s.lineLen := by
  have hcursor := h.cursor_le
  obtain ⟨hle, hge⟩ := s.le_skipWordRight (s.lineLen - s.cursor) s.cursor
  refine ⟨skipWordLeft_le s s.cursor, hle, hge.trans ?_⟩
  omega

/-- The text left of the cursor: something that is empty or ends at whitespace, and the token at
the cursor.

**Proof sketch.** The start of the token is where `skip_word_left` stops, so no byte behind it is
whitespace and the byte before it, if there is one, is. The text has no NUL, so reading the token as
a string takes all of it. -/
theorem text_cursor (h : s.Wf) :
    s.line.take s.cursor = s.text.take s.tokenStart ++ s.tokenPrefix.bytes ∧
      (∀ c ∈ s.tokenPrefix.bytes, isspace c = false) ∧
      (s.text.take s.tokenStart = [] ∨
        ∃ a c, s.text.take s.tokenStart = a ++ [c] ∧ isspace c = true) ∧
      s.tokenPrefix.bytes.length = s.cursor - s.tokenStart := by
  have hcursor := h.cursor_le
  have hlt := h.lineLen_lt
  have hsize := h.line_size
  have hstart : s.tokenStart ≤ s.cursor := skipWordLeft_le s s.cursor
  obtain ⟨hword, hboundary⟩ := s.skipWordLeft_spec s.cursor
  have htake : ∀ n ≤ s.lineLen, s.line.take n = s.text.take n := by
    intro n hn
    rw [text, List.take_take, Nat.min_eq_left hn]
  have hpre : s.tokenPrefix.bytes = (s.line.drop s.tokenStart).take (s.cursor - s.tokenStart) := by
    rw [tokenPrefix, CStr.at_bytes, List.drop_zero]
    refine Mem.upto_append fun hmem => h.zero_not_mem_text ?_
    rw [List.take_drop, Nat.add_sub_cancel' hstart, htake _ hcursor] at hmem
    exact List.mem_of_mem_take (List.mem_of_mem_drop hmem)
  refine ⟨?_, fun c hc => ?_, ?_, ?_⟩
  · rw [hpre, ← htake _ (hstart.trans hcursor), List.take_drop, Nat.add_sub_cancel' hstart]
    conv_lhs => rw [← List.take_append_drop s.tokenStart (s.line.take s.cursor)]
    rw [List.take_take, Nat.min_eq_left hstart]
  · rw [hpre] at hc
    obtain ⟨i, hi, rfl⟩ := List.mem_iff_getElem.mp hc
    rw [List.length_take] at hi
    have hcell := hword (s.tokenStart + i) (Nat.le_add_right _ _) (by omega)
    rw [cell, List.getD_eq_getElem _ _ (by omega)] at hcell
    rwa [List.getElem_take, List.getElem_drop]
  · rcases hboundary with hzero | ⟨i, hi, hspace⟩
    · exact .inl (by rw [show s.tokenStart = 0 from hzero, List.take_zero])
    · have hi' : s.tokenStart = i + 1 := hi
      refine .inr ⟨s.text.take i, cell s.line i, ?_, hspace⟩
      rw [hi', List.take_add_one, h.getElem?_text (by omega)]
      rfl
  · rw [hpre, List.length_take, List.length_drop]
    omega

end Wf

end Shell

/-! ## The candidates found -/

/-- Application code leaves the editor line alone. -/
theorem ShellStep.sameLine {s s' : Shell} (hstep : ShellStep s s') : SameLine s s' := by
  cases hstep with
  | clear => exact ⟨rfl, rfl, rfl⟩
  | echo enabled => exact ⟨rfl, rfl, rfl⟩
  | commands l =>
    rcases shRegisterCommands_cases s l with hc | ⟨e, -, hc⟩ <;> rw [hc] <;> exact ⟨rfl, rfl, rfl⟩
  | commandSets l =>
    rcases shRegisterCommandSets_cases s l with hc | ⟨e, -, hc⟩ <;> rw [hc] <;>
      exact ⟨rfl, rfl, rfl⟩
  | started b => exact ⟨rfl, rfl, rfl⟩
  | stopped => exact ⟨rfl, rfl, rfl⟩

/-- So does a sequence of its steps. -/
private theorem sameLine_of_steps {s s' : Shell} (h : Relation.ReflTransGen ShellStep s s') :
    SameLine s s' :=
  keeps_of_steps (T := ShellStep) (P := SameLine s)
    (fun _ _ hstep hs => ⟨hstep.sameLine.line.trans hs.line,
      hstep.sameLine.lineLen.trans hs.lineLen, hstep.sameLine.cursor.trans hs.cursor⟩) h
    ⟨rfl, rfl, rfl⟩

variable (env : Env ω)

/-- The names with the given prefix that a level offers from candidate `i` on, with `n` candidates
left. -/
def matchNames (level : CompletionLevel) (pre : CStr) : ℕ → ℕ → Sys ω → List CStr
  | 0, _, _ => []
  | n + 1, i, st =>
    match levelCandidate env st level i with
    | (_, none) => []
    | (st, some none) => matchNames level pre n (i + 1) st
    | (st, some (some name)) =>
      if startsWith name pre then name :: matchNames level pre n (i + 1) st
      else matchNames level pre n (i + 1) st

/-- The loop of the completion counts the names found. -/
theorem scanLoop_snd (level : CompletionLevel) (pre : CStr) (n i : ℕ) (st : Sys ω) (m : Matches) :
    (scanLoop env level pre n i st m).2 =
      (matchNames env level pre n i st).foldl Matches.add m := by
  induction n generalizing i st m with
  | zero => rfl
  | succ n ih =>
    rw [scanLoop, matchNames]
    rcases levelCandidate env st level i with ⟨st', _ | _ | name⟩
    · rfl
    · exact ih (i + 1) st' m
    · dsimp only
      rw [ih]
      split_ifs <;> rfl

/-- What `sh_tokenize` makes of the line left of the cursor. -/
def tabTokens (s : Shell) : TokenizeResult :=
  shTokenize (s.line.take s.cursor ++ [0]) s.argvCapacity

/-- The matching candidates that Tab finds. -/
def tabMatches (st : Sys ω) : List CStr :=
  if (tabTokens st.sh).status ≠ Status.ok then []
  else
    match descend st.sh (rootLevel st.sh) (st.sh.tokensBefore (tabTokens st.sh).texts) with
    | none => []
    | some level =>
      matchNames env level st.sh.tokenPrefix (levelLimit st.sh level) 0
        (st.touch .line st.sh.lineLen)

/-- The line left of the cursor is read as the given tokens. -/
def CompletesTo (s : Shell) (tokens : List CStr) : Prop :=
  (tabTokens s).status = Status.ok ∧ (tabTokens s).args = tokens

/-! ## The completed line -/

section Completed

variable {env} {st : Sys ω} {candidate : CStr}

/-- A candidate that fits is inserted as it is: the copy of it was not cut. -/
private theorem Shell.Wf.firstMatch_eq {s : Shell} (h : s.Wf) {start stop : ℕ}
    (hstop : stop ≤ s.lineLen)
    (hfit : start + (Matches.add ⟨CStr.empty, 0, 0⟩ candidate).firstMatch.length +
      spaceLen s stop true + (s.lineLen - stop) < s.lineCapacity) :
    (Matches.add ⟨CStr.empty, 0, 0⟩ candidate).firstMatch = candidate := by
  have hcap := h.capacity_le
  rw [Matches.add, if_pos rfl] at hfit ⊢
  dsimp only at hfit ⊢
  split_ifs at hfit ⊢ with hlong
  · exfalso
    rw [CStr.length, CStr.take_bytes, List.length_take, ← CStr.length,
      Nat.min_eq_left hlong.le] at hfit
    -- at the end of the line there is a space behind the candidate
    rcases hstop.lt_or_eq with hlt | heq
    · omega
    · rw [spaceLen, if_pos ⟨rfl, .inl heq⟩] at hfit
      omega
  · refine CStr.ext ?_
    rw [CStr.take_bytes, CStr.length, List.take_length]

/-- **What Tab does with a single match**: it replaces the token at the cursor.

**Proof sketch.** The branches with another number of matches contradict `hone`. The scan calls the
application, which leaves the line alone, so the token is replaced in the line that was read; `hok`
excludes the range check and the overlong line. -/
theorem shCompleteLineInternal_one (hwf : st.sh.Wf) (hone : tabMatches env st = [candidate])
    (hok : (shCompleteLineInternal env st).2 = Status.ok) :
    ∃ s space, SameLine st.sh s ∧ SameSetup st.sh s ∧ s.Wf ∧ space ≤ 1 ∧
      s.tokenStart + candidate.length + space + (s.lineLen - s.tokenEnd) < s.lineCapacity ∧
      (shCompleteLineInternal env st).1.sh =
        s.replaceRange s.tokenStart s.tokenEnd candidate space := by
  have hcursor := hwf.cursor_le
  have hlt := hwf.lineLen_lt
  have hcap := hwf.capacity_le
  have hplace : ¬(st.sh.cursor > st.sh.lineLen ∨ st.sh.cursor > shMaxLineLen) := by omega
  rw [tabMatches] at hone
  rw [shCompleteLineInternal, if_neg hplace] at hok ⊢
  dsimp only [Sys.touch_sh] at hok ⊢
  rw [← tabTokens] at hok ⊢
  by_cases hstatus : (tabTokens st.sh).status ≠ Status.ok
  · rw [if_pos hstatus] at hone
    cases hone
  rw [if_neg hstatus] at hone hok ⊢
  cases hlevel : descend st.sh (rootLevel st.sh)
      (st.sh.tokensBefore (tabTokens st.sh).texts) with
  | none =>
    rw [hlevel] at hone
    cases hone
  | some level =>
    rw [hlevel] at hone hok
    dsimp only at hone hok ⊢
    have hscan := scanLoop_snd env level st.sh.tokenPrefix (levelLimit st.sh level) 0
      (st.touch .line st.sh.lineLen) ⟨CStr.empty, 0, 0⟩
    have happ := scanLoop_app env level st.sh.tokenPrefix (levelLimit st.sh level) 0
      (st.touch .line st.sh.lineLen) ⟨CStr.empty, 0, 0⟩
    rw [hone] at hscan
    generalize scanLoop env level st.sh.tokenPrefix (levelLimit st.sh level) 0
      (st.touch .line st.sh.lineLen) ⟨CStr.empty, 0, 0⟩ = scanned at hscan happ hok ⊢
    obtain ⟨st', m⟩ := scanned
    obtain rfl : m = Matches.add ⟨CStr.empty, 0, 0⟩ candidate := hscan
    have hsteps : Steps st.sh st'.sh := Steps.edit (EditSteps.exec (.app happ))
    have hline : SameLine st.sh st'.sh := sameLine_of_steps happ
    have hwf' : st'.sh.Wf := hwf.steps hsteps
    have hcount : (Matches.add ⟨CStr.empty, 0, 0⟩ candidate).matchCount = 1 := rfl
    rw [completeMatches, if_neg (hcount.trans_ne Nat.one_ne_zero), if_pos hcount,
      ← hline.tokenStart_eq, ← hline.tokenEnd_eq, replaceToken] at hok ⊢
    dsimp only at hok ⊢
    split_ifs at hok ⊢ with hrange hlong
    · cases hok
    · cases hok
    · push Not at hrange hlong
      have hfirst := hwf'.firstMatch_eq hrange.2 hlong
      rw [hfirst] at hlong ⊢
      refine ⟨st'.sh, spaceLen st'.sh st'.sh.tokenEnd true, hline, hsteps.sameSetup, hwf', ?_,
        hlong, ?_⟩
      · rw [spaceLen]
        split_ifs <;> omega
      · rw [shRedrawLineInternal_sh]
        rfl

/-- The line left of the cursor behind the completion of the token at the cursor. -/
private theorem Shell.Wf.take_cursor_replaceRange {s : Shell} (h : s.Wf) {space : ℕ}
    (hspace : space ≤ 1)
    (hfit : s.tokenStart + candidate.length + space + (s.lineLen - s.tokenEnd) < s.lineCapacity) :
    let s' := s.replaceRange s.tokenStart s.tokenEnd candidate space
    s'.line.take s'.cursor =
      s.text.take s.tokenStart ++ (candidate.bytes ++ List.replicate space blank) := by
  obtain ⟨hstart, hend, hstop⟩ := h.token_bounds
  obtain ⟨a, x, b, hab, ha, -, hhold⟩ := h.holds_replaceRange candidate (hstart.trans hend)
    hstop hspace hfit
  obtain ⟨rest, hr⟩ := hhold.exists_rest
  dsimp only
  have htake : s.text.take s.tokenStart = a := by
    rw [hab, List.append_assoc, List.take_left' ha]
  rw [hr, htake, List.append_assoc, List.append_assoc, ← List.append_assoc a]
  refine List.take_left' ?_
  show (a ++ (candidate.bytes ++ List.replicate space (chr ' '))).length =
    s.tokenStart + candidate.length + space
  rw [List.length_append, List.length_append, List.length_replicate, ha, CStr.length,
    Nat.add_assoc]

end Completed

/-- **Completion reads back as the candidate** exactly when the candidate reads back behind the
text in front of it.

**Proof sketch.** `shCompleteLineInternal_one` gives the line behind the key. Left of its cursor is
the old text in front of the token, the candidate and at most one blank, so the question is the one
of `tokenize_candidate_iff`. -/
theorem completesTo_iff {env : Env ω} {st : Sys ω} (hreach : Reachable env st) {candidate : CStr}
    (hone : tabMatches env st = [candidate])
    (hok : (shCompleteLineInternal env st).2 = Status.ok) :
    CompletesTo (shCompleteLineInternal env st).1.sh
        (st.sh.tokensBefore (tabTokens st.sh).args ++ [candidate]) ↔
      ReadsBack st.sh.argvCapacity (st.sh.text.take st.sh.tokenStart) st.sh.tokenPrefix.bytes
        candidate.bytes := by
  have hwf := hreach.wf
  obtain ⟨hleft, hpre, htext, hprelen⟩ := hwf.text_cursor
  obtain ⟨s, space, hline, hsetup, hswf, hspace, hfit, hdone⟩ :=
    shCompleteLineInternal_one hwf hone hok
  have htake := hswf.take_cursor_replaceRange hspace hfit
  dsimp only at htake
  rw [show s.text = st.sh.text by rw [Shell.text, Shell.text, hline.line, hline.lineLen],
    hline.tokenStart_eq] at htake
  have hzero : 0 ∉ st.sh.text.take st.sh.tokenStart ++ st.sh.tokenPrefix.bytes := by
    rw [List.mem_append, not_or]
    exact ⟨fun hmem => hwf.zero_not_mem_text (List.mem_of_mem_take hmem), st.sh.tokenPrefix.nonzero⟩
  have hzero' : 0 ∉ st.sh.text.take st.sh.tokenStart ++
      (candidate.bytes ++ List.replicate space blank) := by
    rw [List.mem_append, List.mem_append, not_or, not_or]
    refine ⟨fun hmem => hwf.zero_not_mem_text (List.mem_of_mem_take hmem), candidate.nonzero,
      fun hmem => ?_⟩
    exact absurd (List.eq_of_mem_replicate hmem) (by decide)
  -- the tokens left of the cursor before the completion
  have hstatus : (tabTokens st.sh).status = Status.ok := by
    by_contra hne
    rw [tabMatches, if_pos hne] at hone
    cases hone
  have hbefore : tokenize st.sh.argvCapacity
      (st.sh.text.take st.sh.tokenStart ++ st.sh.tokenPrefix.bytes) =
        .ok ((tabTokens st.sh).args.map CStr.bytes) := by
    refine (reads_iff hwf.argv_pos ⟨_, hzero⟩ _).mp ?_
    dsimp only
    rw [← hleft]
    exact ⟨hstatus, rfl⟩
  have hafter := reads_iff hwf.argv_pos ⟨_, hzero'⟩
    (st.sh.tokensBefore (tabTokens st.sh).args ++ [candidate])
  have hcap : st.sh.argvCapacity ≤ intMax := hwf.argv_le.trans (by decide)
  have hread : tabTokens (shCompleteLineInternal env st).1.sh = shTokenize
      (st.sh.text.take st.sh.tokenStart ++ (candidate.bytes ++ List.replicate space blank) ++ [0])
      st.sh.argvCapacity := by
    rw [hdone, tabTokens, hline.tokenStart_eq, htake]
    show shTokenize _ s.argvCapacity = _
    rw [hsetup.argvCapacity]
  rw [← tokenize_candidate_iff hcap htext hpre hbefore hspace, CompletesTo, hread]
  refine hafter.trans ?_
  have hnil : st.sh.cursor - st.sh.tokenStart ≠ 0 ↔ ¬st.sh.tokenPrefix.bytes = [] := by
    rw [← hprelen, Ne, List.length_eq_zero_iff]
  rw [List.map_append, List.map_singleton, Shell.tokensBefore]
  simp only [hnil]
  split_ifs
  · rfl
  · rw [List.map_dropLast]

/-- The small shell with the command and a line typed behind it. -/
def typedSys (text : String) : Sys Unit := ((Op.input (ascii text)).apply idleEnv ledSys).1

/-- This system is reachable. -/
private theorem typedSys_reachable (text : String) : Reachable idleEnv (typedSys text) :=
  ledSys_reachable.apply (.input (ascii text))

/-- A name of which two bytes are typed. -/
theorem completesTo_iff_led :
    CompletesTo (shCompleteLineInternal idleEnv (typedSys "le")).1.sh
        ((typedSys "le").sh.tokensBefore (tabTokens (typedSys "le").sh).args ++ [str "led"]) ↔
      ReadsBack (typedSys "le").sh.argvCapacity
        ((typedSys "le").sh.text.take (typedSys "le").sh.tokenStart)
        (typedSys "le").sh.tokenPrefix.bytes (str "led").bytes :=
  completesTo_iff (typedSys_reachable "le") (by decide +kernel) (by decide +kernel)

/-- Behind an escaped blank, Tab completes the bytes behind the blank, but the tokenizer reads them
as a part of the token with the blank. -/
theorem not_completesTo_blank :
    Reachable idleEnv (typedSys "a\\ le") ∧ tabMatches idleEnv (typedSys "a\\ le") = [str "led"] ∧
      (shCompleteLineInternal idleEnv (typedSys "a\\ le")).2 = Status.ok ∧
      ¬CompletesTo (shCompleteLineInternal idleEnv (typedSys "a\\ le")).1.sh
        ((typedSys "a\\ le").sh.tokensBefore (tabTokens (typedSys "a\\ le").sh).args ++
          [str "led"]) := by
  refine ⟨typedSys_reachable _, by decide +kernel, by decide +kernel, fun h => ?_⟩
  have hread : (tabTokens (shCompleteLineInternal idleEnv (typedSys "a\\ le")).1.sh).args =
      [str "a led"] := by decide +kernel
  have htokens := hread.symm.trans h.2
  revert htokens
  decide +kernel

end PortableShell
