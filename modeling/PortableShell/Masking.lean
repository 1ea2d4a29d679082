import Mathlib.Data.List.GetD
import PortableShell.Secrets

set_option relaxedAutoImplicit false
set_option autoImplicit false

/-!
# Masking the displayed line

The displayed line hides the payload of a sensitive command while it is typed. Two scanners have
to agree for that: `sh_tokenize` finds out which tokens are payload, and `raw_token_span` where
they stand in the line. This file says exactly when they do.

## Main definitions

* `PortableShell.wordNumbers` — the number of the word that each byte of the line belongs to.
* `PortableShell.Lex.Completes` — the tokenizer gets to the end of the line, if need be with the
  quotation closed that `unmatched_quote` reports.
* `PortableShell.MasksPayload` — no byte of the payload is shown.
* `PortableShell.PayloadCovered` — the two scanners agree on the payload.

## Main results

* `PortableShell.rawTokenSpan_iff` — the spans of `raw_token_span` are the words.
* `PortableShell.getElem?_buildDisplayLine` — what is shown of a byte.
* `PortableShell.masksPayload_iff` — no byte of the payload is shown exactly when the two scanners
  agree on it.
-/

namespace PortableShell

variable {ω : Type}

/-! ## The words of the unparsed line -/

/-- The number of the word that each byte belongs to, as `raw_token_span` counts: nothing for the
whitespace between words. The scanner variables are there inside a word. -/
def wordNumbers : ℕ → Option RawScan → List Byte → List (Option ℕ)
  | _, _, [] => []
  | k, none, c :: rest =>
    if isspace c then none :: wordNumbers k none rest
    else some k :: wordNumbers k (some (RawScan.initial.step c)) rest
  | k, some scan, c :: rest =>
    if scan.escaped = false ∧ scan.quote = 0 ∧ isspace c then none :: wordNumbers (k + 1) none rest
    else some k :: wordNumbers k (some (scan.step c)) rest

/-- Every byte gets a number or none. -/
theorem length_wordNumbers (k : ℕ) (scan : Option RawScan) (line : List Byte) :
    (wordNumbers k scan line).length = line.length := by
  induction line generalizing k scan with
  | nil => cases scan <;> rfl
  | cons c line ih =>
    cases scan with
    | none =>
      unfold wordNumbers
      split_ifs <;> simp [ih]
    | some scan =>
      unfold wordNumbers
      split_ifs <;> simp [ih]

/-- The numbers go up from the first one. -/
private theorem le_of_mem_wordNumbers {k : ℕ} {scan : Option RawScan} {line : List Byte} {j : ℕ}
    (h : some j ∈ wordNumbers k scan line) : k ≤ j := by
  induction line generalizing k scan with
  | nil =>
    cases scan <;> exact absurd h List.not_mem_nil
  | cons c line ih =>
    cases scan with
    | none =>
      unfold wordNumbers at h
      split_ifs at h
      · exact ih ((List.mem_cons.mp h).resolve_left nofun)
      · rcases List.mem_cons.mp h with heq | h
        · exact (Option.some.inj heq).ge
        · exact ih h
    | some scan =>
      unfold wordNumbers at h
      split_ifs at h
      · exact (Nat.le_succ k).trans (ih ((List.mem_cons.mp h).resolve_left nofun))
      · rcases List.mem_cons.mp h with heq | h
        · exact (Option.some.inj heq).ge
        · exact ih h

/-- Whitespace between words has no number. -/
private theorem wordNumbers_spaces (k : ℕ) (line : List Byte) :
    wordNumbers k none line =
      List.replicate (line.takeWhile isspace).length none ++
        wordNumbers k none (line.dropWhile isspace) := by
  induction line with
  | nil => rfl
  | cons c line ih =>
    by_cases hc : isspace c
    · rw [List.takeWhile_cons_of_pos hc, List.dropWhile_cons_of_pos hc, List.length_cons,
        List.replicate_succ, List.cons_append, ← ih, wordNumbers, if_pos hc]
    · rw [List.takeWhile_cons_of_neg hc, List.dropWhile_cons_of_neg hc]
      rfl

/-- **A word**: the inner loop of `raw_token_span` stops behind the bytes that have the number of
the word. What follows is empty or begins with whitespace, where the scanner is back at its
start.

**Proof sketch.** Induction on the bytes. The loop stops at the first whitespace outside of
quotations and escapes, and up to there every byte has the number of the word. -/
theorem rawWordEnd_spec (k : ℕ) (word : List Byte) (index : ℕ) (scan : RawScan) :
    ∃ m scan', rawWordEnd word index scan = (index + m, word.drop m, scan') ∧ m ≤ word.length ∧
      wordNumbers k (some scan) word =
        List.replicate m (some k) ++ wordNumbers (k + 1) none (word.drop m) ∧
      (word.drop m ≠ [] → scan' = .initial) ∧
      ((scan.escaped = false ∧ scan.quote = 0 → ¬word.head?.any isspace) → word ≠ [] → 0 < m) := by
  induction word generalizing index scan with
  | nil => exact ⟨0, scan, rfl, le_rfl, rfl, fun h => absurd rfl h, fun _ h => absurd rfl h⟩
  | cons c word ih =>
    by_cases hc : scan.escaped = false ∧ scan.quote = 0 ∧ isspace c
    · refine ⟨0, scan, ?_, Nat.zero_le _, ?_, ?_, ?_⟩
      · rw [rawWordEnd, if_pos hc]
        rfl
      · have hspace : isspace c = true := hc.2.2
        rw [wordNumbers, if_pos hc, List.drop_zero, wordNumbers, if_pos hspace]
        rfl
      · intro _
        obtain ⟨quote, escaped⟩ := scan
        obtain ⟨rfl, rfl, -⟩ := hc
        rfl
      · intro hstart _
        exact absurd (by simpa using hc.2.2) (hstart ⟨hc.1, hc.2.1⟩)
    · obtain ⟨m, scan', hend, hm, hnumbers, hinitial, -⟩ := ih (index + 1) (scan.step c)
      refine ⟨m + 1, scan', ?_, Nat.succ_le_succ hm, ?_, hinitial, fun _ _ => Nat.succ_pos m⟩
      · rw [rawWordEnd, if_neg hc, hend, List.drop_succ_cons, Nat.add_assoc, Nat.add_comm 1 m]
      · rw [wordNumbers, if_neg hc, hnumbers, List.replicate_succ]
        rfl

/-- A word starts at a byte that is no whitespace. -/
private theorem wordNumbers_start (k : ℕ) {word : List Byte} (h : word.head?.any isspace = false) :
    wordNumbers k none word = wordNumbers k (some .initial) word := by
  cases word with
  | nil => rfl
  | cons c word =>
    have hc : ¬isspace c = true := by simpa using h
    rw [wordNumbers, wordNumbers, if_neg hc, if_neg fun hall => hc hall.2.2]

/-- Where a number stands behind whitespace and one word. -/
private theorem getElem?_word (a m t k q : ℕ) (later : List (Option ℕ)) :
    (List.replicate a none ++ (List.replicate m (some t) ++ later))[q]? = some (some k) ↔
      a ≤ q ∧ q < a + m ∧ t = k ∨ a + m ≤ q ∧ later[q - (a + m)]? = some (some k) := by
  rcases Nat.lt_or_ge q a with hqa | hqa
  · rw [List.getElem?_append_left (by simpa using hqa), List.getElem?_replicate, if_pos hqa]
    constructor
    · exact nofun
    · omega
  · rw [List.getElem?_append_right (by simpa using hqa), List.length_replicate]
    rcases Nat.lt_or_ge (q - a) m with hqm | hqm
    · rw [List.getElem?_append_left (by simpa using hqm), List.getElem?_replicate, if_pos hqm,
        Option.some.injEq, Option.some.injEq]
      constructor
      · exact fun heq => .inl ⟨hqa, by omega, heq⟩
      · rintro (⟨-, -, heq⟩ | ⟨hle, -⟩)
        · exact heq
        · omega
    · rw [List.getElem?_append_right (by simpa using hqm), List.length_replicate, Nat.sub_sub]
      constructor
      · exact fun h => .inr ⟨by omega, h⟩
      · rintro (⟨-, hlt, -⟩ | ⟨-, h⟩)
        · omega
        · exact h

/-- The loop of `raw_token_span` from a place between the words on.

**Proof sketch.** Induction on the fuel. Whitespace is skipped and has no number, and
`rawWordEnd_spec` is the next word. Either it is the one asked for, and its bytes are those of
the span, or the loop goes on behind it with the next number, and the position moves by as many
bytes. -/
private theorem rawTokenSpanLoop_iff (tokenIndex : ℕ) {n : ℕ} {rest : List Byte}
    (hn : rest.length < n) (index token p : ℕ) :
    (∃ start stop, rawTokenSpanLoop tokenIndex n rest index token .initial = some (start, stop) ∧
        start ≤ p ∧ p < stop) ↔
      index ≤ p ∧ (wordNumbers token none rest)[p - index]? = some (some tokenIndex) := by
  induction n generalizing rest index token with
  | zero => omega
  | succ n ih =>
    have hlength :=
      congrArg List.length (List.takeWhile_append_dropWhile (p := isspace) (l := rest))
    rw [List.length_append] at hlength
    have hhead : (rest.dropWhile isspace).head?.any isspace = false := by
      have := List.head?_dropWhile_not isspace rest
      cases h : (rest.dropWhile isspace).head? with
      | none => rfl
      | some c => simpa [h] using this
    rw [rawTokenSpanLoop, wordNumbers_spaces]
    dsimp only
    generalize (rest.takeWhile isspace).length = a at hlength ⊢
    generalize rest.dropWhile isspace = word at hlength hhead ⊢
    by_cases hword : word = []
    · rw [if_pos hword, hword]
      constructor
      · rintro ⟨start, stop, hspan, -⟩
        cases hspan
      · rintro ⟨-, hnumber⟩
        have hmem := List.mem_of_getElem? hnumber
        rw [wordNumbers, List.append_nil] at hmem
        exact absurd (List.eq_of_mem_replicate hmem) nofun
    · rw [if_neg hword, wordNumbers_start token hhead]
      obtain ⟨m, scan, hend, hm, hnumbers, hinitial, hpos⟩ :=
        rawWordEnd_spec token word (index + a) .initial
      have hmpos : 0 < m := hpos (fun _ => by simp [hhead]) hword
      have hdrop : (word.drop m).length + m = word.length := by
        rw [List.length_drop]
        omega
      rw [hend, hnumbers, getElem?_word]
      dsimp only
      by_cases htoken : token = tokenIndex
      · -- this is the word looked for, and later words have other numbers
        subst htoken
        rw [if_pos rfl]
        have hlater : ∀ q : ℕ,
            (wordNumbers (token + 1) none (word.drop m))[q]? ≠ some (some token) := by
          intro q hq
          have hle := le_of_mem_wordNumbers (List.mem_of_getElem? hq)
          omega
        constructor
        · rintro ⟨start, stop, hspan, hstart, hstop⟩
          obtain ⟨rfl, rfl⟩ := Prod.mk.inj (Option.some.inj hspan)
          exact ⟨by omega, .inl ⟨by omega, by omega, rfl⟩⟩
        · rintro ⟨hle, ⟨hfrom, hto, -⟩ | ⟨-, hnumber⟩⟩
          · exact ⟨index + a, index + a + m, rfl, by omega, by omega⟩
          · exact absurd hnumber (hlater _)
      · rw [if_neg htoken]
        have hrest : (∃ start stop, rawTokenSpanLoop tokenIndex n (word.drop m) (index + a + m)
              (token + 1) scan = some (start, stop) ∧ start ≤ p ∧ p < stop) ↔
            index + a + m ≤ p ∧ (wordNumbers (token + 1) none
              (word.drop m))[p - (index + a + m)]? = some (some tokenIndex) := by
          by_cases hnil : word.drop m = []
          · rw [hnil, wordNumbers]
            constructor
            · rintro ⟨start, stop, hspan, -⟩
              cases n with
              | zero => cases hspan
              | succ n => cases hspan
            · exact fun h => absurd h.2 (by simp)
          · rw [hinitial hnil]
            exact ih (by omega) (index + a + m) (token + 1)
        rw [hrest]
        constructor
        · rintro ⟨hle, hnumber⟩
          refine ⟨by omega, .inr ⟨by omega, ?_⟩⟩
          rw [show p - index - (a + m) = p - (index + a + m) by omega]
          exact hnumber
        · rintro ⟨hle, ⟨-, -, heq⟩ | ⟨hfrom, hnumber⟩⟩
          · exact absurd heq htoken
          · refine ⟨by omega, ?_⟩
            rw [show p - index - (a + m) = p - (index + a + m) by omega] at hnumber
            exact hnumber

/-- **The spans of `raw_token_span`** are the words of the line. -/
theorem rawTokenSpan_iff (line : CStr) (tokenIndex p : ℕ) :
    (∃ start stop, rawTokenSpan line tokenIndex = some (start, stop) ∧ start ≤ p ∧ p < stop) ↔
      (wordNumbers 0 none line.bytes)[p]? = some (some tokenIndex) := by
  have h := rawTokenSpanLoop_iff tokenIndex (Nat.lt_succ_self line.bytes.length) 0 0 p
  rwa [Nat.sub_zero, and_iff_right (Nat.zero_le p)] at h

/-! ## What is shown -/

variable (env : Env ω)

/-- A byte of the line after one span was masked. -/
private theorem getElem?_starSpan (display : List Byte) (start stop p : ℕ) :
    (starSpan display start stop)[p]? = display[p]?.map fun c =>
      if start ≤ p ∧ p < stop ∧ isQuote c = false then star else c := List.getElem?_mapIdx

/-- Masking a token hides the byte at a position: the byte belongs to the word with the number of
the token. -/
def TokenHides (s : Shell) (r : Resolved) (argv : List CStr) (p i : ℕ) : Prop :=
  tokenMasked env s.cfg r i (argv.getD i CStr.empty) = true ∧
    (wordNumbers 0 none s.lineStr.bytes)[p]? = some (some i)

instance (s : Shell) (r : Resolved) (argv : List CStr) (p i : ℕ) :
    Decidable (TokenHides env s r argv p i) := instDecidableAnd

/-- A byte of the line after one token was masked.

**Proof sketch.** Stars are put on the span of the token, and by `rawTokenSpan_iff` a byte is in the
span exactly when the token hides it. -/
private theorem getElem?_maskToken (s : Shell) (r : Resolved) (argv : List CStr)
    (display : List Byte) (i p : ℕ) :
    (maskToken env s r argv display i)[p]? = display[p]?.map fun c =>
      if TokenHides env s r argv p i ∧ isQuote c = false then star else c := by
  have hsame : ∀ {P : Prop} [Decidable P], ¬P → display[p]? =
      display[p]?.map fun c => if P ∧ isQuote c = false then star else c := by
    intro P _ hP
    simp [hP]
  unfold maskToken
  by_cases hmask : tokenMasked env s.cfg r i (argv.getD i CStr.empty) = true
  · rw [if_pos hmask]
    have hspan := rawTokenSpan_iff s.lineStr i p
    cases hraw : rawTokenSpan s.lineStr i with
    | none =>
      rw [hraw] at hspan
      refine hsame fun h => ?_
      obtain ⟨start, stop, heq, -⟩ := hspan.mpr h.2
      cases heq
    | some span =>
      obtain ⟨start, stop⟩ := span
      rw [hraw] at hspan
      have hiff : TokenHides env s r argv p i ↔ start ≤ p ∧ p < stop := by
        rw [TokenHides, and_iff_right hmask, ← hspan]
        constructor
        · rintro ⟨start', stop', heq, h⟩
          obtain ⟨rfl, rfl⟩ := Prod.mk.inj (Option.some.inj heq)
          exact h
        · exact fun h => ⟨start, stop, rfl, h⟩
      dsimp only
      rw [getElem?_starSpan]
      simp only [hiff, and_assoc]
  · rw [if_neg hmask]
    exact hsame fun h => hmask h.1

/-- A byte of the line after some tokens were masked.

**Proof sketch.** Induction on the tokens. A byte that one token has turned into a star stays a
star, and every other byte is decided by the tokens that are left. -/
private theorem getElem?_foldl_maskToken (s : Shell) (r : Resolved) (argv : List CStr) (l : List ℕ)
    (display : List Byte) (p : ℕ) :
    (l.foldl (maskToken env s r argv) display)[p]? = display[p]?.map fun c =>
      if isQuote c = false ∧ ∃ i ∈ l, TokenHides env s r argv p i then star else c := by
  induction l generalizing display with
  | nil => simp
  | cons i l ih =>
    rw [List.foldl_cons, ih, getElem?_maskToken]
    cases display[p]? with
    | none => rfl
    | some c =>
      rw [Option.map_some, Option.map_some, Option.map_some]
      by_cases hi : TokenHides env s r argv p i ∧ isQuote c = false
      · rw [if_pos hi, ite_self, if_pos ⟨hi.2, i, List.mem_cons_self, hi.1⟩]
      · rw [if_neg hi]
        have hrest : (isQuote c = false ∧ ∃ j ∈ i :: l, TokenHides env s r argv p j) ↔
            isQuote c = false ∧ ∃ j ∈ l, TokenHides env s r argv p j := by
          constructor
          · rintro ⟨hquote, j, hj, hhides⟩
            rcases List.mem_cons.mp hj with rfl | hj
            · exact absurd ⟨hhides, hquote⟩ hi
            · exact ⟨hquote, j, hj, hhides⟩
          · rintro ⟨hquote, j, hj, hhides⟩
            exact ⟨hquote, j, List.mem_cons_of_mem i hj, hhides⟩
        simp only [hrest]

/-- **What is shown of a byte**: a star when the line is understood and a masked token hides the
byte, else the byte itself. Quote characters are shown.

**Proof sketch.** A line of a well-formed shell is shorter than the buffer. If the tokenizer fails,
the plain line is shown; else the tokens are masked one by one (`getElem?_foldl_maskToken`). -/
theorem getElem?_buildDisplayLine {s : Shell} (hwf : s.Wf) (p : ℕ) :
    (buildDisplayLine env s displaySize)[p]? = s.text[p]?.map fun c =>
      if isQuote c = false ∧ (parseDisplayed s).status = Status.ok ∧
          ∃ i ∈ List.range (parseDisplayed s).texts.length, TokenHides env s
            (shResolveCommandInternal s (parseDisplayed s).texts) (parseDisplayed s).texts p i
      then star else c := by
  have hsize : ¬s.lineLen ≥ displaySize := by
    have hlt := hwf.lineLen_lt
    have hle := hwf.capacity_le
    unfold displaySize
    omega
  unfold buildDisplayLine
  rw [if_neg hsize]
  dsimp only
  by_cases hok : (parseDisplayed s).status ≠ Status.ok ∨ (parseDisplayed s).argv = []
  · rw [if_pos hok]
    have hnothing : ¬((parseDisplayed s).status = Status.ok ∧
        ∃ i ∈ List.range (parseDisplayed s).texts.length, TokenHides env s
          (shResolveCommandInternal s (parseDisplayed s).texts) (parseDisplayed s).texts p i) := by
      rintro ⟨hstatus, i, hi, -⟩
      rw [TokenizeResult.texts, hok.resolve_left (not_not.mpr hstatus)] at hi
      exact absurd hi List.not_mem_nil
    simp only [hnothing, and_false, if_false]
    exact Option.map_id'.symm
  · rw [if_neg hok, getElem?_foldl_maskToken]
    push Not at hok
    simp only [hok.1, true_and]
    rfl

/-! ## Which lines are understood -/

/-- The tokenizer gets to the end of the line, if need be with a quotation closed by the given
quote character. -/
def Lex.Completes (closing : Byte) : Lex → Prop
  | .failed => False
  | .gap _ => True
  | .word _ _ quote => quote = 0 ∨ quote = closing
  | .escape _ _ _ => False

/-- The second scanner reports a quote character or none. -/
theorem unmatchedQuote_cases (line : CStr) :
    unmatchedQuote line = 0 ∨ isQuote (unmatchedQuote line) = true := by
  have hstep : ∀ (scan : RawScan) (c : Byte), (scan.quote = 0 ∨ isQuote scan.quote = true) →
      (scan.step c).quote = 0 ∨ isQuote (scan.step c).quote = true := by
    intro scan c h
    unfold RawScan.step
    split_ifs with _ _ _ _ hquote
    · exact h
    · exact h
    · exact .inl rfl
    · exact h
    · exact .inr hquote
    · exact h
  have hfold : ∀ (bytes : List Byte) (scan : RawScan),
      (scan.quote = 0 ∨ isQuote scan.quote = true) →
      (bytes.foldl RawScan.step scan).quote = 0 ∨
        isQuote (bytes.foldl RawScan.step scan).quote = true := by
    intro bytes
    induction bytes with
    | nil => exact fun scan h => h
    | cons c bytes ih => exact fun scan h => ih _ (hstep scan c h)
  exact hfold line.bytes .initial (.inl rfl)

/-- Inside a quotation a quote character closes it or is text. -/
theorem wordStep_quote {done : List (List Byte)} {cur : List Byte} {quote c : Byte}
    (hquote : quote ≠ 0) (hc : isQuote c = true) :
    Lex.wordStep done cur quote c =
      if c = quote then .word done cur 0 else .word done (cur ++ [c]) quote := by
  have hbackslash : c ≠ backslash := by
    rintro rfl
    exact absurd hc (by decide)
  unfold Lex.wordStep
  rw [if_neg fun h => hquote h.1, if_neg fun h => hbackslash h.1, if_neg hquote]

/-- What `sh_tokenize` makes of a line that the automaton accepts. -/
theorem shTokenize_of_finish_ok {cap : ℕ} (hcap : cap ≠ 0) {line : List Byte} (hz : 0 ∉ line)
    {toks : List (List Byte)} (h : ((Lex.gap []).run cap line).finish = .ok toks) :
    (shTokenize (line ++ [0]) cap).status = Status.ok ∧
      (shTokenize (line ++ [0]) cap).texts.map CStr.bytes = toks :=
  ⟨(shTokenize_status_eq_ok hcap hz []).mpr ⟨toks, h⟩, shTokenize_texts hcap hz [] h⟩

/-- What `sh_tokenize` makes of a line that the automaton rejects. -/
private theorem shTokenize_of_finish_error {cap : ℕ} (hcap : cap ≠ 0) {line : List Byte}
    (hz : 0 ∉ line) {e : Status} (h : ((Lex.gap []).run cap line).finish = .error e) :
    (shTokenize (line ++ [0]) cap).status = e := by
  have hstatus := shTokenize_status hcap hz []
  rwa [show tokenize cap line = .error e from h] at hstatus

/-- **Which lines are understood**, and as which tokens.

**Proof sketch.** Case split on where the reader stands at the end of the line. Only a line with an
open quotation is read again, with the quote character that `unmatched_quote` finds put behind it;
that closes the quotation when both scanners mean the same one. -/
theorem parseDisplayed_spec {s : Shell} (hwf : s.Wf) :
    ((parseDisplayed s).status = Status.ok ↔
      ((Lex.gap []).run s.argvCapacity s.text).Completes (unmatchedQuote s.lineStr)) ∧
    ((parseDisplayed s).status = Status.ok → (parseDisplayed s).texts.map CStr.bytes =
      ((Lex.gap []).run s.argvCapacity s.text).tokens) := by
  have hz := hwf.zero_not_mem_text
  have hcap := hwf.argv_pos
  have hlength : s.lineLen + 1 < shMaxLineLen + 2 := by
    have hlt := hwf.lineLen_lt
    have hle := hwf.capacity_le
    omega
  -- a result that says nothing about an open quotation stands
  have honce : (shTokenize (s.text ++ [0]) s.argvCapacity).status ≠ Status.errUnterminatedQuote →
      parseDisplayed s = shTokenize (s.text ++ [0]) s.argvCapacity := fun h => by
    rw [parseDisplayed]
    dsimp only
    rw [if_neg fun hopen => h hopen.1]
  cases hl : (Lex.gap []).run s.argvCapacity s.text with
  | failed =>
    have hstatus := shTokenize_of_finish_error hcap hz (congrArg Lex.finish hl)
    rw [honce (hstatus.symm ▸ nofun), hstatus]
    exact ⟨⟨nofun, False.elim⟩, nofun⟩
  | escape done cur quote =>
    have hstatus := shTokenize_of_finish_error hcap hz (congrArg Lex.finish hl)
    rw [honce (hstatus.symm ▸ nofun), hstatus]
    exact ⟨⟨nofun, False.elim⟩, nofun⟩
  | gap done =>
    obtain ⟨hstatus, htexts⟩ := shTokenize_of_finish_ok hcap hz (congrArg Lex.finish hl)
    rw [honce (hstatus.symm ▸ nofun), hstatus, htexts]
    exact ⟨⟨fun _ => trivial, fun _ => rfl⟩, fun _ => rfl⟩
  | word done cur quote =>
    by_cases hquote : quote = 0
    · have hfinish : (Lex.word done cur quote).finish = .ok (done ++ [cur]) :=
        if_neg (not_not.mpr hquote)
      obtain ⟨hstatus, htexts⟩ := shTokenize_of_finish_ok hcap hz (hl ▸ hfinish)
      rw [honce (hstatus.symm ▸ nofun), hstatus, htexts]
      exact ⟨⟨fun _ => .inl hquote, fun _ => rfl⟩, fun _ => rfl⟩
    · have hfinish : (Lex.word done cur quote).finish = .error Status.errUnterminatedQuote :=
        if_pos hquote
      have hstatus := shTokenize_of_finish_error hcap hz (hl ▸ hfinish)
      rw [parseDisplayed]
      dsimp only
      rw [if_pos ⟨hstatus, hlength⟩]
      rcases unmatchedQuote_cases s.lineStr with hnone | hclosing
      · -- the second scanner sees no open quotation
        rw [if_neg (not_not.mpr hnone), hstatus, hnone]
        exact ⟨⟨nofun, fun h => absurd (or_self_iff.mp h) hquote⟩, nofun⟩
      · generalize unmatchedQuote s.lineStr = closing at hclosing
        have hclosing0 : closing ≠ 0 := by
          rintro rfl
          exact absurd hclosing (by decide)
        have hz' : 0 ∉ s.text ++ [closing] := by simp [hz, hclosing0.symm]
        have hrun : (Lex.gap []).run s.argvCapacity (s.text ++ [closing]) =
            if closing = quote then .word done cur 0 else .word done (cur ++ [closing]) quote := by
          rw [Lex.run_append, hl]
          exact wordStep_quote hquote hclosing
        rw [if_pos hclosing0, show s.text ++ [closing, 0] = s.text ++ [closing] ++ [0] by simp]
        by_cases heq : closing = quote
        · rw [if_pos heq] at hrun
          obtain ⟨hstatus, htexts⟩ := shTokenize_of_finish_ok hcap hz' (congrArg Lex.finish hrun)
          rw [hstatus, htexts]
          exact ⟨⟨fun _ => .inr heq.symm, fun _ => rfl⟩, fun _ => rfl⟩
        · rw [if_neg heq] at hrun
          have hopen : (Lex.word done (cur ++ [closing]) quote).finish =
              .error Status.errUnterminatedQuote := if_pos hquote
          rw [shTokenize_of_finish_error hcap hz' (hrun ▸ hopen)]
          refine ⟨⟨nofun, ?_⟩, nofun⟩
          rintro (h | h)
          · exact absurd h hquote
          · exact absurd h.symm heq

/-! ## Tokens that are there to stay -/

namespace Lex

/-- The finished tokens begin with the given ones, unless there are too many. -/
def Keeps (done : List (List Byte)) : Lex → Prop
  | failed => True
  | gap done' => done <+: done'
  | word done' _ _ => done <+: done'
  | escape done' _ _ => done <+: done'

/-- A byte inside a token keeps the finished tokens. -/
private theorem keeps_wordStep {done done' : List (List Byte)} (h : done <+: done')
    (cur : List Byte) (quote c : Byte) : (wordStep done' cur quote c).Keeps done := by
  unfold wordStep
  split_ifs
  · exact h.trans (List.prefix_append done' [cur])
  all_goals exact h

/-- The rest of a line keeps the finished tokens. -/
theorem Keeps.run {done : List (List Byte)} {l : Lex} (h : l.Keeps done) (cap : ℕ)
    (bytes : List Byte) : (l.run cap bytes).Keeps done := by
  induction bytes generalizing l with
  | nil => exact h
  | cons c bytes ih =>
    refine ih ?_
    cases l with
    | failed => exact h
    | gap done' =>
      rw [step]
      split_ifs
      · exact h
      · trivial
      · exact keeps_wordStep h [] 0 c
    | word done' cur quote => exact keeps_wordStep h cur quote c
    | escape done' cur quote => exact h

/-- A line that is understood has the tokens that were finished on the way. -/
private theorem Keeps.prefix_tokens {done : List (List Byte)} {l : Lex} {closing : Byte}
    (h : l.Keeps done) (hl : l.Completes closing) : done <+: l.tokens := by
  cases l with
  | failed => exact hl.elim
  | gap done' => exact h
  | word done' cur quote => exact List.IsPrefix.trans h (List.prefix_append done' [cur])
  | escape done' cur quote => exact hl.elim

/-- Whitespace behind a complete line finishes its last token. -/
theorem run_spaces_of_finish {cap : ℕ} {l : Lex} {toks : List (List Byte)} (h : l.finish = .ok toks)
    {ws : List Byte} (hne : ws ≠ []) (hws : ∀ c ∈ ws, isspace c = true) :
    l.run cap ws = .gap toks := by
  cases l with
  | failed => cases h
  | gap done =>
    rw [← Except.ok.inj h]
    exact run_gap_spaces hws
  | word done cur quote =>
    rw [finish] at h
    split_ifs at h with hquote
    obtain ⟨c, ws, rfl⟩ := List.exists_cons_of_ne_nil hne
    have hfirst : (word done cur quote).step cap c = .gap (done ++ [cur]) :=
      if_pos ⟨not_not.mp hquote, hws c List.mem_cons_self⟩
    rw [run_cons, hfirst, ← Except.ok.inj h]
    exact run_gap_spaces fun d hd => hws d (List.mem_cons_of_mem c hd)
  | escape done cur quote => cases h

end Lex

/-! ## The payload of a sensitive command -/

/-- The line is the path of a sensitive leaf, whitespace and some payload. -/
structure TypesSecret (s : Shell) (path : List CStr) (n : Cmd) (pre ws payload : List Byte) :
    Prop where
  text : s.text = pre ++ ws ++ payload
  nonempty : ws ≠ []
  spaces : ∀ c ∈ ws, isspace c = true
  status : (shTokenize (pre ++ [0]) s.argvCapacity).status = Status.ok
  texts : (shTokenize (pre ++ [0]) s.argvCapacity).texts = path
  isPath : IsPath s.roots path n
  leaf : n.hasSubcommands = false
  sensitive : n.sensitive = true

/-- A byte of the line from a position on that has to be hidden: it is neither a quote character
nor whitespace. -/
def SecretByte (s : Shell) (start p : ℕ) (c : Byte) : Prop :=
  start ≤ p ∧ s.text[p]? = some c ∧ isQuote c = false ∧ isspace c = false

/-- No byte of the payload is shown. -/
def MasksPayload (s : Shell) (start : ℕ) : Prop :=
  ∀ p c, SecretByte s start p c → (buildDisplayLine env s displaySize)[p]? = some star

/-- The two scanners agree on the byte at a position: the tokenizer gets to the end of the line,
and the word the byte belongs to has the number of a token that is masked. -/
def PayloadCovered (s : Shell) (path : List CStr) (p : ℕ) : Prop :=
  ((Lex.gap []).run s.argvCapacity s.text).Completes (unmatchedQuote s.lineStr) ∧
    ∃ k, (wordNumbers 0 none s.text)[p]? = some (some k) ∧
      k < ((Lex.gap []).run s.argvCapacity s.text).tokens.length ∧
      (path.length ≤ k ∨ s.cfg.shouldMaskArg.any fun f => env.shouldMaskArg f
        (shResolveCommandInternal s path).path k (path.getD k CStr.empty) s.cfg.maskCtx)

section Payload

variable {env} {s : Shell} {path : List CStr} {n : Cmd} {pre ws payload : List Byte}

/-- A line that is understood has the path in front. -/
private theorem TypesSecret.prefix_tokens (h : TypesSecret s path n pre ws payload) (hwf : s.Wf)
    {closing : Byte} (hc : ((Lex.gap []).run s.argvCapacity s.text).Completes closing) :
    path.map CStr.bytes <+: ((Lex.gap []).run s.argvCapacity s.text).tokens := by
  have hz : 0 ∉ pre := fun hmem => hwf.zero_not_mem_text (by
    rw [h.text]
    exact List.mem_append_left payload (List.mem_append_left ws hmem))
  obtain ⟨toks, htoks⟩ := (shTokenize_status_eq_ok hwf.argv_pos hz []).mp h.status
  have hpath : path.map CStr.bytes = toks := by
    rw [← h.texts]
    exact shTokenize_texts hwf.argv_pos hz [] htoks
  rw [h.text, Lex.run_append, Lex.run_append,
    Lex.run_spaces_of_finish htoks h.nonempty h.spaces] at hc ⊢
  rw [hpath]
  have hkeeps : (Lex.gap toks).Keeps toks := List.prefix_refl toks
  exact (hkeeps.run _ payload).prefix_tokens hc

/-- The same for the tokens as strings. -/
private theorem TypesSecret.parseDisplayed_texts (h : TypesSecret s path n pre ws payload)
    (hwf : s.Wf) (hok : (parseDisplayed s).status = Status.ok) :
    ∃ rest, (parseDisplayed s).texts = path ++ rest := by
  obtain ⟨hiff, htexts⟩ := parseDisplayed_spec hwf
  obtain ⟨rest, hrest⟩ := h.prefix_tokens hwf (hiff.mp hok)
  rw [← htexts hok] at hrest
  refine ⟨(parseDisplayed s).texts.drop path.length, ?_⟩
  have hinj : Function.Injective CStr.bytes := fun a b => CStr.ext
  have htake : (parseDisplayed s).texts.take path.length = path := by
    refine hinj.list_map ?_
    rw [List.map_take, ← hrest]
    exact List.take_left' (List.length_map _)
  exact (htake ▸ List.take_append_drop path.length (parseDisplayed s).texts).symm

/-- **Which bytes of the payload are shown as a star**: those the scanners agree on, and the stars
of the payload itself.

**Proof sketch.** The first tokens are the path and resolve to the command, so the tokens that are
masked are those of the payload and those that the callback adds. The byte then is hidden by one of
them exactly as `PayloadCovered` says. -/
theorem TypesSecret.getElem?_display (h : TypesSecret s path n pre ws payload) (hwf : s.Wf)
    (hreg : Registered s) {start p : ℕ} {c : Byte} (hc : SecretByte s start p c) :
    (buildDisplayLine env s displaySize)[p]? = some star ↔
      c = star ∨ PayloadCovered env s path p := by
  obtain ⟨text, hresolve⟩ := resolve_leaf hreg h.isPath ((hasSubcommands_eq_false_iff n).mp h.leaf)
  obtain ⟨hiff, htexts⟩ := parseDisplayed_spec hwf
  have hpath : (shResolveCommandInternal s path).path = text := by
    have := hresolve []
    rw [List.append_nil] at this
    rw [this]
  have hcovers : ((parseDisplayed s).status = Status.ok ∧
      ∃ i ∈ List.range (parseDisplayed s).texts.length, TokenHides env s
        (shResolveCommandInternal s (parseDisplayed s).texts) (parseDisplayed s).texts p i) ↔
      PayloadCovered env s path p := by
    unfold PayloadCovered
    rw [← hiff]
    refine and_congr_right fun hok => ?_
    obtain ⟨rest, hrest⟩ := h.parseDisplayed_texts hwf hok
    rw [← htexts hok, List.length_map, hrest, hresolve, hpath]
    refine exists_congr fun k => ?_
    rw [List.mem_range, TokenHides, hwf.lineStr_bytes]
    have hmasked : tokenMasked env s.cfg ⟨some n, path.length, text⟩ k
          ((path ++ rest).getD k CStr.empty) = true ↔
        path.length ≤ k ∨ s.cfg.shouldMaskArg.any fun f =>
          env.shouldMaskArg f text k (path.getD k CStr.empty) s.cfg.maskCtx := by
      rcases Nat.lt_or_ge k path.length with hk | hk
      · rw [List.getD_append _ _ _ _ hk, tokenMasked]
        simp [Nat.not_le.mpr hk]
      · rw [tokenMasked]
        simp [hk, h.sensitive]
    rw [hmasked]
    constructor
    · rintro ⟨hlt, hhidden, hword⟩
      exact ⟨hword, hlt, hhidden⟩
    · rintro ⟨hword, hlt, hhidden⟩
      exact ⟨hlt, hhidden, hword⟩
  rw [getElem?_buildDisplayLine env hwf, hc.2.1, Option.map_some, Option.some.injEq, ← hcovers]
  split_ifs with hcovered
  · exact ⟨fun _ => .inr hcovered.2, fun _ => rfl⟩
  · exact (or_iff_left fun h => hcovered ⟨hc.2.2.1, h⟩).symm

/-- **No byte of the payload is shown** exactly when the two scanners agree on every byte that has
to be hidden and is not a star itself.

**Proof sketch.** The path stands in front of the tokens and is resolved to the command, so all
tokens behind it are masked. A byte of the payload is then shown as a star when its word, as
`raw_token_span` counts, is one of these tokens. -/
theorem masksPayload_iff (hwf : s.Wf) (hreg : Registered s)
    (h : TypesSecret s path n pre ws payload) :
    MasksPayload env s (pre ++ ws).length ↔
      ∀ p c, SecretByte s (pre ++ ws).length p c → c ≠ star → PayloadCovered env s path p := by
  refine forall_congr' fun p => forall_congr' fun c => ?_
  constructor
  · intro hmasks hc hstar
    exact ((h.getElem?_display hwf hreg hc).mp (hmasks hc)).resolve_left hstar
  · intro hcovered hc
    rw [h.getElem?_display hwf hreg hc]
    by_cases hstar : c = star
    · exact .inl hstar
    · exact .inr (hcovered hc hstar)

end Payload

/-- The secret "abc" behind the name of the command. -/
private theorem typesSecret_login :
    TypesSecret (loginSys (str "login abc")).sh [str "login"] loginCommand
    (ascii "login") (ascii " ") (ascii "abc") where
  text := by decide +kernel
  nonempty := by decide +kernel
  spaces := by decide +kernel
  status := by decide +kernel
  texts := by decide +kernel
  isPath := .single List.mem_cons_self rfl
  leaf := rfl
  sensitive := rfl

/-- The secret "abc" is not shown. -/
theorem masksPayload_iff_login :
    MasksPayload loginEnv (loginSys (str "login abc")).sh (ascii "login" ++ ascii " ").length ↔
      ∀ p c, SecretByte (loginSys (str "login abc")).sh (ascii "login" ++ ascii " ").length p c →
        c ≠ star → PayloadCovered loginEnv (loginSys (str "login abc")).sh [str "login"] p :=
  masksPayload_iff (loginSys_reachable _).wf (loginSys_reachable _).registered typesSecret_login

/-- A backslash at the end of the line shows the secret: a reachable shell with the line
`login ab\`. -/
theorem not_masksPayload_backslash :
    let st := loginSys (str "login ab\\")
    Reachable loginEnv st ∧
      TypesSecret st.sh [str "login"] loginCommand (ascii "login") (ascii " ") (ascii "ab\\") ∧
      ¬MasksPayload loginEnv st.sh (ascii "login" ++ ascii " ").length := by
  refine ⟨loginSys_reachable _, ⟨by decide +kernel, by decide +kernel, by decide +kernel,
    by decide +kernel, by decide +kernel, .single List.mem_cons_self rfl, rfl, rfl⟩,
    fun hmasks => ?_⟩
  have hshown : SecretByte (loginSys (str "login ab\\")).sh 6 6 (chr 'a') :=
    ⟨le_rfl, by decide +kernel, by decide +kernel, by decide +kernel⟩
  have hstar := hmasks 6 (chr 'a') hshown
  have hplain : (buildDisplayLine loginEnv (loginSys (str "login ab\\")).sh displaySize)[6]? =
      some (chr 'a') := by decide +kernel
  exact absurd (hstar.symm.trans hplain) (by decide +kernel)

end PortableShell
