import PortableShell.InPlace
import PortableShell.Masking

set_option relaxedAutoImplicit false
set_option autoImplicit false

/-!
# The raw scanners and the tokenizer

`raw_token_span` and `unmatched_quote` scan the line a second time, for the places of the tokens
and for the quotation that is left open. They take a backslash inside single quotes for an escape,
which it is not for `sh_tokenize`. This file says exactly when that makes a difference.

## Main definitions

* `PortableShell.tokenScan`, `PortableShell.rawScan` — what the two ways of scanning know of the
  text in front of a byte.
* `PortableShell.tokenNumbers` — the number of the token that each byte was parsed into.
* `PortableShell.ScannersAgree` — the second scan finds what the tokenizer found.
* `PortableShell.ScansAgree` — the misread backslashes make no difference.
* `PortableShell.EvenFragments` — no single-quoted fragment ends in an odd number of backslashes.

## Main results

* `PortableShell.wordNumbers_eq_iff` — words and tokens are numbered alike when the two scans agree
  at the whitespace of the line.
* `PortableShell.unmatchedQuote_eq_iff` — the open quotation is the one reported when the two scans
  agree where it was opened.
* `PortableShell.scansAgree_of_evenFragments` — a condition on the line for which the scans agree.
* `PortableShell.scannersAgree_iff` — the scanners agree exactly when the scans do.
-/

namespace PortableShell

/-! ## The two scans -/

namespace RawScan

/-- One byte, as `sh_tokenize` reads it: a backslash inside single quotes is text. -/
def tokenStep (s : RawScan) (c : Byte) : RawScan :=
  if s.escaped then { s with escaped := false }
  else if c = backslash ∧ s.quote ≠ squote then { s with escaped := true }
  else if s.quote ≠ 0 then if c = s.quote then { s with quote := 0 } else s
  else if isQuote c then { s with quote := c }
  else s

/-- Neither in a quotation nor behind an escape. -/
def Outside (s : RawScan) : Prop := s.escaped = false ∧ s.quote = 0

instance (s : RawScan) : Decidable s.Outside := instDecidableAnd

/-- There is one way to be outside. -/
private theorem Outside.eq_initial {s : RawScan} (h : s.Outside) : s = initial := by
  obtain ⟨quote, escaped⟩ := s
  obtain ⟨rfl, rfl⟩ := h
  rfl

/-- The start is outside. -/
private theorem initial_outside : initial.Outside := ⟨rfl, rfl⟩

/-- Whitespace is neither a backslash nor a quote character. -/
theorem ne_of_isspace {c : Byte} (h : isspace c = true) : c ≠ backslash ∧ isQuote c = false := by
  constructor
  · rintro rfl
    exact absurd h (by decide)
  · by_contra hquote
    rw [Bool.not_eq_false, isQuote, Bool.or_eq_true, decide_eq_true_eq, decide_eq_true_eq] at hquote
    rcases hquote with rfl | rfl
    · exact absurd h (by decide)
    · exact absurd h (by decide)

/-- Whitespace outside quotations is passed over. -/
private theorem step_initial {c : Byte} (h : isspace c = true) : initial.step c = initial := by
  obtain ⟨hbackslash, hquote⟩ := ne_of_isspace h
  simp [initial, step, hbackslash, hquote]

end RawScan

/-- The variables of `sh_tokenize` behind some bytes of the line. -/
def tokenScan (bytes : List Byte) : RawScan := bytes.foldl RawScan.tokenStep .initial

/-- The variables of the second scan behind some bytes of the line. -/
def rawScan (bytes : List Byte) : RawScan := bytes.foldl RawScan.step .initial

/-- The two scans, started with some variables, agree at every whitespace byte on whether it stands
outside. -/
def ScansAlike (t r : RawScan) (line : List Byte) : Prop :=
  ∀ a c b, line = a ++ c :: b → isspace c = true →
    ((a.foldl RawScan.tokenStep t).Outside ↔ (a.foldl RawScan.step r).Outside)

/-- The first byte and the rest. -/
private theorem scansAlike_cons (t r : RawScan) (c : Byte) (line : List Byte) :
    ScansAlike t r (c :: line) ↔
      (isspace c = true → (t.Outside ↔ r.Outside)) ∧
        ScansAlike (t.tokenStep c) (r.step c) line := by
  constructor
  · intro h
    exact ⟨h [] c line rfl, fun a d b heq => h (c :: a) d b (congrArg (c :: ·) heq)⟩
  · rintro ⟨hfirst, hrest⟩ a d b heq
    cases a with
    | nil =>
      obtain ⟨rfl, rfl⟩ := List.cons.inj heq
      exact hfirst
    | cons e a =>
      obtain ⟨rfl, htail⟩ := List.cons.inj heq
      exact hrest a d b htail

/-! ## The tokens of the line -/

namespace Lex

/-- The scanner variables of a state. -/
def scan : Lex → RawScan
  | failed => .initial
  | gap _ => .initial
  | word _ _ quote => ⟨quote, false⟩
  | escape _ _ quote => ⟨quote, true⟩

/-- How many tokens are finished. -/
def words : Lex → ℕ
  | failed => 0
  | gap done => done.length
  | word done _ _ => done.length
  | escape done _ _ => done.length

/-- Whether a state is between tokens. -/
def between : Lex → Bool
  | gap _ => true
  | _ => false

/-- The token that the next byte is parsed into. -/
def number (l : Lex) (c : Byte) : Option ℕ :=
  if l.scan.Outside ∧ isspace c then none else some l.words

end Lex

/-- The number of the token that each byte of the line is parsed into: nothing for the whitespace
between tokens. -/
def tokenNumbers (cap : ℕ) : Lex → List Byte → List (Option ℕ)
  | _, [] => []
  | l, c :: line => l.number c :: tokenNumbers cap (l.step cap c) line

/-- Every byte gets a number or none. -/
private theorem length_tokenNumbers (cap : ℕ) (l : Lex) (line : List Byte) :
    (tokenNumbers cap l line).length = line.length := by
  induction line generalizing l with
  | nil => rfl
  | cons c line ih => exact congrArg (· + 1) (ih (l.step cap c))

namespace Lex

/-- A byte inside a token, by the scanner variables. -/
private theorem wordStep_spec (done : List (List Byte)) (cur : List Byte) (quote c : Byte) :
    (wordStep done cur quote c).scan = (RawScan.mk quote false).tokenStep c ∧
      if quote = 0 ∧ isspace c = true then wordStep done cur quote c = gap (done ++ [cur])
      else (wordStep done cur quote c).words = done.length ∧
        (wordStep done cur quote c).between = false := by
  unfold wordStep
  by_cases hspace : quote = 0 ∧ isspace c = true
  · obtain ⟨rfl, hspace'⟩ := hspace
    obtain ⟨hbackslash, hquote⟩ := RawScan.ne_of_isspace hspace'
    rw [if_pos ⟨rfl, hspace'⟩, if_pos ⟨rfl, hspace'⟩]
    refine ⟨?_, rfl⟩
    simp [scan, RawScan.initial, RawScan.tokenStep, hbackslash, hquote]
  · rw [if_neg hspace, if_neg hspace]
    unfold RawScan.tokenStep
    split_ifs <;> simp_all [scan, words, between]

/-- **One byte of the line**, by the scanner variables: whitespace outside separates tokens, any
other byte is parsed into one.

**Proof sketch.** One case per state of the reader. Whitespace separates exactly outside of
quotations and escapes, which is what the scanner variables of the state say. -/
theorem step_spec {cap : ℕ} {l : Lex} {c : Byte} (h : l.step cap c ≠ failed) :
    (l.step cap c).scan = l.scan.tokenStep c ∧
      if l.scan.Outside ∧ isspace c = true then
        (l.step cap c).between = true ∧
          (l.step cap c).words = if l.between then l.words else l.words + 1
      else (l.step cap c).between = false ∧ (l.step cap c).words = l.words := by
  cases l with
  | failed => exact absurd rfl h
  | gap done =>
    rw [step] at h ⊢
    by_cases hspace : isspace c = true
    · obtain ⟨hbackslash, hquote⟩ := RawScan.ne_of_isspace hspace
      have hout : (gap done).scan.Outside ∧ isspace c = true := ⟨RawScan.initial_outside, hspace⟩
      rw [if_pos hspace, if_pos hout]
      refine ⟨?_, rfl, rfl⟩
      simp [scan, RawScan.initial, RawScan.tokenStep, hbackslash, hquote]
    · rw [if_neg hspace] at h ⊢
      have hin : ¬((gap done).scan.Outside ∧ isspace c = true) := fun hout => hspace hout.2
      split_ifs at h ⊢ with hfull
      · exact absurd rfl h
      · obtain ⟨hscan, hword⟩ := wordStep_spec done [] 0 c
        rw [if_neg fun hout => hspace hout.2] at hword
        exact ⟨hscan, hword.2, hword.1⟩
  | word done cur quote =>
    obtain ⟨hscan, hword⟩ := wordStep_spec done cur quote c
    refine ⟨hscan, ?_⟩
    have hout : (word done cur quote).scan.Outside ↔ quote = 0 := and_iff_right rfl
    simp only [hout]
    rw [step]
    by_cases hspace : quote = 0 ∧ isspace c = true
    · rw [if_pos hspace] at hword ⊢
      rw [hword]
      exact ⟨rfl, List.length_append⟩
    · rw [if_neg hspace] at hword ⊢
      exact ⟨hword.2, hword.1⟩
  | escape done cur quote =>
    have hin : ¬((escape done cur quote).scan.Outside ∧ isspace c = true) := by
      rintro ⟨hout, -⟩
      cases hout.1
    rw [if_neg hin]
    exact ⟨by simp [step, scan, RawScan.tokenStep], rfl, rfl⟩

/-- A state that is left without failure was none. -/
private theorem step_ne_failed {cap : ℕ} {l : Lex} {c : Byte} {line : List Byte}
    (h : l.run cap (c :: line) ≠ failed) : l.step cap c ≠ failed := by
  intro hstep
  rw [run_cons, hstep] at h
  exact h (run_failed cap line)

/-- The variables of the scanner are those of the automaton. -/
private theorem scan_run {cap : ℕ} {l : Lex} {line : List Byte} (h : l.run cap line ≠ failed) :
    (l.run cap line).scan = line.foldl RawScan.tokenStep l.scan := by
  induction line generalizing l with
  | nil => rfl
  | cons c line ih =>
    rw [run_cons, ih h, (step_spec (step_ne_failed h)).1]
    rfl

end Lex

/-! ## Words and tokens -/

/-- One byte of the line, by the variables of the second scan. -/
private theorem wordNumbers_cons (k : ℕ) (r : Option RawScan) (c : Byte) (line : List Byte) :
    wordNumbers k r (c :: line) =
      if (r.getD .initial).Outside ∧ isspace c = true then
        none :: wordNumbers (if r = none then k else k + 1) none line
      else some k :: wordNumbers k (some ((r.getD .initial).step c)) line := by
  cases r with
  | none =>
    rw [wordNumbers, Option.getD_none]
    simp only [RawScan.initial_outside, true_and, if_true]
  | some r =>
    have hout : (r.escaped = false ∧ r.quote = 0 ∧ isspace c = true) ↔
        r.Outside ∧ isspace c = true := and_assoc.symm
    rw [wordNumbers, Option.getD_some]
    simp only [hout, reduceCtorEq, if_false]

/-- **Words and tokens are numbered alike** when the two scans agree at the whitespace.

**Proof sketch.** Induction on the line. Bytes outside whitespace belong to the current word and
the current token. At whitespace both scanners stand between words, or neither, exactly when the
scans agree there. -/
theorem wordNumbers_eq_iff {cap : ℕ} {l : Lex} {r : Option RawScan} {line : List Byte}
    (hrun : l.run cap line ≠ .failed) (hbetween : r = none ↔ l.between = true) :
    wordNumbers l.words r line = tokenNumbers cap l line ↔
      ScansAlike l.scan (r.getD .initial) line := by
  induction line generalizing l r with
  | nil =>
    constructor
    · exact fun _ a c b heq => absurd heq.symm (by simp)
    · intro _
      cases r <;> rfl
  | cons c line ih =>
    have hne := Lex.step_ne_failed hrun
    obtain ⟨hscan, hstep⟩ := Lex.step_spec hne
    rw [wordNumbers_cons, tokenNumbers, Lex.number, scansAlike_cons, ← hscan]
    by_cases hr : (r.getD .initial).Outside ∧ isspace c = true
    · by_cases ht : l.scan.Outside ∧ isspace c = true
      · have hinitial : (r.getD .initial).step c = .initial := by
          rw [hr.1.eq_initial]
          exact RawScan.step_initial hr.2
        rw [if_pos ht] at hstep
        have hwords : (if r = none then l.words else l.words + 1) = (l.step cap c).words := by
          rw [hstep.2]
          simp only [hbetween]
        rw [if_pos hr, if_pos ht, List.cons_inj_right, hinitial, hwords,
          ih (r := none) hrun (iff_of_true rfl hstep.1)]
        exact (and_iff_right fun _ => iff_of_true ht.1 hr.1).symm
      · rw [if_pos hr, if_neg ht]
        refine iff_of_false (fun h => Option.some_ne_none _ (List.cons.inj h).1.symm) fun h => ?_
        exact ht ⟨(h.1 hr.2).mpr hr.1, hr.2⟩
    · by_cases ht : l.scan.Outside ∧ isspace c = true
      · rw [if_neg hr, if_pos ht]
        refine iff_of_false (fun h => Option.some_ne_none _ (List.cons.inj h).1) fun h => ?_
        exact hr ⟨(h.1 ht.2).mp ht.1, ht.2⟩
      · rw [if_neg ht] at hstep
        rw [if_neg hr, if_neg ht, List.cons_inj_right, ← hstep.2,
          ih (r := some _) hrun (iff_of_false (Option.some_ne_none _) (by simp [hstep.1]))]
        refine (and_iff_right fun hspace => ?_).symm
        exact iff_of_false (fun h => ht ⟨h, hspace⟩) fun h => hr ⟨h, hspace⟩

namespace Lex

/-- The tokens of a state: the finished ones and the one that it is in. -/
private theorem length_tokens {l : Lex} (h : l ≠ failed) :
    l.tokens.length = if l.between then l.words else l.words + 1 := by
  cases l with
  | failed => exact absurd rfl h
  | gap done => rfl
  | word done cur quote => exact List.length_append
  | escape done cur quote => exact List.length_append

end Lex

/-- Every number is that of a token. -/
private theorem lt_of_mem_tokenNumbers {cap : ℕ} {l : Lex} {line : List Byte} {i : ℕ}
    (hrun : l.run cap line ≠ .failed) (h : some i ∈ tokenNumbers cap l line) :
    i < (l.run cap line).tokens.length := by
  induction line generalizing l with
  | nil => exact absurd h List.not_mem_nil
  | cons c line ih =>
    have hne := Lex.step_ne_failed hrun
    obtain ⟨-, hstep⟩ := Lex.step_spec hne
    rcases List.mem_cons.mp h with hfirst | hrest
    · rw [Lex.number] at hfirst
      split_ifs at hfirst hstep with hout
      have hlength := Lex.length_tokens hne
      rw [if_neg (by simp [hstep.1]), hstep.2] at hlength
      have hmono : (l.step cap c).tokens.length ≤ ((l.step cap c).run cap line).tokens.length :=
        Lex.length_tokens_le_run hrun
      rw [Option.some.inj hfirst, Lex.run_cons]
      omega
    · exact ih hrun hrest

/-- Every token that is not begun yet has a byte.

**Proof sketch.** Induction on the line. A byte raises the number of tokens begun by at most one,
and the byte that raises it has the number of the token. -/
private theorem mem_tokenNumbers {cap : ℕ} {l : Lex} {line : List Byte} {i : ℕ}
    (hrun : l.run cap line ≠ .failed) (hi : l.tokens.length ≤ i)
    (hlt : i < (l.run cap line).tokens.length) : some i ∈ tokenNumbers cap l line := by
  induction line generalizing l with
  | nil => exact absurd hlt (Nat.not_lt.mpr hi)
  | cons c line ih =>
    have hne := Lex.step_ne_failed hrun
    obtain ⟨-, hstep⟩ := Lex.step_spec hne
    rcases Nat.lt_or_ge i (l.step cap c).tokens.length with hnow | hlater
    · -- the byte begins the token
      have hl : l ≠ .failed := by
        rintro rfl
        exact hne rfl
      have hafter := Lex.length_tokens hne
      have hbefore := Lex.length_tokens hl
      refine List.mem_cons.mpr (.inl ?_)
      rw [Lex.number]
      by_cases hout : l.scan.Outside ∧ isspace c = true
      · rw [if_pos hout] at hstep
        rw [if_pos hstep.1, hstep.2, ← hbefore] at hafter
        omega
      · rw [if_neg hout] at hstep ⊢
        rw [if_neg (by simp [hstep.1]), hstep.2] at hafter
        split_ifs at hbefore
        · rw [show i = l.words by omega]
        · omega
    · exact List.mem_cons_of_mem _ (ih hrun hlater hlt)

/-- A span is not empty.

**Proof sketch.** Induction on the fuel. A word begins with a byte that is no whitespace, so
`rawWordEnd_spec` gives it a length. -/
private theorem lt_of_rawTokenSpanLoop (tokenIndex : ℕ) {n : ℕ} {rest : List Byte} {index token : ℕ}
    {scan : RawScan} (hscan : rest ≠ [] → scan = .initial) {start stop : ℕ}
    (h : rawTokenSpanLoop tokenIndex n rest index token scan = some (start, stop)) :
    start < stop := by
  induction n generalizing rest index token scan with
  | zero => cases h
  | succ n ih =>
    have hhead : ¬(rest.dropWhile isspace).head?.any isspace = true := by
      have := List.head?_dropWhile_not isspace rest
      cases hd : (rest.dropWhile isspace).head? with
      | none =>
        intro h
        cases h
      | some c => simpa [hd] using this
    rw [rawTokenSpanLoop] at h
    dsimp only at h
    by_cases hword : rest.dropWhile isspace = []
    · rw [if_pos hword] at h
      cases h
    · rw [if_neg hword] at h
      have hne : rest ≠ [] := by
        rintro rfl
        exact hword rfl
      obtain ⟨m, scan', hend, -, -, hinitial, hpos⟩ :=
        rawWordEnd_spec token (rest.dropWhile isspace)
          (index + (rest.takeWhile isspace).length) .initial
      have hm := hpos (fun _ => hhead) hword
      rw [hscan hne, hend] at h
      dsimp only at h
      split_ifs at h
      · obtain ⟨rfl, rfl⟩ := Prod.mk.inj (Option.some.inj h)
        omega
      · exact ih hinitial h

/-- A span is not empty. -/
private theorem lt_of_rawTokenSpan {line : CStr} {i start stop : ℕ}
    (h : rawTokenSpan line i = some (start, stop)) : start < stop :=
  lt_of_rawTokenSpanLoop i (fun _ => rfl) h

/-- The spans of `raw_token_span` are where the tokens were parsed from, and there are no others. -/
def SpansAgree (cap : ℕ) (line : CStr) : Prop :=
  (∀ i < ((Lex.gap []).run cap line.bytes).tokens.length,
    ∃ start stop, rawTokenSpan line i = some (start, stop) ∧
      ∀ p, start ≤ p ∧ p < stop ↔
        (tokenNumbers cap (.gap []) line.bytes)[p]? = some (some i)) ∧
  ∀ i, ((Lex.gap []).run cap line.bytes).tokens.length ≤ i → rawTokenSpan line i = none

/-- **The spans of `raw_token_span`** are those of the tokens exactly when the two scans agree at
the whitespace of the line.

**Proof sketch.** Both sides number the bytes of the line. The spans agree exactly when the
numberings do (`rawTokenSpan_iff`), and these are equal exactly when the scanners separate at the
same whitespace (`wordNumbers_eq_iff`). -/
theorem spansAgree_iff {cap : ℕ} {line : CStr}
    (hrun : (Lex.gap []).run cap line.bytes ≠ .failed) :
    SpansAgree cap line ↔ ScansAlike .initial .initial line.bytes := by
  have hnumbers : wordNumbers 0 none line.bytes = tokenNumbers cap (.gap []) line.bytes ↔
      ScansAlike .initial .initial line.bytes :=
    wordNumbers_eq_iff (l := .gap []) (r := none) hrun (iff_of_true rfl rfl)
  rw [← hnumbers]
  constructor
  · rintro ⟨hspans, hnone⟩
    have hsame : ∀ p k : ℕ, (wordNumbers 0 none line.bytes)[p]? = some (some k) ↔
        (tokenNumbers cap (.gap []) line.bytes)[p]? = some (some k) := by
      intro p k
      rw [← rawTokenSpan_iff]
      rcases Nat.lt_or_ge k ((Lex.gap []).run cap line.bytes).tokens.length with hk | hk
      · obtain ⟨start, stop, hspan, hrange⟩ := hspans k hk
        rw [hspan, ← hrange]
        constructor
        · rintro ⟨start', stop', heq, h⟩
          obtain ⟨rfl, rfl⟩ := Prod.mk.inj (Option.some.inj heq)
          exact h
        · exact fun h => ⟨start, stop, rfl, h⟩
      · refine iff_of_false ?_ fun h => ?_
        · rintro ⟨start, stop, heq, -⟩
          rw [hnone k hk] at heq
          cases heq
        · exact absurd (lt_of_mem_tokenNumbers hrun (List.mem_of_getElem? h)) (Nat.not_lt.mpr hk)
    refine List.ext_getElem? fun p => ?_
    rcases Nat.lt_or_ge p line.bytes.length with hp | hp
    · obtain ⟨a, ha⟩ : ∃ a, (wordNumbers 0 none line.bytes)[p]? = some a :=
        ⟨_, List.getElem?_eq_getElem (by rwa [length_wordNumbers])⟩
      obtain ⟨b, hb⟩ : ∃ b, (tokenNumbers cap (.gap []) line.bytes)[p]? = some b :=
        ⟨_, List.getElem?_eq_getElem (by rwa [length_tokenNumbers])⟩
      have hab : ∀ k, a = some k ↔ b = some k := by
        intro k
        have := hsame p k
        rwa [ha, hb, Option.some.injEq, Option.some.injEq] at this
      rw [ha, hb, Option.ext hab]
    · rw [List.getElem?_eq_none (by rwa [length_wordNumbers]),
        List.getElem?_eq_none (by rwa [length_tokenNumbers])]
  · intro heq
    have hiff := fun i p => rawTokenSpan_iff line i p
    rw [heq] at hiff
    constructor
    · intro i hi
      obtain ⟨p, hp⟩ := List.getElem?_of_mem (mem_tokenNumbers hrun (Nat.zero_le i) hi)
      obtain ⟨start, stop, hspan, -⟩ := (hiff i p).mpr hp
      refine ⟨start, stop, hspan, fun q => ?_⟩
      rw [← hiff, hspan]
      constructor
      · exact fun h => ⟨start, stop, rfl, h⟩
      · rintro ⟨start', stop', hsame, h⟩
        obtain ⟨rfl, rfl⟩ := Prod.mk.inj (Option.some.inj hsame)
        exact h
    · intro i hi
      cases hspan : rawTokenSpan line i with
      | none => rfl
      | some span =>
        obtain ⟨start, stop⟩ := span
        have hnumber := (hiff i start).mp ⟨start, stop, hspan, le_rfl, lt_of_rawTokenSpan hspan⟩
        have hlt := lt_of_mem_tokenNumbers hrun (List.mem_of_getElem? hnumber)
        exact absurd hlt (Nat.not_lt.mpr hi)

/-! ## The open quotation -/

/-- A quotation that is opened behind the text `a` and not closed in the text `b` that follows. -/
structure Opens (line a : List Byte) (quote : Byte) (b : List Byte) : Prop where
  eq : line = a ++ quote :: b
  outside : (tokenScan a).Outside
  isQuote : PortableShell.isQuote quote = true
  isOpen : ∀ b', b' <+: b → (b'.foldl RawScan.tokenStep ⟨quote, false⟩).quote ≠ 0

/-- What the two scans have in common: an escape is one for both, unless it stands inside single
quotes, where `sh_tokenize` has none. -/
structure EscapesAlike (t r : RawScan) : Prop where
  single : t.quote = squote → t.escaped = false
  other : t.quote ≠ squote → r.escaped = t.escaped

/-- A quote character is not a backslash and not NUL. -/
private theorem ne_of_isQuote {c : Byte} (h : isQuote c = true) : c ≠ backslash ∧ c ≠ 0 := by
  constructor
  · rintro rfl
    exact absurd h (by decide)
  · rintro rfl
    exact absurd h (by decide)

/-- An escape begins at a backslash. -/
private theorem escaped_step (s : RawScan) (c : Byte) :
    (s.step c).escaped = (!s.escaped && decide (c = backslash)) := by
  unfold RawScan.step
  split_ifs with hescaped hbackslash
  · simp [hescaped]
  · simp [hescaped, hbackslash]
  all_goals simp [hescaped, hbackslash]

/-- For `sh_tokenize`, not inside single quotes. -/
private theorem escaped_tokenStep (s : RawScan) (c : Byte) : (s.tokenStep c).escaped =
    (!s.escaped && decide (c = backslash) && decide (s.quote ≠ squote)) := by
  unfold RawScan.tokenStep
  split_ifs with hescaped hbackslash
  · simp [hescaped]
  · simp [hescaped, hbackslash]
  all_goals rcases not_and_or.mp hbackslash with h | h <;> simp [hescaped, h]

/-- A backslash opens and closes no quotation. -/
private theorem quote_tokenStep_backslash (s : RawScan) :
    (s.tokenStep backslash).quote = s.quote := by
  unfold RawScan.tokenStep
  split_ifs with _ hbackslash _ hclose hopen
  · rfl
  · rfl
  · have hsingle : s.quote = squote := not_not.mp fun h => hbackslash ⟨rfl, h⟩
    exact absurd (hclose.trans hsingle) (by decide)
  · rfl
  · exact absurd hopen (by decide)
  · rfl

/-- One byte keeps that. -/
theorem EscapesAlike.step {t r : RawScan} (h : EscapesAlike t r) (c : Byte) :
    EscapesAlike (t.tokenStep c) (r.step c) := by
  by_cases hc : c = backslash
  · subst hc
    constructor
    · intro hquote
      rw [quote_tokenStep_backslash] at hquote
      rw [escaped_tokenStep]
      simp [hquote]
    · intro hquote
      rw [quote_tokenStep_backslash] at hquote
      rw [escaped_step, escaped_tokenStep, h.other hquote]
      simp [hquote]
  · have ht : (t.tokenStep c).escaped = false := by simp [escaped_tokenStep, hc]
    have hr : (r.step c).escaped = false := by simp [escaped_step, hc]
    exact ⟨fun _ => ht, fun _ => hr.trans ht.symm⟩

/-- The two scans of a text. -/
private theorem escapesAlike_scan (line : List Byte) :
    EscapesAlike (tokenScan line) (rawScan line) := by
  have hfold : ∀ (bytes : List Byte) (t r : RawScan), EscapesAlike t r →
      EscapesAlike (bytes.foldl RawScan.tokenStep t) (bytes.foldl RawScan.step r) := by
    intro bytes
    induction bytes with
    | nil => exact fun t r h => h
    | cons c bytes ih => exact fun t r h => ih _ _ (h.step c)
  exact hfold line .initial .initial ⟨fun _ => rfl, fun _ => rfl⟩

/-- **A byte inside an open quotation**: the second scan is in the same quotation behind it exactly
when it was in front of it.

**Proof sketch.** The byte does not end the quotation, so it is not the quote character, or it is
escaped for both scanners. The second scanner then neither ends its quotation nor opens that one. -/
theorem quote_step_iff {t r : RawScan} (h : EscapesAlike t r) (hquote : isQuote t.quote = true)
    {c : Byte} (hopen : (t.tokenStep c).quote ≠ 0) :
    (t.tokenStep c).quote = t.quote ∧ ((r.step c).quote = t.quote ↔ r.quote = t.quote) := by
  have hne := (ne_of_isQuote hquote).2
  -- a quote character that the second scan sees would end the quotation
  have hclose : ¬(c = t.quote ∧ r.escaped = false) := by
    rintro ⟨rfl, hr⟩
    have ht : t.escaped = false := by
      by_cases hsingle : t.quote = squote
      · exact h.single hsingle
      · rw [← h.other hsingle, hr]
    refine hopen ?_
    rw [RawScan.tokenStep, if_neg (by simp [ht]), if_neg fun hb => (ne_of_isQuote hquote).1 hb.1,
      if_pos hne, if_pos rfl]
  constructor
  · unfold RawScan.tokenStep at hopen ⊢
    split_ifs at hopen ⊢
    · rfl
    · rfl
    · exact absurd rfl hopen
    · rfl
  · unfold RawScan.step
    by_cases hescaped : r.escaped = true
    · rw [if_pos hescaped]
    · rw [if_neg hescaped]
      have hc : c ≠ t.quote := fun heq => hclose ⟨heq, by simpa using hescaped⟩
      by_cases hbackslash : c = backslash
      · rw [if_pos hbackslash]
      · rw [if_neg hbackslash]
        by_cases hinside : r.quote ≠ 0
        · rw [if_pos hinside]
          split_ifs with hend
          · exact iff_of_false (fun heq => hne heq.symm) fun heq => hc (hend.trans heq)
          · exact Iff.rfl
        · rw [if_neg hinside]
          split_ifs
          · refine iff_of_false hc fun heq => ?_
            exact hne (heq.symm.trans (not_not.mp hinside))
          · exact Iff.rfl

/-- The rest of the line inside an open quotation. -/
private theorem quote_scan_iff {t r : RawScan} (h : EscapesAlike t r)
    (hquote : isQuote t.quote = true)
    {b : List Byte} (hopen : ∀ b', b' <+: b → (b'.foldl RawScan.tokenStep t).quote ≠ 0) :
    (b.foldl RawScan.tokenStep t).quote = t.quote ∧
      ((b.foldl RawScan.step r).quote = t.quote ↔ r.quote = t.quote) := by
  induction b generalizing t r with
  | nil => exact ⟨rfl, Iff.rfl⟩
  | cons c b ih =>
    obtain ⟨hsame, hiff⟩ := quote_step_iff h hquote (hopen [c] (List.prefix_append [c] b))
    obtain ⟨hend, hrest⟩ := ih (h.step c) (by rw [hsame]; exact hquote) fun b' hb' =>
      hopen (c :: b') ((List.prefix_cons_inj c).mpr hb')
    rw [hsame] at hend hrest
    exact ⟨hend, hrest.trans hiff⟩

/-- **The quotation left open** is seen by the second scan exactly when that scan was outside
quotations where it was opened.

**Proof sketch.** The quote character opens the quotation for the first scanner, and for the second
one exactly when it is outside. The bytes behind it change neither (`quote_scan_iff`). -/
theorem Opens.quote_iff {line a b : List Byte} {quote : Byte} (h : Opens line a quote b) :
    (tokenScan line).quote = quote ∧
      ((rawScan line).quote = quote ↔ (rawScan a).Outside) := by
  obtain ⟨hbackslash, hne⟩ := ne_of_isQuote h.isQuote
  have halike := escapesAlike_scan a
  have hescaped : (rawScan a).escaped = false := by
    rw [halike.other (by rw [h.outside.2]; decide), h.outside.1]
  have hfirst : (tokenScan a).tokenStep quote = ⟨quote, false⟩ := by
    rw [h.outside.eq_initial]
    simp [RawScan.tokenStep, RawScan.initial, hbackslash, h.isQuote]
  have hfirst' : ((rawScan a).step quote).quote = quote ↔ (rawScan a).Outside := by
    rw [RawScan.Outside, and_iff_right hescaped, RawScan.step, if_neg (by simp [hescaped]),
      if_neg hbackslash]
    by_cases hinside : (rawScan a).quote ≠ 0
    · rw [if_pos hinside]
      split_ifs with hend
      · exact iff_of_false (fun heq => hne heq.symm) hinside
      · exact iff_of_false (fun heq => hend heq.symm) hinside
    · rw [if_neg hinside, if_pos h.isQuote]
      exact iff_of_true rfl (not_not.mp hinside)
  have hnext := halike.step quote
  rw [hfirst] at hnext
  obtain ⟨hend, hiff⟩ := quote_scan_iff hnext h.isQuote h.isOpen
  rw [h.eq, tokenScan, rawScan, List.foldl_append, List.foldl_cons, List.foldl_append,
    List.foldl_cons]
  exact ⟨(congrArg (fun t => (b.foldl RawScan.tokenStep t).quote) hfirst).trans hend,
    hiff.trans hfirst'⟩

/-- A quotation that is open was opened somewhere.

**Proof sketch.** Induction on the line, from the end. If a quotation was open in front of the last
byte, it still is; if none was, the last byte opened one. -/
private theorem exists_opens {line : List Byte} (h : (tokenScan line).quote ≠ 0) :
    ∃ a quote b, Opens line a quote b := by
  induction line using List.reverseRecOn with
  | nil => exact absurd rfl h
  | append_singleton line c ih =>
    have hlast : tokenScan (line ++ [c]) = (tokenScan line).tokenStep c := List.foldl_append
    by_cases hopen : (tokenScan line).quote ≠ 0
    · obtain ⟨a, quote, b, ho⟩ := ih hopen
      refine ⟨a, quote, b ++ [c], ?_, ho.outside, ho.isQuote, fun b' hb' => ?_⟩
      · rw [ho.eq, List.append_assoc, List.cons_append]
      · rcases List.prefix_concat_iff.mp hb' with rfl | hb'
        · have hfirst : (tokenScan a).tokenStep quote = ⟨quote, false⟩ := by
            rw [ho.outside.eq_initial]
            simp [RawScan.tokenStep, RawScan.initial, (ne_of_isQuote ho.isQuote).1, ho.isQuote]
          have hwhole : tokenScan (line ++ [c]) =
              (b ++ [c]).foldl RawScan.tokenStep ⟨quote, false⟩ := by
            rw [ho.eq, tokenScan, List.append_assoc, List.cons_append, List.foldl_append,
              List.foldl_cons, ← hfirst]
            rfl
          rwa [← hwhole]
        · exact ho.isOpen b' hb'
    · -- the last byte opens it
      rw [hlast] at h
      have hzero := not_not.mp hopen
      unfold RawScan.tokenStep at h
      split_ifs at h with hescaped hbackslash hquote
      · exact absurd hzero h
      · exact absurd hzero h
      · refine ⟨line, c, [], rfl, ⟨by simpa using hescaped, hzero⟩, hquote, fun b' hb' => ?_⟩
        rw [List.prefix_nil.mp hb']
        exact (ne_of_isQuote hquote).2
      · exact absurd hzero h

/-- **`unmatched_quote` reports the open quotation** exactly when the two scans agree where it was
opened. -/
theorem unmatchedQuote_eq_iff {line : CStr} (h : (tokenScan line.bytes).quote ≠ 0) :
    unmatchedQuote line = (tokenScan line.bytes).quote ↔
      ∀ a quote b, Opens line.bytes a quote b → (rawScan a).Outside := by
  constructor
  · intro heq a quote b ho
    obtain ⟨hquote, hiff⟩ := ho.quote_iff
    exact hiff.mp (heq.trans hquote)
  · intro hall
    obtain ⟨a, quote, b, ho⟩ := exists_opens h
    obtain ⟨hquote, hiff⟩ := ho.quote_iff
    exact (hiff.mpr (hall a quote b ho)).trans hquote.symm

/-! ## The scanners and the tokenizer -/

section Scanners

variable {cap : ℕ} {line : CStr}

/-- A line is accepted when the automaton ends well, and then it has these tokens. -/
private theorem accepted_iff (hcap : cap ≠ 0) :
    (shTokenize (line.bytes ++ [0]) cap).status = Status.ok ↔
      ∃ toks, ((Lex.gap []).run cap line.bytes).finish = .ok toks :=
  shTokenize_status_eq_ok hcap line.nonzero []

/-- A line ends in an open quotation when the automaton does. -/
private theorem unterminated_iff (hcap : cap ≠ 0) :
    (shTokenize (line.bytes ++ [0]) cap).status = Status.errUnterminatedQuote ↔
      ∃ done cur quote, (Lex.gap []).run cap line.bytes = .word done cur quote ∧ quote ≠ 0 := by
  rw [shTokenize_status hcap line.nonzero [], tokenize]
  constructor
  · intro h
    cases hl : (Lex.gap []).run cap line.bytes with
    | failed => rw [hl] at h; cases h
    | gap done => rw [hl] at h; cases h
    | word done cur quote =>
      refine ⟨done, cur, quote, rfl, fun hquote => ?_⟩
      rw [hl, Lex.finish, if_neg (not_not.mpr hquote)] at h
      cases h
    | escape done cur quote => rw [hl] at h; cases h
  · rintro ⟨done, cur, quote, hl, hquote⟩
    rw [hl, Lex.finish, if_pos hquote]

/-- The variables of the scan at the end of such a line. -/
private theorem tokenScan_of_run {done : List (List Byte)} {cur : List Byte} {quote : Byte}
    (h : (Lex.gap []).run cap line.bytes = .word done cur quote) :
    tokenScan line.bytes = ⟨quote, false⟩ := by
  have hne : (Lex.gap []).run cap line.bytes ≠ .failed := by
    rw [h]
    intro hfailed
    cases hfailed
  have hscan := Lex.scan_run hne
  rw [h] at hscan
  exact hscan.symm

/-- A token that the application hides. -/
def AppMasks {ω : Type} (env : Env ω) (s : Shell) (argv : List CStr) (i : ℕ) : Prop :=
  (s.cfg.shouldMaskArg.any fun f => env.shouldMaskArg f (shResolveCommandInternal s argv).path i
    (argv.getD i CStr.empty) s.cfg.maskCtx) = true

instance {ω : Type} (env : Env ω) (s : Shell) (argv : List CStr) (i : ℕ) :
    Decidable (AppMasks env s argv i) := instDecidableEqBool _ _

variable (cap line) in
/-- **The second scan finds what the tokenizer found**: the places of the tokens, so that the bytes
that are hidden are those of the tokens to hide, and the quotation left open, so that closing it
completes the line. -/
structure ScannersAgree : Prop where
  spans : (shTokenize (line.bytes ++ [0]) cap).status = Status.ok → SpansAgree cap line
  display : (shTokenize (line.bytes ++ [0]) cap).status = Status.ok →
    ∀ {ω : Type} (env : Env ω) (s : Shell), s.Wf → s.text = line.bytes → s.argvCapacity = cap →
      (shResolveCommandInternal s (shTokenize (line.bytes ++ [0]) cap).args).cmd.any
        Cmd.sensitive = false →
      ∀ p : ℕ, (buildDisplayLine env s displaySize)[p]? = s.text[p]?.map fun c =>
        if isQuote c = false ∧ ∃ i ∈ List.range (shTokenize (line.bytes ++ [0]) cap).args.length,
            AppMasks env s (shTokenize (line.bytes ++ [0]) cap).args i ∧
              (tokenNumbers cap (.gap []) line.bytes)[p]? = some (some i)
        then star else c
  closing : (shTokenize (line.bytes ++ [0]) cap).status = Status.errUnterminatedQuote →
    unmatchedQuote line = (tokenScan line.bytes).quote ∧
      (shTokenize (line.bytes ++ [unmatchedQuote line, 0]) cap).status = Status.ok

variable (cap line) in
/-- **Misread backslashes make no difference**: at every whitespace byte of a line that is accepted
the two scans agree on whether it stands outside, and where a quotation is left open the second
scan was outside when it was opened. -/
structure ScansAgree : Prop where
  spaces : (shTokenize (line.bytes ++ [0]) cap).status = Status.ok →
    ∀ a c b, line.bytes = a ++ c :: b → isspace c = true →
      ((tokenScan a).Outside ↔ (rawScan a).Outside)
  opening : (shTokenize (line.bytes ++ [0]) cap).status = Status.errUnterminatedQuote →
    ∀ a quote b, Opens line.bytes a quote b → (rawScan a).Outside

/-! ## Lines without a misread backslash -/

/-- The backslashes at the end of a text. -/
def trailingBackslashes (text : List Byte) : ℕ :=
  (text.reverse.takeWhile fun c => decide (c = backslash)).length

/-- A further byte. -/
private theorem trailingBackslashes_append (text : List Byte) (c : Byte) :
    trailingBackslashes (text ++ [c]) =
      if c = backslash then trailingBackslashes text + 1 else 0 := by
  unfold trailingBackslashes
  rw [List.reverse_append, List.reverse_singleton, List.singleton_append]
  by_cases hc : c = backslash
  · rw [if_pos hc, List.takeWhile_cons_of_pos (by simpa using hc), List.length_cons]
  · rw [if_neg hc, List.takeWhile_cons_of_neg (by simpa using hc), List.length_nil]

/-- No single-quoted fragment of the line ends in an odd number of backslashes. -/
def EvenFragments (line : List Byte) : Prop :=
  ∀ a fragment b, line = a ++ squote :: (fragment ++ squote :: b) → (tokenScan a).Outside →
    squote ∉ fragment → trailingBackslashes fragment % 2 = 0

/-- Behind a text the two scans have the same variables, or both are inside single quotes, where the
second one counts the backslashes. -/
inductive ScansBeside (text : List Byte) : Prop
  | same (heq : rawScan text = tokenScan text) (hquote : (tokenScan text).quote ≠ squote)
  | single (a fragment : List Byte) (htext : text = a ++ squote :: fragment)
      (houtside : (tokenScan a).Outside) (hfragment : squote ∉ fragment)
      (htoken : tokenScan text = ⟨squote, false⟩)
      (hraw : rawScan text = ⟨squote, decide (trailingBackslashes fragment % 2 = 1)⟩)

/-- A further byte of the first scan. -/
private theorem tokenScan_append (text : List Byte) (c : Byte) :
    tokenScan (text ++ [c]) = (tokenScan text).tokenStep c := List.foldl_append

/-- A further byte of the second scan. -/
private theorem rawScan_append (text : List Byte) (c : Byte) :
    rawScan (text ++ [c]) = (rawScan text).step c := List.foldl_append

/-- Outside single quotes the two scans take the same steps. -/
private theorem RawScan.tokenStep_eq {s : RawScan} (hquote : s.quote ≠ squote) (c : Byte) :
    s.tokenStep c = s.step c := by
  unfold tokenStep step
  simp only [ne_eq, hquote, not_false_eq_true, and_true]

/-- A quotation that has just begun was opened outside. -/
private theorem RawScan.opened_single {s : RawScan} {c : Byte} (hquote : s.quote ≠ squote)
    (hopened : (s.tokenStep c).quote = squote) :
    s.Outside ∧ c = squote ∧ s.tokenStep c = ⟨squote, false⟩ := by
  unfold tokenStep at hopened ⊢
  split_ifs at hopened ⊢ with hescaped hbackslash hinside hclose hopen
  · exact absurd hopened hquote
  · exact absurd hopened hquote
  · have hzero : (0 : Byte) = squote := hopened
    exact absurd hzero (by decide)
  · exact absurd hopened hquote
  · obtain rfl : c = squote := hopened
    have hnone : s.escaped = false := (Bool.not_eq_true _).mp hescaped
    exact ⟨⟨hnone, not_not.mp hinside⟩, rfl, by rw [hnone]⟩
  · exact absurd hopened hquote

/-- A byte inside single quotes, other than a quote. -/
private theorem step_single {c : Byte} (hc : c ≠ squote) (fragment : List Byte) :
    (⟨squote, false⟩ : RawScan).tokenStep c = ⟨squote, false⟩ ∧
      (⟨squote, decide (trailingBackslashes fragment % 2 = 1)⟩ : RawScan).step c =
        ⟨squote, decide (trailingBackslashes (fragment ++ [c]) % 2 = 1)⟩ := by
  have hsingle : squote ≠ 0 := by decide
  constructor
  · simp [RawScan.tokenStep, hc, hsingle]
  · rw [trailingBackslashes_append]
    by_cases hodd : trailingBackslashes fragment % 2 = 1
    · have heven : ¬(trailingBackslashes fragment + 1) % 2 = 1 := by omega
      by_cases hbackslash : c = backslash <;> simp [RawScan.step, hodd, hbackslash, heven]
    · have hnext : (trailingBackslashes fragment + 1) % 2 = 1 := by omega
      by_cases hbackslash : c = backslash <;>
        simp [RawScan.step, hodd, hbackslash, hnext, hc, hsingle]

/-- A further byte of a line without a misread backslash.

**Proof sketch.** Outside of single quotations both scanners do the same, and a single quote opens
one for both. Inside, the scanners differ only in what they make of a backslash, and where the
fragment ends its backslashes come in pairs, so both are outside again. -/
private theorem ScansBeside.snoc {line text rest : List Byte} {c : Byte}
    (heven : EvenFragments line)
    (h : ScansBeside text) (hline : line = text ++ c :: rest) : ScansBeside (text ++ [c]) := by
  cases h with
  | same heq hquote =>
    have hstep : rawScan (text ++ [c]) = tokenScan (text ++ [c]) := by
      rw [rawScan_append, tokenScan_append, heq, RawScan.tokenStep_eq hquote]
    by_cases hopened : (tokenScan (text ++ [c])).quote = squote
    · rw [tokenScan_append] at hopened
      obtain ⟨houtside, rfl, hnew⟩ := RawScan.opened_single hquote hopened
      rw [← tokenScan_append] at hnew
      exact .single text [] rfl houtside List.not_mem_nil hnew (hstep.trans hnew)
    · exact .same hstep hopened
  | single a fragment htext houtside hfragment htoken hraw =>
    by_cases hc : c = squote
    · -- the quotation ends for both, since its backslashes come in pairs
      subst hc
      have hpairs := heven a fragment rest (by rw [hline, htext]; simp) houtside hfragment
      have hraw' : rawScan text = ⟨squote, false⟩ := by simpa [hpairs] using hraw
      have hclosed : (⟨squote, false⟩ : RawScan).tokenStep squote = .initial ∧
          (⟨squote, false⟩ : RawScan).step squote = .initial := by decide
      have htoken' : tokenScan (text ++ [squote]) = .initial := by
        rw [tokenScan_append, htoken, hclosed.1]
      refine .same ?_ ?_
      · rw [rawScan_append, hraw', hclosed.2, htoken']
      · rw [htoken']
        decide
    · obtain ⟨hfirst, hsecond⟩ := step_single hc fragment
      refine .single a (fragment ++ [c]) (by rw [htext]; simp) houtside ?_ ?_ ?_
      · rw [List.mem_append, List.mem_singleton, not_or]
        exact ⟨hfragment, Ne.symm hc⟩
      · rw [tokenScan_append, htoken, hfirst]
      · rw [rawScan_append, hraw, hsecond]

/-- The two scans of a line without a misread backslash. -/
private theorem scansBeside_of_evenFragments {line text rest : List Byte}
    (heven : EvenFragments line) (hline : line = text ++ rest) : ScansBeside text := by
  induction text using List.reverseRecOn generalizing rest with
  | nil => exact .same rfl (by decide)
  | append_singleton text c ih =>
    have hsplit : line = text ++ c :: rest := by
      rw [hline, List.append_assoc, List.singleton_append]
    exact (ih hsplit).snoc heven hsplit

/-- They agree on what is outside. -/
private theorem ScansBeside.outside_iff {text : List Byte} (h : ScansBeside text) :
    (tokenScan text).Outside ↔ (rawScan text).Outside := by
  cases h with
  | same heq _ => rw [heq]
  | single a fragment _ _ _ htoken hraw =>
    rw [htoken, hraw]
    have hquote : squote ≠ 0 := by decide
    exact iff_of_false (fun h => hquote h.2) fun h => hquote h.2

/-- **Where no single-quoted fragment ends in an odd number of backslashes** the scans agree. -/
theorem scansAgree_of_evenFragments (heven : EvenFragments line.bytes) : ScansAgree cap line where
  spaces := fun _ _ _ _ hsplit _ => (scansBeside_of_evenFragments heven hsplit).outside_iff
  opening := fun _ _ _ _ hopens =>
    (scansBeside_of_evenFragments heven hopens.eq).outside_iff.mp hopens.outside

/-- A line that is accepted does not fail on the way. -/
private theorem run_ne_failed_of_accepted (hcap : cap ≠ 0)
    (h : (shTokenize (line.bytes ++ [0]) cap).status = Status.ok) :
    (Lex.gap []).run cap line.bytes ≠ .failed := by
  obtain ⟨toks, hfinish⟩ := (accepted_iff hcap).mp h
  intro hfailed
  rw [hfailed] at hfinish
  cases hfinish

/-- What is shown of a line that is accepted, when words and tokens are numbered alike.

**Proof sketch.** The line is accepted as it is, so the display looks at its own tokens. The command
is not sensitive, so a byte is a star exactly when the application masks the token whose number it
has, and words and tokens have the same numbers. -/
private theorem getElem?_display_of_spansAgree (hcap : cap ≠ 0)
    (h : (shTokenize (line.bytes ++ [0]) cap).status = Status.ok) (hspans : SpansAgree cap line)
    {ω : Type} (env : Env ω) {s : Shell} (hwf : s.Wf) (htext : s.text = line.bytes)
    (hcapacity : s.argvCapacity = cap)
    (hplain : (shResolveCommandInternal s (shTokenize (line.bytes ++ [0]) cap).args).cmd.any
      Cmd.sensitive = false) (p : ℕ) :
    (buildDisplayLine env s displaySize)[p]? = s.text[p]?.map fun c =>
      if isQuote c = false ∧ ∃ i ∈ List.range (shTokenize (line.bytes ++ [0]) cap).args.length,
          AppMasks env s (shTokenize (line.bytes ++ [0]) cap).args i ∧
            (tokenNumbers cap (.gap []) line.bytes)[p]? = some (some i)
      then star else c := by
  have hrun := run_ne_failed_of_accepted hcap h
  have hnumbers := (wordNumbers_eq_iff (l := .gap []) (r := none) hrun (iff_of_true rfl rfl)).mpr
    ((spansAgree_iff hrun).mp hspans)
  have hparsed : parseDisplayed s = shTokenize (line.bytes ++ [0]) cap := by
    rw [parseDisplayed, htext, hcapacity]
    dsimp only
    rw [if_neg fun hopen => ?_]
    rw [h] at hopen
    cases hopen.1
  have hargs : (shTokenize (line.bytes ++ [0]) cap).args =
      (shTokenize (line.bytes ++ [0]) cap).texts := if_pos h
  rw [hargs] at hplain ⊢
  rw [getElem?_buildDisplayLine env hwf, hparsed]
  have hmasked : ∀ i arg, tokenMasked env s.cfg
      (shResolveCommandInternal s (shTokenize (line.bytes ++ [0]) cap).texts) i arg =
        s.cfg.shouldMaskArg.any fun f => env.shouldMaskArg f
          (shResolveCommandInternal s (shTokenize (line.bytes ++ [0]) cap).texts).path i arg
          s.cfg.maskCtx := by
    intro i arg
    rw [tokenMasked]
    cases hcmd : (shResolveCommandInternal s (shTokenize (line.bytes ++ [0]) cap).texts).cmd with
    | none => rfl
    | some cmd =>
      rw [hcmd, Option.any_some] at hplain
      rw [Option.any_some, hplain, Bool.false_and, Bool.false_or]
  have hhides : ∀ i, TokenHides env s
      (shResolveCommandInternal s (shTokenize (line.bytes ++ [0]) cap).texts)
      (shTokenize (line.bytes ++ [0]) cap).texts p i ↔
        AppMasks env s (shTokenize (line.bytes ++ [0]) cap).texts i ∧
          (tokenNumbers cap (.gap []) line.bytes)[p]? = some (some i) := by
    intro i
    rw [TokenHides, hmasked, hwf.lineStr_bytes, htext, ← hnumbers]
    rfl
  simp only [hhides, h, true_and]

/-- **The scanners agree exactly when the scans do.**

**Proof sketch.** The places of the tokens are a matter of the whitespace outside quotations, and
what is displayed follows from the places. An open quotation is seen by the second scan when it was
outside where the quotation was opened. -/
theorem scannersAgree_iff (hcap : cap ≠ 0) : ScannersAgree cap line ↔ ScansAgree cap line := by
  constructor
  · intro h
    refine ⟨fun haccepted => ?_, fun hopen => ?_⟩
    · exact (spansAgree_iff (run_ne_failed_of_accepted hcap haccepted)).mp (h.spans haccepted)
    · obtain ⟨done, cur, quote, hl, hquote⟩ := (unterminated_iff hcap).mp hopen
      have hne : (tokenScan line.bytes).quote ≠ 0 := by
        rw [tokenScan_of_run hl]
        exact hquote
      exact (unmatchedQuote_eq_iff hne).mp (h.closing hopen).1
  · intro h
    have hspans : (shTokenize (line.bytes ++ [0]) cap).status = Status.ok →
        SpansAgree cap line := fun haccepted =>
      (spansAgree_iff (run_ne_failed_of_accepted hcap haccepted)).mpr (h.spaces haccepted)
    refine ⟨hspans, fun haccepted _ env s hwf htext hcapacity hplain p =>
      getElem?_display_of_spansAgree hcap haccepted (hspans haccepted) env hwf htext hcapacity
        hplain p, fun hopen => ?_⟩
    obtain ⟨done, cur, quote, hl, hquote⟩ := (unterminated_iff hcap).mp hopen
    have hstate : (tokenScan line.bytes).quote = quote := by rw [tokenScan_of_run hl]
    have hreported := (unmatchedQuote_eq_iff (by rwa [hstate])).mpr (h.opening hopen)
    refine ⟨hreported, ?_⟩
    rw [hstate] at hreported
    have hisQuote : isQuote quote = true := by
      rw [← hreported]
      exact (unmatchedQuote_cases line).resolve_left (by rwa [hreported])
    have hz : 0 ∉ line.bytes ++ [quote] := by simp [line.nonzero, hquote.symm]
    have hfinish : ((Lex.gap []).run cap (line.bytes ++ [quote])).finish = .ok (done ++ [cur]) := by
      rw [Lex.run_append, hl]
      show (Lex.wordStep done cur quote quote).finish = _
      rw [wordStep_quote hquote hisQuote, if_pos rfl]
      rfl
    rw [hreported, show line.bytes ++ [quote, 0] = line.bytes ++ [quote] ++ [0] by simp]
    exact (shTokenize_of_finish_ok hcap hz hfinish).1

/-- A line with quotations and an escaped blank. -/
theorem scannersAgree_iff_small :
    ScannersAgree 4 (str "a 'b c' d\\ e") ↔ ScansAgree 4 (str "a 'b c' d\\ e") :=
  scannersAgree_iff (by decide)

/-- A backslash at the end of a single-quoted fragment: `sh_tokenize` finds two tokens, and
`raw_token_span` takes the whole line for one. -/
theorem not_scannersAgree_backslash : ¬ScannersAgree 4 (str "'a\\' b") := by
  intro h
  have hnone := (h.spans (by decide +kernel)).1 1 (by decide +kernel)
  obtain ⟨start, stop, hspan, -⟩ := hnone
  have hmissing : rawTokenSpan (str "'a\\' b") 1 = none := by decide +kernel
  rw [hmissing] at hspan
  cases hspan

end Scanners

end PortableShell
