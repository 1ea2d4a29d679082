import PortableShell.Masking
import PortableShell.Replay

set_option relaxedAutoImplicit false
set_option autoImplicit false

/-!
# Masked history entries

A line with a secret in it goes into the history rebuilt: every masked token is replaced, and
tokens with special bytes are quoted. Reading the entry back gives the tokens exactly when the
rebuilt line fits the buffer and the slot, and no token has a line break, a form feed or a vertical
tab in it without a reason to be quoted.

## Main definitions

* `PortableShell.quoteLine` — the rebuilt line, with no bound on its length.
* `PortableShell.Bare` — a token that is not quoted in spite of whitespace in it.
* `PortableShell.KeepsShape` — the newest entry reads back as the tokens shown.

## Main results

* `PortableShell.foldl_appendToken` — the bounded appends cut the rebuilt line.
* `PortableShell.tokenize_quoteLine_iff` — what reads back from a part of the rebuilt line.
* `PortableShell.keepsShape_iff` — the newest entry reads back as the tokens exactly when the
  rebuilt line fits and no token is bare.
-/

namespace PortableShell

variable {ω : Type}

/-! ## The rebuilt line -/

/-- The blank between tokens. -/
def blank : Byte := chr ' '

/-- The bytes of a token with `"` and `\` escaped. -/
def escapeBytes (bytes : List Byte) : List Byte :=
  bytes.flatMap fun c => if c = dquote ∨ c = backslash then [backslash, c] else [c]

/-- One token of the rebuilt line. -/
def quoteToken (token : CStr) : List Byte :=
  if tokenNeedsQuotes token then dquote :: (escapeBytes token.bytes ++ [dquote])
  else escapeBytes token.bytes

/-- The tokens behind the first one, with the blanks in front of them. -/
def quoteRest (tokens : List CStr) : List Byte := tokens.flatMap fun t => blank :: quoteToken t

/-- One more token. -/
private theorem quoteRest_cons (t : CStr) (tokens : List CStr) :
    quoteRest (t :: tokens) = blank :: (quoteToken t ++ quoteRest tokens) := rfl

/-- The rebuilt line. -/
def quoteLine : List CStr → List Byte
  | [] => []
  | t :: tokens => quoteToken t ++ quoteRest tokens

/-- Appending one byte to a text that was cut. -/
private theorem appendChar_take (x : List Byte) (n : ℕ) (c : Byte) :
    appendChar (x.take n) (n + 1) c = (x ++ [c]).take n := by
  rw [appendChar, List.length_take]
  rcases Nat.lt_or_ge x.length n with h | h
  · rw [if_pos (by omega), List.take_of_length_le h.le,
      List.take_of_length_le (by rw [List.length_append, List.length_singleton]; omega)]
  · rw [if_neg (by omega), List.take_append_of_le_length h]

/-- Appending the bytes of a token to a text that was cut. -/
private theorem appendBytes_take (x : List Byte) (n : ℕ) (bytes : List Byte) :
    appendBytes (x.take n) (n + 1) bytes = (x ++ escapeBytes bytes).take n := by
  induction bytes generalizing x with
  | nil => rw [escapeBytes, List.flatMap_nil, List.append_nil]; rfl
  | cons c bytes ih =>
    unfold appendBytes at ih ⊢
    rw [List.foldl_cons, escapeBytes, List.flatMap_cons, ← List.append_assoc]
    by_cases hc : c = dquote ∨ c = backslash
    · rw [if_pos hc, if_pos hc, appendChar_take, appendChar_take, ih, List.append_assoc x]
      rfl
    · rw [if_neg hc, if_neg hc, appendChar_take, ih]
      rfl

/-- Appending a token to a text that was cut. -/
private theorem appendToken_take (x : List Byte) {n : ℕ} (hn : n ≠ 0) (t : CStr) :
    appendToken (x.take n) (n + 1) t =
      ((if x = [] then [] else x ++ [blank]) ++ quoteToken t).take n := by
  have hspace : (if (x.take n).length ≠ 0 ∧ (x.take n).length + 1 < n + 1 then
      x.take n ++ [chr ' '] else x.take n) = (if x = [] then [] else x ++ [blank]).take n := by
    by_cases hx : x = []
    · rw [hx, List.take_nil, if_pos rfl, List.take_nil]
      rfl
    · have hpos : 0 < x.length := List.length_pos_of_ne_nil hx
      have hlength : (x.take n).length ≠ 0 := by
        rw [List.length_take]
        omega
      have happend := appendChar_take x n (chr ' ')
      rw [appendChar] at happend
      simp only [hlength, ne_eq, not_false_eq_true, true_and, hx, if_false]
      exact happend
  unfold appendToken quoteToken
  dsimp only
  rw [hspace]
  by_cases hquotes : tokenNeedsQuotes t = true
  · rw [if_pos hquotes, if_pos hquotes, if_pos hquotes, appendChar_take, appendBytes_take,
      appendChar_take]
    simp only [List.append_assoc, List.cons_append, List.nil_append]
  · rw [if_neg hquotes, if_neg hquotes, if_neg hquotes, appendBytes_take]

/-- A quoted token is not empty. -/
private theorem quoteToken_ne_nil (t : CStr) : quoteToken t ≠ [] := by
  unfold quoteToken
  split_ifs with hquotes
  · exact List.cons_ne_nil _ _
  · have hne : t.bytes ≠ [] := by
      intro hnil
      refine hquotes ?_
      rw [tokenNeedsQuotes, CStr.isEmpty, hnil]
      rfl
    obtain ⟨c, bytes, hcons⟩ := List.exists_cons_of_ne_nil hne
    rw [hcons, escapeBytes, List.flatMap_cons]
    split_ifs <;> exact List.cons_ne_nil _ _

/-- **The bounded appends** cut the rebuilt line at the size of the buffer. -/
theorem foldl_appendToken (tokens : List CStr) {n : ℕ} (hn : n ≠ 0) :
    tokens.foldl (fun out t => appendToken out (n + 1) t) [] = (quoteLine tokens).take n := by
  have hrest : ∀ (tokens : List CStr) (x : List Byte), x ≠ [] →
      tokens.foldl (fun out t => appendToken out (n + 1) t) (x.take n) =
        (x ++ quoteRest tokens).take n := by
    intro tokens
    induction tokens with
    | nil => exact fun x _ => by rw [quoteRest, List.flatMap_nil, List.append_nil]; rfl
    | cons t tokens ih =>
      intro x hx
      rw [List.foldl_cons, appendToken_take x hn, if_neg hx,
        ih _ (List.append_ne_nil_of_right_ne_nil _ (quoteToken_ne_nil t)), quoteRest_cons]
      simp only [List.append_assoc, List.cons_append, List.nil_append]
  cases tokens with
  | nil => exact (List.take_nil).symm
  | cons t tokens =>
    have hfirst := appendToken_take [] hn t
    rw [List.take_nil, if_pos rfl, List.nil_append] at hfirst
    rw [List.foldl_cons, hfirst, hrest tokens _ (quoteToken_ne_nil t)]
    rfl

/-! ## Reading one token back -/

/-- A byte with a meaning of its own for the tokenizer, apart from whitespace. -/
def Special (c : Byte) : Prop := c = dquote ∨ c = backslash ∨ c = squote

instance (c : Byte) : Decidable (Special c) := instDecidableOr

/-- A token that is not quoted in spite of whitespace in it: it has a line break, a vertical tab, a
form feed or a carriage return in it, and neither a blank nor a tab, a quote character or a
backslash. -/
def Bare (bytes : List Byte) : Prop :=
  (∃ c ∈ bytes, isspace c = true) ∧ ∀ c ∈ bytes, ¬Special c ∧ c ≠ blank ∧ c ≠ chr '\t'

instance (bytes : List Byte) : Decidable (Bare bytes) :=
  @instDecidableAnd _ _ (List.decidableBEx _ bytes) (List.decidableBAll _ bytes)

/-- A token is quoted when it is empty or has one of these bytes in it. -/
private theorem tokenNeedsQuotes_iff (t : CStr) :
    tokenNeedsQuotes t = true ↔
      t.bytes = [] ∨ ∃ c ∈ t.bytes, Special c ∨ c = blank ∨ c = chr '\t' := by
  rw [tokenNeedsQuotes, Bool.or_eq_true, CStr.isEmpty, List.isEmpty_iff, List.any_eq_true]
  refine or_congr Iff.rfl (exists_congr fun c => and_congr_right fun _ => ?_)
  simp only [Bool.or_eq_true, decide_eq_true_eq, Special, blank]
  tauto

/-- A token that is quoted is not bare. -/
private theorem not_bare_of_needsQuotes {t : CStr} (h : tokenNeedsQuotes t = true) :
    ¬Bare t.bytes := by
  rintro ⟨⟨c, hc, -⟩, hplain⟩
  rcases (tokenNeedsQuotes_iff t).mp h with hnil | ⟨d, hd, hspecial | hblank | htab⟩
  · rw [hnil] at hc
    exact List.not_mem_nil hc
  · exact (hplain d hd).1 hspecial
  · exact (hplain d hd).2.1 hblank
  · exact (hplain d hd).2.2 htab

/-- A token that is not quoted has no special bytes and is copied. -/
private theorem quoteToken_of_plain {t : CStr} (h : ¬tokenNeedsQuotes t = true) :
    quoteToken t = t.bytes ∧ t.bytes ≠ [] ∧ ∀ c ∈ t.bytes, ¬Special c := by
  rw [tokenNeedsQuotes_iff, not_or] at h
  obtain ⟨hne, hplain⟩ := h
  have hspecial : ∀ c ∈ t.bytes, ¬Special c := fun c hc hs => hplain ⟨c, hc, .inl hs⟩
  refine ⟨?_, hne, hspecial⟩
  have hquotes : ¬tokenNeedsQuotes t = true := by
    rw [tokenNeedsQuotes_iff, not_or]
    exact ⟨hne, hplain⟩
  have hcopy : ∀ bytes : List Byte, (∀ c ∈ bytes, ¬Special c) → escapeBytes bytes = bytes := by
    intro bytes
    induction bytes with
    | nil => exact fun _ => rfl
    | cons c bytes ih =>
      intro hall
      have hc := hall c List.mem_cons_self
      rw [escapeBytes, List.flatMap_cons, if_neg fun h => hc (h.imp_right .inl)]
      exact congrArg (c :: ·) (ih fun d hd => hall d (List.mem_cons_of_mem c hd))
  rw [quoteToken, if_neg hquotes, hcopy _ hspecial]

namespace Lex

/-- Inside double quotes an escaped byte is read as it was. -/
private theorem run_escapeBytes (cap : ℕ) (done : List (List Byte)) (cur bytes : List Byte) :
    (word done cur dquote).run cap (escapeBytes bytes) = word done (cur ++ bytes) dquote := by
  induction bytes generalizing cur with
  | nil =>
    rw [List.append_nil]
    rfl
  | cons c bytes ih =>
    have hfirst : (word done cur dquote).run cap
        (if c = dquote ∨ c = backslash then [backslash, c] else [c]) =
          word done (cur ++ [c]) dquote := by
      by_cases hc : c = dquote ∨ c = backslash
      · rw [if_pos hc]
        rfl
      · rw [if_neg hc]
        rw [not_or] at hc
        have hopen : dquote ≠ 0 := by decide
        show wordStep done cur dquote c = _
        rw [wordStep, if_neg fun h => hopen h.1, if_neg fun h => hc.2 h.1, if_neg hopen,
          if_neg hc.1]
    rw [escapeBytes, List.flatMap_cons, run_append, hfirst]
    rw [escapeBytes] at ih
    rw [ih, List.append_assoc]
    rfl

/-- A part of an escaped text leaves the quotation open.

**Proof sketch.** Induction on the text. A byte is escaped to one byte or two, and a part of the two
ends behind the backslash. -/
private theorem run_prefix_escapeBytes (cap : ℕ) (done : List (List Byte)) (cur : List Byte)
    {bytes p : List Byte} (h : p <+: escapeBytes bytes) :
    ∃ cur', (word done cur dquote).run cap p = word done cur' dquote ∨
      (word done cur dquote).run cap p = escape done cur' dquote := by
  induction bytes generalizing cur p with
  | nil =>
    rw [List.prefix_nil.mp h]
    exact ⟨cur, .inl rfl⟩
  | cons c bytes ih =>
    rw [escapeBytes, List.flatMap_cons] at h
    have hone := run_escapeBytes cap done cur [c]
    rw [escapeBytes, List.flatMap_cons, List.flatMap_nil, List.append_nil] at hone
    by_cases hc : c = dquote ∨ c = backslash
    · rw [if_pos hc] at h hone
      match p, h with
      | [], _ => exact ⟨cur, .inl rfl⟩
      | [d], h =>
        obtain ⟨rfl, -⟩ := List.cons_prefix_cons.mp h
        exact ⟨cur, .inr rfl⟩
      | d :: e :: p, h =>
        obtain ⟨rfl, htail⟩ := List.cons_prefix_cons.mp h
        obtain ⟨rfl, hp⟩ := List.cons_prefix_cons.mp htail
        rw [show backslash :: e :: p = [backslash, e] ++ p from rfl, run_append, hone]
        exact ih _ hp
    · rw [if_neg hc] at h hone
      match p, h with
      | [], _ => exact ⟨cur, .inl rfl⟩
      | d :: p, h =>
        obtain ⟨rfl, hp⟩ := List.cons_prefix_cons.mp h
        rw [show d :: p = [d] ++ p from rfl, run_append, hone]
        exact ih _ hp

/-- Bytes that are neither special nor whitespace are copied. -/
theorem run_plain (cap : ℕ) (done : List (List Byte)) (cur : List Byte) {bytes : List Byte}
    (h : ∀ c ∈ bytes, ¬Special c ∧ isspace c = false) :
    (word done cur 0).run cap bytes = word done (cur ++ bytes) 0 := by
  induction bytes generalizing cur with
  | nil =>
    rw [List.append_nil]
    rfl
  | cons c bytes ih =>
    obtain ⟨hspecial, hspace⟩ := h c List.mem_cons_self
    have hfirst : (word done cur 0).step cap c = word done (cur ++ [c]) 0 := by
      show wordStep done cur 0 c = _
      rw [wordStep, if_neg (by simp [hspace]), if_neg fun h => hspecial (.inr (.inl h.1)),
          if_pos rfl,
        if_neg]
      rw [isQuote, Bool.or_eq_true, decide_eq_true_eq, decide_eq_true_eq]
      exact fun h => hspecial (h.imp_right .inr)
    rw [run_cons, hfirst, ih _ fun d hd => h d (List.mem_cons_of_mem c hd), List.append_assoc]
    rfl

/-- The first byte of a token is read as a byte inside an empty token. -/
theorem run_gap_cons {cap : ℕ} {done : List (List Byte)}
    (hroom : done.length < cap ∧ done.length < intMax) {c : Byte} (hc : isspace c = false)
    (bytes : List Byte) :
    (gap done).run cap (c :: bytes) = (word done [] 0).run cap (c :: bytes) := by
  rw [run_cons, run_cons]
  congr 1
  rw [step, if_neg (by simp [hc]), if_neg (by omega)]
  rfl

/-- **A quoted token is read back.** -/
theorem run_quoteToken {cap : ℕ} {done : List (List Byte)}
    (hroom : done.length < cap ∧ done.length < intMax) {t : CStr} (ht : ¬Bare t.bytes) :
    (gap done).run cap (quoteToken t) = word done t.bytes 0 := by
  by_cases hquotes : tokenNeedsQuotes t = true
  · rw [quoteToken, if_pos hquotes, run_gap_cons hroom (by decide), run_cons]
    show (word done [] dquote).run cap (escapeBytes t.bytes ++ [dquote]) = _
    rw [run_append, run_escapeBytes]
    rfl
  · obtain ⟨heq, hne, hspecial⟩ := quoteToken_of_plain hquotes
    have hplain : ∀ c ∈ t.bytes, ¬Special c ∧ isspace c = false := by
      intro c hc
      refine ⟨hspecial c hc, ?_⟩
      by_contra hspace
      refine ht ⟨⟨c, hc, by simpa using hspace⟩, fun d hd => ⟨hspecial d hd, ?_⟩⟩
      rw [tokenNeedsQuotes_iff, not_or] at hquotes
      exact ⟨fun h => hquotes.2 ⟨d, hd, .inr (.inl h)⟩, fun h => hquotes.2 ⟨d, hd, .inr (.inr h)⟩⟩
    obtain ⟨c, bytes, hcons⟩ := List.exists_cons_of_ne_nil hne
    have hc := (hplain c (hcons ▸ List.mem_cons_self)).2
    rw [heq, hcons, run_gap_cons hroom hc, ← hcons, run_plain cap done [] hplain, List.nil_append]

end Lex

/-! ## Reading the line back -/

/-- The beginning of a text with two parts ends in the first part or in the second one. -/
private theorem prefix_append_cases {a b p : List Byte} (h : p <+: a ++ b) :
    (p <+: a ∧ p ≠ a) ∨ ∃ q, p = a ++ q ∧ q <+: b := by
  rcases Nat.lt_or_ge p.length a.length with hlt | hge
  · refine .inl ⟨List.prefix_of_prefix_length_le h (List.prefix_append a b) hlt.le, ?_⟩
    rintro rfl
    exact absurd hlt (Nat.lt_irrefl _)
  · obtain ⟨q, rfl⟩ := List.prefix_of_prefix_length_le (List.prefix_append a b) h hge
    exact .inr ⟨q, rfl, (List.prefix_append_right_inj a).mp h⟩

namespace Lex

variable {cap : ℕ} {done : List (List Byte)} {t : CStr} {p : List Byte}

/-- A part of a quoted token is no end of a line.

**Proof sketch.** A proper part that is not empty starts with the quote and lacks the closing one,
so it is a part of the escaped text, which leaves the quotation open. -/
private theorem finish_partial_quoted (hquotes : tokenNeedsQuotes t = true) (h : p <+: quoteToken t)
    (hne : p ≠ quoteToken t) (hpos : p ≠ []) (toks : List (List Byte)) :
    ((gap done).run cap p).finish ≠ .ok toks := by
  rw [quoteToken, if_pos hquotes] at h hne
  obtain ⟨d, q, rfl⟩ := List.exists_cons_of_ne_nil hpos
  obtain ⟨rfl, hq⟩ := List.cons_prefix_cons.mp h
  have hpart : q <+: escapeBytes t.bytes := by
    rcases prefix_append_cases hq with ⟨hq, -⟩ | ⟨r, rfl, hr⟩
    · exact hq
    · rcases List.prefix_concat_iff.mp (show r <+: [] ++ [dquote] from hr) with rfl | hr
      · exact absurd rfl hne
      · exact ⟨[], by rw [List.prefix_nil.mp hr, List.append_nil, List.append_nil]⟩
  by_cases hfull : done.length ≥ cap ∨ done.length ≥ intMax
  · have hfail : (gap done).step cap dquote = failed := by
      rw [step, if_neg (by decide), if_pos hfull]
    rw [run_cons, hfail, run_failed]
    intro h
    cases h
  · have hopen : (gap done).step cap dquote = word done [] dquote := by
      rw [step, if_neg (by decide), if_neg hfull]
      rfl
    rw [run_cons, hopen]
    obtain ⟨cur, hrun | hrun⟩ := run_prefix_escapeBytes cap done [] hpart
    · rw [hrun]
      intro h
      cases h
    · rw [hrun]
      intro h
      cases h

/-! ### The rebuilt line -/

/-- The rest of the rebuilt line is read back. -/
private theorem run_quoteRest {cur : List Byte} {tokens : List CStr}
    (hroom : done.length + 1 + tokens.length ≤ cap ∧ done.length + 1 + tokens.length ≤ intMax)
    (hbare : ∀ t ∈ tokens, ¬Bare t.bytes) :
    ((word done cur 0).run cap (quoteRest tokens)).finish =
      .ok (done ++ cur :: tokens.map CStr.bytes) := by
  induction tokens generalizing done cur with
  | nil => rfl
  | cons t tokens ih =>
    have hblank : (word done cur 0).step cap blank = gap (done ++ [cur]) := rfl
    have hlength : (done ++ [cur]).length = done.length + 1 := List.length_append
    rw [List.length_cons] at hroom
    rw [quoteRest_cons, run_cons, hblank, run_append,
      run_quoteToken (by omega) (hbare t List.mem_cons_self),
      ih (by omega) fun u hu => hbare u (List.mem_cons_of_mem t hu)]
    simp only [List.append_assoc, List.map_cons, List.cons_append, List.nil_append]

/-- A part of a token does not read back as the token.

**Proof sketch.** A quoted token is the lemma above. A token that is copied has no whitespace, as it
is not bare, so a proper part of it is read as one shorter token. -/
private theorem finish_partial (hroom : done.length < cap ∧ done.length < intMax)
    (hbare : ¬Bare t.bytes)
    (h : p <+: quoteToken t) (hne : p ≠ quoteToken t) (more : List (List Byte)) :
    ((gap done).run cap p).finish ≠ .ok (done ++ t.bytes :: more) := by
  by_cases hpos : p = []
  · subst hpos
    intro heq
    have hlength := congrArg List.length (Except.ok.inj heq)
    simp at hlength
  · by_cases hquotes : tokenNeedsQuotes t = true
    · exact finish_partial_quoted hquotes h hne hpos _
    · -- a shorter text than that of the token
      obtain ⟨heq, -, hspecial⟩ := quoteToken_of_plain hquotes
      rw [heq] at h hne
      obtain ⟨c, q, rfl⟩ := List.exists_cons_of_ne_nil hpos
      have hplain : ∀ d ∈ c :: q, ¬Special d ∧ isspace d = false := by
        intro d hd
        have hd' := h.subset hd
        refine ⟨hspecial d hd', ?_⟩
        by_contra hspace
        refine hbare ⟨⟨d, hd', by simpa using hspace⟩, fun e he => ⟨hspecial e he, ?_⟩⟩
        rw [tokenNeedsQuotes_iff, not_or] at hquotes
        exact ⟨fun h => hquotes.2 ⟨e, he, .inr (.inl h)⟩, fun h => hquotes.2 ⟨e, he, .inr (.inr h)⟩⟩
      rw [run_gap_cons hroom (hplain c List.mem_cons_self).2, run_plain cap done [] hplain,
        List.nil_append]
      intro hfinish
      have hsame : done ++ [c :: q] = done ++ t.bytes :: more := Except.ok.inj hfinish
      exact hne (List.cons.inj (List.append_cancel_left hsame)).1

/-- A part of the rest of the rebuilt line does not read back as the tokens.

**Proof sketch.** Induction on the tokens. The part ends inside the next token, which then does not
read back (`finish_partial`), or behind it, where the reader goes on with the rest. -/
private theorem finish_quoteRest {cur : List Byte} {tokens : List CStr}
    (hroom : done.length + 1 + tokens.length ≤ cap ∧ done.length + 1 + tokens.length ≤ intMax)
    (hbare : ∀ t ∈ tokens, ¬Bare t.bytes) (h : p <+: quoteRest tokens)
    (hne : p ≠ quoteRest tokens) :
    ((word done cur 0).run cap p).finish ≠ .ok (done ++ cur :: tokens.map CStr.bytes) := by
  induction tokens generalizing done cur p with
  | nil => exact absurd (List.prefix_nil.mp h) hne
  | cons t tokens ih =>
    rw [List.map_cons]
    cases p with
    | nil =>
      intro heq
      have hlength := congrArg List.length (Except.ok.inj heq)
      simp at hlength
    | cons c p =>
      rw [quoteRest_cons] at h hne
      obtain ⟨rfl, hp⟩ := List.cons_prefix_cons.mp h
      have hblank : (word done cur 0).step cap blank = gap (done ++ [cur]) := rfl
      have hlength : (done ++ [cur]).length = done.length + 1 := List.length_append
      have hassoc : done ++ cur :: t.bytes :: tokens.map CStr.bytes =
          (done ++ [cur]) ++ t.bytes :: tokens.map CStr.bytes := by simp
      rw [List.length_cons] at hroom
      rw [run_cons, hblank, hassoc]
      have ht := hbare t List.mem_cons_self
      rcases prefix_append_cases hp with ⟨hp, hpne⟩ | ⟨q, rfl, hq⟩
      · exact finish_partial (by omega) ht hp hpne _
      · rw [run_append, run_quoteToken (by omega) ht]
        exact ih (by omega) (fun u hu => hbare u (List.mem_cons_of_mem t hu)) hq
          fun heq => hne (by rw [heq])

/-! ### Bare tokens -/

/-- No token is bare, and the line may end here or go on with a blank. -/
def Settled : Lex → Prop
  | failed => True
  | gap done => ∀ u ∈ done, ¬Bare u
  | word done cur quote => quote = 0 ∧ ∀ u ∈ done ++ [cur], ¬Bare u
  | escape _ _ _ => False

/-- The tokens of a line that ends here. -/
theorem Settled.finish {l : Lex} (h : l.Settled) {toks : List (List Byte)}
    (hfinish : l.finish = .ok toks) : ∀ u ∈ toks, ¬Bare u := by
  cases l with
  | failed => cases hfinish
  | gap done =>
    rw [← Except.ok.inj hfinish]
    exact h
  | word done cur quote =>
    rw [Lex.finish, if_neg (not_not.mpr h.1)] at hfinish
    rw [← Except.ok.inj hfinish]
    exact h.2
  | escape done cur quote => exact h.elim

/-- A blank ends the token. -/
private theorem Settled.step_blank (cap : ℕ) {l : Lex} (h : l.Settled) :
    l.step cap blank = failed ∨
      ∃ done, l.step cap blank = gap done ∧ ∀ u ∈ done, ¬Bare u := by
  cases l with
  | failed => exact .inl rfl
  | gap done => exact .inr ⟨done, rfl, h⟩
  | word done cur quote =>
    obtain ⟨rfl, hbare⟩ := h
    exact .inr ⟨done ++ [cur], rfl, hbare⟩
  | escape done cur quote => exact h.elim

/-- Bytes without special ones are read into tokens without whitespace.

**Proof sketch.** Induction on the bytes. Whitespace ends a token and is skipped between tokens;
every other byte is copied, so no token gets whitespace. -/
private theorem settled_run_copied {l : Lex} {bytes : List Byte} (hbytes : ∀ c ∈ bytes, ¬Special c)
    (h : l.Settled) (hword : ∀ done cur quote, l = word done cur quote →
      ∀ c ∈ cur, isspace c = false) : (l.run cap bytes).Settled := by
  induction bytes generalizing l with
  | nil => exact h
  | cons c bytes ih =>
    have hrest := fun d hd => hbytes d (List.mem_cons_of_mem c hd)
    have hspecial := hbytes c List.mem_cons_self
    -- a byte inside a token that has no whitespace
    have hinside : ∀ done cur, (∀ u ∈ done, ¬Bare u) → (∀ d ∈ cur, isspace d = false) →
        (isspace c = true → ∀ u ∈ done ++ [cur], ¬Bare u) →
        ((wordStep done cur 0 c).run cap bytes).Settled := by
      intro done cur hdone hcur hend
      by_cases hspace : isspace c = true
      · rw [wordStep, if_pos ⟨rfl, hspace⟩]
        exact ih hrest (hend hspace) (by rintro _ _ _ ⟨⟩)
      · have hcopy : wordStep done cur 0 c = word done (cur ++ [c]) 0 := by
          rw [wordStep, if_neg fun h => hspace h.2, if_neg fun h => hspecial (.inr (.inl h.1)),
            if_pos rfl, if_neg]
          rw [isQuote, Bool.or_eq_true, decide_eq_true_eq, decide_eq_true_eq]
          exact fun h => hspecial (h.imp_right .inr)
        have hplain : ∀ d ∈ cur ++ [c], isspace d = false := by
          intro d hd
          rcases List.mem_append.mp hd with hd | hd
          · exact hcur d hd
          · rw [List.mem_singleton.mp hd]
            simpa using hspace
        rw [hcopy]
        refine ih hrest ⟨rfl, fun u hu => ?_⟩ fun done' cur' quote' heq => ?_
        · rcases List.mem_append.mp hu with hu | hu
          · exact hdone u hu
          · rintro ⟨⟨d, hd, hd'⟩, -⟩
            rw [List.mem_singleton.mp hu] at hd
            rw [hplain d hd] at hd'
            cases hd'
        · obtain ⟨-, rfl, -⟩ := Lex.word.inj heq
          exact hplain
    rw [run_cons]
    cases l with
    | failed =>
      exact ih hrest h (by rintro _ _ _ ⟨⟩)
    | gap done =>
      rw [step]
      split_ifs with hspace hfull
      · exact ih hrest h (by rintro _ _ _ ⟨⟩)
      · exact ih hrest (l := failed) trivial (by rintro _ _ _ ⟨⟩)
      · exact hinside done [] h (fun d hd => absurd hd List.not_mem_nil) fun hc => absurd hc hspace
    | word done cur quote =>
      obtain ⟨rfl, hbare⟩ := h
      exact hinside done cur (fun u hu => hbare u (List.mem_append_left _ hu))
        (hword done cur 0 rfl) fun _ => hbare
    | escape done cur quote => exact h.elim

/-- A whole token of the rebuilt line. -/
private theorem settled_quoteToken (t : CStr) (h : ∀ u ∈ done, ¬Bare u) :
    ((gap done).run cap (quoteToken t)).Settled := by
  by_cases hquotes : tokenNeedsQuotes t = true
  · have ht := not_bare_of_needsQuotes hquotes
    by_cases hroom : done.length < cap ∧ done.length < intMax
    · rw [run_quoteToken hroom ht]
      refine ⟨rfl, fun u hu => ?_⟩
      rcases List.mem_append.mp hu with hu | hu
      · exact h u hu
      · rwa [List.mem_singleton.mp hu]
    · have hfail : (gap done).step cap dquote = failed := by
        rw [step, if_neg (by decide), if_pos (by omega)]
      rw [quoteToken, if_pos hquotes, run_cons, hfail, run_failed]
      trivial
  · obtain ⟨heq, -, hspecial⟩ := quoteToken_of_plain hquotes
    rw [heq]
    exact settled_run_copied hspecial h (by rintro _ _ _ ⟨⟩)

/-- A part of a token of the rebuilt line. -/
private theorem not_bare_of_partial (h : ∀ u ∈ done, ¬Bare u) (hp : p <+: quoteToken t)
    (hne : p ≠ quoteToken t) {toks : List (List Byte)}
    (hfinish : ((gap done).run cap p).finish = .ok toks) : ∀ u ∈ toks, ¬Bare u := by
  by_cases hpos : p = []
  · subst hpos
    exact Settled.finish (l := gap done) h hfinish
  · by_cases hquotes : tokenNeedsQuotes t = true
    · exact absurd hfinish (finish_partial_quoted hquotes hp hne hpos toks)
    · obtain ⟨heq, -, hspecial⟩ := quoteToken_of_plain hquotes
      rw [heq] at hp
      have hsettled : ((gap done).run cap p).Settled :=
        settled_run_copied (fun c hc => hspecial c (hp.subset hc)) h (by rintro _ _ _ ⟨⟩)
      exact hsettled.finish hfinish

/-- A part of the rest of the rebuilt line. -/
private theorem not_bare_of_quoteRest {l : Lex} (hl : l.Settled) {tokens : List CStr}
    (hp : p <+: quoteRest tokens) {toks : List (List Byte)}
    (hfinish : (l.run cap p).finish = .ok toks) : ∀ u ∈ toks, ¬Bare u := by
  induction tokens generalizing l p with
  | nil =>
    rw [List.prefix_nil.mp hp] at hfinish
    exact hl.finish hfinish
  | cons t tokens ih =>
    cases p with
    | nil => exact hl.finish hfinish
    | cons c p =>
      rw [quoteRest_cons] at hp
      obtain ⟨rfl, htail⟩ := List.cons_prefix_cons.mp hp
      rw [run_cons] at hfinish
      rcases hl.step_blank cap with hstep | ⟨done, hstep, hdone⟩
      · rw [hstep, run_failed] at hfinish
        cases hfinish
      · rw [hstep] at hfinish
        rcases prefix_append_cases htail with ⟨hpart, hne⟩ | ⟨q, rfl, hq⟩
        · exact not_bare_of_partial hdone hpart hne hfinish
        · rw [run_append] at hfinish
          exact ih (settled_quoteToken t hdone) hq hfinish

end Lex

/-- **What reads back from a part of the rebuilt line**: the tokens, when the part is the whole line
and no token is bare.

**Proof sketch.** Quoted tokens are read back whole or leave a quotation open. Other tokens are
copied; whitespace in them would separate tokens, so none of the tokens read is bare. A part of the
line has fewer tokens or a shorter last one. -/
theorem tokenize_quoteLine_iff {cap : ℕ} {tokens : List CStr} (hcap : tokens.length ≤ cap)
    (hmax : tokens.length ≤ intMax) (n : ℕ) :
    tokenize cap ((quoteLine tokens).take n) = .ok (tokens.map CStr.bytes) ↔
      (quoteLine tokens).length ≤ n ∧ ∀ t ∈ tokens, ¬Bare t.bytes := by
  cases tokens with
  | nil =>
    rw [quoteLine, List.take_nil]
    exact iff_of_true rfl ⟨Nat.zero_le n, fun t ht => absurd ht List.not_mem_nil⟩
  | cons t tokens =>
    rw [List.length_cons] at hcap hmax
    have hroom : ([] : List (List Byte)).length < cap ∧
        ([] : List (List Byte)).length < intMax := by
      rw [List.length_nil]
      omega
    have hpart := List.take_prefix n (quoteLine (t :: tokens))
    unfold tokenize
    constructor
    · intro hfinish
      have hbare : ∀ u ∈ t :: tokens, ¬Bare u.bytes := by
        have hread : ∀ u ∈ (t :: tokens).map CStr.bytes, ¬Bare u := by
          rcases prefix_append_cases hpart with ⟨hp, hne⟩ | ⟨q, heq, hq⟩
          · exact Lex.not_bare_of_partial (fun u hu => absurd hu List.not_mem_nil) hp hne hfinish
          · rw [heq, Lex.run_append] at hfinish
            exact Lex.not_bare_of_quoteRest
              (Lex.settled_quoteToken t fun u hu => absurd hu List.not_mem_nil) hq hfinish
        exact fun u hu => hread u.bytes (List.mem_map_of_mem hu)
      refine ⟨?_, hbare⟩
      by_contra hlong
      have hne : (quoteLine (t :: tokens)).take n ≠ quoteLine (t :: tokens) := by
        intro heq
        have hlength := congrArg List.length heq
        rw [List.length_take] at hlength
        omega
      have ht := hbare t List.mem_cons_self
      rcases prefix_append_cases hpart with ⟨hp, hpne⟩ | ⟨q, heq, hq⟩
      · exact Lex.finish_partial hroom ht hp hpne _ hfinish
      · rw [heq, Lex.run_append, Lex.run_quoteToken hroom ht] at hfinish
        refine Lex.finish_quoteRest (by rw [List.length_nil]; omega)
          (fun u hu => hbare u (List.mem_cons_of_mem t hu)) hq (fun hall => hne ?_) hfinish
        rw [heq, hall]
        rfl
    · rintro ⟨hfits, hbare⟩
      rw [List.take_of_length_le hfits, quoteLine, Lex.run_append,
        Lex.run_quoteToken hroom (hbare t List.mem_cons_self),
        Lex.run_quoteRest (by rw [List.length_nil]; omega)
          fun u hu => hbare u (List.mem_cons_of_mem t hu)]
      rfl

/-! ## The newest entry -/

/-- **The newest entry** behind an added line is the line, cut to the slot. -/
theorem HistoryWf.head?_addEntry {s : Shell} (h : HistoryWf s) (hdepth : s.historyDepth ≠ 0)
    {line : CStr} (hne : line.isEmpty = false) :
    (addEntry s line s.entries).head? = some (line.take (slotLength s line)) := by
  unfold addEntry
  rw [hne]
  simp only [Bool.false_eq_true, hdepth, false_or]
  split_ifs with hsame
  · rw [List.head?_eq_getElem?, ← h.getNewest_eq] at hsame
    have hlt := h.length_getNewest_lt hsame
    rw [h.getNewest_eq, ← List.head?_eq_getElem?] at hsame
    have hlength : slotLength s line = line.length := if_neg (by omega)
    rw [hsame, hlength]
    exact congrArg some (CStr.ext (List.take_of_length_le le_rfl).symm)
  · obtain ⟨d, hd⟩ := Nat.exists_eq_succ_of_ne_zero hdepth
    rw [hd]
    rfl

section Entry

variable {env : Env ω} {s : Shell} {line : CStr} {argv : List CStr}

/-- The rebuilt line has no NUL in it.

**Proof sketch.** Neither the quotes, the backslashes and the blanks that are added are NUL, nor any
byte of a token. -/
private theorem zero_not_mem_quoteLine (tokens : List CStr) : 0 ∉ quoteLine tokens := by
  have hescape : ∀ t : CStr, 0 ∉ escapeBytes t.bytes := by
    intro t hmem
    obtain ⟨c, hc, hzero⟩ := List.mem_flatMap.mp hmem
    split_ifs at hzero
    · rcases List.mem_pair.mp hzero with h | h
      · exact absurd h (by decide)
      · exact t.nonzero (h ▸ hc)
    · exact t.nonzero (List.mem_singleton.mp hzero ▸ hc)
  have htoken : ∀ t : CStr, 0 ∉ quoteToken t := by
    intro t
    have hquote : (0 : Byte) ≠ dquote := by decide
    unfold quoteToken
    split_ifs
    · simp [hescape t, hquote]
    · exact hescape t
  have hrest : ∀ tokens : List CStr, 0 ∉ quoteRest tokens := by
    intro tokens hmem
    obtain ⟨t, -, hzero⟩ := List.mem_flatMap.mp hmem
    rcases List.mem_cons.mp hzero with h | h
    · exact absurd h (by decide)
    · exact htoken t h
  cases tokens with
  | nil => exact List.not_mem_nil
  | cons t tokens =>
    intro hmem
    rcases List.mem_append.mp hmem with h | h
    · exact htoken t h
    · exact hrest tokens h

/-- **The history line of a line with a masked token** is the rebuilt line, cut to the buffer. -/
theorem buildHistoryLine_masked (line : CStr)
    (hopen : (shResolveCommandInternal s argv).cmd.any Cmd.noHistory = false)
    (hmasked : ∃ i arg, argv[i]? = some arg ∧
      tokenMasked env s.cfg (shResolveCommandInternal s argv) i arg = true) :
    ∃ built, buildHistoryLine env s line argv = some built ∧
      built.bytes = (quoteLine (shownTokens env s.cfg (shResolveCommandInternal s argv) argv)).take
        shMaxLineLen := by
  have hany : (argv.zipIdx.any fun a => tokenMasked env s.cfg (shResolveCommandInternal s argv)
      a.2 a.1) = true := by
    obtain ⟨i, arg, harg, hmask⟩ := hmasked
    rw [List.any_eq_true]
    exact ⟨(arg, i), List.mem_zipIdx_iff_getElem?.mpr harg, hmask⟩
  have hsize : shMaxLineLen ≠ 0 := by decide
  unfold buildHistoryLine
  dsimp only
  rw [hopen, hany, if_neg (by simp), if_neg (by simp), historyLineSize,
    foldl_appendToken _ hsize]
  refine ⟨_, rfl, ?_⟩
  rw [CStr.at_bytes, List.drop_zero]
  exact Mem.upto_append fun hmem => zero_not_mem_quoteLine _ (List.mem_of_mem_take hmem)

end Entry

/-! ## Reading the entry back -/

/-- The newest entry reads back as the given tokens. -/
def KeepsShape (s : Shell) (tokens : List CStr) : Prop :=
  ∃ entry, shHistoryGetNewest s 0 = some entry ∧
    (shTokenize (entry.bytes ++ [0]) s.argvCapacity).status = Status.ok ∧
    (shTokenize (entry.bytes ++ [0]) s.argvCapacity).args = tokens

section KeepsShape

variable {env : Env ω} {st : Sys ω} {line : CStr} {argv : List CStr}

/-- What a text is read as, as strings. -/
theorem reads_iff {cap : ℕ} (hcap : cap ≠ 0) (text : CStr) (tokens : List CStr) :
    (shTokenize (text.bytes ++ [0]) cap).status = Status.ok ∧
        (shTokenize (text.bytes ++ [0]) cap).args = tokens ↔
      tokenize cap text.bytes = .ok (tokens.map CStr.bytes) := by
  have hinj : Function.Injective CStr.bytes := fun a b => CStr.ext
  constructor
  · rintro ⟨hok, hargs⟩
    obtain ⟨toks, htoks⟩ := (shTokenize_status_eq_ok hcap text.nonzero []).mp hok
    have := shTokenize_args hcap text.nonzero [] htoks
    rw [htoks, ← this, ← hargs]
  · intro htoks
    refine ⟨(shTokenize_status_eq_ok hcap text.nonzero []).mpr ⟨_, htoks⟩, ?_⟩
    exact hinj.list_map (shTokenize_args hcap text.nonzero [] htoks)

/-- The argument vector of a line fits. -/
private theorem length_of_lineArgv {s : Shell} (h : lineArgv s line = some argv) :
    argv.length ≤ s.argvCapacity := by
  unfold lineArgv at h
  dsimp only at h
  split_ifs at h
  rw [← Option.some.inj h, TokenizeResult.texts, List.length_map]
  exact length_argv_shTokenize _ _

/-- **The newest entry** behind a line that is recorded and leaves the history alone otherwise.

**Proof sketch.** Recording the line puts the rebuilt one in front of the entries, and dispatching
it leaves the history as it is (`hquiet`). The head of the entries is what the newest slot holds. -/
theorem newest_shExecuteLine (hwf : st.sh.Wf) (henabled : st.sh.historyDepth ≠ 0)
    (hargv : lineArgv st.sh line = some argv) {built : CStr}
    (hbuilt : buildHistoryLine env st.sh line argv = some built) (hne : built.isEmpty = false)
    (hquiet : QuietLine env st line) :
    shHistoryGetNewest (shExecuteLine env st line).1.sh 0 =
      some (built.take (slotLength st.sh built)) := by
  have hhistory : SameHistory st.sh (st.sh.setArgv argv) := ⟨rfl, rfl, rfl, rfl, rfl⟩
  have hbefore : (beforeDispatch env st line argv).sh.entries =
      addEntry (st.sh.setArgv argv) built (st.sh.setArgv argv).entries := by
    have hbuild : buildHistoryLine env (st.sh.setArgv argv) line argv = some built := by
      rw [← Shell.buildHistoryLine_core]
      show buildHistoryLine env st.sh.core line _ = _
      rw [Shell.buildHistoryLine_core]
      exact hbuilt
    unfold beforeDispatch recordLine
    generalize hstored : (st.touch .argv _).modify (·.setArgv argv) = stored
    have hsh : stored.sh = st.sh.setArgv argv := by rw [← hstored]; rfl
    rw [hsh, hbuild]
    dsimp only
    rw [entries_shHistoryAddInternal (by rw [hsh]; exact hwf.history.frame hhistory), hsh]
  have hsame := sameHistory_of_quietLine hargv hquiet
  have hfinal : HistoryWf (shExecuteLine env st line).1.sh :=
    (hwf.steps (Steps.edit (EditSteps.exec (shExecuteLine_steps env st line)))).history
  rw [hfinal.getNewest_eq, ← List.head?_eq_getElem?, hsame.entries_eq, hbefore]
  exact (hwf.history.frame hhistory).head?_addEntry henabled hne

/-- **A masked history entry keeps the shape of the command** exactly when the rebuilt line fits
the buffer and a slot, and no token shown is bare.

**Proof sketch.** The newest entry is the rebuilt line, cut to the buffer and to the slot. A line
that was cut does not read back, and one that was not reads back unless a token is bare. -/
theorem keepsShape_iff (hreach : Reachable env st) (henabled : st.sh.historyDepth ≠ 0)
    (hargv : lineArgv st.sh line = some argv)
    (hopen : (shResolveCommandInternal st.sh argv).cmd.any Cmd.noHistory = false)
    (hmasked : ∃ i arg, argv[i]? = some arg ∧
      tokenMasked env st.sh.cfg (shResolveCommandInternal st.sh argv) i arg = true)
    (hquiet : QuietLine env st line) :
    KeepsShape (shExecuteLine env st line).1.sh
        (shownTokens env st.sh.cfg (shResolveCommandInternal st.sh argv) argv) ↔
      (quoteLine (shownTokens env st.sh.cfg (shResolveCommandInternal st.sh argv) argv)).length ≤
          min (st.sh.historySlotSize - 1) shMaxLineLen ∧
        ∀ t ∈ shownTokens env st.sh.cfg (shResolveCommandInternal st.sh argv) argv,
          ¬Bare t.bytes := by
  have hwf := hreach.wf
  have hcap := length_of_lineArgv hargv
  have hmax : st.sh.argvCapacity ≤ intMax := hwf.argv_le.trans (by decide)
  obtain ⟨built, hbuilt, hbytes⟩ := buildHistoryLine_masked line hopen hmasked
  have hlength : (shownTokens env st.sh.cfg (shResolveCommandInternal st.sh argv) argv).length =
      argv.length := List.length_mapIdx
  have hpos : argv ≠ [] := by
    rintro rfl
    obtain ⟨i, arg, harg, -⟩ := hmasked
    cases harg
  generalize shownTokens env st.sh.cfg (shResolveCommandInternal st.sh argv) argv = shown
    at hbytes hlength ⊢
  have hne : built.isEmpty = false := by
    obtain ⟨t, tokens, rfl⟩ := List.exists_cons_of_ne_nil fun hnil : shown = [] => hpos
      (List.length_eq_zero_iff.mp (by rw [← hlength, hnil, List.length_nil]))
    obtain ⟨c, bytes, hcons⟩ := List.exists_cons_of_ne_nil (quoteToken_ne_nil t)
    rw [CStr.isEmpty, hbytes, quoteLine, hcons]
    rfl
  have hnewest := newest_shExecuteLine hwf henabled hargv hbuilt hne hquiet
  have hcapacity : (shExecuteLine env st line).1.sh.argvCapacity = st.sh.argvCapacity :=
    (Steps.edit (EditSteps.exec (shExecuteLine_steps env st line))).sameSetup.argvCapacity
  have hslot : (built.take (slotLength st.sh built)).bytes =
      (quoteLine shown).take (min (st.sh.historySlotSize - 1) shMaxLineLen) := by
    rw [← List.take_take, ← hbytes]
    exact congrArg CStr.bytes (take_slotLength st.sh built)
  unfold KeepsShape
  rw [hnewest, hcapacity]
  simp only [Option.some.injEq, exists_eq_left']
  rw [reads_iff hwf.argv_pos, hslot]
  exact tokenize_quoteLine_iff (by omega) (by omega) _

end KeepsShape

/-- Logging in leaves the history alone behind the entry. -/
private theorem quietLine_login : QuietLine loginEnv (loginSys (str "")) (str "login a") := by
  intro argv hargv
  have hsplit : lineArgv (loginSys (str "")).sh (str "login a") =
      some [str "login", str "a"] := by decide +kernel
  obtain rfl := Option.some.inj (hsplit.symm.trans hargv)
  exact ⟨by decide +kernel, by decide +kernel, by decide +kernel, by decide +kernel,
    by decide +kernel⟩

/-- One masked token. -/
theorem keepsShape_iff_login :
    let st := loginSys (str "")
    let argv := [str "login", str "a"]
    let shown := shownTokens loginEnv st.sh.cfg (shResolveCommandInternal st.sh argv) argv
    KeepsShape (shExecuteLine loginEnv st (str "login a")).1.sh shown ↔
      (quoteLine shown).length ≤ min (st.sh.historySlotSize - 1) shMaxLineLen ∧
        ∀ t ∈ shown, ¬Bare t.bytes :=
  keepsShape_iff (loginSys_reachable _) (by decide +kernel) (by decide +kernel) (by decide +kernel)
    ⟨1, str "a", rfl, by decide +kernel⟩ quietLine_login

/-- Two short secrets in a history with slots of 17 bytes: the rebuilt line
`login <hidden> <hidden>` is cut.

**Proof sketch.** The line is one of the login shell, and its rebuilt form has 23 bytes, of which
the slot keeps 16. Each part is evaluated. -/
theorem not_keepsShape_short :
    let st := loginSys (str "")
    let argv := [str "login", str "a", str "b"]
    let shown := shownTokens loginEnv st.sh.cfg (shResolveCommandInternal st.sh argv) argv
    Reachable loginEnv st ∧ st.sh.historyDepth ≠ 0 ∧
      lineArgv st.sh (str "login a b") = some argv ∧
      (shResolveCommandInternal st.sh argv).cmd.any Cmd.noHistory = false ∧
      (∃ i arg, argv[i]? = some arg ∧ tokenMasked loginEnv st.sh.cfg
        (shResolveCommandInternal st.sh argv) i arg = true) ∧
      QuietLine loginEnv st (str "login a b") ∧
      ¬KeepsShape (shExecuteLine loginEnv st (str "login a b")).1.sh shown := by
  have hsplit : lineArgv (loginSys (str "")).sh (str "login a b") =
      some [str "login", str "a", str "b"] := by decide +kernel
  refine ⟨loginSys_reachable _, by decide +kernel, hsplit, by decide +kernel,
    ⟨1, str "a", rfl, by decide +kernel⟩, ?_, ?_⟩
  · intro argv hargv
    obtain rfl := Option.some.inj (hsplit.symm.trans hargv)
    exact ⟨by decide +kernel, by decide +kernel, by decide +kernel, by decide +kernel,
      by decide +kernel⟩
  · rintro ⟨entry, hentry, -, hargs⟩
    have hnewest : shHistoryGetNewest
        (shExecuteLine loginEnv (loginSys (str "")) (str "login a b")).1.sh 0 =
          some (str "login <hidden> <") := by decide +kernel
    obtain rfl := Option.some.inj (hnewest.symm.trans hentry)
    exact absurd hargs (by decide +kernel)

end PortableShell
