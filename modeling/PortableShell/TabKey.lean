import Mathlib.Data.List.ReduceOption
import PortableShell.CompletionParse
import PortableShell.Lib.CommonPrefix
import PortableShell.Offers
import PortableShell.TwoListEditor

set_option relaxedAutoImplicit false
set_option autoImplicit false

/-!
# The Tab key

What Tab does to the line, for every registry, line and cursor: the candidates are the names offered
behind the tokens left of the cursor that begin with the word there, and the word around the cursor
becomes the only candidate, or the longest common prefix of several.

## Main definitions

* `PortableShell.PureProviders` — the providers are functions of their arguments.
* `PortableShell.Shell.candidates` — the names that Tab considers.
* `PortableShell.tabOutcome` — what becomes of the two lists, and the status.
* `PortableShell.Completes` — what is seen of one completion.

## Main results

* `PortableShell.Presents.gives` — the candidates of a level are those of its offer.
* `PortableShell.foldl_add_eq` — the variables of the loop hold their longest common prefix.
* `PortableShell.Completes.before_prefix` — what stands left of the cursor stays.
* `PortableShell.shCompleteLineInternal_completes` — Tab does what the candidates tell.
-/

namespace PortableShell

variable {ω : Type}

/-! ## Candidates -/

/-- The providers are pure functions. -/
def PureProviders (env : Env ω) (items : Ptr → ℕ → ℕ → Option Ptr → Option CStr) : Prop :=
  ∀ fn view io argIndex index ctx,
    env.completion fn view io argIndex index ctx = ([], items fn argIndex index ctx)

/-- A name, as far as a line can hold it. -/
def CStr.cut (name : CStr) : List Byte := name.bytes.take shMaxLineLen

section Names

variable (items : Ptr → ℕ → ℕ → Option Ptr → Option CStr)

/-- The names of an offer: hidden commands are left out, and a provider is cut at its first NULL. -/
def Offer.names : Offer → List CStr
  | .table commands => commands.filterMap visibleName
  | .provider fn argIndex ctx =>
    (((List.range shCompletionProviderMaxItems).map fun i => items fn argIndex i ctx).takeWhile
      Option.isSome).reduceOption

/-- The tokens left of the cursor before the word there. -/
def Shell.tokensLeft (s : Shell) : List CStr :=
  if s.twoLists.wordBefore isspace = [] then (tabTokens s).args else (tabTokens s).args.dropLast

/-- The names offered behind the tokens left of the cursor that begin with the word there. -/
def Shell.candidates (s : Shell) : List CStr :=
  ((s.offer s.tokensLeft).names items).filter fun name =>
    (s.twoLists.wordBefore isspace).isPrefixOf name.cut

end Names

/-! ## The loop over a level -/

/-- The candidate of an offer at an index: none behind the last, and no name for a hidden one. -/
def Offer.item (items : Ptr → ℕ → ℕ → Option Ptr → Option CStr) :
    Offer → ℕ → Option (Option CStr)
  | .table commands, i => commands[i]?.map visibleName
  | .provider fn argIndex ctx, i => (items fn argIndex i ctx).map some

/-- The number of candidates of an offer that are looked at. -/
def Offer.limit : Offer → ℕ
  | .table commands => commands.length
  | .provider _ _ _ => shCompletionProviderMaxItems

/-- A level gives the candidates of a function, and giving them has no effect. -/
def Gives (env : Env ω) (s : Shell) (level : CompletionLevel) (item : ℕ → Option (Option CStr)) :
    Prop :=
  ∀ st : Sys ω, st.sh = s → ∀ i, levelCandidate env st level i = (st, item i)

/-- The names among `n` candidates from `i` on, up to the first that is missing. -/
def itemNames (item : ℕ → Option (Option CStr)) : ℕ → ℕ → List CStr
  | 0, _ => []
  | n + 1, i =>
    match item i with
    | none => []
    | some none => itemNames item n (i + 1)
    | some (some name) => name :: itemNames item n (i + 1)

/-- The names of an offer are those of its candidates.

**Proof sketch.** Case split on the offer, and induction on the table or on the budget of the
provider. A provider is asked for its candidates in order up to the first one that it does not
have. -/
private theorem Offer.itemNames_eq (items : Ptr → ℕ → ℕ → Option Ptr → Option CStr)
    (offer : Offer) :
    itemNames (offer.item items) offer.limit 0 = offer.names items := by
  cases offer with
  | table commands =>
    have htable : ∀ (l : List Cmd) (item : ℕ → Option (Option CStr)) (i : ℕ),
        (∀ j, item (i + j) = l[j]?.map visibleName) →
        itemNames item l.length i = l.filterMap visibleName := by
      intro l item
      induction l with
      | nil => exact fun i _ => rfl
      | cons cmd l ih =>
        intro i hitem
        have hrest := ih (i + 1) fun j => by
          rw [Nat.add_right_comm, Nat.add_assoc]
          exact hitem (j + 1)
        have hfirst : item i = some (visibleName cmd) := hitem 0
        rw [List.length_cons, itemNames, hfirst, List.filterMap_cons, hrest]
        cases visibleName cmd <;> rfl
    exact htable commands _ 0 fun j => by
      rw [Nat.zero_add]
      rfl
  | provider fn argIndex ctx =>
    have hprovider : ∀ n i, itemNames (fun i => (items fn argIndex i ctx).map some) n i =
        (((List.range' i n).map fun i => items fn argIndex i ctx).takeWhile
          Option.isSome).reduceOption := by
      intro n
      induction n with
      | zero => exact fun i => rfl
      | succ n ih =>
        intro i
        rw [itemNames, List.range'_succ, List.map_cons]
        cases hitem : items fn argIndex i ctx with
        | none => rfl
        | some name =>
          rw [List.takeWhile_cons_of_pos rfl, List.reduceOption_cons_of_some, ← ih]
          rfl
    exact (hprovider _ 0).trans (by rw [← List.range_eq_range']; rfl)

section Loop

variable {env : Env ω} {items : Ptr → ℕ → ℕ → Option Ptr → Option CStr} {s : Shell}
  {level : CompletionLevel} {offer : Offer}

/-- The limit of a level is the one of its offer. -/
theorem Presents.levelLimit_eq (h : Presents s (some level) offer) (hreg : Registered s) :
    levelLimit s level = offer.limit := by
  cases h with
  | roots => rw [levelLimit_rootLevel hreg.counted, Offer.limit, List.length_append]
  | children cmd =>
    rw [levelLimit]
    cases s.commandSets <;> rfl
  | provider argIndex hfn => rfl

/-- **The candidates of a level** are those of its offer. -/
theorem Presents.gives (h : Presents s (some level) offer) (hreg : Registered s)
    (hpure : PureProviders env items) : Gives env s level (offer.item items) := by
  rintro st rfl i
  cases h with
  | roots =>
    show (st, staticCandidate st.sh (rootLevel st.sh) i) = _
    rw [staticCandidate_rootLevel hreg.counted]
    rfl
  | children cmd =>
    have htable : tableCandidate (childLevel cmd) i = cmd.subcommands.cells[i]? := by
      rw [tableCandidate]
      split_ifs with hi
      · rfl
      · exact (List.getElem?_eq_none (not_lt.mp hi)).symm
    show (st, staticCandidate st.sh (childLevel cmd) i) = _
    rw [staticCandidate, htable]
    cases st.sh.commandSets <;> rfl
  | provider argIndex hfn =>
    rw [levelCandidate]
    simp only [providerLevel, hfn, callProvider, hpure _ _ _ _ _ _]
    rfl

variable {item : ℕ → Option (Option CStr)} (hgives : Gives env s level item) (pre : CStr)

include hgives

/-- The loop of the completion has no effect. -/
private theorem Gives.scanLoop_fst (n i : ℕ) {st : Sys ω} (hst : st.sh = s) (m : Matches) :
    (scanLoop env level pre n i st m).1 = st := by
  induction n generalizing i m with
  | zero => rfl
  | succ n ih =>
    rw [scanLoop, hgives st hst i]
    rcases item i with _ | _ | name
    · rfl
    · exact ih (i + 1) m
    · exact ih (i + 1) _

/-- The loop of the completion collects the names with the prefix. -/
private theorem Gives.matchNames_eq (n i : ℕ) {st : Sys ω} (hst : st.sh = s) :
    matchNames env level pre n i st =
      (itemNames item n i).filter fun name => startsWith name pre := by
  induction n generalizing i with
  | zero => rfl
  | succ n ih =>
    rw [matchNames, itemNames, hgives st hst i]
    rcases item i with _ | _ | name
    · rfl
    · exact ih (i + 1)
    · dsimp only
      rw [ih, List.filter_cons]

/-- The loop that lists the candidates prints the first ones. -/
private theorem Gives.printMatchesLoop_eq (n i : ℕ) {st : Sys ω} (hst : st.sh = s) (displayed : ℕ) :
    printMatchesLoop env level pre n i st displayed =
      writes env st ((((itemNames item n i).filter fun name => startsWith name pre).take
        (shCompletionMaxMatches - displayed)).map fun name =>
          vprintfBytes (name.bytes ++ ascii "\r\n")) := by
  induction n generalizing i st displayed with
  | zero => simp [printMatchesLoop, itemNames]
  | succ n ih =>
    rw [printMatchesLoop, itemNames, hgives st hst i]
    rcases item i with _ | _ | name
    · simp
    · exact ih (i + 1) hst displayed
    · dsimp only
      rw [List.filter_cons]
      split_ifs with hpre hroom
      · rw [ih (i + 1) ((writes_sh env st _).trans hst),
          show shCompletionMaxMatches - displayed = shCompletionMaxMatches - (displayed + 1) + 1 by
            omega, List.take_succ_cons, List.map_cons]
        rfl
      · rw [ih (i + 1) hst, show shCompletionMaxMatches - displayed = 0 by omega,
          show shCompletionMaxMatches - (displayed + 1) = 0 by omega, List.take_zero,
              List.take_zero]
      · exact ih (i + 1) hst displayed

end Loop

/-! ## The variables of the loop -/

/-- `common_prefix_len` is the length of the longest common prefix. -/
private theorem commonPrefixLength_eq (a b : List Byte) :
    commonPrefixLength a b = (CommonPrefix.both a b).length := by
  induction a generalizing b with
  | nil => rfl
  | cons c a ih =>
    cases b with
    | nil => rfl
    | cons d b =>
      rw [commonPrefixLength, CommonPrefix.both]
      split_ifs
      · rw [ih, List.length_cons]
      · rfl

/-- The first match is cut to the longest line, and its own prefix so far. -/
private theorem Matches.add_first (name : CStr) :
    (Matches.add ⟨CStr.empty, 0, 0⟩ name).firstMatch.bytes = name.cut ∧
      (Matches.add ⟨CStr.empty, 0, 0⟩ name).commonLen = name.cut.length := by
  rw [Matches.add, if_pos rfl, CStr.cut]
  dsimp only
  rw [CStr.take_bytes, CStr.length, List.length_take]
  split_ifs with hlong
  · exact ⟨rfl, by omega⟩
  · rw [List.take_of_length_le (not_lt.mp hlong), List.take_length]
    exact ⟨rfl, by omega⟩

/-- Each further match shortens the common length. -/
private theorem foldl_add_rest (names : List CStr) {m : Matches} (hpos : m.matchCount ≠ 0)
    (hshort : m.firstMatch.bytes.length ≤ shMaxLineLen) :
    (names.foldl Matches.add m).firstMatch = m.firstMatch ∧
      (names.foldl Matches.add m).commonLen = (names.map CStr.cut).foldl
        (fun n x => min n (CommonPrefix.both m.firstMatch.bytes x).length) m.commonLen ∧
      (names.foldl Matches.add m).commonLen ≤ m.commonLen ∧
      (names.foldl Matches.add m).matchCount = names.length + m.matchCount := by
  induction names generalizing m with
  | nil => exact ⟨rfl, rfl, le_rfl, (Nat.zero_add _).symm⟩
  | cons name names ih =>
    have hadd : m.add name = ⟨m.firstMatch, min m.commonLen
        (CommonPrefix.both m.firstMatch.bytes name.cut).length, m.matchCount + 1⟩ := by
      rw [Matches.add, if_neg hpos, commonPrefixLen, commonPrefixLength_eq, CStr.cut,
        CommonPrefix.both_take_right hshort]
    rw [List.foldl_cons, List.map_cons, List.foldl_cons, List.length_cons, hadd]
    obtain ⟨hfirst, hlen, hle, hcount⟩ := @ih ⟨m.firstMatch, min m.commonLen
      (CommonPrefix.both m.firstMatch.bytes name.cut).length, m.matchCount + 1⟩
      (Nat.succ_ne_zero _) hshort
    refine ⟨hfirst, hlen, hle.trans (Nat.min_le_left _ _), hcount.trans ?_⟩
    dsimp only
    omega

/-- **The variables of the loop** hold the number of the matches and their longest common prefix. -/
theorem foldl_add_eq (name : CStr) (names : List CStr) {m : Matches}
    (hm : (name :: names).foldl Matches.add ⟨CStr.empty, 0, 0⟩ = m) :
    m.firstMatch.bytes = name.cut ∧ m.matchCount = names.length + 1 ∧
      m.firstMatch.bytes.take m.commonLen = CommonPrefix.all ((name :: names).map CStr.cut) ∧
      m.commonLen = (CommonPrefix.all ((name :: names).map CStr.cut)).length := by
  obtain ⟨hfirst, hinit⟩ := Matches.add_first name
  have hshort : name.cut.length ≤ shMaxLineLen := List.length_take_le _ _
  obtain ⟨hsame, hlen, hle, hcount⟩ := foldl_add_rest names
    (m := Matches.add ⟨CStr.empty, 0, 0⟩ name) Nat.one_ne_zero (hfirst ▸ hshort)
  rw [List.foldl_cons] at hm
  rw [hm] at hsame hlen hle hcount
  rw [← hsame] at hfirst
  have htake := CommonPrefix.take_foldl_min name.cut (names.map CStr.cut)
  rw [← hsame, hfirst, hinit] at hlen
  rw [← hlen, ← List.map_cons] at htake
  refine ⟨hfirst, hcount, by rw [hfirst]; exact htake, ?_⟩
  rw [← htake, List.length_take_of_le]
  exact hle.trans hinit.le

/-! ## The word around the cursor -/

section Word

variable {s : Shell}

/-- The part of the word before the cursor. -/
private theorem Shell.Wf.wordBefore_eq (h : s.Wf) :
    s.twoLists.wordBefore isspace = s.tokenPrefix.bytes := by
  have hleft : s.text.take s.cursor = s.line.take s.cursor := by
    rw [Shell.text, List.take_take, Nat.min_eq_left h.cursor_le]
  have hsplit : s.text.take s.tokenStart ++ s.twoLists.wordBefore isspace =
      s.text.take s.cursor := by
    rw [Shell.tokenStart, h.take_skipWordLeft h.cursor_le]
    exact List.rdropWhile_append_rtakeWhile
  exact List.append_cancel_left (hsplit.trans (hleft.trans h.text_cursor.1))

/-- Skipping a word to the right drops it from the front. -/
private theorem Shell.Wf.drop_skipWordRight (h : s.Wf) {n stop : ℕ} (hn : stop + n = s.lineLen) :
    s.text.drop (s.skipWordRight n stop) = (s.text.drop stop).dropWhile fun b => !isspace b := by
  have hlength := h.length_text
  induction n generalizing stop with
  | zero =>
    rw [Shell.skipWordRight, List.drop_eq_nil_of_le (by omega)]
    rfl
  | succ n ih =>
    have hbyte : s.text.drop stop = cell s.line stop :: s.text.drop (stop + 1) := by
      have hget := h.getElem?_text (i := stop) (by omega)
      rw [List.getElem?_eq_getElem (by omega), Option.some.injEq] at hget
      rw [← hget, ← List.drop_eq_getElem_cons]
    rw [Shell.skipWordRight, hbyte]
    cases hspace : isspace (cell s.line stop) with
    | true => rw [if_pos rfl, hbyte, List.dropWhile_cons_of_neg (by simp [hspace])]
    | false =>
      rw [if_neg Bool.false_ne_true, List.dropWhile_cons_of_pos (by simp [hspace])]
      exact ih (by omega)

/-- What lies outside of the word around the cursor. -/
private theorem Shell.Wf.replaceWord_eq (h : s.Wf) (l : List Byte) :
    s.twoLists.replaceWord isspace l =
      ⟨s.text.take s.tokenStart ++ l, s.text.drop s.tokenEnd⟩ := by
  have hcursor := h.cursor_le
  rw [Shell.tokenStart, h.take_skipWordLeft hcursor, Shell.tokenEnd,
    h.drop_skipWordRight (Nat.add_sub_cancel' hcursor)]
  rfl

/-- The word around the cursor ends the line when nothing lies behind it. -/
private theorem Shell.Wf.after_eq_nil_iff (h : s.Wf) :
    (s.twoLists.replaceWord isspace []).after = [] ↔ s.tokenEnd = s.lineLen := by
  have hstop := h.token_bounds.2.2
  rw [h.replaceWord_eq, List.drop_eq_nil_iff, h.length_text]
  omega

/-- A space follows the candidate when the word around the cursor ends the line. -/
theorem Shell.Wf.spaceLen_eq (h : s.Wf) :
    spaceLen s s.tokenEnd true = if s.tokenEnd = s.lineLen then 1 else 0 := by
  have hspec : ∀ n stop, s.skipWordRight n stop = stop + n ∨
      isspace (cell s.line (s.skipWordRight n stop)) = true := by
    intro n
    induction n with
    | zero => exact fun stop => .inl rfl
    | succ n ih =>
      intro stop
      rw [Shell.skipWordRight]
      split_ifs with hspace
      · exact .inr hspace
      · rcases ih (stop + 1) with heq | hnext
        · exact .inl (by rw [heq]; omega)
        · exact .inr hnext
  have hend : s.tokenEnd = s.lineLen ∨ isspace (cell s.line s.tokenEnd) = true := by
    have := hspec (s.lineLen - s.cursor) s.cursor
    rwa [Nat.add_sub_cancel' h.cursor_le] at this
  rw [spaceLen]
  rcases hend with heq | hspace
  · rw [if_pos ⟨rfl, .inl heq⟩, if_pos heq]
  · simp only [hspace, Bool.true_eq_false, or_false, true_and]

end Word

/-! ## What Tab does to the line -/

/-- The new lists when they make a line of fewer than `capacity` bytes. -/
def settle (capacity : ℕ) (z z' : TwoLists Byte) : TwoLists Byte × Status :=
  if z'.before.length + z'.after.length < capacity then (z', Status.ok)
  else (z, Status.errLineTooLong)

/-- What becomes of the two lists, and the status. The only candidate takes the place of the word
around the cursor, with a space behind it when the word ends the line. Of several candidates, the
longest common prefix does when it is longer than the part of the word before the cursor. -/
def tabOutcome (capacity : ℕ) (z : TwoLists Byte) (names : List CStr) : TwoLists Byte × Status :=
  match names with
  | [] => (z, Status.ok)
  | [name] =>
    settle capacity z (z.replaceWord isspace
      (name.bytes ++ if (z.replaceWord isspace []).after = [] then [blank] else []))
  | names =>
    let common := CommonPrefix.all (names.map CStr.cut)
    if (z.wordBefore isspace).length < common.length then
      settle capacity z (z.replaceWord isspace common)
    else (z, Status.errAmbiguous)

example : tabOutcome 7 ⟨ascii "x be", ascii "a y"⟩ [str "beta"] =
    (⟨ascii "x be", ascii "a y"⟩, Status.errLineTooLong) := by decide

example : tabOutcome 9 ⟨ascii "x be", ascii "a y"⟩ [str "beta"] =
    (⟨ascii "x beta", ascii " y"⟩, Status.ok) := by decide

/-- What becomes of the two lists when there are several candidates. -/
private theorem tabOutcome_several (capacity : ℕ) (z : TwoLists Byte) (name other : CStr)
    (rest : List CStr) :
    tabOutcome capacity z (name :: other :: rest) =
      if (z.wordBefore isspace).length <
          (CommonPrefix.all ((name :: other :: rest).map CStr.cut)).length then
        settle capacity z (z.replaceWord isspace
          (CommonPrefix.all ((name :: other :: rest).map CStr.cut)))
      else (z, Status.errAmbiguous) := rfl

/-- What stands left of the cursor stays. -/
private theorem before_prefix_tabOutcome (capacity : ℕ) (z : TwoLists Byte) {names : List CStr}
    (hnames : ∀ name ∈ names, z.wordBefore isspace <+: name.cut) :
    z.before <+: (tabOutcome capacity z names).1.before := by
  have hsettle : ∀ l, z.wordBefore isspace <+: l →
      z.before <+: (settle capacity z (z.replaceWord isspace l)).1.before := by
    intro l hl
    rw [settle]
    split_ifs
    · have hsplit : z.before.rdropWhile (fun b => !isspace b) ++ z.wordBefore isspace = z.before :=
        List.rdropWhile_append_rtakeWhile
      conv_lhs => rw [← hsplit]
      exact (List.prefix_append_right_inj _).mpr hl
    · exact List.prefix_rfl
  rcases names with _ | ⟨name, _ | ⟨other, rest⟩⟩
  · exact List.prefix_rfl
  · have hname := (hnames name List.mem_cons_self).trans (List.take_prefix _ _)
    exact hsettle _ (hname.trans (List.prefix_append _ _))
  · have hcommon : z.wordBefore isspace <+:
        CommonPrefix.all ((name :: other :: rest).map CStr.cut) :=
      CommonPrefix.prefix_all_iff.mpr (List.forall_mem_map.mpr hnames)
    rw [tabOutcome_several]
    split_ifs
    · exact hsettle _ hcommon
    · exact List.prefix_rfl

/-- The listing of the candidates: the first of them, and the number of the others. -/
def listingTexts (names : List CStr) : List (List Byte) :=
  (str "\r\n").bytes :: ((names.take shCompletionMaxMatches).map fun name =>
    vprintfBytes (name.bytes ++ ascii "\r\n")) ++
    if names.length > shCompletionMaxMatches then
      [vprintfBytes (ascii "... " ++ fmtUnsigned (names.length - shCompletionMaxMatches) ++
        ascii " more\r\n")]
    else []

/-- What drawing the line again writes. -/
def drawTexts (env : Env ω) (s : Shell) : List (List Byte) :=
  if s.echoEnabled then redrawTexts env s else []

/-- What a completion writes: the listing of an ambiguous word, and the line, unless nothing was
done. -/
def tabTexts (env : Env ω) (s : Shell) (names : List CStr) (status : Status) : List (List Byte) :=
  if names = [] ∨ status = Status.errLineTooLong then []
  else if status = Status.errAmbiguous then listingTexts names ++ drawTexts env s
  else drawTexts env s

/-- What is seen of one completion with the given candidates. -/
structure Completes (env : Env ω) (st : Sys ω) (names : List CStr) (r : Sys ω × Status) : Prop where
  lists : (r.1.sh.twoLists, r.2) = tabOutcome st.sh.lineCapacity st.sh.twoLists names
  /-- The shell changes only when the word is replaced. -/
  unchanged : names = [] ∨ r.2 ≠ Status.ok → r.1.sh = st.sh
  /-- A new line is not one of the history. -/
  leaves : names ≠ [] → r.2 = Status.ok → r.1.sh.historyView = -1
  output : r.1.trace = st.trace ++ (tabTexts env r.1.sh names r.2).map .write

/-- **Tab only adds to what stands left of the cursor**, when all candidates begin with the word
there. -/
theorem Completes.before_prefix {env : Env ω} {st : Sys ω} {names : List CStr} {r : Sys ω × Status}
    (h : Completes env st names r)
    (hnames : ∀ name ∈ names, st.sh.twoLists.wordBefore isspace <+: name.cut) :
    st.sh.twoLists.before <+: r.1.sh.twoLists.before := by
  have hprefix := before_prefix_tabOutcome st.sh.lineCapacity st.sh.twoLists hnames
  rwa [← h.lists] at hprefix

/-! ## One completion -/

section Complete

variable {env : Env ω} {st : Sys ω}

/-- The line is drawn again. -/
private theorem shRedrawLineInternal_trace (env : Env ω) (st : Sys ω) :
    (shRedrawLineInternal env st).trace = st.trace ++ (drawTexts env st.sh).map .write := by
  rw [shRedrawLineInternal, drawTexts]
  split_ifs
  · rw [writes_trace, touchDisplay_trace]
  · exact (List.append_nil _).symm

/-- The two lists behind the replacement of the word around the cursor. -/
private theorem Shell.Wf.twoLists_replaceRange {s : Shell} (h : s.Wf) (x : CStr) {space : ℕ}
    (hspace : space ≤ 1)
    (hfit : s.tokenStart + x.length + space + (s.lineLen - s.tokenEnd) < s.lineCapacity) :
    (s.replaceRange s.tokenStart s.tokenEnd x space).twoLists =
      s.twoLists.replaceWord isspace (x.bytes ++ List.replicate space blank) := by
  obtain ⟨hstart, hend, hstop⟩ := h.token_bounds
  have hlength : (s.text.take s.tokenStart ++ (x.bytes ++ List.replicate space blank)).length =
      s.tokenStart + x.length + space := by
    rw [List.length_append, List.length_append, List.length_replicate,
      List.length_take_of_le (by rw [h.length_text]; omega), CStr.length, Nat.add_assoc]
  have htext : (s.replaceRange s.tokenStart s.tokenEnd x space).text =
      s.text.take s.tokenStart ++ (x.bytes ++ List.replicate space blank) ++
        s.text.drop s.tokenEnd :=
    h.text_replaceRange x (hstart.trans hend) hstop hspace hfit
  have hcursor : (s.replaceRange s.tokenStart s.tokenEnd x space).cursor =
      s.tokenStart + x.length + space := rfl
  rw [h.replaceWord_eq, Shell.twoLists, htext, hcursor, TwoLists.ofCursor,
    List.take_left' hlength, List.drop_left' hlength]

/-- The length of the line in which the word around the cursor is replaced. -/
private theorem Shell.Wf.length_replaceWord {s : Shell} (h : s.Wf) (l : List Byte) :
    (s.twoLists.replaceWord isspace l).before.length +
      (s.twoLists.replaceWord isspace l).after.length =
        s.tokenStart + l.length + (s.lineLen - s.tokenEnd) := by
  obtain ⟨hstart, hend, hstop⟩ := h.token_bounds
  rw [h.replaceWord_eq, List.length_append, List.length_drop, h.length_text,
    List.length_take_of_le (by rw [h.length_text]; omega)]

/-- **Replacing the word around the cursor.**

**Proof sketch.** Case split on the room in the line. Without room both sides keep the line and
report it; with room the bytes stored are those of the replaced word, and the line is redrawn. -/
theorem completes_replaceToken (hwf : st.sh.Wf) {names : List CStr} (hne : names ≠ []) (x : CStr)
    (b : Bool) (hout : tabOutcome st.sh.lineCapacity st.sh.twoLists names =
      settle st.sh.lineCapacity st.sh.twoLists (st.sh.twoLists.replaceWord isspace
        (x.bytes ++ List.replicate (spaceLen st.sh st.sh.tokenEnd b) blank))) :
    Completes env st names (replaceToken env st st.sh.tokenStart st.sh.tokenEnd x b) := by
  obtain ⟨hstart, hend, hstop⟩ := hwf.token_bounds
  have hspace : spaceLen st.sh st.sh.tokenEnd b ≤ 1 := by
    rw [spaceLen]
    split_ifs <;> omega
  have hlength := hwf.length_replaceWord
    (x.bytes ++ List.replicate (spaceLen st.sh st.sh.tokenEnd b) blank)
  rw [List.length_append, List.length_replicate, ← CStr.length, ← Nat.add_assoc] at hlength
  rw [settle, hlength] at hout
  rw [replaceToken, if_neg (by omega)]
  dsimp only
  split_ifs with hlong
  · rw [if_neg (by omega)] at hout
    have hstatus : Status.errLineTooLong ≠ Status.ok := by decide
    refine ⟨hout.symm, fun _ => rfl, fun _ h => absurd h hstatus, ?_⟩
    rw [tabTexts, if_pos (.inr rfl)]
    exact (List.append_nil _).symm
  · rw [if_pos (by omega)] at hout
    refine ⟨?_, fun h => absurd h (by simp [hne]), fun _ _ => ?_, ?_⟩
    · rw [hout, shRedrawLineInternal_sh]
      exact congrArg (·, Status.ok) (hwf.twoLists_replaceRange x hspace (by omega))
    · rw [shRedrawLineInternal_sh]
      rfl
    · have hdone : ¬(names = [] ∨ Status.ok = Status.errLineTooLong) :=
        not_or.mpr ⟨hne, by decide⟩
      have hstatus : Status.ok ≠ Status.errAmbiguous := by decide
      rw [shRedrawLineInternal_trace, tabTexts, if_neg hdone, if_neg hstatus,
        shRedrawLineInternal_sh]
      rfl

/-- Listing the candidates. -/
private theorem Gives.printMatches_eq {s : Shell} {level : CompletionLevel}
    {item : ℕ → Option (Option CStr)} (hgives : Gives env s level item) (pre : CStr)
    (hst : st.sh = s) {names : List CStr}
    (hnames : ((itemNames item (levelLimit s level) 0).filter fun name => startsWith name pre) =
      names) :
    printMatches env st level pre names.length =
      shRedrawLineInternal env (writes env st (listingTexts names)) := by
  have hloop := @Gives.printMatchesLoop_eq ω env s level item hgives pre (levelLimit s level) 0
    (writeInternal env st (str "\r\n")) hst 0
  rw [hnames, Nat.sub_zero] at hloop
  have hfirst : writes env (writeInternal env st (str "\r\n")) ((names.take
      shCompletionMaxMatches).map fun name => vprintfBytes (name.bytes ++ ascii "\r\n")) =
        writes env st ((str "\r\n").bytes :: (names.take shCompletionMaxMatches).map fun name =>
          vprintfBytes (name.bytes ++ ascii "\r\n")) := rfl
  rw [printMatches, writeInternal_sh, hst, hloop, hfirst, listingTexts]
  split_ifs with hmore
  · rw [writes_append]
  · rw [List.append_nil]

/-- A name that is too long for a line does not fit in its cut form either.

**Proof sketch.** A name is cut only when it has more bytes than any line may have, and then neither
form fits. -/
private theorem settle_cut (hwf : st.sh.Wf) (name : CStr) :
    settle st.sh.lineCapacity st.sh.twoLists (st.sh.twoLists.replaceWord isspace (name.cut ++
        if (st.sh.twoLists.replaceWord isspace []).after = [] then [blank] else [])) =
      settle st.sh.lineCapacity st.sh.twoLists (st.sh.twoLists.replaceWord isspace (name.bytes ++
        if (st.sh.twoLists.replaceWord isspace []).after = [] then [blank] else [])) := by
  by_cases hlong : name.bytes.length ≤ shMaxLineLen
  · rw [CStr.cut, List.take_of_length_le hlong]
  · have hcap := hwf.capacity_le
    have hafter : (st.sh.twoLists.replaceWord isspace []).after.length =
        st.sh.lineLen - st.sh.tokenEnd := by
      rw [hwf.replaceWord_eq, List.length_drop, hwf.length_text]
    have hfull : ∀ l : List Byte, shMaxLineLen ≤ l.length →
        ¬(st.sh.tokenStart +
          (l ++ if (st.sh.twoLists.replaceWord isspace []).after = [] then [blank]
          else []).length + (st.sh.lineLen - st.sh.tokenEnd) < st.sh.lineCapacity) := by
      intro l hl
      rw [← hafter, List.length_append]
      split_ifs with hnil
      · rw [List.length_singleton]
        omega
      · have := List.length_pos_iff.mpr hnil
        omega
    rw [settle, settle, hwf.length_replaceWord, hwf.length_replaceWord, if_neg (hfull _ ?_),
      if_neg (hfull _ (by omega))]
    rw [CStr.cut, List.length_take_of_le (by omega)]

/-- **The part of the completion behind the loop.**

**Proof sketch.** Case split on the number of matches. None changes nothing, one replaces the word,
and several replace it when their common prefix is longer than the word, and are listed when it is
not. -/
theorem completes_completeMatches (hwf : st.sh.Wf) {level : CompletionLevel}
    {item : ℕ → Option (Option CStr)} (hgives : Gives env st.sh level item) {names : List CStr}
    (hnames : ((itemNames item (levelLimit st.sh level) 0).filter fun name =>
      startsWith name st.sh.tokenPrefix) = names) :
    Completes env st names (completeMatches env st level st.sh.tokenPrefix st.sh.tokenStart
      st.sh.tokenEnd (names.foldl Matches.add ⟨CStr.empty, 0, 0⟩)) := by
  have hword : st.sh.cursor - st.sh.tokenStart = (st.sh.twoLists.wordBefore isspace).length := by
    rw [hwf.wordBefore_eq, hwf.text_cursor.2.2.2]
  cases names with
  | nil =>
    show Completes env st [] (st, Status.ok)
    refine ⟨rfl, fun _ => rfl, fun h => absurd rfl h, ?_⟩
    rw [tabTexts, if_pos (.inl rfl)]
    exact (List.append_nil _).symm
  | cons name rest =>
    obtain ⟨hfirst, hcount, hcommon, hlen⟩ := foldl_add_eq name rest rfl
    set m := (name :: rest).foldl Matches.add ⟨CStr.empty, 0, 0⟩
    rw [completeMatches, if_neg (by omega), hcount]
    cases rest with
    | nil =>
      rw [List.length_nil, if_pos rfl]
      refine completes_replaceToken hwf (List.cons_ne_nil _ _) _ true ?_
      have hspace : List.replicate (spaceLen st.sh st.sh.tokenEnd true) blank =
          if (st.sh.twoLists.replaceWord isspace []).after = [] then [blank] else [] := by
        rw [hwf.spaceLen_eq]
        simp only [hwf.after_eq_nil_iff]
        split_ifs <;> rfl
      rw [hfirst, hspace]
      exact (settle_cut hwf name).symm
    | cons other rest =>
      rw [List.length_cons, if_neg (by omega), hword, hlen]
      split_ifs with hlonger
      · refine completes_replaceToken hwf (List.cons_ne_nil _ _) _ false ?_
        have hspace : spaceLen st.sh st.sh.tokenEnd false = 0 := by
          rw [spaceLen, if_neg fun h => Bool.false_ne_true h.1]
        rw [tabOutcome_several, if_pos hlonger, CStr.take_bytes, hspace, ← hlen, hcommon,
            List.replicate_zero,
          List.append_nil]
      · have hmatches : rest.length + 1 + 1 = (name :: other :: rest).length := rfl
        rw [hmatches, hgives.printMatches_eq _ rfl hnames]
        have hlisted :
            ¬(name :: other :: rest = [] ∨ Status.errAmbiguous = Status.errLineTooLong) :=
          not_or.mpr ⟨List.cons_ne_nil _ _, by decide⟩
        have hstatus : Status.errAmbiguous ≠ Status.ok := by decide
        refine ⟨?_, fun _ => ?_, fun _ h => absurd h hstatus, ?_⟩
        · rw [tabOutcome_several, if_neg hlonger, shRedrawLineInternal_sh, writes_sh]
        · rw [shRedrawLineInternal_sh, writes_sh]
        · rw [shRedrawLineInternal_trace, writes_trace, tabTexts, if_neg hlisted, if_pos rfl,
            shRedrawLineInternal_sh, List.map_append, List.append_assoc]

/-- A name that begins with the word left of the cursor does so within the length of a line. -/
private theorem Shell.Wf.startsWith_eq {s : Shell} (h : s.Wf) (name : CStr) :
    startsWith name s.tokenPrefix = (s.twoLists.wordBefore isspace).isPrefixOf name.cut := by
  have hcursor := h.cursor_le
  have hlt := h.lineLen_lt
  have hcap := h.capacity_le
  have hlength := h.text_cursor.2.2.2
  rw [h.wordBefore_eq, startsWith, Bool.eq_iff_iff, List.isPrefixOf_iff_prefix,
    List.isPrefixOf_iff_prefix, CStr.cut, List.prefix_take_iff]
  exact (and_iff_left (by omega)).symm

/-- The tokens before the word left of the cursor. -/
private theorem Shell.Wf.tokensBefore_eq {s : Shell} (h : s.Wf)
    (htokens : (tabTokens s).status = Status.ok) :
    s.tokensBefore (tabTokens s).texts = s.tokensLeft := by
  have hnil : s.cursor - s.tokenStart ≠ 0 ↔ ¬s.twoLists.wordBefore isspace = [] := by
    rw [h.wordBefore_eq, ← h.text_cursor.2.2.2, Ne, List.length_eq_zero_iff]
  rw [Shell.tokensBefore, Shell.tokensLeft, TokenizeResult.args, if_pos htokens]
  simp only [hnil]
  split_ifs <;> rfl

/-- **Tab does what the candidates tell**: for every accepted registry and every line that is read
without error left of the cursor, it considers the names offered behind the tokens there, and what
becomes of the line, the status and the output follow from them.

**Proof sketch.** The walk of the completion ends at the level that the offer presents
(`presents_descend`). Scanning that level gives the candidates, and `completes_completeMatches` is
what happens with them. -/
theorem shCompleteLineInternal_completes {items : Ptr → ℕ → ℕ → Option Ptr → Option CStr}
    (hpure : PureProviders env items) (hreg : Registered st.sh) (hwf : st.sh.Wf)
    (htokens : (tabTokens st.sh).status = Status.ok) :
    Completes env st (st.sh.candidates items) (shCompleteLineInternal env st) := by
  have hcursor := hwf.cursor_le
  have hlt := hwf.lineLen_lt
  have hcap := hwf.capacity_le
  have hplace : ¬(st.sh.cursor > st.sh.lineLen ∨ st.sh.cursor > shMaxLineLen) := by omega
  have hpresents := presents_descend hreg st.sh.tokensLeft
  rw [shCompleteLineInternal, if_neg hplace]
  dsimp only [Sys.touch_sh]
  rw [← tabTokens, if_neg (not_not.mpr htokens), hwf.tokensBefore_eq htokens]
  cases hlevel : descend st.sh (rootLevel st.sh) st.sh.tokensLeft with
  | none =>
    rw [hlevel] at hpresents
    have hnone : st.sh.candidates items = [] := by
      rw [Shell.candidates]
      generalize st.sh.offer st.sh.tokensLeft = offer at hpresents
      cases hpresents
      rfl
    rw [hnone]
    refine ⟨rfl, fun _ => rfl, fun h => absurd rfl h, ?_⟩
    rw [tabTexts, if_pos (.inl rfl)]
    exact (List.append_nil _).symm
  | some level =>
    rw [hlevel] at hpresents
    have hgives := hpresents.gives hreg hpure
    have hnames : ((itemNames ((st.sh.offer st.sh.tokensLeft).item items)
        (levelLimit st.sh level) 0).filter fun name => startsWith name st.sh.tokenPrefix) =
          st.sh.candidates items := by
      rw [hpresents.levelLimit_eq hreg, Offer.itemNames_eq, Shell.candidates]
      simp only [hwf.startsWith_eq]
    dsimp only
    set touched := st.touch .line st.sh.lineLen
    have hsh : touched.sh = st.sh := rfl
    rw [scanLoop_snd, hgives.scanLoop_fst _ _ _ hsh, hgives.matchNames_eq _ _ _ hsh, hnames]
    obtain ⟨hlists, hunchanged, hleaves, houtput⟩ := @completes_completeMatches ω env touched hwf
      level _ hgives _ hnames
    exact ⟨hlists, hunchanged, hleaves, houtput⟩

end Complete

/-! ## A small instance -/

/-- A provider of two names. -/
def chooseItems (_ : Ptr) (_ index : ℕ) (_ : Option Ptr) : Option CStr :=
  [str "alpha", str "alpine"][index]?

/-- The application code with this provider. -/
def chooseEnv : Env Unit :=
  { idleEnv with
    completion := fun fn _ _ argIndex index ctx => ([], chooseItems fn argIndex index ctx) }

/-- A command with this provider. -/
def chooseCommand : Cmd := { ledCommand with name := some (str "choose"), completion := some 9 }

/-- The small shell with the command, and the first letter of the names typed behind it. -/
def chooseSys : Sys Unit :=
  run chooseEnv ⟨smallShell, (), [], []⟩
    [.api (.registerCommands (.array [chooseCommand])), .input (ascii "choose a")]

/-- This system is reachable. -/
private theorem chooseSys_reachable : Reachable chooseEnv chooseSys :=
  ⟨some smallConfig, smallStorage, smallShell, (), _, smallStorage_sized, shInit_small, rfl⟩

/-- The word becomes what the two names have in common. -/
theorem shCompleteLineInternal_completes_choose :
    (shCompleteLineInternal chooseEnv chooseSys).1.sh.twoLists = ⟨ascii "choose alp", []⟩ ∧
      (shCompleteLineInternal chooseEnv chooseSys).2 = Status.ok := by
  have hpure : PureProviders chooseEnv chooseItems := fun _ _ _ _ _ _ => rfl
  have hlists := (shCompleteLineInternal_completes hpure chooseSys_reachable.registered
    chooseSys_reachable.wf (by decide +kernel)).lists
  have hout : tabOutcome chooseSys.sh.lineCapacity chooseSys.sh.twoLists
      (chooseSys.sh.candidates chooseItems) = (⟨ascii "choose alp", []⟩, Status.ok) := by
    decide +kernel
  exact Prod.ext_iff.mp (hlists.trans hout)

end PortableShell
