import PortableShell.Types

set_option relaxedAutoImplicit false
set_option autoImplicit false

/-!
# The tokenizer

`sh_tokenize` splits a line in place: a read and a write position run over one buffer, and a
finished token is terminated where the write position stands. This file has that function,
a reference tokenizer that reads the line once from left to right, and the proof that they
agree.

## Main definitions

* `PortableShell.shTokenize` — `sh_tokenize` on the memory of the line.
* `PortableShell.Lex`, `PortableShell.Lex.step` — the reference automaton.
* `PortableShell.tokenize` — the reference tokenizer: the automaton run over a line.

## Main results

* `PortableShell.tokenBody_eq` — one token of the in-place loop: what it leaves in memory, with
  the write position never ahead of the read position.
* `PortableShell.shTokenize_status`, `shTokenize_args` — `sh_tokenize` and `tokenize` agree.
-/

namespace PortableShell

/-- The byte `"`. -/
def dquote : Byte := chr '"'

/-- The byte `'`. -/
def squote : Byte := chr '\''

/-- The byte `\`. -/
def backslash : Byte := chr '\\'

/-- Whether a byte opens a quotation. -/
def isQuote (c : Byte) : Bool := c = dquote || c = squote

/-! ## The in-place tokenizer -/

/-- The memory cell at an index. -/
def cell (m : List Byte) (i : ℕ) : Byte := m.getD i 0

/-- What `sh_tokenize` leaves: the line buffer, the offsets written to `argv`, the status. -/
structure TokenizeResult where
  mem : List Byte
  argv : List ℕ
  status : Status

/-- The loop `while (isspace(*read)) read++`. -/
def skipSpaces : ℕ → List Byte → ℕ → ℕ
  | 0, _, read => read
  | n + 1, m, read => if isspace (cell m read) then skipSpaces n m (read + 1) else read

/-- The loop over the bytes of one token. It ends with the quote character still open (NUL for
none), or with `none` at a backslash that ends the line. -/
def tokenBody : ℕ → List Byte → ℕ → ℕ → Byte → List Byte × ℕ × ℕ × Option Byte
  | 0, m, read, write, quote => (m, read, write, some quote)
  | n + 1, m, read, write, quote =>
    let c := cell m read
    if c = 0 then (m, read, write, some quote)
    else if quote = 0 ∧ isspace c then (m, read + 1, write, some quote)
    else if c = backslash ∧ quote ≠ squote then
      if cell m (read + 1) = 0 then (m, read + 1, write, none)
      else tokenBody n (Mem.store m write [cell m (read + 1)]) (read + 2) (write + 1) quote
    else if quote = 0 then
      if isQuote c then tokenBody n m (read + 1) write c
      else tokenBody n (Mem.store m write [c]) (read + 1) (write + 1) quote
    else if c = quote then tokenBody n m (read + 1) write 0
    else tokenBody n (Mem.store m write [c]) (read + 1) (write + 1) quote

/-- The loop over the tokens. -/
def tokenizeLoop (argvCapacity : ℕ) : ℕ → List Byte → ℕ → ℕ → List ℕ → TokenizeResult
  | 0, m, _, _, argv => ⟨m, argv, Status.ok⟩
  | n + 1, m, read, write, argv =>
    if cell m read = 0 then ⟨m, argv, Status.ok⟩
    else
      let read := skipSpaces m.length m read
      if cell m read = 0 then ⟨m, argv, Status.ok⟩
      else if argv.length ≥ argvCapacity ∨ argv.length ≥ intMax then
        ⟨m, argv, Status.errTooManyArgs⟩
      else
        match tokenBody m.length m read write 0 with
        | (m, _, _, none) => ⟨m, argv ++ [write], Status.errInvalidArg⟩
        | (m, read, write', some quote) =>
          if quote ≠ 0 then ⟨m, argv ++ [write], Status.errUnterminatedQuote⟩
          else tokenizeLoop argvCapacity n (Mem.store m write' [0]) read (write' + 1)
            (argv ++ [write])

/-- `sh_tokenize` on the memory that starts at the line. Each loop runs at most once for every
cell. -/
def shTokenize (line : List Byte) (argvCapacity : ℕ) : TokenizeResult :=
  if argvCapacity = 0 then ⟨line, [], Status.errInvalidArg⟩
  else tokenizeLoop argvCapacity line.length line 0 0 []

namespace TokenizeResult

/-- The texts the entries written to `argv` point to. -/
def texts (r : TokenizeResult) : List CStr := r.argv.map (CStr.at r.mem)

/-- The tokens as the caller sees them: `*argc_out` is zero after an error. -/
def args (r : TokenizeResult) : List CStr := if r.status = Status.ok then r.texts else []

end TokenizeResult

/-- The token loop writes no more entries than `argv` has.

**Proof sketch.** Induction on the fuel: an entry is added only where the vector is not full. -/
private theorem length_argv_tokenizeLoop {cap : ℕ} (n : ℕ) (m : List Byte) (read write : ℕ)
    {argv : List ℕ} (h : argv.length ≤ cap) :
    (tokenizeLoop cap n m read write argv).argv.length ≤ cap := by
  induction n generalizing m read write argv with
  | zero => exact h
  | succ n ih =>
    rw [tokenizeLoop]
    dsimp only
    by_cases hfull : argv.length ≥ cap ∨ argv.length ≥ intMax
    · rw [if_pos hfull]
      split_ifs <;> exact h
    · have hroom : (argv ++ [write]).length ≤ cap := by
        rw [List.length_append, List.length_singleton]
        omega
      rw [if_neg hfull]
      generalize tokenBody m.length m (skipSpaces m.length m read) write 0 = body
      rcases body with ⟨m', read', write', _ | quote⟩
      · split_ifs
        · exact h
        · exact h
        · exact hroom
      · dsimp only
        split_ifs
        · exact h
        · exact h
        · exact hroom
        · exact ih _ _ _ hroom

/-- `sh_tokenize` writes no more entries than `argv` has. -/
theorem length_argv_shTokenize (line : List Byte) (cap : ℕ) :
    (shTokenize line cap).argv.length ≤ cap := by
  unfold shTokenize
  split_ifs
  · exact Nat.zero_le _
  · exact length_argv_tokenizeLoop line.length line 0 0 (Nat.zero_le _)

/-! ## The reference tokenizer -/

/-- The reference automaton: the tokens finished so far and, inside a token, its text and the
open quote character (NUL for none). -/
inductive Lex
  /-- A token started beyond the capacity. -/
  | failed
  /-- Between tokens. -/
  | gap (done : List (List Byte))
  /-- In a token. -/
  | word (done : List (List Byte)) (cur : List Byte) (quote : Byte)
  /-- In a token, after a backslash. -/
  | escape (done : List (List Byte)) (cur : List Byte) (quote : Byte)
  deriving DecidableEq

namespace Lex

/-- One byte inside a token. -/
def wordStep (done : List (List Byte)) (cur : List Byte) (quote c : Byte) : Lex :=
  if quote = 0 ∧ isspace c then gap (done ++ [cur])
  else if c = backslash ∧ quote ≠ squote then escape done cur quote
  else if quote = 0 then
    if isQuote c then word done cur c else word done (cur ++ [c]) quote
  else if c = quote then word done cur 0
  else word done (cur ++ [c]) quote

/-- One byte of the line. -/
def step (cap : ℕ) : Lex → Byte → Lex
  | failed, _ => failed
  | gap done, c =>
    if isspace c then gap done
    else if done.length ≥ cap ∨ done.length ≥ intMax then failed
    else wordStep done [] 0 c
  | word done cur quote, c => wordStep done cur quote c
  | escape done cur quote, c => word done (cur ++ [c]) quote

/-- The end of the line. -/
def finish : Lex → Except Status (List (List Byte))
  | failed => .error Status.errTooManyArgs
  | gap done => .ok done
  | word done cur quote =>
    if quote ≠ 0 then .error Status.errUnterminatedQuote else .ok (done ++ [cur])
  | escape _ _ _ => .error Status.errInvalidArg

/-- Run the automaton over some bytes. -/
def run (cap : ℕ) (l : Lex) (bytes : List Byte) : Lex := bytes.foldl (step cap) l

@[simp] theorem run_nil (cap : ℕ) (l : Lex) : run cap l [] = l := rfl

@[simp] theorem run_cons (cap : ℕ) (l : Lex) (c : Byte) (bytes : List Byte) :
    run cap l (c :: bytes) = run cap (step cap l c) bytes := rfl

/-- Bytes are read one piece after the other. -/
theorem run_append (cap : ℕ) (l : Lex) (a b : List Byte) :
    run cap l (a ++ b) = run cap (run cap l a) b := List.foldl_append

/-- A failure is final. -/
@[simp] theorem run_failed (cap : ℕ) (bytes : List Byte) : run cap failed bytes = failed := by
  induction bytes with
  | nil => rfl
  | cons c bytes ih => exact ih

/-- Whitespace between tokens is skipped. -/
theorem run_gap_spaces {cap : ℕ} {done : List (List Byte)} {ws : List Byte}
    (h : ∀ c ∈ ws, isspace c = true) : run cap (gap done) ws = gap done := by
  induction ws with
  | nil => rfl
  | cons c ws ih =>
    rw [run_cons, step, if_pos (h c List.mem_cons_self)]
    exact ih fun d hd => h d (List.mem_cons_of_mem c hd)

end Lex

/-- The reference tokenizer: status and tokens of a line. -/
def tokenize (cap : ℕ) (line : List Byte) : Except Status (List (List Byte)) :=
  ((Lex.gap []).run cap line).finish

/-! ## One token of the in-place loop -/

/-- The cell behind a prefix. -/
@[simp] theorem cell_append_cons (a b : List Byte) (c : Byte) : cell (a ++ c :: b) a.length = c :=
  by
  simp [cell]

/-- The memory of the in-place loop inside a token: finished tokens, the text so far, a gap of
cells already read, the unread line, the terminator and whatever follows it. -/
def layout (p cur gap u rest : List Byte) : List Byte := p ++ cur ++ gap ++ u ++ 0 :: rest

/-- The next unread byte stands behind the gap. -/
private theorem cell_layout_cons (p cur gap u rest : List Byte) (c : Byte) :
    cell (layout p cur gap (c :: u) rest) (p ++ cur ++ gap).length = c := by
  rw [layout, List.append_assoc, List.cons_append, cell_append_cons]

/-- At the end of the line the terminator stands behind the gap. -/
private theorem cell_layout_nil (p cur gap rest : List Byte) :
    cell (layout p cur gap [] rest) (p ++ cur ++ gap).length = 0 := by
  rw [layout, List.append_nil, cell_append_cons]

/-- Bytes that are passed over join the gap. -/
private theorem layout_append (p cur gap a u rest : List Byte) :
    layout p cur gap (a ++ u) rest = layout p cur (gap ++ a) u rest := by
  simp only [layout, List.append_assoc]

/-- Writing one byte behind the text fills the first cell of the gap, which has one once a byte
was read. -/
private theorem exists_store_layout (p cur gap a u rest : List Byte) (v : Byte) (ha : a ≠ []) :
    ∃ gap', gap'.length + 1 = (gap ++ a).length ∧
      Mem.store (layout p cur gap (a ++ u) rest) (p ++ cur).length [v] =
        layout p (cur ++ [v]) gap' u rest := by
  obtain ⟨g, gap', hg⟩ : ∃ g gap', gap ++ a = g :: gap' :=
    List.exists_cons_of_ne_nil (List.append_ne_nil_of_right_ne_nil gap ha)
  refine ⟨gap', by rw [hg, List.length_cons], ?_⟩
  have h := Mem.store_append (a := p ++ cur) (b := [g]) (c := gap' ++ u ++ 0 :: rest) (d := [v])
    rfl rfl
  have hsplit : layout p cur gap (a ++ u) rest = p ++ cur ++ [g] ++ (gap' ++ u ++ 0 :: rest) := by
    rw [layout_append, layout, hg]
    simp only [List.append_assoc, List.cons_append, List.nil_append]
  rw [hsplit, h, layout]
  simp only [List.append_assoc]

/-- Outcomes of `tokenBody` on the unread line `u`, next to those of the automaton. -/
inductive BodyOutcome (cap : ℕ) (p rest : List Byte) (done : List (List Byte)) (l : Lex)
    (u : List Byte) : List Byte × ℕ × ℕ × Option Byte → Prop
  | dangling (m : List Byte) (read write : ℕ) (cur : List Byte) (quote : Byte)
      (hl : l.run cap u = .escape done cur quote) :
      BodyOutcome cap p rest done l u (m, read, write, none)
  | blank (cur : List Byte) (g : Byte) (gap u' : List Byte)
      (hl : l.run cap u = (Lex.gap (done ++ [cur])).run cap u') (hlen : u'.length < u.length)
      (hsuf : u' <:+ u) :
      BodyOutcome cap p rest done l u
        (layout p cur (g :: gap) u' rest, (p ++ cur ++ (g :: gap)).length, (p ++ cur).length,
          some 0)
  | eol (cur gap : List Byte) (quote : Byte) (hl : l.run cap u = .word done cur quote) :
      BodyOutcome cap p rest done l u
        (layout p cur gap [] rest, (p ++ cur ++ gap).length, (p ++ cur).length, some quote)

/-- An outcome for the rest of a token is one for the token. -/
private theorem BodyOutcome.of_step {cap : ℕ} {p rest : List Byte} {done : List (List Byte)}
    {l l' : Lex} {a u : List Byte} {r : List Byte × ℕ × ℕ × Option Byte} (hl : l.run cap a = l')
    (h : BodyOutcome cap p rest done l' u r) : BodyOutcome cap p rest done l (a ++ u) r := by
  subst hl
  cases h with
  | dangling m read write cur quote hl =>
    exact .dangling m read write cur quote (by rw [Lex.run_append, hl])
  | blank cur g gap u' hl hlen hsuf =>
    exact .blank cur g gap u' (by rw [Lex.run_append, hl])
      (by rw [List.length_append]; omega) (hsuf.trans (List.suffix_append a u))
  | eol cur gap quote hl => exact .eol cur gap quote (by rw [Lex.run_append, hl])

/-- **One token of the in-place loop**: reading the unread line `u` behind the text `cur` and the
gap `gap`, the loop does what the automaton does. The write position is the end of the text and
the read position the end of the gap, so no unread byte is overwritten.

**Proof sketch.** Induction on the fuel. A byte that is written fills the first cell of the gap
extended by the byte itself (`store_layout`), so text and gap only move right. -/
theorem tokenBody_eq (cap : ℕ) (p rest : List Byte) (done : List (List Byte)) :
    ∀ (n : ℕ) (u cur gap : List Byte) (quote : Byte), u.length < n → 0 ∉ u →
      BodyOutcome cap p rest done (.word done cur quote) u
        (tokenBody n (layout p cur gap u rest)
          (p ++ cur ++ gap).length (p ++ cur).length quote) := by
  intro n
  induction n with
  | zero => intro u cur gap quote hn; exact absurd hn (Nat.not_lt_zero _)
  | succ n ih =>
    intro u cur gap quote hn hz
    -- bytes `a` are read and one byte is written
    have hcopy : ∀ (a u' : List Byte) (v q : Byte), a ≠ [] → u'.length < n → 0 ∉ u' →
        BodyOutcome cap p rest done (.word done (cur ++ [v]) q) u'
          (tokenBody n (Mem.store (layout p cur gap (a ++ u') rest) (p ++ cur).length [v])
            ((p ++ cur ++ gap).length + a.length) ((p ++ cur).length + 1) q) := by
      intro a u' v q ha hlen hu
      obtain ⟨gap', hlen', hstore⟩ := exists_store_layout p cur gap a u' rest v ha
      rw [hstore]
      convert ih u' (cur ++ [v]) gap' q hlen hu using 2 <;>
        simp only [List.length_append, List.length_singleton] at hlen' ⊢ <;> omega
    -- bytes `a` are read and none is written
    have hpass : ∀ (a u' : List Byte) (q : Byte), u'.length < n → 0 ∉ u' →
        BodyOutcome cap p rest done (.word done cur q) u'
          (tokenBody n (layout p cur gap (a ++ u') rest)
            ((p ++ cur ++ gap).length + a.length) (p ++ cur).length q) := by
      intro a u' q hlen hu
      rw [layout_append]
      convert ih u' cur (gap ++ a) q hlen hu using 2
      simp only [List.length_append]
      omega
    cases u with
    | nil =>
      rw [tokenBody, cell_layout_nil, if_pos rfl]
      exact .eol cur gap quote rfl
    | cons c u =>
      have hc0 : c ≠ 0 := fun h => hz (h ▸ List.mem_cons_self)
      have hu : 0 ∉ u := fun h => hz (List.mem_cons_of_mem c h)
      have hlen : u.length < n := by simpa using hn
      have hw : (Lex.word done cur quote).run cap [c] = Lex.wordStep done cur quote c := rfl
      rw [tokenBody, cell_layout_cons]
      simp only [if_neg hc0]
      by_cases hsp : quote = 0 ∧ isspace c = true
      · rw [if_pos hsp, hsp.1]
        rw [Lex.wordStep, if_pos hsp] at hw
        have hl := hpass [c] u 0 hlen hu
        obtain ⟨g, gap', hg⟩ : ∃ g gap', gap ++ [c] = g :: gap' :=
          List.exists_cons_of_ne_nil (List.append_ne_nil_of_right_ne_nil gap (List.cons_ne_nil _ _))
        have hb : BodyOutcome cap p rest done (.word done cur 0) (c :: u)
            (layout p cur (g :: gap') u rest, (p ++ cur ++ (g :: gap')).length,
              (p ++ cur).length, some 0) :=
          .blank cur g gap' u (by rw [← hsp.1, Lex.run_cons]; exact congrArg (Lex.run cap · u) hw)
            (Nat.lt_succ_self _) (List.suffix_cons c u)
        rw [← hg] at hb
        convert hb using 2
        · rw [← layout_append]; rfl
        · simp only [List.length_append, List.length_singleton]; congr 1
      · rw [if_neg hsp]
        rw [Lex.wordStep, if_neg hsp] at hw
        have hnext : (p ++ cur ++ gap).length + 1 = (p ++ cur ++ (gap ++ [c])).length := by
          simp only [List.length_append, List.length_singleton, Nat.add_assoc]
        by_cases hesc : c = backslash ∧ quote ≠ squote
        · rw [if_pos hesc]
          rw [if_pos hesc] at hw
          cases u with
          | nil =>
            rw [if_pos (by rw [hnext, ← cell_layout_nil p cur (gap ++ [c]) rest]
                           exact congrArg (cell · _) (layout_append p cur gap [c] [] rest))]
            exact .dangling _ _ _ cur quote hw
          | cons d u =>
            have hd : cell (layout p cur gap (c :: d :: u) rest) ((p ++ cur ++ gap).length + 1) =
                d := by
              have h := cell_layout_cons p cur (gap ++ [c]) u rest d
              rwa [← layout_append, ← hnext] at h
            have hd0 : d ≠ 0 := fun h => hu (h ▸ List.mem_cons_self)
            rw [hd, if_neg hd0]
            have h := hcopy [c, d] u d quote (List.cons_ne_nil _ _)
              (by have : (d :: u).length = u.length + 1 := rfl; omega)
              (fun h => hu (List.mem_cons_of_mem d h))
            refine BodyOutcome.of_step (a := [c, d]) ?_ h
            rw [Lex.run_cons, show (Lex.word done cur quote).step cap c = _ from hw]
            rfl
        · rw [if_neg hesc]
          rw [if_neg hesc] at hw
          by_cases hq : quote = 0
          · rw [if_pos hq]
            rw [if_pos hq] at hw
            by_cases hc : isQuote c = true
            · rw [if_pos hc]
              rw [if_pos hc] at hw
              exact .of_step (a := [c]) hw (hpass [c] u c hlen hu)
            · rw [if_neg hc]
              rw [if_neg hc] at hw
              exact .of_step (a := [c]) hw (hcopy [c] u c quote (List.cons_ne_nil _ _) hlen hu)
          · rw [if_neg hq]
            rw [if_neg hq] at hw
            by_cases hc : c = quote
            · rw [if_pos hc]
              rw [if_pos hc] at hw
              exact .of_step (a := [c]) hw (hpass [c] u 0 hlen hu)
            · rw [if_neg hc]
              rw [if_neg hc] at hw
              exact .of_step (a := [c]) hw (hcopy [c] u c quote (List.cons_ne_nil _ _) hlen hu)

/-! ## The token loop -/

/-- Finished tokens as they lie in memory, each with its terminator. -/
def pack (done : List (List Byte)) : List Byte := done.flatMap (· ++ [0])

/-- The offsets at which finished tokens start. -/
def offsets : ℕ → List (List Byte) → List ℕ
  | _, [] => []
  | o, t :: done => o :: offsets (o + t.length + 1) done

@[simp] theorem pack_append (a b : List (List Byte)) : pack (a ++ b) = pack a ++ pack b :=
  List.flatMap_append

@[simp] theorem pack_singleton (t : List Byte) : pack [t] = t ++ [0] := by simp [pack]

@[simp] theorem offsets_length (o : ℕ) (done : List (List Byte)) :
    (offsets o done).length = done.length := by
  induction done generalizing o with
  | nil => rfl
  | cons t done ih => simp [offsets, ih]

/-- The next token starts behind the packed ones. -/
private theorem offsets_concat (o : ℕ) (done : List (List Byte)) (t : List Byte) :
    offsets o (done ++ [t]) = offsets o done ++ [o + (pack done).length] := by
  induction done generalizing o with
  | nil => simp [offsets, pack]
  | cons d done ih =>
    rw [List.cons_append, offsets, ih, offsets, List.cons_append]
    congr 3
    simp only [pack, List.flatMap_cons, List.length_append, List.length_singleton]
    omega

/-- The strings at the offsets of packed tokens are the tokens. -/
private theorem map_at_offsets (done : List (List Byte)) (h : ∀ t ∈ done, 0 ∉ t) (a x : List Byte) :
    (offsets a.length done).map (fun o => (CStr.at (a ++ pack done ++ x) o).bytes) = done := by
  induction done generalizing a with
  | nil => rfl
  | cons t done ih =>
    have ht : 0 ∉ t := h t List.mem_cons_self
    have htail := ih (fun u hu => h u (List.mem_cons_of_mem t hu)) (a ++ (t ++ [0]))
    have hlen : (a ++ (t ++ [0])).length = a.length + t.length + 1 := by
      simp only [List.length_append, List.length_singleton, Nat.add_assoc]
    have hpack : pack (t :: done) = (t ++ [0]) ++ pack done := rfl
    rw [offsets, List.map_cons, hpack]
    congr 1
    · have hmem : a ++ (t ++ [0] ++ pack done) ++ x = a ++ t ++ 0 :: (pack done ++ x) := by simp
      rw [hmem]
      exact congrArg CStr.bytes (CStr.at_append (p := a) ⟨t, ht⟩ rfl)
    · rw [← hlen, ← List.append_assoc]
      exact htail

/-- A tokenizer result next to the reference result: on success the tokens lie packed at the
start of the buffer, with their offsets in `argv`. -/
def Agrees (r : TokenizeResult) : Except Status (List (List Byte)) → Prop
  | .ok toks => r.status = Status.ok ∧ r.argv = offsets 0 toks ∧ ∃ x, r.mem = pack toks ++ x
  | .error e => r.status = e

/-- Skipping whitespace moves the read position to the first byte that is none. -/
private theorem skipSpaces_eq (ws x : List Byte) (hws : ∀ c ∈ ws, isspace c = true) :
    ∀ (n : ℕ) (a : List Byte), ws.length ≤ n →
      isspace (cell (a ++ ws ++ x) (a ++ ws).length) = false →
      skipSpaces n (a ++ ws ++ x) a.length = (a ++ ws).length := by
  induction ws with
  | nil =>
    intro n a _ hx
    rw [List.append_nil] at hx ⊢
    cases n with
    | zero => rfl
    | succ n => rw [skipSpaces, hx]; rfl
  | cons c ws ih =>
    intro n a hn hx
    cases n with
    | zero => exact absurd hn (Nat.not_succ_le_zero _)
    | succ n =>
      have hassoc : a ++ (c :: ws) = a ++ [c] ++ ws := by simp
      have hc : cell (a ++ (c :: ws) ++ x) a.length = c := by
        rw [List.append_assoc, List.cons_append, cell_append_cons]
      rw [skipSpaces, hc, if_pos (hws c List.mem_cons_self)]
      rw [hassoc] at hx ⊢
      have h := ih (fun d hd => hws d (List.mem_cons_of_mem c hd)) n (a ++ [c])
        (by simpa using hn) hx
      rwa [List.length_append, List.length_singleton] at h

/-- Terminating a token that is followed by a gap packs it. -/
private theorem exists_store_terminator (done : List (List Byte)) (cur : List Byte) (g : Byte)
    (gap u rest : List Byte) :
    ∃ gap', gap'.length = gap.length ∧
      Mem.store (layout (pack done) cur (g :: gap) u rest) (pack done ++ cur).length [0] =
        layout (pack (done ++ [cur])) [] gap' u rest := by
  obtain ⟨gap', hlen, hstore⟩ :=
    exists_store_layout (pack done) cur [] (g :: gap) u rest 0 (List.cons_ne_nil _ _)
  refine ⟨gap', by simpa using hlen, ?_⟩
  rw [layout_append, List.nil_append] at hstore
  rw [hstore]
  simp only [layout, pack_append, pack_singleton, List.append_assoc, List.append_nil]

/-- Where there is no gap, the terminator of a token is that of the line. -/
private theorem store_terminator_eol (done : List (List Byte)) (cur rest : List Byte) :
    Mem.store (layout (pack done) cur [] [] rest) (pack done ++ cur).length [0] =
      layout (pack done) cur [] [] rest := by
  have hmem : layout (pack done) cur [] [] rest = pack done ++ cur ++ ([0] ++ rest) := by
    simp [layout]
  have hstore := Mem.store_append (a := pack done ++ cur) (b := [0]) (c := rest) (d := [0]) rfl rfl
  rw [List.append_assoc] at hstore
  rw [hmem, hstore]

/-- A token starts at the next offset. -/
private theorem offsets_concat_token (done : List (List Byte)) (cur : List Byte) :
    offsets 0 done ++ [(pack done ++ []).length] = offsets 0 (done ++ [cur]) := by
  rw [offsets_concat, List.append_nil, Nat.zero_add]

/-- The write position behind a terminated token. -/
private theorem length_pack_token (done : List (List Byte)) (cur : List Byte) :
    (pack done ++ cur).length + 1 = (pack (done ++ [cur]) ++ []).length := by
  simp only [pack_append, pack_singleton, List.length_append, List.length_cons, List.length_nil]
  omega

/-- The read position behind a terminated token and a gap. -/
private theorem length_pack_token_gap (done : List (List Byte)) (cur : List Byte)
    {gap gap' : List Byte} (h : gap'.length = gap.length) :
    (pack done ++ cur ++ (0 :: gap)).length = (pack (done ++ [cur]) ++ [] ++ gap').length := by
  simp only [pack_append, pack_singleton, List.length_append, List.length_cons, List.length_nil, h]
  omega

/-- **The whitespace in front of a token** joins the gap, and the automaton stays between tokens.

**Proof sketch.** The whitespace that `skipSpaces` passes is the longest beginning of the rest that
is whitespace, and the automaton ignores it between tokens. -/
theorem exists_skip (cap : ℕ) (done : List (List Byte)) (gap v rest : List Byte) :
    ∃ ws w, v = ws ++ w ∧ (∀ d w', w = d :: w' → isspace d = false) ∧
      skipSpaces (layout (pack done) [] gap v rest).length (layout (pack done) [] gap v rest)
          (pack done ++ [] ++ gap).length = (pack done ++ [] ++ (gap ++ ws)).length ∧
      (Lex.gap done).run cap v = (Lex.gap done).run cap w := by
  have hws : ∀ c ∈ v.takeWhile isspace, isspace c = true := fun _ h => List.mem_takeWhile_imp h
  have hw : ∀ d w', v.dropWhile isspace = d :: w' → isspace d = false := by
    intro d w' h
    simpa [h] using List.head?_dropWhile_not isspace v
  have hv : v = v.takeWhile isspace ++ v.dropWhile isspace := List.takeWhile_append_dropWhile.symm
  generalize v.takeWhile isspace = ws at hws hv
  generalize v.dropWhile isspace = w at hw hv
  refine ⟨ws, w, hv, hw, ?_, ?_⟩
  · have hx : layout (pack done) [] gap v rest =
        pack done ++ [] ++ gap ++ ws ++ (w ++ 0 :: rest) := by
      rw [hv, layout]
      simp only [List.append_assoc]
    rw [hx, ← List.append_assoc (pack done ++ []) gap ws]
    refine skipSpaces_eq ws _ hws _ _ (by simp only [List.length_append]; omega) ?_
    cases w with
    | nil => rw [List.nil_append, cell_append_cons, isspace_zero]
    | cons d w =>
      rw [List.cons_append, cell_append_cons]
      exact hw d w rfl
  · rw [hv, Lex.run_append, Lex.run_gap_spaces hws]

/-- **The token loop**: behind the packed tokens `done` and a gap, with `u` unread, the in-place
loop agrees with the automaton that is between tokens.

**Proof sketch.** Induction on the fuel. Whitespace joins the gap. A token is read by
`tokenBody_eq` and its terminator fills the first cell of the gap; when the token ends with the
line there may be no gap, and the terminator is written over the one of the line. -/
theorem tokenizeLoop_agrees (cap : ℕ) (rest : List Byte) :
    ∀ (n : ℕ) (u : List Byte) (done : List (List Byte)) (gap : List Byte), u.length < n → 0 ∉ u →
      Agrees (tokenizeLoop cap n (layout (pack done) [] gap u rest) (pack done ++ [] ++ gap).length
        (pack done ++ []).length (offsets 0 done)) ((Lex.gap done).run cap u).finish := by
  intro n
  induction n with
  | zero => intro u done gap hn; exact absurd hn (Nat.not_lt_zero _)
  | succ n ih =>
    intro u done gap hn hz
    have hdone : ∀ v, Agrees ⟨layout (pack done) [] gap v rest, offsets 0 done, Status.ok⟩
        (.ok done) := fun v =>
      ⟨rfl, rfl, gap ++ v ++ 0 :: rest, by simp [layout]⟩
    cases u with
    | nil =>
      rw [tokenizeLoop, cell_layout_nil, if_pos rfl]
      exact hdone []
    | cons c u =>
      have hc0 : c ≠ 0 := fun h => hz (h ▸ List.mem_cons_self)
      rw [tokenizeLoop, cell_layout_cons, if_neg hc0]
      obtain ⟨ws, w, hvw, hw, hskip, hrun⟩ := exists_skip cap done gap (c :: u) rest
      have hz' : 0 ∉ w := fun h => hz (hvw ▸ List.mem_append_right ws h)
      have hlay : layout (pack done) [] gap (c :: u) rest =
          layout (pack done) [] (gap ++ ws) w rest := by
        rw [hvw, layout_append]
      dsimp only
      rw [hskip, hlay, hrun]
      cases w with
      | nil =>
        rw [cell_layout_nil, if_pos rfl, ← hlay]
        exact hdone (c :: u)
      | cons d w =>
        have hd0 : d ≠ 0 := fun h => hz' (h ▸ List.mem_cons_self)
        have hvlen : (d :: w).length ≤ (c :: u).length := by rw [hvw]; simp
        rw [cell_layout_cons, if_neg hd0, offsets_length]
        by_cases hcap : done.length ≥ cap ∨ done.length ≥ intMax
        · rw [if_pos hcap, Lex.run_cons, Lex.step, if_neg (by simp [hw d w rfl]), if_pos hcap,
            Lex.run_failed]
          rfl
        · rw [if_neg hcap]
          -- the first byte of a token is read as a byte inside an empty token
          have hstart :
              (Lex.gap done).run cap (d :: w) = (Lex.word done [] 0).run cap (d :: w) := by
            rw [Lex.run_cons, Lex.run_cons, Lex.step, if_neg (by simp [hw d w rfl]), if_neg hcap]
            rfl
          rw [hstart]
          have hb := tokenBody_eq cap (pack done) rest done
            (layout (pack done) [] (gap ++ ws) (d :: w) rest).length (d :: w) [] (gap ++ ws) 0
            (by simp only [layout, List.length_append, List.length_cons]; omega) hz'
          revert hb
          generalize tokenBody _ _ _ _ _ = r
          intro hb
          cases hb with
          | dangling m read write cur quote hl =>
            rw [hl]
            rfl
          | blank cur g gap' u' hl hlen hsuf =>
            rw [hl]
            obtain ⟨gap₂, hgap, hstore⟩ := exists_store_terminator done cur g gap' u' rest
            have h := ih u' (done ++ [cur]) gap₂ (by omega) (fun h => hz' (hsuf.subset h))
            rw [← hstore, ← offsets_concat_token done cur, ← length_pack_token done cur,
              ← length_pack_token_gap done cur hgap] at h
            simpa only [ne_eq, not_true_eq_false, if_false, List.length_append, List.length_cons]
              using h
          | eol cur gap' quote hl =>
            rw [hl]
            by_cases hq : quote = 0
            · subst hq
              have hn0 : 0 < n := by
                simp only [List.length_cons] at hvlen hn
                omega
              simp only [ne_eq, not_true_eq_false, if_false, Lex.finish]
              cases gap' with
              | nil =>
                obtain ⟨k, rfl⟩ : ∃ k, n = k + 1 := ⟨n - 1, by omega⟩
                rw [store_terminator_eol, tokenizeLoop, cell_layout_nil, if_pos rfl]
                exact ⟨rfl, offsets_concat_token done cur, rest, by simp [layout]⟩
              | cons g gap' =>
                obtain ⟨gap₂, hgap, hstore⟩ := exists_store_terminator done cur g gap' [] rest
                have h := ih [] (done ++ [cur]) gap₂ hn0 List.not_mem_nil
                rw [← hstore, ← offsets_concat_token done cur, ← length_pack_token done cur,
                  ← length_pack_token_gap done cur hgap] at h
                simpa only [List.length_append, List.length_cons, Lex.run_nil, Lex.finish] using h
            · simp only [ne_eq, hq, not_false_eq_true, if_true, Lex.finish]
              rfl

/-! ## The whole line -/

namespace Lex

/-- The token texts an automaton state holds. -/
def tokens : Lex → List (List Byte)
  | failed => []
  | gap done => done
  | word done cur _ => done ++ [cur]
  | escape done cur _ => done ++ [cur]

/-- Every token text is free of NUL bytes. -/
def Nonzero (l : Lex) : Prop := ∀ t ∈ l.tokens, 0 ∉ t

/-- A byte inside a token keeps the token texts free of NUL bytes. -/
private theorem nonzero_wordStep {done : List (List Byte)} {cur : List Byte} {quote c : Byte}
    (hc : c ≠ 0) (h : (word done cur quote).Nonzero) : (wordStep done cur quote c).Nonzero := by
  have hadd : ∀ q, (word done (cur ++ [c]) q).Nonzero := by
    intro q t ht
    rcases List.mem_append.mp ht with ht | ht
    · exact h t (List.mem_append_left _ ht)
    · have hcur : 0 ∉ cur := h cur (List.mem_append_right _ List.mem_cons_self)
      rw [List.mem_singleton.mp ht]
      simp [hcur, Ne.symm hc]
  unfold wordStep
  split_ifs
  · exact h
  · exact h
  · exact h
  · exact hadd _
  · exact h
  · exact hadd _

/-- A byte of the line keeps the token texts free of NUL bytes. -/
private theorem nonzero_step {cap : ℕ} {l : Lex} {c : Byte} (hc : c ≠ 0) (h : l.Nonzero) :
    (l.step cap c).Nonzero := by
  cases l with
  | failed => exact h
  | gap done =>
    rw [step]
    split_ifs
    · exact h
    · exact fun t ht => absurd ht List.not_mem_nil
    · refine nonzero_wordStep hc fun t ht => ?_
      rcases List.mem_append.mp ht with ht | ht
      · exact h t ht
      · simp [List.mem_singleton.mp ht]
  | word done cur quote => exact nonzero_wordStep hc h
  | escape done cur quote =>
    intro t ht
    rcases List.mem_append.mp ht with ht | ht
    · exact h t (List.mem_append_left _ ht)
    · have hcur : 0 ∉ cur := h cur (List.mem_append_right _ List.mem_cons_self)
      rw [List.mem_singleton.mp ht]
      simp [hcur, Ne.symm hc]

/-- A line free of NUL bytes keeps the token texts free of them. -/
private theorem nonzero_run {cap : ℕ} {bytes : List Byte} (hz : 0 ∉ bytes) {l : Lex}
    (h : l.Nonzero) :
    (l.run cap bytes).Nonzero := by
  induction bytes generalizing l with
  | nil => exact h
  | cons c bytes ih =>
    exact ih (fun hm => hz (List.mem_cons_of_mem c hm))
      (nonzero_step (fun hc => hz (hc ▸ List.mem_cons_self)) h)

/-- The tokens of a successful end are those the state holds. -/
theorem tokens_of_finish {l : Lex} {toks : List (List Byte)} (h : l.finish = .ok toks) :
    l.tokens = toks := by
  cases l with
  | failed => cases h
  | gap done => exact Except.ok.inj h
  | word done cur quote =>
    rw [finish] at h
    split_ifs at h
    exact Except.ok.inj h
  | escape done cur quote => cases h

/-- The errors at the end of a line are no success. -/
theorem ne_ok_of_finish {l : Lex} {e : Status} (h : l.finish = .error e) : e ≠ Status.ok := by
  cases l with
  | failed => rw [← Except.error.inj h]; decide
  | gap done => cases h
  | word done cur quote =>
    rw [finish] at h
    split_ifs at h
    rw [← Except.error.inj h]
    decide
  | escape done cur quote => rw [← Except.error.inj h]; decide

end Lex

/-- No token contains a NUL when the line has none. -/
private theorem tokenize_nonzero {cap : ℕ} {line : List Byte} {toks : List (List Byte)}
    (hz : 0 ∉ line) (h : tokenize cap line = .ok toks) : ∀ t ∈ toks, 0 ∉ t := by
  have hn : ((Lex.gap []).run cap line).Nonzero :=
    Lex.nonzero_run hz fun t ht => absurd ht List.not_mem_nil
  rwa [Lex.Nonzero, Lex.tokens_of_finish h] at hn

/-- `sh_tokenize` on a terminated line and the reference tokenizer agree. -/
theorem shTokenize_agrees {cap : ℕ} (hcap : cap ≠ 0) {line : List Byte} (hz : 0 ∉ line)
    (rest : List Byte) : Agrees (shTokenize (line ++ 0 :: rest) cap) (tokenize cap line) := by
  have h := tokenizeLoop_agrees cap rest (line ++ 0 :: rest).length line [] []
    (by simp) hz
  rw [shTokenize, if_neg hcap]
  exact h

/-- The status of `sh_tokenize`. -/
theorem shTokenize_status {cap : ℕ} (hcap : cap ≠ 0) {line : List Byte} (hz : 0 ∉ line)
    (rest : List Byte) :
    (shTokenize (line ++ 0 :: rest) cap).status =
      match tokenize cap line with
      | .ok _ => Status.ok
      | .error e => e := by
  have h := shTokenize_agrees hcap hz rest
  cases ht : tokenize cap line with
  | error e => rw [ht] at h; exact h
  | ok toks => rw [ht] at h; exact h.1

/-- The tokens of `sh_tokenize`, as strings. -/
theorem shTokenize_texts {cap : ℕ} (hcap : cap ≠ 0) {line : List Byte} (hz : 0 ∉ line)
    (rest : List Byte) {toks : List (List Byte)} (ht : tokenize cap line = .ok toks) :
    ((shTokenize (line ++ 0 :: rest) cap).texts).map CStr.bytes = toks := by
  have h := shTokenize_agrees hcap hz rest
  rw [ht] at h
  obtain ⟨-, hargv, x, hmem⟩ := h
  rw [TokenizeResult.texts, hargv, hmem, List.map_map]
  exact map_at_offsets toks (tokenize_nonzero hz ht) [] x

/-- `sh_tokenize` succeeds exactly when the reference tokenizer does. -/
theorem shTokenize_status_eq_ok {cap : ℕ} (hcap : cap ≠ 0) {line : List Byte} (hz : 0 ∉ line)
    (rest : List Byte) :
    (shTokenize (line ++ 0 :: rest) cap).status = Status.ok ↔
      ∃ toks, tokenize cap line = .ok toks := by
  rw [shTokenize_status hcap hz]
  cases ht : tokenize cap line with
  | error e => simpa using Lex.ne_ok_of_finish ht
  | ok toks => simp

/-- The tokens the caller of `sh_tokenize` gets. -/
theorem shTokenize_args {cap : ℕ} (hcap : cap ≠ 0) {line : List Byte} (hz : 0 ∉ line)
    (rest : List Byte) {toks : List (List Byte)} (ht : tokenize cap line = .ok toks) :
    ((shTokenize (line ++ 0 :: rest) cap).args).map CStr.bytes = toks := by
  rw [TokenizeResult.args, if_pos ((shTokenize_status_eq_ok hcap hz rest).mpr ⟨toks, ht⟩)]
  exact shTokenize_texts hcap hz rest ht

end PortableShell
