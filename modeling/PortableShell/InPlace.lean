import PortableShell.Tokenizer

set_option relaxedAutoImplicit false
set_option autoImplicit false

/-!
# The stores of the tokenizer

`sh_tokenize` writes the tokens over the line it reads. This file has the stores it makes, with
the two positions at the time of each, and shows that no byte is lost that is still to be read:
the in-place tokenizer refines the reference tokenizer, in its own buffer.

## Main definitions

* `PortableShell.TokenStore` — one store, with the read and the write position.
* `PortableShell.tokenizeStores` — the stores of `sh_tokenize`, in order.
* `PortableShell.TokenStore.Harmless` — a store over a byte that has been read.

## Main results

* `PortableShell.mem_shTokenize` — what `sh_tokenize` leaves in memory are the stores.
* `PortableShell.harmless_of_mem_stores` — every store is harmless.
* `PortableShell.shTokenize_refines` — the in-place tokenizer and the reference tokenizer.
-/

namespace PortableShell

/-! ## The stores -/

/-- One store of `sh_tokenize`: the read position, the write position and the byte written. -/
structure TokenStore where
  read : ℕ
  write : ℕ
  byte : Byte
  deriving DecidableEq

/-- What a store does to the memory. -/
def TokenStore.apply (m : List Byte) (st : TokenStore) : List Byte := Mem.store m st.write [st.byte]

/-- The stores of the loop over the bytes of one token. -/
def tokenBodyStores : ℕ → List Byte → ℕ → ℕ → Byte → List TokenStore
  | 0, _, _, _, _ => []
  | n + 1, m, read, write, quote =>
    let c := cell m read
    if c = 0 then []
    else if quote = 0 ∧ isspace c then []
    else if c = backslash ∧ quote ≠ squote then
      if cell m (read + 1) = 0 then []
      else ⟨read + 2, write, cell m (read + 1)⟩ ::
        tokenBodyStores n (Mem.store m write [cell m (read + 1)]) (read + 2) (write + 1) quote
    else if quote = 0 then
      if isQuote c then tokenBodyStores n m (read + 1) write c
      else ⟨read + 1, write, c⟩ ::
        tokenBodyStores n (Mem.store m write [c]) (read + 1) (write + 1) quote
    else if c = quote then tokenBodyStores n m (read + 1) write 0
    else ⟨read + 1, write, c⟩ ::
      tokenBodyStores n (Mem.store m write [c]) (read + 1) (write + 1) quote

/-- The stores of the loop over the tokens: those of each token and its terminator. -/
def tokenizeLoopStores (argvCapacity : ℕ) : ℕ → List Byte → ℕ → ℕ → List ℕ → List TokenStore
  | 0, _, _, _, _ => []
  | n + 1, m, read, write, argv =>
    if cell m read = 0 then []
    else
      let read := skipSpaces m.length m read
      if cell m read = 0 then []
      else if argv.length ≥ argvCapacity ∨ argv.length ≥ intMax then []
      else
        tokenBodyStores m.length m read write 0 ++
          match tokenBody m.length m read write 0 with
          | (_, _, _, none) => []
          | (m, read, write', some quote) =>
            if quote ≠ 0 then []
            else ⟨read, write', 0⟩ ::
              tokenizeLoopStores argvCapacity n (Mem.store m write' [0]) read (write' + 1)
                (argv ++ [write])

/-- The stores of `sh_tokenize`, in order. -/
def tokenizeStores (line : List Byte) (argvCapacity : ℕ) : List TokenStore :=
  if argvCapacity = 0 then [] else tokenizeLoopStores argvCapacity line.length line 0 0 []

/-- What the loop over one token leaves in memory are its stores. -/
private theorem mem_tokenBody (n : ℕ) (m : List Byte) (read write : ℕ) (quote : Byte) :
    (tokenBody n m read write quote).1 =
      (tokenBodyStores n m read write quote).foldl TokenStore.apply m := by
  induction n generalizing m read write quote with
  | zero => rfl
  | succ n ih =>
    unfold tokenBody tokenBodyStores
    dsimp only
    split_ifs
    · rfl
    · rfl
    · rfl
    · exact ih _ _ _ _
    · exact ih _ _ _ _
    · exact ih _ _ _ _
    · exact ih _ _ _ _
    · exact ih _ _ _ _

/-- What the loop over the tokens leaves in memory are its stores.

**Proof sketch.** Induction on the fuel, along the branches of the loop. Each token contributes the
stores of its body and the terminator. -/
private theorem mem_tokenizeLoop (cap n : ℕ) (m : List Byte) (read write : ℕ) (argv : List ℕ) :
    (tokenizeLoop cap n m read write argv).mem =
      (tokenizeLoopStores cap n m read write argv).foldl TokenStore.apply m := by
  induction n generalizing m read write argv with
  | zero => rfl
  | succ n ih =>
    unfold tokenizeLoop tokenizeLoopStores
    dsimp only
    have hbody := mem_tokenBody m.length m (skipSpaces m.length m read) write 0
    generalize tokenBody m.length m (skipSpaces m.length m read) write 0 = body at hbody
    obtain ⟨m', read', write', _ | quote⟩ := body
    · split_ifs
      · rfl
      · rfl
      · rfl
      · rw [List.append_nil]
        exact hbody
    · dsimp only at hbody ⊢
      split_ifs
      · rfl
      · rfl
      · rfl
      · rw [List.append_nil]
        exact hbody
      · rw [List.foldl_append, ← hbody, List.foldl_cons]
        exact ih _ _ _ _

/-- **The memory behind `sh_tokenize`** is what the stores make of the line. -/
theorem mem_shTokenize (line : List Byte) (cap : ℕ) :
    (shTokenize line cap).mem = (tokenizeStores line cap).foldl TokenStore.apply line := by
  unfold shTokenize tokenizeStores
  split_ifs
  · rfl
  · exact mem_tokenizeLoop _ _ _ _ _ _

/-! ## No unread byte is overwritten -/

/-- A store over a byte that has been read, or of the terminator over that of the line. -/
def TokenStore.Harmless (length : ℕ) (st : TokenStore) : Prop :=
  st.write < st.read ∧ st.read ≤ length ∨ st = ⟨length, length, 0⟩

/-- What is still to be read is as it was in the line. -/
structure Unread (line rest m : List Byte) (read : ℕ) : Prop where
  length : m.length = (line ++ 0 :: rest).length
  drop : m.drop read = (line ++ 0 :: rest).drop read
  le : read ≤ line.length

section Unread

variable {line rest m : List Byte} {read write : ℕ}

/-- A cell still to be read. -/
theorem Unread.cell_eq (h : Unread line rest m read) {i : ℕ} (hi : read ≤ i) :
    cell m i = cell (line ++ 0 :: rest) i := by
  have hget : m[i]? = (line ++ 0 :: rest)[i]? := by
    obtain ⟨k, rfl⟩ := Nat.exists_eq_add_of_le hi
    rw [← List.getElem?_drop, ← List.getElem?_drop, h.drop]
  rw [cell, cell, List.getD_eq_getElem?_getD, List.getD_eq_getElem?_getD, hget]

/-- The line ends at its first NUL. -/
private theorem Unread.eq_length (hz : 0 ∉ line) (h : Unread line rest m read) {i : ℕ}
    (hi : read ≤ i) (hle : i ≤ line.length) (hc : cell m i = 0) : i = line.length := by
  rw [h.cell_eq hi] at hc
  by_contra hne
  have hlt : i < line.length := by omega
  rw [cell, List.getD_eq_getElem?_getD, List.getElem?_append_left hlt,
    List.getElem?_eq_getElem hlt] at hc
  exact hz (hc ▸ List.getElem_mem hlt)

/-- A byte that is no NUL stands before the end of the line. -/
private theorem Unread.lt_length (h : Unread line rest m read) {i : ℕ} (hi : read ≤ i)
    (hle : i ≤ line.length) (hc : cell m i ≠ 0) : i < line.length := by
  rw [h.cell_eq hi] at hc
  by_contra hge
  have heq : i = line.length := by omega
  rw [heq, cell_append_cons] at hc
  exact hc rfl

/-- Reading on. -/
private theorem Unread.advance (h : Unread line rest m read) {i : ℕ} (hi : read ≤ i)
    (hle : i ≤ line.length) : Unread line rest m i := by
  refine ⟨h.length, ?_, hle⟩
  obtain ⟨k, rfl⟩ := Nat.exists_eq_add_of_le hi
  rw [← List.drop_drop, h.drop, List.drop_drop]

/-- Writing behind the read position. -/
theorem Unread.store (h : Unread line rest m read) (hwrite : write < read) (c : Byte) :
    Unread line rest (Mem.store m write [c]) read := by
  refine ⟨by rw [Mem.length_store, h.length], ?_, h.le⟩
  rw [Mem.drop_store (by rw [List.length_singleton]; exact hwrite), h.drop]

/-- Writing the terminator over that of the line. -/
private theorem Unread.store_end (h : Unread line rest m read) (hread : read = line.length) :
    Unread line rest (Mem.store m read [0]) read := by
  refine ⟨by rw [Mem.length_store, h.length], ?_, h.le⟩
  have hlength := h.length
  rw [List.length_append, List.length_cons] at hlength
  have hdrop := h.drop
  rw [hread, List.drop_left] at hdrop
  have htail : m.drop (read + 1) = rest := by
    rw [← List.drop_drop, hread, hdrop]
    rfl
  rw [Mem.drop_store_self (by rw [List.length_singleton]; omega), List.length_singleton, htail,
    hread, List.drop_left]
  rfl

/-- The terminator of the line is still there. -/
private theorem Unread.cell_store_end (h : Unread line rest m read) (hread : read = line.length) :
    cell (Mem.store m read [0]) read = 0 := by
  rw [(h.store_end hread).cell_eq le_rfl, hread, cell_append_cons]

/-- **One token**: every store is over a byte that has been read, and when the token is complete
the write position is behind the read position or the line has been read.

**Proof sketch.** Induction on the fuel. Each round reads one byte, two of an escape, before it
writes one. -/
theorem tokenBodyStores_spec (hz : 0 ∉ line) {n : ℕ} (hn : line.length - read < n)
    (h : Unread line rest m read) (hle : write ≤ read) (quote : Byte) :
    (∀ st ∈ tokenBodyStores n m read write quote, st.Harmless line.length) ∧
      ∀ m' read' write' quote', tokenBody n m read write quote = (m', read', write', some quote') →
        Unread line rest m' read' ∧ write' ≤ read' ∧ (write' < read' ∨ read' = line.length) := by
  induction n generalizing m read write quote with
  | zero => exact absurd hn (Nat.not_lt_zero _)
  | succ n ih =>
    unfold tokenBodyStores tokenBody
    dsimp only
    by_cases hc : cell m read = 0
    · rw [if_pos hc, if_pos hc]
      refine ⟨fun st hst => absurd hst List.not_mem_nil, ?_⟩
      rintro m' read' write' quote' ⟨⟩
      exact ⟨h, hle, .inr (h.eq_length hz le_rfl h.le hc)⟩
    · rw [if_neg hc, if_neg hc]
      have hlt := h.lt_length le_rfl h.le hc
      have hnext := h.advance (Nat.le_succ read) hlt
      -- one byte is read and written
      have hcopy : ∀ c q, (∀ st ∈ (⟨read + 1, write, c⟩ : TokenStore) ::
            tokenBodyStores n (Mem.store m write [c]) (read + 1) (write + 1) q,
          st.Harmless line.length) ∧
          ∀ m' read' write' quote', tokenBody n (Mem.store m write [c]) (read + 1) (write + 1) q =
              (m', read', write', some quote') →
            Unread line rest m' read' ∧ write' ≤ read' ∧
              (write' < read' ∨ read' = line.length) := by
        intro c q
        obtain ⟨hstores, hend⟩ := ih (by omega) (hnext.store (Nat.lt_succ_of_le hle) c)
          (Nat.succ_le_succ hle) q
        refine ⟨fun st hst => ?_, hend⟩
        rcases List.mem_cons.mp hst with rfl | hst
        · exact .inl ⟨Nat.lt_succ_of_le hle, hlt⟩
        · exact hstores st hst
      -- one byte is read and none is written
      have hpass := fun q => ih (by omega) hnext (Nat.le_succ_of_le hle) q
      by_cases hspace : quote = 0 ∧ isspace (cell m read) = true
      · rw [if_pos hspace, if_pos hspace]
        refine ⟨fun st hst => absurd hst List.not_mem_nil, ?_⟩
        rintro m' read' write' quote' ⟨⟩
        exact ⟨hnext, Nat.le_succ_of_le hle, .inl (Nat.lt_succ_of_le hle)⟩
      · rw [if_neg hspace, if_neg hspace]
        by_cases hescape : cell m read = backslash ∧ quote ≠ squote
        · rw [if_pos hescape, if_pos hescape]
          by_cases hdangling : cell m (read + 1) = 0
          · rw [if_pos hdangling, if_pos hdangling]
            refine ⟨fun st hst => absurd hst List.not_mem_nil, ?_⟩
            rintro _ _ _ _ ⟨⟩
          · rw [if_neg hdangling, if_neg hdangling]
            have hlt' := h.lt_length (Nat.le_succ read) hlt hdangling
            have hnext' := h.advance (Nat.le_add_right read 2) hlt'
            obtain ⟨hstores, hend⟩ := ih (by omega)
              (hnext'.store (Nat.lt_succ_of_le (Nat.le_succ_of_le hle)) (cell m (read + 1)))
              (Nat.succ_le_succ (Nat.le_succ_of_le hle)) quote
            refine ⟨fun st hst => ?_, hend⟩
            rcases List.mem_cons.mp hst with rfl | hst
            · exact .inl ⟨Nat.lt_succ_of_le (Nat.le_succ_of_le hle), hlt'⟩
            · exact hstores st hst
        · rw [if_neg hescape, if_neg hescape]
          split_ifs
          · exact hpass _
          · exact hcopy _ _
          · exact hpass _
          · exact hcopy _ _

/-- Skipping whitespace stays inside the line. -/
theorem Unread.skipSpaces (h : Unread line rest m read) (n : ℕ) :
    Unread line rest m (PortableShell.skipSpaces n m read) ∧
      read ≤ PortableShell.skipSpaces n m read := by
  induction n generalizing read with
  | zero => exact ⟨h, le_rfl⟩
  | succ n ih =>
    rw [PortableShell.skipSpaces]
    by_cases hspace : isspace (cell m read) = true
    · rw [if_pos hspace]
      have hc : cell m read ≠ 0 := by
        intro hc
        rw [hc, isspace_zero] at hspace
        cases hspace
      obtain ⟨hnext, hle⟩ := ih (h.advance (Nat.le_succ read) (h.lt_length le_rfl h.le hc))
      exact ⟨hnext, (Nat.le_succ read).trans hle⟩
    · rw [if_neg hspace]
      exact ⟨h, le_rfl⟩

/-- The stores of the loop over the tokens are harmless.

**Proof sketch.** Induction on the fuel. The write position stays at or before the read position; it
is strictly before it behind a finished token unless the line is at its end, where the terminator
may be stored. -/
private theorem harmless_of_mem_loopStores (hz : 0 ∉ line) (cap n : ℕ) (argv : List ℕ)
    (h : Unread line rest m read) (hle : write ≤ read ∨ cell m read = 0) :
    ∀ st ∈ tokenizeLoopStores cap n m read write argv, st.Harmless line.length := by
  induction n generalizing m read write argv with
  | zero => exact fun st hst => absurd hst List.not_mem_nil
  | succ n ih =>
    unfold tokenizeLoopStores
    dsimp only
    by_cases hc : cell m read = 0
    · rw [if_pos hc]
      exact fun st hst => absurd hst List.not_mem_nil
    · rw [if_neg hc]
      have hle := hle.resolve_right hc
      obtain ⟨hskip, hge⟩ := h.skipSpaces m.length
      generalize PortableShell.skipSpaces m.length m read = read at hskip hge
      split_ifs
      · exact fun st hst => absurd hst List.not_mem_nil
      · exact fun st hst => absurd hst List.not_mem_nil
      · have hfuel : line.length - read < m.length := by
          rw [h.length, List.length_append, List.length_cons]
          omega
        obtain ⟨hstores, hend⟩ := tokenBodyStores_spec hz hfuel hskip (hle.trans hge) 0
        generalize tokenBody m.length m read write 0 = body at hend
        obtain ⟨m', read', write', _ | quote⟩ := body
        · rw [List.append_nil]
          exact hstores
        · obtain ⟨hunread, hle', hbehind⟩ := hend m' read' write' quote rfl
          dsimp only
          split_ifs
          · rw [List.append_nil]
            exact hstores
          · intro st hst
            rcases List.mem_append.mp hst with hst | hst
            · exact hstores st hst
            · rcases Nat.lt_or_ge write' read' with hlt | hge'
              · rcases List.mem_cons.mp hst with rfl | hst
                · exact .inl ⟨hlt, hunread.le⟩
                · exact ih _ (hunread.store hlt 0) (.inl hlt) st hst
              · -- the terminator of the token is written over that of the line
                have hread : read' = line.length := hbehind.resolve_left (by omega)
                have hwrite : write' = read' := by omega
                subst hwrite
                rcases List.mem_cons.mp hst with rfl | hst
                · exact .inr (by rw [hread])
                · exact ih _ (hunread.store_end hread) (.inr (hunread.cell_store_end hread)) st hst

end Unread

/-- **No unread byte is overwritten**: every store of `sh_tokenize` is over a byte that has been
read, apart from that of a NUL over the terminator of the line. -/
theorem harmless_of_mem_stores {line : List Byte} (hz : 0 ∉ line) (rest : List Byte) (cap : ℕ) :
    ∀ st ∈ tokenizeStores (line ++ 0 :: rest) cap, st.Harmless line.length := by
  unfold tokenizeStores
  split_ifs
  · exact fun st hst => absurd hst List.not_mem_nil
  · exact harmless_of_mem_loopStores hz cap _ [] ⟨rfl, rfl, Nat.zero_le _⟩ (.inl le_rfl)

/-! ## The buffer and the capacity -/

namespace Lex

/-- The bytes of the buffer that the tokens of a state take, without the terminator of the last
one. -/
def size : Lex → ℕ
  | failed => 0
  | gap done => (pack done).length
  | word done cur _ => (pack done).length + cur.length
  | escape done cur _ => (pack done).length + cur.length

/-- A byte inside a token takes one byte at most. -/
private theorem size_wordStep_le (done : List (List Byte)) (cur : List Byte) (quote c : Byte) :
    (wordStep done cur quote c).size ≤ (pack done).length + cur.length + 1 := by
  unfold wordStep
  split_ifs <;>
    simp only [size, pack_append, pack_singleton, List.length_append, List.length_singleton] <;>
    omega

/-- The tokens take no more bytes than were read. -/
private theorem size_run_le (cap : ℕ) (l : Lex) (bytes : List Byte) :
    (l.run cap bytes).size ≤ l.size + bytes.length := by
  induction bytes generalizing l with
  | nil => exact le_rfl
  | cons c bytes ih =>
    have hstep : (l.step cap c).size ≤ l.size + 1 := by
      cases l with
      | failed => exact Nat.zero_le _
      | gap done =>
        rw [step]
        split_ifs
        · exact Nat.le_succ _
        · exact Nat.zero_le _
        · exact size_wordStep_le done [] 0 c
      | word done cur quote => exact size_wordStep_le done cur quote c
      | escape done cur quote =>
        simp only [step, size, List.length_append, List.length_singleton]
        omega
    have := ih (l.step cap c)
    rw [run_cons, List.length_cons]
    omega

/-- The terminator of the last token takes one more byte. -/
private theorem length_pack_of_finish {l : Lex} {toks : List (List Byte)}
    (h : l.finish = .ok toks) :
    (pack toks).length ≤ l.size + 1 := by
  cases l with
  | failed => cases h
  | gap done =>
    rw [← Except.ok.inj h]
    exact Nat.le_succ _
  | word done cur quote =>
    rw [finish] at h
    split_ifs at h
    rw [← Except.ok.inj h]
    simp only [size, pack_append, pack_singleton, List.length_append, List.length_singleton]
    omega
  | escape done cur quote => cases h

/-- A byte inside a token finishes it or not, and starts no other. -/
theorem length_tokens_wordStep (done : List (List Byte)) (cur : List Byte) (quote c : Byte) :
    (wordStep done cur quote c).tokens.length = done.length + 1 := by
  unfold wordStep
  split_ifs <;> exact List.length_append

/-- Tokens do not get fewer. -/
theorem length_tokens_le_run {cap : ℕ} {l : Lex} {bytes : List Byte}
    (h : l.run cap bytes ≠ failed) : l.tokens.length ≤ (l.run cap bytes).tokens.length := by
  induction bytes generalizing l with
  | nil => exact le_rfl
  | cons c bytes ih =>
    refine le_trans ?_ (ih h)
    cases l with
    | failed => exact absurd (run_failed cap (c :: bytes)) h
    | gap done =>
      rw [run_cons, step] at h
      rw [step]
      split_ifs at h ⊢
      · exact le_rfl
      · exact absurd (run_failed cap bytes) h
      · rw [length_tokens_wordStep]
        exact Nat.le_succ _
    | word done cur quote =>
        exact (List.length_append.trans (length_tokens_wordStep _ _ _ _).symm).le
    | escape done cur quote =>
      show (done ++ [cur]).length ≤ (done ++ [cur ++ [c]]).length
      rw [List.length_append, List.length_append]
      exact le_rfl

/-- **The capacity** only matters for a line with more tokens.

**Proof sketch.** Induction on the bytes, with one case per state. The two readers part at the byte
that starts a token for which only the larger capacity has room, and the smaller one has failed from
there on. -/
theorem run_of_run {cap cap' : ℕ} {l : Lex} (hl : l.tokens.length ≤ cap)
    {bytes : List Byte} (h : l.run cap' bytes ≠ failed) :
    l.run cap bytes =
      if (l.run cap' bytes).tokens.length ≤ cap then l.run cap' bytes else failed := by
  induction bytes generalizing l with
  | nil => exact (if_pos hl).symm
  | cons c bytes ih =>
    have hmono : (l.step cap' c).tokens.length ≤ ((l.step cap' c).run cap' bytes).tokens.length :=
      length_tokens_le_run h
    rw [run_cons] at h
    rw [run_cons, run_cons]
    cases l with
    | failed => exact absurd (run_failed cap' bytes) h
    | gap done =>
      by_cases hspace : isspace c = true
      · have hskip : ∀ k, (gap done).step k c = gap done := fun k => if_pos hspace
        rw [hskip] at h
        rw [hskip, hskip]
        exact ih hl h
      · by_cases hfull' : done.length ≥ cap' ∨ done.length ≥ intMax
        · have hfail : (gap done).step cap' c = failed := by
            rw [step, if_neg hspace, if_pos hfull']
          rw [hfail] at h
          exact absurd (run_failed cap' bytes) h
        · have hword : (gap done).step cap' c = wordStep done [] 0 c := by
            rw [step, if_neg hspace, if_neg hfull']
          rw [hword] at h hmono ⊢
          rw [length_tokens_wordStep] at hmono
          by_cases hfull : done.length ≥ cap ∨ done.length ≥ intMax
          · have hfail : (gap done).step cap c = failed := by
              rw [step, if_neg hspace, if_pos hfull]
            rw [hfail, run_failed, if_neg (by omega)]
          · have hword' : (gap done).step cap c = wordStep done [] 0 c := by
              rw [step, if_neg hspace, if_neg hfull]
            rw [hword']
            exact ih (by rw [length_tokens_wordStep]; omega) h
    | word done cur quote =>
      have hlength : (done ++ [cur]).length ≤ cap := hl
      rw [List.length_append, List.length_singleton] at hlength
      exact ih ((length_tokens_wordStep done cur quote c).trans_le hlength) h
    | escape done cur quote =>
      have hlength : (done ++ [cur]).length ≤ cap := hl
      rw [List.length_append, List.length_singleton] at hlength
      refine ih ?_ h
      show (done ++ [cur ++ [c]]).length ≤ cap
      rw [List.length_append, List.length_singleton]
      exact hlength

end Lex

/-- A line is accepted with every capacity that has room for its tokens. -/
private theorem tokenize_of_tokenize {cap cap' : ℕ} {line : List Byte}
    {toks : List (List Byte)} (h : tokenize cap' line = .ok toks) :
    tokenize cap line =
      if toks.length ≤ cap then .ok toks else .error Status.errTooManyArgs := by
  have hne : (Lex.gap []).run cap' line ≠ .failed := by
    intro hfailed
    rw [tokenize, hfailed] at h
    cases h
  rw [tokenize, Lex.run_of_run (Nat.zero_le _) hne, Lex.tokens_of_finish h]
  split_ifs
  · exact h
  · rfl

/-- The tokens and their terminators fit where the line and its terminator were. -/
private theorem length_pack_le {cap : ℕ} {line : List Byte} {toks : List (List Byte)}
    (h : tokenize cap line = .ok toks) : (pack toks).length ≤ line.length + 1 := by
  have hrun := Lex.size_run_le cap (.gap []) line
  have hpack := Lex.length_pack_of_finish h
  have hstart : (Lex.gap []).size = 0 := rfl
  omega

/-- Packed tokens are terminated.

**Proof sketch.** Induction on the tokens: the first one ends with the NUL behind it, and the others
are packed behind that. -/
private theorem exists_terminator (a x : List Byte) (toks : List (List Byte)) :
    ∀ off ∈ offsets a.length toks, ∃ stop, off ≤ stop ∧ stop < a.length + (pack toks).length ∧
      (a ++ pack toks ++ x)[stop]? = some 0 := by
  induction toks generalizing a with
  | nil => exact fun off hoff => absurd hoff List.not_mem_nil
  | cons t toks ih =>
    intro off hoff
    have hpack : pack (t :: toks) = t ++ [0] ++ pack toks := rfl
    have hlength : (a ++ (t ++ [0])).length = a.length + t.length + 1 := by
      simp only [List.length_append, List.length_singleton, Nat.add_assoc]
    rcases List.mem_cons.mp hoff with rfl | hoff
    · refine ⟨a.length + t.length, Nat.le_add_right _ _, ?_, ?_⟩
      · rw [hpack]
        simp only [List.length_append, List.length_singleton]
        omega
      · rw [hpack, show a ++ (t ++ [0] ++ pack toks) ++ x = a ++ t ++ 0 :: (pack toks ++ x) by simp,
          ← List.length_append, List.getElem?_append_right le_rfl, Nat.sub_self]
        rfl
    · rw [← hlength] at hoff
      obtain ⟨stop, hle, hlt, hzero⟩ := ih (a ++ (t ++ [0])) off hoff
      refine ⟨stop, hle, ?_, ?_⟩
      · rw [hpack]
        simp only [List.length_append, List.length_singleton] at hlt ⊢
        omega
      · rw [hpack, ← hzero]
        simp only [List.append_assoc]

/-! ## The refinement -/

/-- The result of the reference tokenizer as `sh_tokenize` reports it: the status, and the tokens,
none of them after an error. -/
def report : Except Status (List (List Byte)) → Status × List (List Byte)
  | .ok toks => (Status.ok, toks)
  | .error e => (e, [])

/-- Every store is over a byte in front of the read position, and so is the place of the next
one. -/
def NeverPasses (line : List Byte) (argvCapacity : ℕ) : Prop :=
  ∀ st ∈ tokenizeStores line argvCapacity, st.write + 1 ≤ st.read

instance (line : List Byte) (argvCapacity : ℕ) : Decidable (NeverPasses line argvCapacity) :=
  List.decidableBAll _ _

/-- The terminator of the only token is written over that of the line, and the write position
passes the read position. -/
theorem not_neverPasses : ¬NeverPasses (ascii "a" ++ [0]) 1 := by decide +kernel

/-- **`sh_tokenize` refines the reference tokenizer**: it reports the same status and tokens, it
overwrites no unread byte, every token is terminated where the line was, and a line that can be
split is accepted when it has no more tokens than `argv` has entries.

**Proof sketch.** The clauses are separate lemmas: the agreement of the loop with the reference
(`shTokenize_agrees`), its memory as the fold of its stores, their harmlessness, the terminators of
packed tokens, and the role of the capacity (`tokenize_of_tokenize`). -/
theorem shTokenize_refines (line : CStr) {cap : ℕ} (hpos : 0 < cap) (rest : List Byte) :
    let r := shTokenize (line.bytes ++ 0 :: rest) cap
    (r.status, r.args.map CStr.bytes) = report (tokenize cap line.bytes) ∧
      r.mem = (tokenizeStores (line.bytes ++ 0 :: rest) cap).foldl TokenStore.apply
        (line.bytes ++ 0 :: rest) ∧
      (∀ st ∈ tokenizeStores (line.bytes ++ 0 :: rest) cap, st.Harmless line.length) ∧
      (r.status = Status.ok → ∀ off ∈ r.argv, ∃ stop, off ≤ stop ∧ stop ≤ line.length ∧
        r.mem[stop]? = some 0) ∧
      ∀ toks, tokenize intMax line.bytes = .ok toks →
          (r.status = Status.ok ↔ toks.length ≤ cap) := by
  have hcap : cap ≠ 0 := by omega
  have hz := line.nonzero
  have hagrees := shTokenize_agrees hcap hz rest
  have hstatus := shTokenize_status hcap hz rest
  dsimp only
  refine ⟨?_, mem_shTokenize _ _, harmless_of_mem_stores hz rest cap, ?_, ?_⟩
  · cases ht : tokenize cap line.bytes with
    | ok toks => rw [hstatus, ht, shTokenize_args hcap hz rest ht, report]
    | error e =>
      rw [ht] at hstatus
      have hne := Lex.ne_ok_of_finish ht
      rw [TokenizeResult.args, hstatus, if_neg hne, report]
      rfl
  · intro hok off hoff
    obtain ⟨toks, ht⟩ := (shTokenize_status_eq_ok hcap hz rest).mp hok
    rw [ht] at hagrees
    obtain ⟨-, hargv, x, hmem⟩ := hagrees
    rw [hargv] at hoff
    obtain ⟨stop, hle, hlt, hzero⟩ := exists_terminator [] x toks off hoff
    have hpack := length_pack_le ht
    rw [List.length_nil, Nat.zero_add] at hlt
    refine ⟨stop, hle, by unfold CStr.length; omega, ?_⟩
    rw [hmem]
    exact hzero
  · intro toks ht
    rw [hstatus, tokenize_of_tokenize ht]
    split_ifs with hroom
    · exact ⟨fun _ => hroom, fun _ => rfl⟩
    · refine ⟨fun h => ?_, fun h => absurd h hroom⟩
      cases h

/-- Two tokens and an escape. -/
theorem shTokenize_refines_small :
    let line := str "a\\ b c"
    let r := shTokenize (line.bytes ++ 0 :: []) 2
    (r.status, r.args.map CStr.bytes) = report (tokenize 2 line.bytes) ∧
      r.mem = (tokenizeStores (line.bytes ++ 0 :: []) 2).foldl TokenStore.apply
        (line.bytes ++ 0 :: []) ∧
      (∀ st ∈ tokenizeStores (line.bytes ++ 0 :: []) 2, st.Harmless line.length) ∧
      (r.status = Status.ok → ∀ off ∈ r.argv, ∃ stop, off ≤ stop ∧ stop ≤ line.length ∧
        r.mem[stop]? = some 0) ∧
      ∀ toks, tokenize intMax line.bytes = .ok toks → (r.status = Status.ok ↔ toks.length ≤ 2) :=
  shTokenize_refines (str "a\\ b c") (by decide) []

end PortableShell
