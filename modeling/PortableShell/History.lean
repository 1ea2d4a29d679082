import PortableShell.Lib.Ring
import PortableShell.Types

set_option relaxedAutoImplicit false
set_option autoImplicit false

/-!
# The history

`sh_history.c`: a ring of fixed-size slots inside one caller-owned block. An entry is a
terminated string at the start of its slot.

## Main definitions

* `PortableShell.shHistoryGetNewest`, `shHistoryAddInternal`, `shHistoryClear` — the functions of
  the source.
* `PortableShell.Shell.entries` — the history as a list, newest first.
* `PortableShell.HistoryWf` — what holds of the history fields of a shell.

## Main results

* `PortableShell.HistoryWf.getNewest_eq` — a lookup in the ring is a lookup in the list.
* `PortableShell.entries_shHistoryAddInternal` — adding a line, on lists.
* `PortableShell.HistoryWf.shHistoryAddInternal`, `HistoryWf.shHistoryClear` — the invariant is
  kept.
-/

namespace PortableShell

variable {ω : Type}

/-! ## The functions of the source -/

/-- `slot_at`: the offset of a physical slot in the history storage. -/
def slotAt (s : Shell) (physical : ℕ) : ℕ := physical * s.historySlotSize

/-- `sh_history_capacity`. -/
def shHistoryCapacity (s : Shell) : ℕ := s.historyDepth

/-- `sh_history_count`. -/
def shHistoryCount (s : Shell) : ℕ := s.historyCount

/-- The slot that `sh_history_get_newest` looks at. -/
def newestSlot (s : Shell) (newestIndex : ℕ) : ℕ :=
  (s.historyStart + (s.historyCount - 1 - newestIndex)) % s.historyDepth

/-- `sh_history_get_newest`. -/
def shHistoryGetNewest (s : Shell) (newestIndex : ℕ) : Option CStr :=
  if newestIndex ≥ s.historyCount ∨ s.historyDepth = 0 then none
  else some (CStr.at (s.historyStorage.getD []) (slotAt s (newestSlot s newestIndex)))

/-- One past the last byte that reading an entry to its terminator touches. -/
def newestStop (s : Shell) (newestIndex : ℕ) : ℕ :=
  match shHistoryGetNewest s newestIndex with
  | none => 0
  | some entry => slotAt s (newestSlot s newestIndex) + entry.length + 1

/-- What `sh_history_clear` does to the shell. -/
def Shell.clearHistory (s : Shell) : Shell :=
  { s with
    historyCount := 0
    historyStart := 0
    historyView := -1
    draft := s.draft.map fun d => Mem.fill d 0 0 s.lineCapacity
    historyStorage :=
      if s.historyDepth ≠ 0 ∧ s.historySlotSize ≠ 0 then
        s.historyStorage.map fun m => Mem.fill m 0 0 (s.historyDepth * s.historySlotSize)
      else s.historyStorage }

/-- `sh_history_clear`. -/
def shHistoryClear (st : Sys ω) : Sys ω :=
  let st := st.touch .draft (if st.sh.draft.isSome then st.sh.lineCapacity else 0)
  let st := st.touch .history
    (if st.sh.historyStorage.isSome then st.sh.historyDepth * st.sh.historySlotSize else 0)
  st.modify Shell.clearHistory

/-- The number of bytes of a line that a slot takes. -/
def slotLength (s : Shell) (line : CStr) : ℕ :=
  if line.length ≥ s.historySlotSize then s.historySlotSize - 1 else line.length

/-- The slot that the next entry is written to. -/
def targetSlot (s : Shell) : ℕ :=
  if s.historyCount < s.historyDepth then (s.historyStart + s.historyCount) % s.historyDepth
  else s.historyStart

/-- What writing a new entry does to the shell. -/
def Shell.storeEntry (s : Shell) (line : CStr) : Shell :=
  { s with
    historyCount := if s.historyCount < s.historyDepth then s.historyCount + 1 else s.historyCount
    historyStart :=
      if s.historyCount < s.historyDepth then s.historyStart
      else (s.historyStart + 1) % s.historyDepth
    historyStorage := s.historyStorage.map fun m =>
      Mem.store (Mem.store m (slotAt s (targetSlot s)) (line.bytes.take (slotLength s line)))
        (slotAt s (targetSlot s) + slotLength s line) [0] }

/-- `sh_history_add_internal`. -/
def shHistoryAddInternal (st : Sys ω) (line : CStr) : Sys ω :=
  if line.isEmpty ∨ st.sh.historyStorage.isNone ∨ st.sh.historyDepth = 0 then st
  else
    let latest := shHistoryGetNewest st.sh 0
    let write := slotAt st.sh (targetSlot st.sh) + slotLength st.sh line + 1
    let st := st.touch .history (newestStop st.sh 0)
    if latest = some line then st
    else (st.touch .history write).modify (·.storeEntry line)

/-! ## The ring of entries -/

/-- The text in a physical slot, read within the slot. -/
def slotText (s : Shell) (physical : ℕ) : CStr :=
  CStr.at (((s.historyStorage.getD []).drop (slotAt s physical)).take s.historySlotSize) 0

/-- The history of a shell as a ring of texts. -/
def Shell.ring (s : Shell) : SlotRing CStr := ⟨slotText s, s.historyStart, s.historyCount⟩

/-- The number of values in the ring. -/
@[simp] theorem ring_count (s : Shell) : s.ring.count = s.historyCount := rfl

/-- The slot of an entry is that of the ring. -/
private theorem slots_index_ring (s : Shell) (i : ℕ) :
    s.ring.slots (s.ring.index s.historyDepth i) = slotText s (newestSlot s i) := rfl

/-- The history of a shell as a list, newest first. -/
def Shell.entries (s : Shell) : List CStr :=
  if s.historyDepth = 0 then [] else s.ring.toList s.historyDepth

/-- Whether a slot holds a terminated string. -/
def SlotTerminated (s : Shell) (physical : ℕ) : Prop :=
  0 ∈ ((s.historyStorage.getD []).drop (slotAt s physical)).take s.historySlotSize

/-- What holds of the history fields when the history is enabled. -/
structure EnabledHistoryWf (s : Shell) : Prop where
  /-- The ring indices are in range. -/
  bounded : s.ring.Bounded s.historyDepth
  /-- The storage has the declared size. -/
  size_le : ∀ m, s.historyStorage = some m → s.historyDepth * s.historySlotSize ≤ m.length
  /-- There is a storage and room for a terminator in a slot. -/
  storage : s.historyStorage.isSome
  slot_pos : 0 < s.historySlotSize
  /-- Every populated slot holds a terminated string. -/
  terminated : ∀ i < s.historyCount, SlotTerminated s (newestSlot s i)

/-- What holds of the history fields of a shell. -/
structure HistoryWf (s : Shell) : Prop where
  enabled : s.historyDepth ≠ 0 → EnabledHistoryWf s
  disabled : s.historyDepth = 0 → s.historyCount = 0

/-- Shells that agree on the history fields. -/
structure SameHistory (s s' : Shell) : Prop where
  storage : s'.historyStorage = s.historyStorage
  depth : s'.historyDepth = s.historyDepth
  slotSize : s'.historySlotSize = s.historySlotSize
  count : s'.historyCount = s.historyCount
  start : s'.historyStart = s.historyStart

/-- Agreement is transitive. -/
theorem SameHistory.trans {a b c : Shell} (h : SameHistory a b) (k : SameHistory b c) :
    SameHistory a c :=
  ⟨k.storage.trans h.storage, k.depth.trans h.depth, k.slotSize.trans h.slotSize,
    k.count.trans h.count, k.start.trans h.start⟩

/-- Well-formedness is about the history fields only. -/
theorem HistoryWf.frame {s s' : Shell} (h : HistoryWf s) (hs : SameHistory s s') :
    HistoryWf s' := by
  obtain ⟨h1, h2, h3, h4, h5⟩ := hs
  cases s'
  dsimp only at h1 h2 h3 h4 h5
  subst h1 h2 h3 h4 h5
  exact ⟨fun hd => ⟨(h.enabled hd).bounded, (h.enabled hd).size_le, (h.enabled hd).storage,
    (h.enabled hd).slot_pos, (h.enabled hd).terminated⟩, h.disabled⟩

/-- The entries depend on the history fields only. -/
theorem SameHistory.entries_eq {s s' : Shell} (hs : SameHistory s s') : s'.entries = s.entries := by
  obtain ⟨h1, h2, h3, h4, h5⟩ := hs
  cases s'
  dsimp only at h1 h2 h3 h4 h5
  subst h1 h2 h3 h4 h5
  rfl

/-- A lookup depends on the history fields only. -/
theorem SameHistory.getNewest_eq {s s' : Shell} (hs : SameHistory s s') (i : ℕ) :
    shHistoryGetNewest s' i = shHistoryGetNewest s i := by
  obtain ⟨h1, h2, h3, h4, h5⟩ := hs
  cases s'
  dsimp only at h1 h2 h3 h4 h5
  subst h1 h2 h3 h4 h5
  rfl

/-- The entry that the source reads is the text of the slot. -/
private theorem at_slotAt {s : Shell} {p : ℕ} (h : SlotTerminated s p) :
    CStr.at (s.historyStorage.getD []) (slotAt s p) = slotText s p := by
  refine CStr.ext ?_
  rw [slotText, CStr.at_bytes, CStr.at_bytes, List.drop_zero]
  exact Mem.upto_eq_of_take_eq (n := s.historySlotSize) (by rw [List.take_take, Nat.min_self]) h

/-- **A lookup in the ring** is a lookup in the list of entries. -/
theorem HistoryWf.getNewest_eq {s : Shell} (h : HistoryWf s) (i : ℕ) :
    shHistoryGetNewest s i = s.entries[i]? := by
  rw [shHistoryGetNewest, Shell.entries]
  by_cases hd : s.historyDepth = 0
  · rw [if_pos (Or.inr hd), if_pos hd]
    rfl
  · rw [if_neg hd, SlotRing.getElem?_toList, ring_count]
    by_cases hi : i < s.historyCount
    · rw [if_neg (by omega), if_pos hi, at_slotAt ((h.enabled hd).terminated i hi),
        slots_index_ring]
    · rw [if_pos (Or.inl (by omega)), if_neg hi]

/-- The number of entries. -/
theorem HistoryWf.length_entries {s : Shell} (h : HistoryWf s) :
    s.entries.length = s.historyCount := by
  rw [Shell.entries]
  split_ifs with hd
  · exact (h.disabled hd).symm
  · exact SlotRing.length_toList _ _

/-- An entry is shorter than a slot. -/
theorem HistoryWf.length_getNewest_lt {s : Shell} (h : HistoryWf s) {i : ℕ} {entry : CStr}
    (hentry : shHistoryGetNewest s i = some entry) : entry.length < s.historySlotSize := by
  rw [shHistoryGetNewest] at hentry
  split_ifs at hentry with hnone
  rw [not_or] at hnone
  have hterminated := (h.enabled hnone.2).terminated i (by omega)
  rw [← Option.some.inj hentry, CStr.length, CStr.at_bytes]
  exact Mem.length_upto_lt hterminated

/-! ## Writing an entry -/

/-- Two slots do not overlap. -/
private theorem slots_disjoint {p q n : ℕ} (h : p ≠ q) : p * n + n ≤ q * n ∨ q * n + n ≤ p * n := by
  rcases Nat.lt_or_gt_of_ne h with h | h
  · exact .inl (by simpa [Nat.succ_mul] using Nat.mul_le_mul_right n h)
  · exact .inr (by simpa [Nat.succ_mul] using Nat.mul_le_mul_right n h)

/-- An entry and its terminator fit the slot. -/
theorem slotLength_lt {s : Shell} (h : 0 < s.historySlotSize) (line : CStr) :
    slotLength s line < s.historySlotSize := by
  rw [slotLength]
  split_ifs <;> omega

/-- What a slot takes of a line. -/
theorem take_slotLength (s : Shell) (line : CStr) :
    line.take (slotLength s line) = line.take (s.historySlotSize - 1) := by
  rw [slotLength]
  split_ifs with h
  · rfl
  · refine CStr.ext ?_
    rw [CStr.take_bytes, CStr.take_bytes, List.take_of_length_le (by rw [CStr.length]),
      List.take_of_length_le (by rw [CStr.length] at h; omega)]

/-- The bytes written for an entry are as many as the slot takes. -/
private theorem length_take_slotLength (s : Shell) (line : CStr) :
    (line.bytes.take (slotLength s line)).length = slotLength s line := by
  rw [List.length_take, slotLength]
  split_ifs with h
  · rw [CStr.length] at h
    omega
  · exact Nat.min_eq_left le_rfl

section StoreEntry

variable {s : Shell}

/-- The slot written lies in the storage. -/
private theorem EnabledHistoryWf.slot_le (h : EnabledHistoryWf s) {m : List Byte}
    (hm : s.historyStorage = some m) {p : ℕ} (hp : p < s.historyDepth) :
    slotAt s p + s.historySlotSize ≤ m.length := by
  have hmul : (p + 1) * s.historySlotSize ≤ s.historyDepth * s.historySlotSize :=
    Nat.mul_le_mul_right _ hp
  have := h.size_le m hm
  rw [Nat.succ_mul] at hmul
  rw [slotAt]
  omega

/-- The entry written, as a single store. -/
private theorem EnabledHistoryWf.storeEntry_storage (h : EnabledHistoryWf s) (line : CStr)
    {m : List Byte} (hm : s.historyStorage = some m) :
    (s.storeEntry line).historyStorage =
      some (Mem.store m (slotAt s (targetSlot s))
        (line.bytes.take (slotLength s line) ++ [0])) := by
  have hp := h.slot_le hm h.bounded.target_lt
  have hl := slotLength_lt h.slot_pos line
  have hlen := length_take_slotLength s line
  have hstore := Mem.store_store (m := m) (a := line.bytes.take (slotLength s line)) (b := [0])
    (slotAt s (targetSlot s)) (by
      have htarget : slotAt s (targetSlot s) + s.historySlotSize ≤ m.length := hp
      rw [hlen, List.length_singleton]
      omega)
  rw [hlen] at hstore
  rw [Shell.storeEntry]
  dsimp only
  rw [hm, Option.map_some, hstore]

/-- The region of a slot after an entry was written.

**Proof sketch.** The store stays inside the region of the target slot. Regions of different slots
are disjoint, so another region keeps its bytes. -/
private theorem EnabledHistoryWf.region_storeEntry (h : EnabledHistoryWf s) (line : CStr) {p : ℕ} :
    (((s.storeEntry line).historyStorage.getD []).drop (slotAt s p)).take s.historySlotSize =
      if p = targetSlot s then
        line.bytes.take (slotLength s line) ++ 0 ::
          (((s.historyStorage.getD []).drop (slotAt s p + slotLength s line + 1)).take
            (s.historySlotSize - slotLength s line - 1))
      else ((s.historyStorage.getD []).drop (slotAt s p)).take s.historySlotSize := by
  obtain ⟨m, hm⟩ := Option.isSome_iff_exists.mp h.storage
  have hp := h.slot_le hm h.bounded.target_lt
  have htarget : slotAt s (targetSlot s) + s.historySlotSize ≤ m.length := hp
  have hl := slotLength_lt h.slot_pos line
  have hlen := length_take_slotLength s line
  rw [h.storeEntry_storage line hm, hm, Option.getD_some, Option.getD_some]
  split_ifs with heq
  · subst heq
    rw [Mem.drop_store_self (by
        rw [List.length_append, hlen, List.length_singleton]
        omega), List.length_append, hlen, List.length_singleton, List.append_assoc,
      List.singleton_append, List.take_append, hlen]
    rw [List.take_of_length_le (by rw [hlen]; omega)]
    congr 1
    rw [show s.historySlotSize - slotLength s line = s.historySlotSize - slotLength s line - 1 + 1
      by omega, List.take_succ_cons, Nat.add_assoc]
    rfl
  · refine Mem.take_drop_store ?_
    rw [List.length_append, hlen, List.length_singleton]
    rcases slots_disjoint (n := s.historySlotSize) heq with hd | hd
    · exact .inl hd
    · exact .inr (by rw [slotAt, slotAt]; omega)

/-- The slot texts after an entry was written. -/
private theorem EnabledHistoryWf.slotText_storeEntry (h : EnabledHistoryWf s) (line : CStr)
    (p : ℕ) :
    slotText (s.storeEntry line) p =
      if p = targetSlot s then line.take (slotLength s line) else slotText s p := by
  have hregion := h.region_storeEntry line (p := p)
  refine CStr.ext ?_
  change Mem.upto 0 ((((s.storeEntry line).historyStorage.getD []).drop (slotAt s p)).take
    s.historySlotSize) = _
  rw [hregion]
  split_ifs with heq
  · exact Mem.upto_append (line.take (slotLength s line)).nonzero
  · rfl

/-- **Writing an entry** pushes its text to the ring. -/
theorem EnabledHistoryWf.ring_storeEntry (h : EnabledHistoryWf s) (line : CStr) :
    (s.storeEntry line).ring = s.ring.push s.historyDepth (line.take (slotLength s line)) := by
  have hslots : slotText (s.storeEntry line) =
      Function.update (slotText s) (targetSlot s) (line.take (slotLength s line)) := by
    funext p
    rw [h.slotText_storeEntry line p, Function.update_apply]
  rw [Shell.ring, hslots]
  rfl

/-- The entries after a new one was written. -/
theorem EnabledHistoryWf.entries_storeEntry (h : EnabledHistoryWf s) (hd : s.historyDepth ≠ 0)
    (line : CStr) :
    (s.storeEntry line).entries =
      (line.take (slotLength s line) :: s.entries).take s.historyDepth := by
  have hd' : (s.storeEntry line).historyDepth = s.historyDepth := rfl
  rw [Shell.entries, Shell.entries, hd', if_neg hd, if_neg hd, h.ring_storeEntry line]
  exact SlotRing.toList_push h.bounded _

/-- Writing an entry keeps the history fields well formed.

**Proof sketch.** Field by field. The slot that was written holds a NUL behind the text, and every
other slot held an entry before. -/
theorem EnabledHistoryWf.storeEntry (h : EnabledHistoryWf s) (line : CStr) :
    EnabledHistoryWf (s.storeEntry line) := by
  obtain ⟨m, hm⟩ := Option.isSome_iff_exists.mp h.storage
  refine ⟨?_, ?_, ?_, h.slot_pos, ?_⟩
  · rw [h.ring_storeEntry line]
    exact h.bounded.push _
  · intro m' hm'
    rw [h.storeEntry_storage line hm] at hm'
    rw [← Option.some.inj hm', Mem.length_store]
    exact h.size_le m hm
  · rw [h.storeEntry_storage line hm]
    rfl
  · intro i hi
    change 0 ∈ (((s.storeEntry line).historyStorage.getD []).drop
      (slotAt s (newestSlot (s.storeEntry line) i))).take s.historySlotSize
    rw [h.region_storeEntry line]
    split_ifs with heq
    · simp
    · -- a slot other than the one written holds an older entry
      cases i with
      | zero =>
        exact absurd (SlotRing.index_push_zero h.bounded (line.take (slotLength s line))) heq
      | succ i =>
        have hi' : i + 1 < (s.ring.push s.historyDepth (line.take (slotLength s line))).count := hi
        have hidx := (SlotRing.index_push_succ h.bounded (line.take (slotLength s line)) hi').1
        have hcount : i < s.historyCount := by
          have hc : (s.storeEntry line).historyCount ≤ s.historyCount + 1 := by
            rw [Shell.storeEntry]
            dsimp only
            split_ifs <;> omega
          omega
        have hslot : newestSlot (s.storeEntry line) (i + 1) = newestSlot s i := hidx
        rw [hslot]
        exact h.terminated i hcount

end StoreEntry

/-! ## The functions of the source on the list of entries -/

/-- Adding a line changes the shell as writing an entry does, or not at all. -/
theorem shHistoryAddInternal_sh (st : Sys ω) (line : CStr) :
    (shHistoryAddInternal st line).sh =
      if line.isEmpty ∨ st.sh.historyStorage.isNone ∨ st.sh.historyDepth = 0 ∨
          shHistoryGetNewest st.sh 0 = some line then st.sh
      else st.sh.storeEntry line := by
  rw [shHistoryAddInternal]
  by_cases h : line.isEmpty ∨ st.sh.historyStorage.isNone ∨ st.sh.historyDepth = 0
  · rw [if_pos h, if_pos (by tauto)]
  · rw [if_neg h]
    dsimp only
    by_cases hl : shHistoryGetNewest st.sh 0 = some line
    · rw [if_pos hl, if_pos (by tauto)]
      rfl
    · rw [if_neg hl, if_neg (by tauto)]
      rfl

/-- Adding a line prints nothing. -/
@[simp] theorem shHistoryAddInternal_trace (st : Sys ω) (line : CStr) :
    (shHistoryAddInternal st line).trace = st.trace := by
  rw [shHistoryAddInternal]
  dsimp only
  split_ifs <;> rfl

/-- Adding a line does not reach the outside world. -/
@[simp] theorem shHistoryAddInternal_io (st : Sys ω) (line : CStr) :
    (shHistoryAddInternal st line).io = st.io := by
  rw [shHistoryAddInternal]
  dsimp only
  split_ifs <;> rfl

/-- The list of entries after a line was added. -/
def addEntry (s : Shell) (line : CStr) (entries : List CStr) : List CStr :=
  if line.isEmpty ∨ s.historyDepth = 0 ∨ entries.head? = some line then entries
  else (line.take (slotLength s line) :: entries).take s.historyDepth

/-- **Adding a line, on lists**: an empty line and a repetition of the newest entry are dropped,
any other line becomes the newest entry. -/
theorem entries_shHistoryAddInternal {st : Sys ω} (h : HistoryWf st.sh) (line : CStr) :
    (shHistoryAddInternal st line).sh.entries = addEntry st.sh line st.sh.entries := by
  rw [shHistoryAddInternal_sh, addEntry, h.getNewest_eq 0, ← List.head?_eq_getElem?]
  by_cases hd : st.sh.historyDepth = 0
  · rw [if_pos (by tauto), if_pos (by tauto)]
  · have he := h.enabled hd
    have hs : st.sh.historyStorage.isNone = false := by
      simpa [Option.isSome_iff_ne_none] using he.storage
    simp only [hs, hd, Bool.false_eq_true, false_or]
    split_ifs
    · rfl
    · exact he.entries_storeEntry hd line

/-- Adding a line keeps the history fields well formed. -/
theorem HistoryWf.shHistoryAddInternal {st : Sys ω} (h : HistoryWf st.sh) (line : CStr) :
    HistoryWf (PortableShell.shHistoryAddInternal st line).sh := by
  rw [shHistoryAddInternal_sh]
  split_ifs with hc
  · exact h
  · have hd : st.sh.historyDepth ≠ 0 := by tauto
    exact ⟨fun _ => (h.enabled hd).storeEntry line, fun h0 => absurd h0 hd⟩

/-- A cleared history is well formed. -/
theorem HistoryWf.clearHistory {s : Shell} (h : HistoryWf s) : HistoryWf s.clearHistory := by
  refine ⟨fun hd => ?_, fun _ => rfl⟩
  have he := h.enabled hd
  have hslot : s.historySlotSize ≠ 0 := he.slot_pos.ne'
  obtain ⟨m, hm⟩ := Option.isSome_iff_exists.mp he.storage
  have hstorage : s.clearHistory.historyStorage =
      some (Mem.fill m 0 0 (s.historyDepth * s.historySlotSize)) := by
    rw [Shell.clearHistory]
    dsimp only
    rw [if_pos ⟨hd, hslot⟩, hm, Option.map_some]
  refine ⟨⟨Nat.pos_of_ne_zero hd, Nat.zero_le _⟩, ?_, ?_, he.slot_pos, ?_⟩
  · intro m' hm'
    rw [hstorage] at hm'
    rw [← Option.some.inj hm', Mem.length_fill]
    exact he.size_le m hm
  · rw [hstorage]
    rfl
  · exact fun i hi => absurd hi (Nat.not_lt_zero i)

/-- A cleared history has no entries. -/
theorem entries_clearHistory (s : Shell) : s.clearHistory.entries = [] := by
  rw [Shell.entries]
  split_ifs
  · rfl
  · exact List.eq_nil_of_length_eq_zero (SlotRing.length_toList _ _)

end PortableShell
