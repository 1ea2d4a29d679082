import PortableShell.Execute

set_option relaxedAutoImplicit false
set_option autoImplicit false

/-!
# The history as a list

What the ring of `sh_history.c` is for: a list of the lines added last, newest first, of bounded
length, in which a line is not repeated right after itself.

## Main definitions

* `PortableShell.Recent` — a list of at most `depth` lines, with `add` and `clear`.
* `PortableShell.HistoryCall` — a call of `sh_history_add_internal` or `sh_history_clear`.
* `PortableShell.ShowsList` — count and lookups are those of a list.

## Main results

* `PortableShell.HistoryRefines.apply` — one call on the ring is the same call on the list.
* `PortableShell.historyRun_refines` — so is every sequence of calls.
-/

namespace PortableShell

variable {ω : Type}

/-! ## The list -/

/-- At most `depth` lines, newest first. -/
structure Recent (depth : ℕ) where
  lines : List CStr
  length_le : lines.length ≤ depth

namespace Recent

variable {depth : ℕ}

/-- No lines. -/
def clear : Recent depth := ⟨[], Nat.zero_le _⟩

/-- One line more, cut to what a slot of `slotSize` bytes holds. The empty line and a line equal to
the newest one are not added. -/
def add (slotSize : ℕ) (recent : Recent depth) (line : CStr) : Recent depth :=
  if line.isEmpty ∨ recent.lines.head? = some line then recent
  else ⟨(line.take (slotSize - 1) :: recent.lines).take depth, List.length_take_le _ _⟩

end Recent

/-! ## Calls -/

/-- A call that changes the history. -/
inductive HistoryCall
  | add (line : CStr)
  | clear

/-- What a call does to the shell. -/
def HistoryCall.apply (st : Sys ω) : HistoryCall → Sys ω
  | .add line => shHistoryAddInternal st line
  | .clear => shHistoryClear st

/-- What a call does to the list. -/
def HistoryCall.applyList {depth : ℕ} (slotSize : ℕ) (recent : Recent depth) :
    HistoryCall → Recent depth
  | .add line => recent.add slotSize line
  | .clear => .clear

/-- A sequence of calls on the shell. -/
def historyRun (st : Sys ω) (calls : List HistoryCall) : Sys ω := calls.foldl HistoryCall.apply st

/-- A sequence of calls on the list. -/
def listRun {depth : ℕ} (slotSize : ℕ) (recent : Recent depth) (calls : List HistoryCall) :
    Recent depth :=
  calls.foldl (HistoryCall.applyList slotSize) recent

/-! ## The refinement -/

/-- The queries of the source see a list. -/
structure ShowsList (s : Shell) (lines : List CStr) : Prop where
  count : shHistoryCount s = lines.length
  newest : ∀ i, shHistoryGetNewest s i = lines[i]?

/-- The ring of a shell holds a list of lines. -/
structure HistoryRefines {depth : ℕ} (slotSize : ℕ) (s : Shell) (recent : Recent depth) :
    Prop where
  wf : HistoryWf s
  depth_eq : s.historyDepth = depth
  slotSize_eq : s.historySlotSize = slotSize
  entries_eq : s.entries = recent.lines

section Refines

variable {depth slotSize : ℕ}

/-- A list held by the ring is what the queries see. -/
private theorem HistoryRefines.showsList {s : Shell} {recent : Recent depth}
    (h : HistoryRefines slotSize s recent) : ShowsList s recent.lines where
  count := by rw [← h.entries_eq, h.wf.length_entries, shHistoryCount]
  newest i := by rw [← h.entries_eq, h.wf.getNewest_eq]

/-- A ring without entries holds the empty list. -/
private theorem historyRefines_clear {s : Shell} (hdepth : s.historyDepth = depth)
    (hslot : s.historySlotSize = slotSize) (hpos : 0 < depth ∧ 0 < slotSize)
    (hstorage : ∃ m, s.historyStorage = some m ∧ depth * slotSize ≤ m.length)
    (hempty : s.historyCount = 0 ∧ s.historyStart = 0) :
    HistoryRefines slotSize s (.clear : Recent depth) := by
  subst hdepth hslot
  obtain ⟨m, hm, hsize⟩ := hstorage
  have hnone : s.entries.length = 0 := by
    rw [Shell.entries, if_neg hpos.1.ne', SlotRing.length_toList, ring_count, hempty.1]
  refine ⟨⟨fun _ => ⟨⟨?_, ?_⟩, ?_, ?_, hpos.2, ?_⟩, fun h0 => absurd h0 hpos.1.ne'⟩, rfl, rfl,
    List.length_eq_zero_iff.mp hnone⟩
  · exact hempty.2.trans_lt hpos.1
  · exact hempty.1.trans_le (Nat.zero_le _)
  · intro m' hm'
    rwa [← Option.some.inj (hm.symm.trans hm')]
  · rw [hm]
    rfl
  · intro i hi
    rw [hempty.1] at hi
    exact absurd hi (Nat.not_lt_zero i)

/-- **A call on the ring** is the same call on the list. -/
theorem HistoryRefines.apply {st : Sys ω} {recent : Recent depth} (hpos : 0 < depth)
    (h : HistoryRefines slotSize st.sh recent) (call : HistoryCall) :
    HistoryRefines slotSize (call.apply st).sh (call.applyList slotSize recent) := by
  cases call with
  | add line =>
    have hsetup : (shHistoryAddInternal st line).sh.historyDepth = st.sh.historyDepth ∧
        (shHistoryAddInternal st line).sh.historySlotSize = st.sh.historySlotSize := by
      rw [shHistoryAddInternal_sh]
      split_ifs <;> exact ⟨rfl, rfl⟩
    refine ⟨h.wf.shHistoryAddInternal line, hsetup.1.trans h.depth_eq,
      hsetup.2.trans h.slotSize_eq, ?_⟩
    show (shHistoryAddInternal st line).sh.entries = (recent.add slotSize line).lines
    rw [entries_shHistoryAddInternal h.wf, addEntry, take_slotLength, h.entries_eq, h.depth_eq,
      h.slotSize_eq, Recent.add]
    simp only [hpos.ne', false_or]
    split_ifs <;> rfl
  | clear =>
    exact ⟨h.wf.clearHistory, h.depth_eq, h.slotSize_eq, entries_clearHistory st.sh⟩

/-- A sequence of calls on the ring is the same sequence on the list. -/
theorem HistoryRefines.run {st : Sys ω} {recent : Recent depth} (hpos : 0 < depth)
    (h : HistoryRefines slotSize st.sh recent) (calls : List HistoryCall) :
    HistoryRefines slotSize (historyRun st calls).sh (listRun slotSize recent calls) := by
  induction calls generalizing st recent with
  | nil => exact h
  | cons call calls ih => exact ih (h.apply hpos call)

end Refines

/-- **The history ring refines a bounded list**: from a ring without entries, over any block that
has room for `depth` slots of `slotSize` bytes, every sequence of calls leaves what it leaves of
the list. -/
theorem historyRun_refines {depth slotSize : ℕ} (hdepth : 1 ≤ depth) (hslot : 2 ≤ slotSize)
    {st : Sys ω} (hsdepth : st.sh.historyDepth = depth) (hsslot : st.sh.historySlotSize = slotSize)
    (hstorage : ∃ m, st.sh.historyStorage = some m ∧ depth * slotSize ≤ m.length)
    (hempty : st.sh.historyCount = 0 ∧ st.sh.historyStart = 0) (calls : List HistoryCall) :
    ShowsList (historyRun st calls).sh (listRun slotSize (.clear : Recent depth) calls).lines := by
  have hstart := historyRefines_clear hsdepth hsslot ⟨hdepth, by omega⟩ hstorage hempty
  exact (hstart.run hdepth calls).showsList

/-- Four lines in a ring of two slots: one is a repetition, the oldest one is overwritten and the
longest one is cut. -/
theorem historyRun_refines_small :
    ShowsList (historyRun ⟨smallShell, (), [], []⟩ [.add (str "a"), .add (str "b"),
      .add (str "b"), .add (str "a line of 18 bytes")]).sh [str "a line of 18 byt", str "b"] :=
  @historyRun_refines _ 2 17 (by decide) (by decide) _ rfl rfl
    ⟨_, rfl, by decide⟩ ⟨rfl, rfl⟩ _

end PortableShell
