import PortableShell.Invariant

set_option relaxedAutoImplicit false
set_option autoImplicit false

/-!
# Bounds of the buffers

The accesses that a run records cover all it writes to the four buffers of the caller, and the
checks of `sh_init` keep them below the declared sizes, with one exception: the draft is checked
with the history enabled only, but written without it as well.

## Main definitions

* `PortableShell.Storage.declared` — the size that the caller declares for a buffer.
* `PortableShell.BuffersFit` — what a shell needs of the sizes.

## Main results

* `PortableShell.run_recorded` — nothing is written behind the accesses that a run records.
* `PortableShell.run_sameBehind` — what lies behind the part of a buffer that a shell works with
  stays as it is.
* `PortableShell.accessesBounded_iff` — every run on an accepted configuration stays within the
  declared sizes exactly when there is no draft buffer or it takes the longest line.
-/

namespace PortableShell

variable {ω : Type}

/-! ## What a run writes -/

/-- **The record of a run is complete**: what a run writes lies below the accesses that it
records, and they stay within reach. -/
theorem run_recorded (env : Env ω) {st : Sys ω} (hwf : st.sh.Wf) (ops : List (Op ω)) :
    ∃ log, (run env st ops).accesses = st.accesses ++ log ∧
      Recorded log st.sh (run env st ops).sh :=
  (run_acts env env.actsBy_true trivial st ops fun _ _ => trivial).recorded hwf

/-- **Nothing is written behind a buffer**: a run leaves what lies behind the part of a buffer
that the shell works with as it is. -/
theorem run_sameBehind (env : Env ω) {st : Sys ω} (hwf : st.sh.Wf) (ops : List (Op ω)) :
    SameBehind st.sh.reach st.sh (run env st ops).sh := by
  obtain ⟨log, -, hrecorded⟩ := run_recorded env hwf ops
  exact hrecorded.behind st.sh.reach hrecorded.within

/-! ## Sizes -/

/-- The size that the caller declares for a buffer. A buffer that is missing has none. -/
def Storage.declared (storage : Storage) : Buffer → ℕ
  | .line => storage.lineBuffer.cells.length
  | .argv => storage.argvBuffer.cells.length
  | .history =>
    if storage.historyBuffer.isSome then storage.historyCapacity * storage.historySlotSize else 0
  | .draft => storage.draftBuffer.cells.length

/-- The accesses of `sh_init`: it empties the line and the draft. -/
def initAccesses (storage : Storage) : List Access :=
  ⟨.line, 1⟩ :: if storage.draftBuffer.isNull then [] else [⟨.draft, 1⟩]

/-- What a shell needs of the sizes of its buffers. -/
structure BuffersFit (size : Buffer → ℕ) (s : Shell) : Prop where
  wf : s.Wf
  line : s.lineCapacity ≤ size .line
  argv : s.argvCapacity ≤ size .argv
  history : s.historyStorage.isSome → s.historyDepth * s.historySlotSize ≤ size .history
  draft : s.draft.isSome → s.lineCapacity ≤ size .draft

/-- A shell reaches no further than the sizes that fit. -/
private theorem BuffersFit.reach_le {size : Buffer → ℕ} {s : Shell} (h : BuffersFit size s)
    (b : Buffer) :
    s.reach b ≤ size b := by
  cases b with
  | line => exact h.line
  | argv => exact h.argv
  | history =>
    rw [Shell.reach]
    split_ifs with hsome
    · exact h.history hsome
    · exact Nat.zero_le _
  | draft =>
    rw [Shell.reach]
    split_ifs with hsome
    · exact h.draft hsome
    · exact Nat.zero_le _

/-- **A run** makes no access beyond sizes that fit. -/
theorem BuffersFit.run_below {size : Buffer → ℕ} (env : Env ω) (st : Sys ω)
    (h : BuffersFit size st.sh) (hbelow : Below size st.accesses) (ops : List (Op ω)) :
    Below size (run env st ops).accesses := by
  obtain ⟨log, haccesses, hrecorded⟩ := run_recorded env h.wf ops
  rw [haccesses]
  exact below_append.mpr ⟨hbelow, fun a ha => (hrecorded.within a ha).trans (h.reach_le a.buffer)⟩

/-! ## The checks of initialization -/

/-- No run of calls behind `sh_init` makes an access beyond the declared sizes. -/
def AccessesBounded (env : Env ω) (io : ω) (storage : Storage) (s : Shell) : Prop :=
  ∀ ops : List (Op ω), ∀ a ∈ (run env ⟨s, io, [], initAccesses storage⟩ ops).accesses,
    a.stop ≤ storage.declared a.buffer

section Init

variable {cfg : Option Config} {storage : Storage} {s : Shell}

/-- An accepted shell fits the declared sizes, its draft apart.

**Proof sketch.** Line, vector and history are checked by `sh_init` against their declared sizes.
The draft is checked only with the history enabled, hence the hypothesis. -/
private theorem buffersFit_of_shInit (hsized : storage.Sized) (h : shInit cfg storage = .ok s)
    (hdraft : storage.draftBuffer.isNull = true ∨
      (effectiveConfig cfg storage).lineMax < storage.draftBuffer.count) :
    BuffersFit storage.declared s := by
  have hwf := shInit_wf hsized h
  obtain ⟨rfl, hline, hargv, hb, hh⟩ := shInit_eq_ok h
  generalize effectiveConfig cfg storage = c at *
  simp only [Config.buffersFit, Bool.and_eq_true, decide_eq_true_eq] at hb
  simp only [Config.historyFits, Bool.and_eq_true, decide_eq_true_eq] at hh
  obtain ⟨⟨⟨⟨⟨-, -⟩, hlsize⟩, -⟩, -⟩, hasize⟩ := hb
  refine ⟨hwf, ?_, ?_, fun hsome => ?_, fun hsome => ?_⟩
  · rw [Storage.declared, CArray.length_cells hline]
    exact hlsize
  · rw [Storage.declared, CArray.length_cells hargv]
    exact hasize
  · have hbuffer : storage.historyBuffer.isSome := hsome
    rw [Storage.declared, if_pos hbuffer]
    exact Nat.mul_le_mul_right _ hh.1
  · cases hbuffer : storage.draftBuffer with
    | null n =>
      exfalso
      simp [initialShell, hbuffer, CArray.pointer] at hsome
    | array d =>
      rw [hbuffer] at hdraft
      have hlt : c.lineMax < d.length := hdraft.resolve_left Bool.false_ne_true
      rw [Storage.declared, hbuffer]
      exact hlt

/-- **The accesses of a run** on an accepted configuration stay within the declared sizes exactly
when there is no draft buffer or it takes the longest line. With the history enabled `sh_init`
checks this; without it the draft is emptied all the same.

**Proof sketch.** A draft that is too small is overrun by clearing the history. Otherwise the
buffers fit their declared sizes, no step of a run moves a buffer or lets it grow, and every access
recorded is below the end of its buffer. -/
theorem accessesBounded_iff (hsized : storage.Sized) (h : shInit cfg storage = .ok s)
    (env : Env ω) (io : ω) :
    AccessesBounded env io storage s ↔ storage.draftBuffer.isNull = true ∨
      (effectiveConfig cfg storage).lineMax < storage.draftBuffer.count := by
  constructor
  · intro hbounded
    by_contra hsmall
    rw [not_or, Bool.not_eq_true] at hsmall
    -- clearing the history fills as much of the draft as a line may take
    have hclear := hbounded [.api .historyClear] ⟨.draft, s.lineCapacity⟩
    have hcells := CArray.length_cells hsmall.1
    obtain ⟨rfl, -⟩ := shInit_eq_ok h
    have hsome : (initialShell (effectiveConfig cfg storage) storage).draft.isSome = true := by
      cases hbuffer : storage.draftBuffer with
      | null n =>
        rw [hbuffer] at hsmall
        cases hsmall.1
      | array d => simp [initialShell, hbuffer, CArray.pointer]
    have haccesses : (run env ⟨initialShell (effectiveConfig cfg storage) storage, io, [],
        initAccesses storage⟩ [.api .historyClear]).accesses =
        (initAccesses storage ++ [⟨.draft, if (initialShell (effectiveConfig cfg storage)
          storage).draft.isSome then (effectiveConfig cfg storage).lineMax + 1 else 0⟩]) ++
        [⟨.history, if storage.historyBuffer.isSome then
          (effectiveConfig cfg storage).historyDepth * storage.historySlotSize else 0⟩] := rfl
    rw [haccesses, if_pos hsome] at hclear
    have hle := hclear (List.mem_append_left _ (List.mem_append_right _
        (List.mem_singleton.mpr rfl)))
    have hle' : (effectiveConfig cfg storage).lineMax + 1 ≤ storage.draftBuffer.cells.length := hle
    omega
  · intro hdraft ops a ha
    have hfit := buffersFit_of_shInit hsized h hdraft
    have hpos : 1 ≤ s.lineCapacity := Nat.one_le_of_lt hfit.wf.lineLen_lt
    have hstart : Below storage.declared (initAccesses storage) := by
      intro a ha
      rcases List.mem_cons.mp ha with rfl | ha
      · exact hpos.trans hfit.line
      · split_ifs at ha with hnull
        · cases ha
        · rw [List.mem_singleton.mp ha]
          have hcount := hdraft.resolve_left hnull
          rw [Bool.not_eq_true] at hnull
          show 1 ≤ storage.draftBuffer.cells.length
          rw [CArray.length_cells hnull]
          omega
    exact hfit.run_below env ⟨s, io, [], initAccesses storage⟩ hstart ops a ha

end Init

/-- Buffers that fit. -/
theorem accessesBounded_iff_small :
    AccessesBounded idleEnv () smallStorage smallShell ↔ smallStorage.draftBuffer.isNull = true ∨
      (effectiveConfig (some smallConfig) smallStorage).lineMax < smallStorage.draftBuffer.count :=
  accessesBounded_iff smallStorage_sized shInit_small idleEnv ()

/-- Without a history, a draft buffer of one byte is accepted, and cancelling a line writes as many
bytes to it as a line may take. -/
theorem not_accessesBounded_draft :
    let storage := { smallStorage with draftBuffer := .array [chr 'x'] }
    let cfg := { smallConfig with historyDepth := 0 }
    let s := initialShell (cfg.completed storage) storage
    shInit (some cfg) storage = .ok s ∧ ¬AccessesBounded idleEnv () storage s := by
  refine ⟨rfl, fun h => ?_⟩
  have hcancel := h [.inputByte 0x03] ⟨.draft, 17⟩ (by decide +kernel)
  revert hcancel
  decide +kernel

end PortableShell
