import PortableShell.Acts

set_option relaxedAutoImplicit false
set_option autoImplicit false

/-!
# The session invariant

`sh_init` sets up a well-formed shell, and every call is a sequence of steps, which keep a shell
well formed. So the fields of a shell fit each other in every system that a run reaches.

## Main definitions

* `PortableShell.SessionInvariant` — the part of the invariant that does not speak about buffer
  sizes.

## Main results

* `PortableShell.initialShell_wf` — an initialized shell is well formed.
* `PortableShell.Reachable.wf` — so is a reachable one.
* `PortableShell.sessionInvariant_of_reachable` — the invariant of every reachable system.
-/

namespace PortableShell

variable {ω : Type}

/-! ## Initialization -/

/-- What `sh_init` has checked when it accepts. -/
theorem shInit_eq_ok {cfg : Option Config} {storage : Storage} {s : Shell}
    (h : shInit cfg storage = .ok s) :
    s = initialShell (effectiveConfig cfg storage) storage ∧
      storage.lineBuffer.isNull = false ∧ storage.argvBuffer.isNull = false ∧
      (effectiveConfig cfg storage).buffersFit storage = true ∧
      (effectiveConfig cfg storage).historyFits storage = true := by
  unfold shInit at h
  dsimp only at h
  split_ifs at h with hnull hfit
  push Not at hnull
  rw [Bool.or_eq_true, not_or, Bool.not_eq_true', Bool.not_eq_true', Bool.not_eq_false,
    Bool.not_eq_false] at hfit
  exact ⟨(Except.ok.inj h).symm, by simpa using hnull.1, by simpa using hnull.2.2.1, hfit⟩

/-- A buffer that is there has as many cells as declared. -/
theorem CArray.length_cells {α : Type} {a : CArray α} (h : a.isNull = false) :
    a.cells.length = a.count := by
  cases a with
  | null n => cases h
  | array l => rfl

/-- An initialized shell satisfies the invariant.

**Proof sketch.** Field by field, from the checks of `sh_init`. Only the line is stored into; the
history is empty, and with a depth the draft has room for its NUL. -/
theorem initialShell_wf {cfg : Config} {storage : Storage} (hsized : storage.Sized)
    (hline : storage.lineBuffer.isNull = false) (hargv : storage.argvBuffer.isNull = false)
    (hb : cfg.buffersFit storage = true) (hh : cfg.historyFits storage = true) :
    (initialShell cfg storage).Wf := by
  simp only [Config.buffersFit, Bool.and_eq_true, decide_eq_true_eq] at hb
  simp only [Config.historyFits, Bool.and_eq_true, Bool.or_eq_true, decide_eq_true_eq,
    Bool.not_eq_true'] at hh
  obtain ⟨⟨⟨⟨⟨hl0, hlmax⟩, hlsize⟩, ha0⟩, hamax⟩, hasize⟩ := hb
  obtain ⟨hdepth, hhist⟩ := hh
  have hlc := CArray.length_cells hline
  have hac := CArray.length_cells hargv
  refine ⟨⟨[], ?_, rfl⟩, le_rfl, Nat.succ_pos _, by simpa [initialShell] using hlmax, ?_,
    ha0, hamax, ?_, ⟨fun hd => ?_, fun _ => rfl⟩, ?_, by simp [initialShell],
    by simp [initialShell], ?_, Nat.zero_le _⟩
  · exact Mem.holds_store [] List.not_mem_nil (by simp only [List.length_nil]; omega)
  · simp only [initialShell, Mem.length_store]
    omega
  · simp only [initialShell]
    omega
  · have hd' : cfg.historyDepth ≠ 0 := hd
    obtain ⟨⟨⟨hsome, hslot⟩, -⟩, -⟩ := hhist.resolve_left hd'
    refine ⟨⟨Nat.pos_of_ne_zero hd', Nat.zero_le _⟩, fun m hm => ?_, hsome,
      Nat.zero_lt_of_lt hslot, fun i hi => absurd hi (Nat.not_lt_zero i)⟩
    exact (Nat.mul_le_mul_right _ hdepth).trans (hsized m hm)
  · intro hd
    exact ((hhist.resolve_left hd).1.1.2 : cfg.lineMax < storage.historySlotSize)
  · intro hd
    obtain ⟨⟨-, hnull⟩, hsize⟩ := hhist.resolve_left hd
    obtain ⟨d, hdraft⟩ : ∃ d, storage.draftBuffer = .array d := by
      cases hc : storage.draftBuffer with
      | null n => rw [hc] at hnull; cases hnull
      | array d => exact ⟨d, rfl⟩
    rw [hdraft] at hsize
    have hsize' : cfg.lineMax < d.length := hsize
    refine ⟨Mem.store d 0 [0], by simp [initialShell, hdraft, CArray.pointer], ?_, ?_⟩
    · simpa [initialShell, Nat.succ_le_iff] using hsize'
    · exact (Mem.holds_store [] List.not_mem_nil
        (by simp only [List.length_nil]; omega)).mem_take (Nat.succ_pos _)

/-- Every shell that `sh_init` accepts satisfies the invariant. -/
theorem shInit_wf {cfg : Option Config} {storage : Storage} {s : Shell} (hsized : storage.Sized)
    (h : shInit cfg storage = .ok s) : s.Wf := by
  obtain ⟨rfl, hline, hargv, hb, hh⟩ := shInit_eq_ok h
  exact initialShell_wf hsized hline hargv hb hh

/-- A reachable system stays reachable. -/
theorem Reachable.apply {env : Env ω} {st : Sys ω} (h : Reachable env st) (op : Op ω) :
    Reachable env (op.apply env st).1 := by
  obtain ⟨cfg, storage, s, io, ops, hsized, hinit, rfl⟩ := h
  refine ⟨cfg, storage, s, io, ops ++ [op], hsized, hinit, ?_⟩
  unfold run
  rw [List.foldl_append]
  rfl

/-- A reachable shell satisfies the invariant. -/
theorem Reachable.wf {env : Env ω} {st : Sys ω} (h : Reachable env st) : st.sh.Wf := by
  obtain ⟨cfg, storage, s, io, ops, hsized, hinit, rfl⟩ := h
  exact (shInit_wf hsized hinit).steps (run_steps env _ ops)

/-- A reachable shell has room for the longest line and a terminator. -/
theorem Reachable.lineCapacity_eq {env : Env ω} {st : Sys ω} (h : Reachable env st) :
    st.sh.lineCapacity = st.sh.cfg.lineMax + 1 := by
  obtain ⟨cfg, storage, s, io, ops, -, hinit, rfl⟩ := h
  have hsetup := (run_steps env ⟨s, io, [], []⟩ ops).sameSetup
  rw [hsetup.lineCapacity, hsetup.cfg]
  obtain ⟨rfl, -⟩ := shInit_eq_ok hinit
  rfl

/-- A reachable shell has the parameter buffer that `sh_ansi_init` set up. -/
theorem Reachable.csi_length {env : Env ω} {st : Sys ω} (h : Reachable env st) :
    st.sh.ansi.csi.length = shAnsiCsiMax := by
  obtain ⟨cfg, storage, s, io, ops, -, hinit, rfl⟩ := h
  rw [(run_steps env ⟨s, io, [], []⟩ ops).csi_length]
  obtain ⟨rfl, -⟩ := shInit_eq_ok hinit
  rfl

/-! ## The invariant of a session -/

/-- What holds between the fields of a shell in every session. -/
structure SessionInvariant (s : Shell) : Prop where
  cursor_le : s.cursor ≤ s.lineLen
  lineLen_lt : s.lineLen < s.lineCapacity
  /-- The line ends with a NUL behind `lineLen` bytes and has no NUL before. -/
  terminator : s.line[s.lineLen]? = some 0
  nonzero : ∀ i < s.lineLen, ∃ c, s.line[i]? = some c ∧ c ≠ 0
  ring : 0 < s.historyDepth → s.historyCount ≤ s.historyDepth ∧ s.historyStart < s.historyDepth
  view_ge : -1 ≤ s.historyView
  view_lt : s.historyView < s.historyCount
  /-- Every populated history slot holds a NUL. -/
  slots : ∀ i < s.historyCount, SlotTerminated s (newestSlot s i)
  /-- With the history enabled the draft holds a NUL within the capacity of the line. -/
  draft : 0 < s.historyDepth → ∃ d, s.draft = some d ∧ 0 ∈ d.take s.lineCapacity
  csi_le : s.ansi.csiLength ≤ shAnsiCsiMax

/-- The invariant of a session is a part of the invariant of a shell. -/
theorem Shell.Wf.sessionInvariant {s : Shell} (h : s.Wf) : SessionInvariant s := by
  refine ⟨h.cursor_le, h.lineLen_lt, ?_, ?_, ?_, h.view_ge, h.view_lt, ?_, ?_, h.csi_le⟩
  · rw [← h.length_text]
    exact h.holds_text.getElem?_length
  · intro i hi
    rw [← h.length_text] at hi
    obtain ⟨rest, hr⟩ := h.holds_text.exists_rest
    refine ⟨s.text[i], ?_, fun h0 => h.zero_not_mem_text (h0 ▸ List.getElem_mem hi)⟩
    rw [hr, List.getElem?_append_left hi, List.getElem?_eq_getElem hi]
  · intro hd
    exact ⟨(h.history.enabled hd.ne').bounded.count_le, (h.history.enabled hd.ne').bounded.start_lt⟩
  · intro i hi
    have hd : s.historyDepth ≠ 0 := fun h0 => by
      rw [h.history.disabled h0] at hi
      exact absurd hi (Nat.not_lt_zero i)
    exact (h.history.enabled hd).terminated i hi
  · intro hd
    obtain ⟨d, hd, -, hz⟩ := h.draft hd.ne'
    exact ⟨d, hd, hz⟩

/-- **The session invariant** holds in every reachable system, whatever the handlers and the
output backend do. -/
theorem sessionInvariant_of_reachable {env : Env ω} {st : Sys ω} (h : Reachable env st) :
    SessionInvariant st.sh := h.wf.sessionInvariant

/-- The invariant after a character, an escape sequence cut short and a command. -/
theorem sessionInvariant_small :
    SessionInvariant (run idleEnv ⟨smallShell, (), [], []⟩
      [.inputByte (chr 'a'), .inputByte esc, .executeLine (str "history clear")]).sh :=
  sessionInvariant_of_reachable
    ⟨some smallConfig, smallStorage, smallShell, (), _, smallStorage_sized, shInit_small, rfl⟩

end PortableShell
