import PortableShell.WellFormed

set_option relaxedAutoImplicit false
set_option autoImplicit false

/-!
# Accesses to the buffers

A run records one past the greatest index of every access to the four buffers of the caller. This
file ties the record to the memory: it says which accesses have to be recorded for an update, so
that nothing behind them is written, and that these accesses stay within the sizes that a
well-formed shell works with.

## Main definitions

* `PortableShell.Shell.reach` — how far a shell may reach into a buffer.
* `PortableShell.SameBehind` — nothing was written behind given indices.
* `PortableShell.Recorded` — accesses that cover an update and stay within reach.

## Main results

* `PortableShell.Steps.reach_eq` — no step changes how far a shell may reach.
* `PortableShell.Shell.Wf.recorded_insertAt`, `recorded_walk`, … — the accesses of an update.
-/

namespace PortableShell

/-! ## How far a shell may reach -/

/-- How far a shell may reach into a buffer: the size that its fields tell. -/
def Shell.reach (s : Shell) : Buffer → ℕ
  | .line => s.lineCapacity
  | .argv => s.argvCapacity
  | .history => if s.historyStorage.isSome then s.historyDepth * s.historySlotSize else 0
  | .draft => if s.draft.isSome then s.lineCapacity else 0

/-- The same buffers are there. -/
structure SameBuffers (s s' : Shell) : Prop where
  draft : s'.draft.isSome = s.draft.isSome
  history : s'.historyStorage.isSome = s.historyStorage.isSome

/-- An update by application code leaves the buffers in place. -/
private theorem ShellStep.sameBuffers {s s' : Shell} (hstep : ShellStep s s') :
    SameBuffers s s' := by
  cases hstep with
  | clear =>
    refine ⟨Option.isSome_map, ?_⟩
    rw [Shell.clearHistory]
    dsimp only
    split_ifs
    · exact Option.isSome_map
    · rfl
  | echo enabled => exact ⟨rfl, rfl⟩
  | commands l =>
    rcases shRegisterCommands_cases s l with hc | ⟨e, -, hc⟩ <;> rw [hc] <;> exact ⟨rfl, rfl⟩
  | commandSets l =>
    rcases shRegisterCommandSets_cases s l with hc | ⟨e, -, hc⟩ <;> rw [hc] <;> exact ⟨rfl, rfl⟩
  | started b => exact ⟨rfl, rfl⟩
  | stopped => exact ⟨rfl, rfl⟩

/-- An update leaves the buffers in place.

**Proof sketch.** Case split on the update. Only a store into the draft or into the history and
the wiping of either touch the two fields, and these keep whether the buffer is there. -/
private theorem Step.sameBuffers {s s' : Shell} (hstep : Step s s') : SameBuffers s s' := by
  cases hstep with
  | edit he =>
    cases he with
    | exec hx =>
      cases hx with
      | app h => exact h.sameBuffers
      | store line => exact ⟨rfl, Option.isSome_map⟩
      | argv texts => exact ⟨rfl, rfl⟩
      | wipeArgv =>
        rw [Shell.wipeArgv]
        split_ifs <;> exact ⟨rfl, rfl⟩
    | resetAnsi => exact ⟨rfl, rfl⟩
    | walk direction =>
      rw [Shell.walk]
      split_ifs
      · exact ⟨Option.isSome_map, rfl⟩
      · exact ⟨rfl, rfl⟩
    | insert => exact ⟨rfl, rfl⟩
    | backspace => exact ⟨rfl, rfl⟩
    | delete => exact ⟨rfl, rfl⟩
    | word => exact ⟨rfl, rfl⟩
    | eraseLine => exact ⟨rfl, rfl⟩
    | eraseDraft => exact ⟨Option.isSome_map, rfl⟩
    | wipeDraft =>
      rw [Shell.wipeDraft]
      split_ifs
      · exact ⟨Option.isSome_map, rfl⟩
      · exact ⟨rfl, rfl⟩
    | cursor => exact ⟨rfl, rfl⟩
    | replace => exact ⟨rfl, rfl⟩
  | lastCr b => exact ⟨rfl, rfl⟩
  | feed byte => exact ⟨rfl, rfl⟩

/-- A step does not change how far a shell may reach. -/
theorem Step.reach_eq {s s' : Shell} (hstep : Step s s') : s'.reach = s.reach := by
  have hsetup := hstep.sameSetup
  have hbuffers := hstep.sameBuffers
  funext b
  cases b with
  | line => exact hsetup.lineCapacity
  | argv => exact hsetup.argvCapacity
  | history =>
    rw [Shell.reach, Shell.reach, hbuffers.history, hsetup.historyDepth, hsetup.historySlotSize]
  | draft => rw [Shell.reach, Shell.reach, hbuffers.draft, hsetup.lineCapacity]

/-- **No sequence of steps changes** how far a shell may reach. -/
theorem Steps.reach_eq {s s' : Shell} (h : Steps s s') : s'.reach = s.reach :=
  keeps_of_steps (T := Step) (P := fun s' => s'.reach = s.reach)
    (fun _ _ hstep hs => hstep.reach_eq.trans hs) h rfl

/-! ## What is written -/

/-- Accesses that stay below given indices. -/
def Below (stop : Buffer → ℕ) (log : List Access) : Prop := ∀ a ∈ log, a.stop ≤ stop a.buffer

@[simp] theorem below_nil (stop : Buffer → ℕ) : Below stop [] :=
  fun _ h => absurd h List.not_mem_nil

@[simp] theorem below_cons {stop : Buffer → ℕ} {a : Access} {log : List Access} :
    Below stop (a :: log) ↔ a.stop ≤ stop a.buffer ∧ Below stop log := List.forall_mem_cons

/-- The first of some accesses. -/
private theorem Below.head {stop : Buffer → ℕ} {a : Access} {log : List Access}
    (h : Below stop (a :: log)) : a.stop ≤ stop a.buffer := (below_cons.mp h).1

/-- The accesses behind the first one. -/
private theorem Below.tail {stop : Buffer → ℕ} {a : Access} {log : List Access}
    (h : Below stop (a :: log)) : Below stop log := (below_cons.mp h).2

/-- One access. -/
private theorem below_one {stop : Buffer → ℕ} {a : Access} (h : a.stop ≤ stop a.buffer) :
    Below stop [a] := below_cons.mpr ⟨h, below_nil _⟩

/-- Two accesses. -/
private theorem below_two {stop : Buffer → ℕ} {a b : Access} (ha : a.stop ≤ stop a.buffer)
    (hb : b.stop ≤ stop b.buffer) : Below stop [a, b] := below_cons.mpr ⟨ha, below_one hb⟩

@[simp] theorem below_append {stop : Buffer → ℕ} {log log' : List Access} :
    Below stop (log ++ log') ↔ Below stop log ∧ Below stop log' := List.forall_mem_append

/-- Nothing was written to the buffers behind given indices. -/
structure SameBehind (stop : Buffer → ℕ) (s s' : Shell) : Prop where
  line : s'.line.drop (stop .line) = s.line.drop (stop .line)
  argv : s'.argv.drop (stop .argv) = s.argv.drop (stop .argv)
  history : s'.historyStorage.map (List.drop (stop .history)) =
    s.historyStorage.map (List.drop (stop .history))
  draft : s'.draft.map (List.drop (stop .draft)) = s.draft.map (List.drop (stop .draft))

namespace SameBehind

variable {stop : Buffer → ℕ} {s s' : Shell}

/-- Nothing is written when nothing changes. -/
theorem refl (s : Shell) : SameBehind stop s s := ⟨rfl, rfl, rfl, rfl⟩

/-- One update after the other. -/
theorem trans {a b c : Shell} (h : SameBehind stop a b) (k : SameBehind stop b c) :
    SameBehind stop a c :=
  ⟨k.line.trans h.line, k.argv.trans h.argv, k.history.trans h.history, k.draft.trans h.draft⟩

/-- A write to a buffer that may be missing. -/
private theorem map_drop {α : Type} {n : ℕ} {f : List α → List α} (h : ∀ m, (f m).drop n = m.drop n)
    (o : Option (List α)) : (o.map f).map (List.drop n) = o.map (List.drop n) := by
  cases o with
  | none => rfl
  | some m => exact congrArg some (h m)

/-- A string of `len` bytes with its terminator. -/
private theorem drop_string {m text : List Byte} {len n : ℕ} (htext : text.length ≤ len)
    (hn : len + 1 ≤ n) : (Mem.store (Mem.store m 0 text) len [0]).drop n = m.drop n := by
  rw [Mem.drop_store (by simpa using hn), Mem.drop_store (by omega)]

/-- `set_line`. -/
theorem setLine {t : CStr} (h : min t.length (s.lineCapacity - 1) + 1 ≤ stop .line) :
    SameBehind stop s (s.setLine t) := by
  refine ⟨?_, rfl, rfl, rfl⟩
  rw [Shell.setLine]
  dsimp only
  refine drop_string (List.length_take_le _ _) ?_
  split_ifs <;> omega

/-- The copy of the line to the draft. -/
theorem saveDraft (h : min s.lineLen (s.lineCapacity - 1) + 1 ≤ stop .draft) :
    SameBehind stop s s.saveDraft := by
  refine ⟨rfl, rfl, rfl, map_drop (fun m => drop_string (List.length_take_le _ _) ?_) _⟩
  split_ifs <;> omega

/-- A part of a buffer is moved. -/
private theorem drop_move {α : Type} {m : List α} {dst src n k : ℕ} (h : dst + n ≤ k) :
    (Mem.move m dst src n).drop k = m.drop k := by
  have hlen := List.length_take_le n (m.drop src)
  exact Mem.drop_store (by omega)

/-- A buffer is filled. -/
private theorem drop_fill {α : Type} {m : List α} {v : α} {n k : ℕ} (h : n ≤ k) :
    (Mem.fill m 0 v n).drop k = m.drop k :=
  Mem.drop_store (by rw [List.length_replicate]; omega)

/-- A buffer is filled or holds the empty string. -/
private theorem drop_erase {secure : Bool} {m : List Byte} {n k : ℕ}
    (h : (if secure then n else 1) ≤ k) :
    (if secure then Mem.fill m 0 0 n else Mem.store m 0 [0]).drop k = m.drop k := by
  split_ifs at h ⊢
  · exact drop_fill h
  · exact Mem.drop_store (by simpa using h)

/-- A byte is inserted. -/
theorem insertAt {c : Byte} (hcursor : s.cursor ≤ s.lineLen) (h : s.lineLen + 2 ≤ stop .line) :
    SameBehind stop s (s.insertAt c) := by
  refine ⟨?_, rfl, rfl, rfl⟩
  rw [Shell.insertAt]
  dsimp only
  rw [Mem.drop_store (by rw [List.length_singleton]; omega), drop_move (by omega)]

/-- A part of the line is removed. -/
theorem deleteRange {start stop' : ℕ} (hstart : start ≤ stop') (hstop : stop' ≤ s.lineLen)
    (h : s.lineLen + 1 ≤ stop .line) : SameBehind stop s (s.deleteRange start stop') :=
  ⟨drop_move (by omega), rfl, rfl, rfl⟩

/-- A part of the line is replaced. -/
theorem replaceRange {start stop' space : ℕ} {replacement : CStr} (hspace : space ≤ 1)
    (h : start + replacement.length + space + (s.lineLen - stop') + 1 ≤ stop .line) :
    SameBehind stop s (s.replaceRange start stop' replacement space) := by
  refine ⟨?_, rfl, rfl, rfl⟩
  have hlength : replacement.bytes.length = replacement.length := rfl
  rw [Shell.replaceRange]
  dsimp only
  split_ifs
  · rw [Mem.drop_store (by rw [List.length_singleton]; omega), Mem.drop_store (by omega),
      drop_move (by omega)]
  · rw [Mem.drop_store (by omega), drop_move (by omega)]

/-- The line is emptied. -/
theorem eraseLine (h : (if s.cfg.secureClearEnabled then s.lineCapacity else 1) ≤ stop .line) :
    SameBehind stop s s.eraseLine := ⟨drop_erase h, rfl, rfl, rfl⟩

/-- The draft is emptied. -/
theorem eraseDraft (h : (if s.draft.isNone then 0
    else if s.cfg.secureClearEnabled then s.lineCapacity else 1) ≤ stop .draft) :
    SameBehind stop s s.eraseDraft := by
  refine ⟨rfl, rfl, rfl, ?_⟩
  rw [Shell.eraseDraft]
  cases hdraft : s.draft with
  | none => rfl
  | some d =>
    rw [hdraft, Option.isNone_some, if_neg Bool.false_ne_true] at h
    exact congrArg some (drop_erase h)

/-- The draft is wiped. -/
theorem wipeDraft (h : (if s.draft.isSome ∧ s.cfg.secureClearEnabled then s.lineCapacity else 0) ≤
    stop .draft) : SameBehind stop s s.wipeDraft := by
  rw [Shell.wipeDraft]
  split_ifs with hsecure
  · refine ⟨rfl, rfl, rfl, ?_⟩
    cases hdraft : s.draft with
    | none => rfl
    | some d =>
      rw [hdraft, if_pos ⟨rfl, hsecure⟩] at h
      exact congrArg some (drop_fill h)
  · exact .refl s

/-- An entry is written to the history. -/
theorem storeEntry {line : CStr}
    (h : slotAt s (targetSlot s) + slotLength s line + 1 ≤ stop .history) :
    SameBehind stop s (s.storeEntry line) := by
  refine ⟨rfl, rfl, map_drop (fun m => ?_) _, rfl⟩
  have hlen := List.length_take_le (slotLength s line) line.bytes
  rw [Mem.drop_store (by rw [List.length_singleton]; omega), Mem.drop_store (by omega)]

/-- The history is cleared. -/
theorem clearHistory (hdraft : (if s.draft.isSome then s.lineCapacity else 0) ≤ stop .draft)
    (hhistory : (if s.historyStorage.isSome then s.historyDepth * s.historySlotSize else 0) ≤
      stop .history) : SameBehind stop s s.clearHistory := by
  refine ⟨rfl, rfl, ?_, ?_⟩
  · rw [Shell.clearHistory]
    dsimp only
    split_ifs
    · cases hstorage : s.historyStorage with
      | none => rfl
      | some m =>
        rw [hstorage, Option.isSome_some, if_pos rfl] at hhistory
        exact congrArg some (drop_fill hhistory)
    · rfl
  · cases hsome : s.draft with
    | none => rw [Shell.clearHistory, hsome]; rfl
    | some d =>
      rw [hsome, Option.isSome_some, if_pos rfl] at hdraft
      rw [Shell.clearHistory, hsome]
      exact congrArg some (drop_fill hdraft)

/-- The argument vector is written. -/
theorem setArgv {texts : List CStr} (h : texts.length ≤ stop .argv) :
    SameBehind stop s (s.setArgv texts) :=
  ⟨rfl, Mem.drop_store (by rw [List.length_map]; omega), rfl, rfl⟩

/-- The argument vector is wiped. -/
theorem wipeArgv (h : (if s.cfg.secureClearEnabled then s.argvCapacity else 0) ≤ stop .argv) :
    SameBehind stop s s.wipeArgv := by
  rw [Shell.wipeArgv]
  split_ifs at h ⊢
  · exact ⟨rfl, drop_fill h, rfl, rfl⟩
  · exact .refl s

end SameBehind

/-! ## What is recorded -/

/-- The accesses that are recorded for an update: they stay within reach, and nothing behind them
is written. -/
structure Recorded (log : List Access) (s s' : Shell) : Prop where
  within : Below s.reach log
  behind : ∀ stop, Below stop log → SameBehind stop s s'

namespace Recorded

variable {s s' : Shell}

/-- Accesses that only read. -/
theorem read {log : List Access} (h : Below s.reach log) : Recorded log s s :=
  ⟨h, fun _ _ => .refl s⟩

/-- An update that does not write to a buffer. -/
theorem nothing (hline : s'.line = s.line) (hargv : s'.argv = s.argv)
    (hhistory : s'.historyStorage = s.historyStorage) (hdraft : s'.draft = s.draft) :
    Recorded [] s s' :=
  ⟨below_nil _, fun _ _ => ⟨by rw [hline], by rw [hargv], by rw [hhistory], by rw [hdraft]⟩⟩

/-- A recorded update goes on with one that does not write to a buffer. -/
theorem keeping {s'' : Shell} {log : List Access} (h : Recorded log s s')
    (hline : s''.line = s'.line) (hargv : s''.argv = s'.argv)
    (hhistory : s''.historyStorage = s'.historyStorage) (hdraft : s''.draft = s'.draft) :
    Recorded log s s'' :=
  ⟨h.within, fun stop hbelow => (h.behind stop hbelow).trans
    ⟨by rw [hline], by rw [hargv], by rw [hhistory], by rw [hdraft]⟩⟩

/-- One recorded update after the other. -/
theorem trans {a b c : Shell} {log log' : List Access} (h : Recorded log a b)
    (hreach : b.reach = a.reach) (k : Recorded log' b c) : Recorded (log ++ log') a c where
  within := below_append.mpr ⟨h.within, hreach ▸ k.within⟩
  behind := fun stop hbelow =>
    (h.behind stop (below_append.mp hbelow).1).trans (k.behind stop (below_append.mp hbelow).2)

/-- Clearing the history. -/
theorem clearHistory (s : Shell) :
    Recorded [⟨.draft, if s.draft.isSome then s.lineCapacity else 0⟩,
      ⟨.history, if s.historyStorage.isSome then s.historyDepth * s.historySlotSize else 0⟩] s
        s.clearHistory where
  within := below_two le_rfl le_rfl
  behind := fun _ hbelow =>
    .clearHistory hbelow.head hbelow.tail.head

/-- Writing the argument vector. -/
theorem setArgv {texts : List CStr} {n : ℕ} (htexts : texts.length ≤ n)
    (hn : n ≤ s.argvCapacity) : Recorded [⟨.argv, n⟩] s (s.setArgv texts) where
  within := below_one hn
  behind := fun _ hbelow => .setArgv (htexts.trans hbelow.head)

/-- Wiping the argument vector. -/
theorem wipeArgv (s : Shell) :
    Recorded [⟨.argv, if s.cfg.secureClearEnabled then s.argvCapacity else 0⟩] s s.wipeArgv where
  within := by
    refine below_one ?_
    show (if s.cfg.secureClearEnabled then s.argvCapacity else 0) ≤ s.argvCapacity
    split_ifs
    · exact le_rfl
    · exact Nat.zero_le _
  behind := fun _ hbelow => .wipeArgv hbelow.head

end Recorded

/-! ## The accesses of the functions -/

namespace Shell.Wf

variable {s : Shell}

/-- Reading a history entry to its terminator. -/
theorem newestStop_le (h : s.Wf) (i : ℕ) : newestStop s i ≤ s.reach .history := by
  rw [newestStop]
  cases hentry : shHistoryGetNewest s i with
  | none => exact Nat.zero_le _
  | some entry =>
    have hlen := h.history.length_getNewest_lt hentry
    rw [shHistoryGetNewest] at hentry
    split_ifs at hentry with hnone
    rw [not_or] at hnone
    have henabled := h.history.enabled hnone.2
    have hslot : newestSlot s i + 1 ≤ s.historyDepth :=
      Nat.mod_lt _ (Nat.pos_of_ne_zero hnone.2)
    have hmul := Nat.mul_le_mul_right s.historySlotSize hslot
    rw [Nat.succ_mul] at hmul
    rw [Shell.reach, if_pos henabled.storage]
    dsimp only
    rw [slotAt]
    omega

/-- Reading the line to its terminator. -/
theorem lineStr_lt (h : s.Wf) : s.lineStr.length + 1 ≤ s.reach .line := by
  have hlt := h.lineLen_lt
  rw [CStr.length, h.lineStr_bytes, h.length_text]
  exact hlt

/-- Reading the text of the line. -/
theorem lineLen_le_reach (h : s.Wf) : s.lineLen ≤ s.reach .line := h.lineLen_lt.le

/-- With a history there is a draft. -/
private theorem reach_draft (h : s.Wf) (hcount : s.historyCount ≠ 0) :
    s.historyDepth ≠ 0 ∧ s.reach .draft = s.lineCapacity := by
  have hdepth : s.historyDepth ≠ 0 := fun h0 => hcount (h.history.disabled h0)
  obtain ⟨d, hd, -⟩ := h.draft hdepth
  exact ⟨hdepth, if_pos (by rw [hd]; rfl)⟩

/-- Inserting a byte. -/
theorem recorded_insertAt (h : s.Wf) (c : Byte) (hfit : s.lineLen + 1 < s.lineCapacity) :
    Recorded [⟨.line, s.lineLen + 2⟩] s (s.insertAt c) where
  within := below_one hfit
  behind := fun _ hbelow => .insertAt h.cursor_le hbelow.head

/-- Removing a part of the line. -/
theorem recorded_deleteRange (h : s.Wf) {start stop : ℕ} (hstart : start ≤ stop)
    (hstop : stop ≤ s.lineLen) :
    Recorded [⟨.line, s.lineLen + 1⟩] s (s.deleteRange start stop) where
  within := below_one h.lineLen_lt
  behind := fun _ hbelow => .deleteRange hstart hstop hbelow.head

/-- Replacing a part of the line. -/
theorem recorded_replaceRange (h : s.Wf) {start stop space : ℕ} {replacement : CStr}
    (hspace : space ≤ 1)
    (hfit : start + replacement.length + space + (s.lineLen - stop) < s.lineCapacity) :
    Recorded [⟨.line, s.lineLen + 1⟩,
      ⟨.line, start + replacement.length + space + (s.lineLen - stop) + 1⟩] s
        (s.replaceRange start stop replacement space) where
  within := below_two h.lineLen_lt hfit
  behind := fun _ hbelow => .replaceRange hspace hbelow.tail.head

/-- The access for emptying the line stays within reach. -/
private theorem eraseLine_le (h : s.Wf) :
    (if s.cfg.secureClearEnabled then s.lineCapacity else 1) ≤ s.reach .line := by
  have hpos : 1 ≤ s.lineCapacity := Nat.one_le_of_lt h.lineLen_lt
  rw [Shell.reach]
  split_ifs
  · exact le_rfl
  · exact hpos

/-- Emptying the line and the draft. -/
theorem recorded_erase (h : s.Wf) :
    Recorded [⟨.line, if s.cfg.secureClearEnabled then s.lineCapacity else 1⟩,
      ⟨.draft, if s.draft.isNone then 0
        else if s.cfg.secureClearEnabled then s.lineCapacity else 1⟩] s
          s.eraseLine.eraseDraft where
  within := by
    have hpos : 1 ≤ s.lineCapacity := Nat.one_le_of_lt h.lineLen_lt
    refine below_two h.eraseLine_le ?_
    rw [Shell.reach]
    cases s.draft with
    | none => exact le_rfl
    | some d =>
      show (if s.cfg.secureClearEnabled then s.lineCapacity else 1) ≤ s.lineCapacity
      split_ifs
      · exact le_rfl
      · exact hpos
  behind := fun _ hbelow =>
    have hline := hbelow.head
    have hdraft := hbelow.tail.head
    (SameBehind.eraseLine hline).trans (.eraseDraft hdraft)

/-- Emptying the line and wiping the draft. -/
theorem recorded_clear (h : s.Wf) :
    Recorded [⟨.line, if s.cfg.secureClearEnabled then s.lineCapacity else 1⟩,
      ⟨.draft, if s.draft.isSome ∧ s.cfg.secureClearEnabled then s.lineCapacity else 0⟩] s
        s.eraseLine.wipeDraft where
  within := by
    refine below_two h.eraseLine_le ?_
    rw [Shell.reach]
    dsimp only
    split_ifs with hboth hdraft hdraft
    · exact le_rfl
    · exact absurd hboth.1 hdraft
    · exact Nat.zero_le _
    · exact le_rfl
  behind := fun _ hbelow =>
    have hline := hbelow.head
    have hdraft := hbelow.tail.head
    (SameBehind.eraseLine hline).trans (.wipeDraft hdraft)

/-- Writing a history entry. -/
theorem recorded_storeEntry (h : s.Wf) (hdepth : s.historyDepth ≠ 0) (line : CStr) :
    Recorded [⟨.history, newestStop s 0⟩,
      ⟨.history, slotAt s (targetSlot s) + slotLength s line + 1⟩] s (s.storeEntry line) where
  within := by
    refine below_two (h.newestStop_le 0) ?_
    have henabled := h.history.enabled hdepth
    have hlen := slotLength_lt henabled.slot_pos line
    have hslot : targetSlot s + 1 ≤ s.historyDepth := henabled.bounded.target_lt
    have hmul := Nat.mul_le_mul_right s.historySlotSize hslot
    rw [Nat.succ_mul] at hmul
    rw [Shell.reach, if_pos henabled.storage]
    dsimp only
    rw [slotAt]
    omega
  behind := fun _ hbelow => .storeEntry hbelow.tail.head

end Shell.Wf

/-- The accesses of `move_history`. -/
def walkLog (s : Shell) (direction : ℤ) : List Access :=
  let stepped := (if s.historyView < 0 then s.saveDraft else s).stepView direction
  (if s.historyView < 0 then
      [⟨.line, s.lineLen⟩, ⟨.draft, min s.lineLen (s.lineCapacity - 1) + 1⟩]
    else []) ++
  [if stepped.historyView < 0 then ⟨.draft, stepped.recalled.length + 1⟩
    else ⟨.history, newestStop stepped stepped.historyView.toNat⟩,
    ⟨.line, min stepped.recalled.length (stepped.lineCapacity - 1) + 1⟩]

/-- They are what is recorded. -/
theorem touchWalk_accesses {ω : Type} (st : Sys ω) (direction : ℤ) :
    (touchWalk st direction).accesses = st.accesses ++ walkLog st.sh direction := by
  unfold touchWalk walkLog
  dsimp only
  split_ifs <;> simp [Sys.touch]

/-- The shell whose line is replaced when the history is walked. -/
private theorem walk_eq (s : Shell) (direction : ℤ) :
    s.walk direction =
      ((if s.historyView < 0 then s.saveDraft else s).stepView direction).setLine
        ((if s.historyView < 0 then s.saveDraft else s).stepView direction).recalled := rfl

/-- Saving the line to the draft and moving the position. -/
private theorem Shell.Wf.recorded_stepView {s : Shell} (h : s.Wf) (hcount : s.historyCount ≠ 0)
    (direction : ℤ) :
    Recorded (if s.historyView < 0 then
      [⟨.line, s.lineLen⟩, ⟨.draft, min s.lineLen (s.lineCapacity - 1) + 1⟩] else []) s
      ((if s.historyView < 0 then s.saveDraft else s).stepView direction) := by
  obtain ⟨hdepth, hdraft⟩ := h.reach_draft hcount
  have hlt := h.lineLen_lt
  split_ifs
  · have hsaved : Recorded [⟨.line, s.lineLen⟩,
        ⟨.draft, min s.lineLen (s.lineCapacity - 1) + 1⟩] s s.saveDraft := by
      refine ⟨below_two h.lineLen_le_reach ?_,
        fun _ hbelow => .saveDraft hbelow.tail.head⟩
      show min s.lineLen (s.lineCapacity - 1) + 1 ≤ s.reach .draft
      omega
    exact hsaved.keeping rfl rfl rfl rfl
  · exact .nothing rfl rfl rfl rfl

/-- Replacing the line by the one at the history position. -/
private theorem Shell.Wf.recorded_recalled {s : Shell} (h : s.Wf) (hdepth : s.historyDepth ≠ 0) :
    Recorded [if s.historyView < 0 then ⟨.draft, s.recalled.length + 1⟩
      else ⟨.history, newestStop s s.historyView.toNat⟩,
      ⟨.line, min s.recalled.length (s.lineCapacity - 1) + 1⟩] s (s.setLine s.recalled) where
  within := by
    have hlt := h.lineLen_lt
    refine below_two ?_ ?_
    · split_ifs with hview
      · obtain ⟨d, hd, -, hzero⟩ := h.draft hdepth
        have hlen := Mem.length_upto_lt hzero
        have hreach : s.reach .draft = s.lineCapacity := if_pos (by rw [hd]; rfl)
        dsimp only
        rw [hreach, Shell.recalled, if_pos hview, hd, CStr.length, CStr.at_bytes, List.drop_zero,
          Option.getD_some]
        exact hlen
      · exact h.newestStop_le _
    · show min s.recalled.length (s.lineCapacity - 1) + 1 ≤ s.lineCapacity
      omega
  behind := fun _ hbelow => .setLine hbelow.tail.head

/-- **Moving in the history.** -/
theorem Shell.Wf.recorded_walk {s : Shell} (h : s.Wf) (hcount : s.historyCount ≠ 0)
    (direction : ℤ) : Recorded (walkLog s direction) s (s.walk direction) := by
  have hdepth := (h.reach_draft hcount).1
  have hstepped := h.recorded_stepView hcount direction
  have hwf : ((if s.historyView < 0 then s.saveDraft else s).stepView direction).Wf := by
    split_ifs
    · exact h.saveDraft.stepView direction
    · exact h.stepView direction
  have hsame : ((if s.historyView < 0 then s.saveDraft else s).stepView direction).historyDepth =
      s.historyDepth ∧
      ((if s.historyView < 0 then s.saveDraft else s).stepView direction).reach = s.reach := by
    split_ifs
    · refine ⟨rfl, funext fun b => ?_⟩
      cases b with
      | draft => exact congrArg (fun b => if b then s.lineCapacity else 0) Option.isSome_map
      | _ => rfl
    · exact ⟨rfl, funext fun b => by cases b <;> rfl⟩
  rw [walk_eq]
  exact hstepped.trans hsame.2 (hwf.recorded_recalled (by rw [hsame.1]; exact hdepth))

end PortableShell
