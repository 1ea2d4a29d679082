import PortableShell.HistoryList
import PortableShell.MaskedHistory

set_option relaxedAutoImplicit false
set_option autoImplicit false

/-!
# Neighbouring history entries

`sh_history_add_internal` compares a new line with the newest entry before it cuts the line to a
slot. An entry is longer than a slot only when masking made it longer than the line that was
executed; then the comparison is with a text that was not cut, and the same entry can be stored
twice in a row.

## Main definitions

* `PortableShell.NoRepeats` — no two neighbouring entries are equal.
* `PortableShell.StoresDistinct` — what a slot takes of a line is not the newest entry.
* `PortableShell.RunDistinct` — this holds of every line that a run records.

## Main results

* `PortableShell.noRepeats_shHistoryAddInternal_iff` — the exact condition for one line.
* `PortableShell.noRepeats_run` — a run under this condition never has equal neighbours.
-/

namespace PortableShell

open Relation

variable {ω : Type}

/-! ## Recording a line -/

/-- No two neighbouring entries are equal. -/
def NoRepeats (s : Shell) : Prop :=
  ∀ i, i + 1 < shHistoryCount s → shHistoryGetNewest s i ≠ shHistoryGetNewest s (i + 1)

/-- The same of the list of entries. -/
private theorem HistoryWf.noRepeats_iff {s : Shell} (h : HistoryWf s) :
    NoRepeats s ↔ s.entries.IsChain (· ≠ ·) := by
  unfold NoRepeats
  rw [List.isChain_iff_getElem, shHistoryCount, ← h.length_entries]
  refine forall_congr' fun i => ⟨fun hne hi heq => hne hi ?_, fun hne hi heq => hne hi ?_⟩
  · rw [h.getNewest_eq, h.getNewest_eq, List.getElem?_eq_getElem hi,
      List.getElem?_eq_getElem (by omega), heq]
  · rw [h.getNewest_eq, h.getNewest_eq, List.getElem?_eq_getElem hi,
      List.getElem?_eq_getElem (by omega)] at heq
    exact Option.some.inj heq

/-- What a slot takes of a line differs from the newest entry, unless the line fits the slot or
there is one slot only. -/
def StoresDistinct (s : Shell) (line : CStr) : Prop :=
  line.length < s.historySlotSize ∨
    shHistoryGetNewest s 0 ≠ some (line.take (s.historySlotSize - 1)) ∨ s.historyDepth ≤ 1

/-- **Recording a line** leaves no equal neighbours exactly under this condition.

**Proof sketch.** A line that is not added leaves the entries and has room in a slot. One that is
added is cut and put in front of them, so the only new neighbours are the cut line and the newest
entry. -/
theorem noRepeats_shHistoryAddInternal_iff {st : Sys ω} (h : HistoryWf st.sh)
    (hdepth : st.sh.historyDepth ≠ 0) (hrepeats : NoRepeats st.sh) (line : CStr) :
    NoRepeats (shHistoryAddInternal st line).sh ↔ StoresDistinct st.sh line := by
  have hslot := (h.enabled hdepth).slot_pos
  have hhead : shHistoryGetNewest st.sh 0 = st.sh.entries.head? := by
    rw [h.getNewest_eq, List.head?_eq_getElem?]
  rw [h.noRepeats_iff] at hrepeats
  rw [(h.shHistoryAddInternal line).noRepeats_iff, entries_shHistoryAddInternal h, addEntry,
    take_slotLength, StoresDistinct, hhead]
  by_cases hskip : line.isEmpty ∨ st.sh.historyDepth = 0 ∨ st.sh.entries.head? = some line
  · -- a line that is not added has room in a slot
    rw [if_pos hskip]
    refine ⟨fun _ => .inl ?_, fun _ => hrepeats⟩
    rcases hskip with hempty | h0 | hnewest
    · have hnil : line.bytes = [] := by simpa [CStr.isEmpty] using hempty
      rwa [CStr.length, hnil]
    · exact absurd h0 hdepth
    · exact h.length_getNewest_lt (hhead.trans hnewest)
  · rw [if_neg hskip]
    have hnew : st.sh.entries.head? ≠ some line := fun heq => hskip (.inr (.inr heq))
    by_cases hone : st.sh.historyDepth ≤ 1
    · obtain hone : st.sh.historyDepth = 1 := by omega
      simp [hone]
    · obtain ⟨depth, hd⟩ := Nat.exists_eq_add_of_le' (show 2 ≤ st.sh.historyDepth by omega)
      have hchain : ((line.take (st.sh.historySlotSize - 1) :: st.sh.entries).take
          st.sh.historyDepth).IsChain (· ≠ ·) ↔
          st.sh.entries.head? ≠ some (line.take (st.sh.historySlotSize - 1)) := by
        cases hentries : st.sh.entries with
        | nil => simp [hd]
        | cons entry entries =>
          rw [hentries] at hrepeats
          rw [hd, List.take_succ_cons, List.take_succ_cons, List.isChain_cons_cons,
            ← List.take_succ_cons, List.head?_cons]
          exact ⟨fun hne heq => hne.1 (Option.some.inj heq).symm,
            fun hne => ⟨fun heq => hne (congrArg some heq.symm), hrepeats.take _⟩⟩
      rw [hchain]
      refine ⟨fun hne => .inr (.inl hne), ?_⟩
      rintro (hfits | hne | hle)
      · have hwhole : line.take (st.sh.historySlotSize - 1) = line := by
          refine CStr.ext ?_
          rw [CStr.take_bytes, List.take_of_length_le (by rw [CStr.length] at hfits; omega)]
        rwa [hwhole]
      · exact hne
      · exact absurd hle hone

/-! ## What does not record -/

/-- The entries are those of another shell, or gone. -/
def Fades (s s' : Shell) : Prop := s'.entries = s.entries ∨ s'.entries = []

namespace Fades

/-- Entries fade over two changes. -/
theorem trans {a b c : Shell} (h : Fades a b) (k : Fades b c) : Fades a c := by
  rcases k with k | k
  · rcases h with h | h
    · exact .inl (k.trans h)
    · exact .inr (k.trans h)
  · exact .inr k

/-- The same history has the same entries. -/
theorem of_same {s s' : Shell} (h : SameHistory s s') : Fades s s' := .inl h.entries_eq

/-- Application code clears the history at most. -/
private theorem of_app {s s' : Shell} (h : ReflTransGen ShellStep s s') : Fades s s' := by
  refine keeps_of_steps (T := ShellStep) (fun a b hstep hs => hs.trans ?_) h (.inl rfl)
  cases hstep with
  | clear => exact .inr (entries_clearHistory _)
  | commands l =>
    rcases shRegisterCommands_cases a l with hc | ⟨e, -, hc⟩ <;> rw [hc] <;>
      exact .of_same ⟨rfl, rfl, rfl, rfl, rfl⟩
  | commandSets l =>
    rcases shRegisterCommandSets_cases a l with hc | ⟨e, -, hc⟩ <;> rw [hc] <;>
      exact .of_same ⟨rfl, rfl, rfl, rfl, rfl⟩
  | _ => exact .of_same ⟨rfl, rfl, rfl, rfl, rfl⟩

/-- Entries without equal neighbours stay so. -/
theorem noRepeats {s s' : Shell} (h : Fades s s') (hwf : HistoryWf s) (hwf' : HistoryWf s')
    (hrepeats : NoRepeats s) : NoRepeats s' := by
  rw [hwf.noRepeats_iff] at hrepeats
  rw [hwf'.noRepeats_iff]
  rcases h with h | h <;> rw [h]
  · exact hrepeats
  · exact .nil

end Fades

section Fades

variable (env : Env ω)

/-- A walk through the history leaves it alone. -/
private theorem fades_moveHistory (st : Sys ω) (direction : ℤ) :
    Fades st.sh (moveHistory env st direction).sh := by
  rw [moveHistory]
  split_ifs with h
  · exact .inl rfl
  · rw [shRedrawLineInternal_sh, Sys.modify_sh, touchWalk_sh]
    exact .of_same (Shell.sameHistory_walk st.sh direction)

/-- So does an escape key. -/
private theorem fades_handleEscapeKey (st : Sys ω) (key : AnsiEvent) :
    Fades st.sh (handleEscapeKey env st key).sh := by
  cases key with
  | none => exact .inl rfl
  | up => exact fades_moveHistory env st _
  | down => exact fades_moveHistory env st _
  | delete =>
    rw [handleEscapeKey, deleteAtCursor]
    split_ifs with h
    · exact .inl rfl
    · rw [shRedrawLineInternal_sh]
      exact .inl rfl
  | _ =>
    rw [handleEscapeKey]
    split_ifs
    · rw [shRedrawLineInternal_sh]
      exact .inl rfl
    · exact .inl rfl

/-- What is made of the matches found leaves the history alone or runs providers. -/
private theorem fades_completeMatches (st : Sys ω) (level : CompletionLevel) (pre : CStr)
    (start stop : ℕ) (m : Matches) :
    Fades st.sh (completeMatches env st level pre start stop m).1.sh := by
  have hreplace : ∀ replacement b,
      Fades st.sh (replaceToken env st start stop replacement b).1.sh := by
    intro replacement b
    rw [replaceToken]
    dsimp only
    split_ifs
    · exact .inl rfl
    · exact .inl rfl
    · rw [shRedrawLineInternal_sh]
      exact .inl rfl
  rw [completeMatches]
  split_ifs
  · exact .inl rfl
  · exact hreplace _ _
  · exact hreplace _ _
  · exact .of_app (printMatches_app env _ _ _ _)

/-- Completion runs providers. -/
private theorem fades_shCompleteLineInternal (st : Sys ω) :
    Fades st.sh (shCompleteLineInternal env st).1.sh := by
  rw [shCompleteLineInternal]
  dsimp only
  split_ifs
  · exact .inl rfl
  · exact .inl rfl
  · cases descend (st.touch .line st.sh.lineLen).sh (rootLevel (st.touch .line st.sh.lineLen).sh)
      ((st.touch .line st.sh.lineLen).sh.tokensBefore
        (shTokenize (st.sh.line.take st.sh.cursor ++ [0]) st.sh.argvCapacity).texts) with
    | none => exact .inl rfl
    | some level =>
      exact (Fades.of_app (scanLoop_app env level _ _ _ (st.touch .line st.sh.lineLen) _)).trans
        (fades_completeMatches env _ _ _ _ _ _)

/-- A byte that does not submit leaves the history alone or runs providers.

**Proof sketch.** One case per meaning of the byte. Editing leaves the history alone, and Tab may
run providers, which clear it or leave it alone. -/
private theorem fades_editByte (st : Sys ω) {byte : Byte} (h : isTerminator byte = false) :
    Fades st.sh (editByte env st byte).1.sh := by
  have hcase := editByte_cases env st byte
  generalize editByte env st byte = r at hcase ⊢
  cases hcase with
  | enter hbyte =>
    rw [show isTerminator byte = true by simpa [isTerminator] using hbyte] at h
    cases h
  | backspace =>
    rw [backspace]
    split_ifs
    · exact .inl rfl
    · rw [shRedrawLineInternal_sh]
      exact .inl rfl
  | complete => exact fades_shCompleteLineInternal env st
  | cancel => exact .inl rfl
  | redraw =>
    rw [shRedrawLineInternal_sh, writeInternal_sh]
    exact .inl rfl
  | clear =>
    rw [clearInputLine, shRedrawLineInternal_sh]
    refine .of_same ?_
    unfold Sys.modify Shell.wipeDraft
    dsimp only
    split_ifs <;> exact ⟨rfl, rfl, rfl, rfl, rfl⟩
  | word =>
    rw [deleteWordLeft]
    dsimp only
    split_ifs
    · exact .inl rfl
    · rw [shRedrawLineInternal_sh]
      exact .inl rfl
  | char _ =>
    rw [insertChar]
    split_ifs
    · exact .inl rfl
    · rw [echoInserted_sh]
      exact .inl rfl
  | ignored => exact .inl rfl

end Fades

/-! ## Executed lines -/

section Run

variable (env : Env ω)

/-- What a slot takes of the history line, if one is built, differs from the newest entry. -/
def LineDistinct (s : Shell) (line : CStr) : Prop :=
  ∀ argv, lineArgv s line = some argv →
    ∀ built, buildHistoryLine env s line argv = some built → StoresDistinct s built

/-- The line that a byte submits, if it submits one, is of this kind. -/
def ByteDistinct (s : Shell) (byte : Byte) : Prop :=
  isTerminator byte = true → ¬(byte = chr '\n' ∧ s.lastInputWasCr = true) → s.ansi.state ≠ .csi →
    LineDistinct env s s.execText

/-- So are the lines that a block of input submits. -/
def InputDistinct : Sys ω → List Byte → Prop
  | _, [] => True
  | st, byte :: data =>
    ByteDistinct env st.sh byte ∧ InputDistinct (shInputByte env st byte).1 data

/-- So are the lines that a call submits. -/
def Op.Distinct (st : Sys ω) : Op ω → Prop
  | .inputByte byte => ByteDistinct env st.sh byte
  | .input data => InputDistinct env st data
  | .executeLine line => LineDistinct env st.sh line
  | _ => True

/-- So are all lines of a run. -/
def RunDistinct : Sys ω → List (Op ω) → Prop
  | _, [] => True
  | st, op :: ops => op.Distinct env st ∧ RunDistinct (op.apply env st).1 ops

variable {env}

/-- Executing such a line leaves no equal neighbours.

**Proof sketch.** The line is recorded under `StoresDistinct`, which keeps neighbours apart, and
dispatching it leaves the history alone or clears it. -/
theorem LineDistinct.noRepeats {st : Sys ω} {line : CStr} (h : LineDistinct env st.sh line)
    (hwf : st.sh.Wf) (hrepeats : NoRepeats st.sh) :
    NoRepeats (shExecuteLine env st line).1.sh := by
  have hfinal : (shExecuteLine env st line).1.sh.Wf :=
    hwf.steps (Steps.edit (EditSteps.exec (shExecuteLine_steps env st line)))
  cases hargv : lineArgv st.sh line with
  | none =>
    exact (Fades.of_same (sameHistory_of_lineArgv_none hargv)).noRepeats hwf.history
      hfinal.history hrepeats
  | some argv =>
    have hset : SameHistory st.sh (st.sh.setArgv argv) := ⟨rfl, rfl, rfl, rfl, rfl⟩
    have hstored : (st.sh.setArgv argv).Wf := hwf.steps (.single (.edit (.exec (.argv st.sh argv))))
    have hset' : NoRepeats (st.sh.setArgv argv) :=
      (Fades.of_same hset).noRepeats hwf.history hstored.history hrepeats
    -- recording the line keeps neighbours apart
    have hrecorded : NoRepeats (beforeDispatch env st line argv).sh ∧
        (beforeDispatch env st line argv).sh.Wf := by
      refine ⟨?_, ?_⟩
      · unfold beforeDispatch recordLine
        generalize htouch : (st.touch .argv _).modify (·.setArgv argv) = stored
        have hsh : stored.sh = st.sh.setArgv argv := by rw [← htouch]; rfl
        rw [hsh]
        cases hbuilt : buildHistoryLine env (st.sh.setArgv argv) line argv with
        | none =>
          rw [hsh]
          exact hset'
        | some built =>
          have hdistinct : StoresDistinct st.sh built := h argv hargv built hbuilt
          by_cases hdepth : st.sh.historyDepth = 0
          · have hsame : (shHistoryAddInternal stored built).sh = stored.sh := by
              rw [shHistoryAddInternal_sh, if_pos (.inr (.inr (.inl (by rw [hsh]; exact hdepth))))]
            rw [hsame, hsh]
            exact hset'
          · rw [← hsh] at hset' hstored
            refine (noRepeats_shHistoryAddInternal_iff hstored.history ?_ hset' built).mpr ?_
            · rw [hsh]
              exact hdepth
            · rw [hsh]
              exact hdistinct
      · exact hstored.steps (Steps.edit (EditSteps.exec (recordLine_steps env _ line argv)))
    -- what the dispatch runs clears the history at most
    have hdispatch : Fades (beforeDispatch env st line argv).sh
        (shExecuteLine env st line).1.sh := by
      rw [shExecuteLine_eq env hargv]
      exact (Fades.of_app (dispatch_steps env (beforeDispatch env st line argv) argv)).trans
        (.of_same (Shell.sameHistory_wipeArgv _))
    exact hdispatch.noRepeats hrecorded.2.history hfinal.history hrecorded.1

/-- The decoder plays no part in what is recorded. -/
theorem LineDistinct.fed {s : Shell} {line : CStr} (h : LineDistinct env s line) (byte : Byte) :
    LineDistinct env (s.fed byte) line := by
  intro argv hargv built hbuilt
  rw [← Shell.buildHistoryLine_core, Shell.core_fed, Shell.buildHistoryLine_core] at hbuilt
  exact h argv hargv built hbuilt

/-- A byte that submits such a line, or none, leaves no equal neighbours.

**Proof sketch.** One case per branch of `sh_input_byte`. Only a terminator outside of an escape
sequence executes a line, and that one is distinct by hypothesis. -/
theorem ByteDistinct.noRepeats {st : Sys ω} {byte : Byte} (h : ByteDistinct env st.sh byte)
    (hwf : st.sh.Wf) (hrepeats : NoRepeats st.sh) : NoRepeats (shInputByte env st byte).1.sh := by
  have hfinal : (shInputByte env st byte).1.sh.Wf := hwf.steps (shInputByte_steps env st byte)
  have hfed : (st.modify (·.fed byte)).sh.Wf := hwf.fed byte
  have hsame : SameHistory st.sh (st.sh.fed byte) := ⟨rfl, rfl, rfl, rfl, rfl⟩
  revert hfinal
  rw [shInputByte]
  split_ifs with hpair
  · have hflag : SameHistory st.sh (st.modify (·.setLastInputWasCr false)).sh :=
      ⟨rfl, rfl, rfl, rfl, rfl⟩
    exact fun hfinal => (Fades.of_same hflag).noRepeats hwf.history hfinal.history hrepeats
  · rw [feedByte]
    split_ifs with hevent hconsumed
    · exact fun hfinal => ((Fades.of_same hsame).trans
        (fades_handleEscapeKey env (st.modify (·.fed byte)) _)).noRepeats hwf.history
          hfinal.history hrepeats
    · exact fun hfinal => (Fades.of_same hsame).noRepeats hwf.history hfinal.history hrepeats
    · intro hfinal
      cases hterm : isTerminator byte with
      | false =>
        exact ((Fades.of_same hsame).trans
          (fades_editByte env (st.modify (·.fed byte)) hterm)).noRepeats hwf.history
            hfinal.history hrepeats
      | true =>
        have hcsi : st.sh.ansi.state ≠ .csi := by
          intro hs
          rw [shAnsiLastByteConsumed, shAnsiFeed_of_csi byte hs] at hconsumed
          exact hconsumed rfl
        have hline : LineDistinct env (enterLine env (st.modify (·.fed byte))).sh st.sh.execText :=
          (h hterm hpair hcsi).fed byte
        have hfades := (Fades.of_same hsame).noRepeats hwf.history hfed.history hrepeats
        have hexec := hline.noRepeats hfed hfades
        have hbyte : byte = chr '\r' ∨ byte = chr '\n' := by simpa [isTerminator] using hterm
        have hedit : (editByte env (st.modify (·.fed byte)) byte).1.sh =
            (shExecuteLine env (enterLine env (st.modify (·.fed byte)))
              st.sh.execText).1.sh.eraseLine.eraseDraft := by
          rw [editByte, if_pos hbyte, handleEnter_eq hfed]
          rfl
        have hexecuted : (shExecuteLine env (enterLine env (st.modify (·.fed byte)))
            st.sh.execText).1.sh.Wf :=
          hfed.steps (Steps.edit (EditSteps.exec
            (shExecuteLine_steps env (enterLine env (st.modify (·.fed byte))) st.sh.execText)))
        have hleft : Fades (shExecuteLine env (enterLine env (st.modify (·.fed byte)))
            st.sh.execText).1.sh (editByte env (st.modify (·.fed byte)) byte).1.sh := by
          rw [hedit]
          exact .of_same (Shell.sameHistory_erase _)
        exact hleft.noRepeats hexecuted.history hfinal.history hexec

/-- A block of input that submits such lines leaves no equal neighbours. -/
theorem InputDistinct.noRepeats {st : Sys ω} {data : List Byte} (h : InputDistinct env st data)
    (hwf : st.sh.Wf) (hrepeats : NoRepeats st.sh) : NoRepeats (shInput env st data).1.sh := by
  rw [shInput_fst]
  induction data generalizing st with
  | nil => exact hrepeats
  | cons byte data ih =>
    exact ih h.2 (hwf.steps (shInputByte_steps env st byte)) (h.1.noRepeats hwf hrepeats)

/-- **A call** that submits such lines leaves no equal neighbours. -/
theorem Op.Distinct.noRepeats {st : Sys ω} {op : Op ω} (h : op.Distinct env st) (hwf : st.sh.Wf)
    (hrepeats : NoRepeats st.sh) : NoRepeats (op.apply env st).1.sh := by
  have hfinal : (op.apply env st).1.sh.Wf := hwf.steps (apply_steps env st op)
  cases op with
  | inputByte byte => exact ByteDistinct.noRepeats h hwf hrepeats
  | input data => exact InputDistinct.noRepeats h hwf hrepeats
  | executeLine line => exact LineDistinct.noRepeats h hwf hrepeats
  | executeArgv argv =>
    have hfades : Fades st.sh (shExecuteArgv env st argv).1.sh := by
      rw [shExecuteArgv]
      split_ifs
      · exact .inl rfl
      · exact .of_app (dispatch_steps env st argv)
    exact hfades.noRepeats hwf.history hfinal.history hrepeats
  | api call =>
    exact (Fades.of_app (runCall_steps env st call)).noRepeats hwf.history hfinal.history hrepeats
  | prompt => exact hrepeats

/-- **No two neighbouring history entries are equal**, after every run from `sh_init` that records
no line whose cut is the newest entry. -/
theorem noRepeats_run {cfg : Option Config} {storage : Storage} {s : Shell}
    (hsized : storage.Sized) (hinit : shInit cfg storage = .ok s) (io : ω) {ops : List (Op ω)}
    (hdistinct : RunDistinct env ⟨s, io, [], []⟩ ops) :
    NoRepeats (run env ⟨s, io, [], []⟩ ops).sh := by
  have hwf : s.Wf := shInit_wf hsized hinit
  have hstart : NoRepeats s := by
    intro i hi
    rw [(shInit_eq_ok hinit).1] at hi
    exact absurd hi (Nat.not_lt_zero _)
  have hrun : ∀ (ops : List (Op ω)) (st : Sys ω), RunDistinct env st ops → st.sh.Wf →
      NoRepeats st.sh → NoRepeats (run env st ops).sh := by
    intro ops
    induction ops with
    | nil => exact fun _ _ _ hst => hst
    | cons op ops ih =>
      exact fun st h hst hrepeats =>
        ih _ h.2 (hst.steps (apply_steps env st op)) (h.1.noRepeats hst hrepeats)
  exact hrun ops ⟨s, io, [], []⟩ hdistinct hwf hstart

end Run

/-- Two short lines. -/
theorem noRepeats_run_small :
    NoRepeats (run idleEnv ⟨smallShell, (), [], []⟩
      [.executeLine (str "help"), .executeLine (str "history")]).sh := by
  refine noRepeats_run smallStorage_sized shInit_small () ⟨?_, ?_, trivial⟩
  · intro argv hargv built hbuilt
    obtain rfl := Option.some.inj
      ((show lineArgv smallShell (str "help") = some [str "help"]
        by decide +kernel).symm.trans hargv)
    obtain rfl := Option.some.inj ((show buildHistoryLine idleEnv smallShell (str "help")
      [str "help"] = some (str "help") by decide +kernel).symm.trans hbuilt)
    exact .inl (by decide)
  · intro argv hargv built hbuilt
    let st := (shExecuteLine idleEnv ⟨smallShell, (), [], []⟩ (str "help")).1
    obtain rfl := Option.some.inj
      ((show lineArgv st.sh (str "history") = some [str "history"]
        by decide +kernel).symm.trans hargv)
    obtain rfl := Option.some.inj ((show buildHistoryLine idleEnv st.sh (str "history")
      [str "history"] = some (str "history") by decide +kernel).symm.trans hbuilt)
    exact .inl (by decide +kernel)

/-- A masked line that is longer than a slot once it is rebuilt is stored twice in a row. -/
theorem not_noRepeats_login :
    let st := run loginEnv (loginSys (str "")) [.executeLine (str "login a b"),
      .executeLine (str "login a b")]
    Reachable loginEnv st ∧ ¬NoRepeats st.sh := by
  refine ⟨((loginSys_reachable _).apply (.executeLine _)).apply (.executeLine _), fun h => ?_⟩
  exact h 0 (by decide +kernel) (by decide +kernel)

end PortableShell
