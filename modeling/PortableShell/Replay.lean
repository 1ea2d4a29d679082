import Mathlib.Data.List.Destutter
import PortableShell.Keys

set_option relaxedAutoImplicit false
set_option autoImplicit false

/-!
# Replaying the history

A line that was executed in the open is recorded as it was typed. Walking back in the history
copies an entry into the editor, and Enter executes the copy. So what is dispatched then is what
was dispatched at first, as long as the walk reaches the entry.

## Main definitions

* `PortableShell.PlainLine` — a line with nothing in it that is kept from the history.
* `PortableShell.Session` — a run that executes such lines, with a log of what was dispatched.
* `PortableShell.Browsing` — a system after a number of presses of the Up key.

## Main results

* `PortableShell.Session.entries_eq` — the history holds the lines of the log, duplicates
  collapsed.
* `PortableShell.Browsing.up` — one more press shows the next older entry.
* `PortableShell.replay_dispatches` — a replayed line is dispatched as it was.
-/

namespace PortableShell

variable {ω : Type}

/-! ## Runs of equal values -/

section Destutter

variable {α : Type} [DecidableEq α]

/-- Collapsing runs of equal values keeps the first value. -/
private theorem head?_destutter (l : List α) : (l.destutter (· ≠ ·)).head? = l.head? := by
  cases l with
  | nil => rfl
  | cons a l =>
    rw [List.destutter_cons', List.head?_cons]
    induction l with
    | nil => rfl
    | cons b l ih =>
      rw [List.destutter'_cons]
      split_ifs
      · rfl
      · exact ih

/-- A further value is dropped when it is equal to the first one. -/
private theorem destutter_cons (a : α) (l : List α) :
    (a :: l).destutter (· ≠ ·) =
      if l.head? = some a then l.destutter (· ≠ ·) else a :: l.destutter (· ≠ ·) := by
  cases l with
  | nil => rfl
  | cons b l =>
    rw [List.destutter_cons_cons, List.head?_cons, List.destutter_cons']
    by_cases hab : a = b
    · subst hab
      simp
    · rw [if_pos hab, if_neg fun h => hab (Option.some.inj h).symm]

/-- The same where only the first values are kept. -/
private theorem take_destutter_cons (a : α) (l : List α) {n : ℕ} (hn : n ≠ 0) :
    ((a :: l).destutter (· ≠ ·)).take n =
      if ((l.destutter (· ≠ ·)).take n).head? = some a then (l.destutter (· ≠ ·)).take n
      else (a :: (l.destutter (· ≠ ·)).take n).take n := by
  obtain ⟨n, rfl⟩ := Nat.exists_eq_succ_of_ne_zero hn
  have hhead : ((l.destutter (· ≠ ·)).take (n + 1)).head? = l.head? := by
    rw [← head?_destutter l]
    cases l.destutter (· ≠ ·) <;> rfl
  rw [hhead, destutter_cons]
  split_ifs
  · rfl
  · rw [List.take_succ_cons, List.take_succ_cons, List.take_take, Nat.min_eq_left (Nat.le_succ n)]

end Destutter

/-! ## What is dispatched -/

/-- A call of `sh_command_dispatch_internal`. -/
def dispatchCall : Event → Option (List CStr)
  | .dispatch argv => some argv
  | _ => none

/-- Output is no such call. -/
private theorem dispatchCall_ignoresOutput : IgnoresOutput dispatchCall :=
  ⟨fun _ => rfl, fun _ => rfl⟩

/-- The argument vectors that `sh_command_dispatch_internal` was called with so far. -/
def dispatchCalls (st : Sys ω) : List (List CStr) := st.observe dispatchCall

/-- What is logged when a line is executed: the line and the argument vector dispatched. -/
def dispatchedBy (s : Shell) (line : CStr) : List (CStr × List CStr) :=
  match lineArgv s line with
  | none => []
  | some argv => [(line, argv)]

/-- A dispatch calls no other one. -/
private theorem lineObserved_dispatchCall (s : Shell) (line : CStr) :
    lineObserved dispatchCall s (lineArgv s line) = (dispatchedBy s line).map Prod.snd := by
  have hplan : ∀ p : Plan, p.observed dispatchCall = [] := by
    intro p
    cases p <;> rfl
  unfold dispatchedBy
  cases lineArgv s line with
  | none => rfl
  | some argv =>
    show [argv] ++ (plan s argv).observed dispatchCall = _
    rw [hplan]
    rfl

variable (env : Env ω)

/-- The Enter key dispatches what is logged for the line in the editor. -/
private theorem dispatchCalls_handleEnter {st : Sys ω} (hwf : st.sh.Wf) :
    dispatchCalls (handleEnter env st).1 =
      dispatchCalls st ++ (dispatchedBy st.sh st.sh.execText).map Prod.snd := by
  have hshort : st.sh.lineLen < shMaxLineLen + 1 := lt_of_lt_of_le hwf.lineLen_lt hwf.capacity_le
  have hobserve := observe_handleEnter env dispatchCall_ignoresOutput st
  rw [if_pos hshort, lineObserved_dispatchCall] at hobserve
  refine hobserve.trans ?_
  show _ ++ [] ++ _ = _
  rw [List.append_nil]
  rfl

/-! ## Lines that are recorded as they are -/

/-- The tokens of a line. -/
def lineTokens (s : Shell) (line : CStr) : List CStr :=
  (shTokenize (line.bytes ++ [0]) s.argvCapacity).texts

/-- The line fits and is tokenized, its command is neither sensitive nor kept out of the history,
and the application masks none of its tokens. -/
structure PlainLine (s : Shell) (line : CStr) : Prop where
  fits : line.length ≤ s.cfg.lineMax
  tokenized : (shTokenize (line.bytes ++ [0]) s.argvCapacity).status = Status.ok
  open_command : ∀ cmd ∈ (shResolveCommandInternal s (lineTokens s line)).cmd,
    cmd.sensitive = false ∧ cmd.noHistory = false
  unmasked : ∀ f ∈ s.cfg.shouldMaskArg, ∀ i arg, (lineTokens s line)[i]? = some arg →
    env.shouldMaskArg f (shResolveCommandInternal s (lineTokens s line)).path i arg
      s.cfg.maskCtx = false

variable {env} in
/-- This depends on registry and argument capacity only. -/
theorem PlainLine.frame {s s' : Shell} {line : CStr} (h : PlainLine env s line)
    (hregistry : SameRegistry s s') (hcapacity : s'.argvCapacity = s.argvCapacity) :
    PlainLine env s' line := by
  have htokens : lineTokens s' line = lineTokens s line := by
    unfold lineTokens
    rw [hcapacity]
  have hresolve := hregistry.resolve_eq (lineTokens s line)
  constructor
  · rw [hregistry.cfg]
    exact h.fits
  · rw [hcapacity]
    exact h.tokenized
  · rw [htokens, hresolve]
    exact h.open_command
  · rw [htokens, hresolve, hregistry.cfg]
    exact h.unmasked

/-- The system in which executing a line dispatches its tokens. -/
def beforeDispatch (st : Sys ω) (line : CStr) (argv : List CStr) : Sys ω :=
  recordLine env ((st.touch .argv (shTokenize (line.bytes ++ [0])
    st.sh.argvCapacity).argv.length).modify (·.setArgv argv)) line argv

/-- What the dispatch of a line calls leaves the history alone. -/
def QuietLine (st : Sys ω) (line : CStr) : Prop :=
  ∀ argv, lineArgv st.sh line = some argv →
    SameHistory (beforeDispatch env st line argv).sh
      (shCommandDispatchInternal env (beforeDispatch env st line argv) argv).1.sh

variable {env}

/-- The argument vector of a plain line is that of its tokens. -/
theorem PlainLine.lineArgv_eq {s : Shell} {line : CStr} (h : PlainLine env s line) (hwf : s.Wf)
    (hcapacity : s.lineCapacity = s.cfg.lineMax + 1) :
    lineArgv s line = if lineTokens s line = [] then none else some (lineTokens s line) := by
  have hfits := h.fits
  have hle := hwf.capacity_le
  have hnil : (shTokenize (line.bytes ++ [0]) s.argvCapacity).argv = [] ↔
      lineTokens s line = [] := by
    unfold lineTokens TokenizeResult.texts
    rw [List.map_eq_nil_iff]
  unfold lineArgv
  rw [if_neg (by omega)]
  dsimp only
  simp only [hnil, h.tokenized, ne_eq, not_true_eq_false, false_or]
  rfl

/-- **The history line** of a plain line is the line. -/
theorem PlainLine.buildHistoryLine_eq {s : Shell} {line : CStr} (h : PlainLine env s line)
    (hshort : line.length < historyLineSize) :
    buildHistoryLine env s line (lineTokens s line) = some line := by
  have hopen : (shResolveCommandInternal s (lineTokens s line)).cmd.any Cmd.noHistory = false := by
    rw [Option.any_eq_false]
    intro cmd hcmd
    simpa using (h.open_command cmd hcmd).2
  have hmasked : ((lineTokens s line).zipIdx.any fun a => tokenMasked env s.cfg
      (shResolveCommandInternal s (lineTokens s line)) a.2 a.1) = false := by
    rw [List.any_eq_false]
    rintro ⟨arg, i⟩ hmem
    have harg : (lineTokens s line)[i]? = some arg := List.mem_zipIdx_iff_getElem?.mp hmem
    unfold tokenMasked
    rw [Bool.not_eq_true, Bool.or_eq_false_iff, Option.any_eq_false, Option.any_eq_false]
    refine ⟨fun cmd hcmd => ?_, fun f hf => ?_⟩
    · simp [(h.open_command cmd hcmd).1]
    · simpa using h.unmasked f hf i arg harg
  unfold buildHistoryLine
  dsimp only
  rw [hopen, hmasked, if_neg (by simp), if_pos rfl, if_neg (by omega)]
  exact congrArg some (CStr.ext (List.take_of_length_le le_rfl))

/-- A line with tokens is not empty. -/
private theorem isEmpty_of_lineTokens {s : Shell} {line : CStr} (h : lineTokens s line ≠ []) :
    line.isEmpty = false := by
  by_contra hempty
  have hbytes : line.bytes = [] := by simpa [CStr.isEmpty] using hempty
  refine h ?_
  unfold lineTokens TokenizeResult.texts shTokenize
  rw [hbytes]
  split_ifs <;> rfl

/-- A system in which a plain line can be executed. -/
structure Ready (st : Sys ω) : Prop where
  wf : st.sh.Wf
  capacity : st.sh.lineCapacity = st.sh.cfg.lineMax + 1

/-- Only the sizes matter for what a line is split into. -/
theorem SameSetup.lineArgv_eq {s s' : Shell} (h : SameSetup s s') (line : CStr) :
    lineArgv s' line = lineArgv s line := by
  unfold lineArgv
  rw [h.lineCapacity, h.argvCapacity]

/-- Emptying the editor leaves the history alone. -/
theorem Shell.sameHistory_erase (s : Shell) : SameHistory s s.eraseLine.eraseDraft :=
  ⟨rfl, rfl, rfl, rfl, rfl⟩

/-- A line that dispatches nothing leaves the history alone. -/
theorem sameHistory_of_lineArgv_none {st : Sys ω} {line : CStr}
    (hargv : lineArgv st.sh line = none) :
    SameHistory st.sh (shExecuteLine env st line).1.sh := by
  unfold shExecuteLine
  unfold lineArgv at hargv
  split_ifs at hargv with hlong
  · rw [if_pos hlong, writes_sh]
    exact ⟨rfl, rfl, rfl, rfl, rfl⟩
  · rw [if_neg hlong]
    dsimp only at hargv ⊢
    generalize shTokenize (line.bytes ++ [0]) st.sh.argvCapacity = r at hargv ⊢
    split_ifs at hargv with hfail
    have hset : SameHistory st.sh (st.sh.setArgv r.texts) := ⟨rfl, rfl, rfl, rfl, rfl⟩
    refine hset.trans (.trans ?_ (Shell.sameHistory_wipeArgv _))
    unfold executeTokens
    by_cases hstatus : r.status ≠ Status.ok
    · rw [if_pos hstatus, writes_sh]
      exact ⟨rfl, rfl, rfl, rfl, rfl⟩
    · rw [if_neg hstatus, if_pos (hfail.resolve_left hstatus)]
      exact ⟨rfl, rfl, rfl, rfl, rfl⟩

/-- Behind the dispatch the history is what the dispatch leaves. -/
theorem sameHistory_of_quietLine {st : Sys ω} {line : CStr} {argv : List CStr}
    (hargv : lineArgv st.sh line = some argv) (hquiet : QuietLine env st line) :
    SameHistory (beforeDispatch env st line argv).sh (shExecuteLine env st line).1.sh := by
  have hdispatch := hquiet argv hargv
  rw [shExecuteLine_eq env hargv]
  exact hdispatch.trans (Shell.sameHistory_wipeArgv _)

/-- **Executing a plain line** adds it to the history.

**Proof sketch.** A plain line has no masked argument, so it is recorded as it was typed and fits a
slot. Dispatching it leaves the history alone (`hquiet`). -/
theorem PlainLine.entries_shExecuteLine {st : Sys ω} {line : CStr} (h : PlainLine env st.sh line)
    (hready : Ready st) (hquiet : QuietLine env st line) :
    (shExecuteLine env st line).1.sh.entries =
      if lineTokens st.sh line = [] then st.sh.entries
      else if st.sh.historyDepth = 0 ∨ st.sh.entries.head? = some line then st.sh.entries
      else (line :: st.sh.entries).take st.sh.historyDepth := by
  have hfits := h.fits
  have hle := hready.wf.capacity_le
  have hcapacity := hready.capacity
  have hargv := h.lineArgv_eq hready.wf hcapacity
  by_cases hnil : lineTokens st.sh line = []
  · rw [if_pos hnil] at hargv ⊢
    exact (sameHistory_of_lineArgv_none hargv).entries_eq
  · rw [if_neg hnil] at hargv ⊢
    rw [(sameHistory_of_quietLine hargv hquiet).entries_eq]
    have hbuild : buildHistoryLine env (st.sh.setArgv (lineTokens st.sh line)) line
        (lineTokens st.sh line) = some line := by
      rw [← Shell.buildHistoryLine_core]
      show buildHistoryLine env st.sh.core line _ = _
      rw [Shell.buildHistoryLine_core]
      exact h.buildHistoryLine_eq (by unfold historyLineSize; omega)
    have hhistory : SameHistory st.sh (st.sh.setArgv (lineTokens st.sh line)) :=
      ⟨rfl, rfl, rfl, rfl, rfl⟩
    unfold beforeDispatch recordLine
    generalize hstored : (st.touch .argv _).modify (·.setArgv (lineTokens st.sh line)) = stored
    have hsh : stored.sh = st.sh.setArgv (lineTokens st.sh line) := by rw [← hstored]; rfl
    rw [hsh, hbuild]
    dsimp only
    rw [entries_shHistoryAddInternal (by rw [hsh]; exact hready.wf.history.frame hhistory), hsh,
      hhistory.entries_eq]
    unfold addEntry
    rw [isEmpty_of_lineTokens hnil]
    show (if false = true ∨ st.sh.historyDepth = 0 ∨ _ then _
      else (line.take (slotLength st.sh line) :: _).take st.sh.historyDepth) = _
    simp only [Bool.false_eq_true, false_or]
    split_ifs with hold
    · rfl
    · have hslot := hready.wf.slot_size fun h0 => hold (.inl h0)
      have hlength : slotLength st.sh line = line.length := if_neg (by omega)
      rw [hlength]
      exact congrArg (fun entry => (entry :: st.sh.entries).take st.sh.historyDepth)
        (CStr.ext (List.take_of_length_le le_rfl))

/-- The lines of a log that a history of some depth keeps: runs of equal lines are collapsed. -/
def keptLines (depth : ℕ) (log : List (CStr × List CStr)) : List CStr :=
  ((log.map Prod.fst).destutter (· ≠ ·)).take depth

/-- A history that keeps the lines of a log keeps those of the longer log after a plain line. -/
private theorem PlainLine.entries_eq_keptLines {st : Sys ω} {line : CStr}
    (h : PlainLine env st.sh line)
    (hready : Ready st) (hquiet : QuietLine env st line) {log : List (CStr × List CStr)}
    (hlog : st.sh.entries = keptLines st.sh.historyDepth log) :
    (shExecuteLine env st line).1.sh.entries =
      keptLines st.sh.historyDepth (dispatchedBy st.sh line ++ log) := by
  rw [h.entries_shExecuteLine hready hquiet, hlog]
  unfold dispatchedBy
  rw [h.lineArgv_eq hready.wf hready.capacity]
  by_cases hnil : lineTokens st.sh line = []
  · rw [if_pos hnil, if_pos hnil]
    rfl
  · rw [if_neg hnil, if_neg hnil]
    show _ = ((line :: log.map Prod.fst).destutter (· ≠ ·)).take st.sh.historyDepth
    by_cases hdepth : st.sh.historyDepth = 0
    · rw [if_pos (.inl hdepth), keptLines, hdepth, List.take_zero, List.take_zero]
    · rw [take_destutter_cons line _ hdepth]
      simp only [hdepth, false_or]
      rfl

/-! ## Sessions of plain lines -/

/-- A reachable system is ready. -/
theorem Reachable.ready {st : Sys ω} (h : Reachable env st) : Ready st := ⟨h.wf, h.lineCapacity_eq⟩

variable (env) in
/-- A run from an empty history that executes plain lines, by `sh_execute_line` or with the Enter
key, and otherwise leaves the history alone. The log has the lines with the argument vectors they
dispatched, newest first. -/
inductive Session : Sys ω → List (CStr × List CStr) → Prop
  | start {st : Sys ω} (h : Reachable env st) (hempty : shHistoryCount st.sh = 0) : Session st []
  | executeLine {st : Sys ω} {log : List (CStr × List CStr)} (h : Session st log) (line : CStr)
      (hplain : PlainLine env st.sh line) (hquiet : QuietLine env st line) :
      Session (shExecuteLine env st line).1 (dispatchedBy st.sh line ++ log)
  | enter {st : Sys ω} {log : List (CStr × List CStr)} (h : Session st log) (byte : Byte)
      (henter : shInputByte env st byte = handleEnter env (st.modify (·.fed byte)))
      (hplain : PlainLine env st.sh st.sh.execText)
      (hquiet : QuietLine env (enterLine env (st.modify (·.fed byte))) st.sh.execText) :
      Session (shInputByte env st byte).1 (dispatchedBy st.sh st.sh.execText ++ log)
  | other {st : Sys ω} {log : List (CStr × List CStr)} (h : Session st log) (op : Op ω)
      (hsame : SameHistory st.sh (op.apply env st).1.sh) : Session (op.apply env st).1 log

namespace Session

variable {st : Sys ω} {log : List (CStr × List CStr)}

/-- A session is a run of the API. -/
theorem reachable (h : Session env st log) : Reachable env st := by
  induction h with
  | start h hempty => exact h
  | executeLine h line hplain hquiet ih => exact ih.apply (.executeLine line)
  | enter h byte henter hplain hquiet ih => exact ih.apply (.inputByte byte)
  | other h op hsame ih => exact ih.apply op

/-- The log has lines that fit, with what they dispatch.

**Proof sketch.** Induction on the session. What a line is split into is logged when it is executed,
and neither the capacity nor the splitting changes in a session. -/
private theorem log_spec (h : Session env st log) :
    ∀ p ∈ log, lineArgv st.sh p.1 = some p.2 ∧ p.1.length < st.sh.lineCapacity := by
  have hdispatched : ∀ (s : Shell) (line : CStr), ∀ p ∈ dispatchedBy s line,
      lineArgv s p.1 = some p.2 ∧ p.1.length < s.lineCapacity := by
    intro s line p hp
    unfold dispatchedBy at hp
    cases hargv : lineArgv s line with
    | none =>
      rw [hargv] at hp
      exact absurd hp List.not_mem_nil
    | some argv =>
      rw [hargv] at hp
      obtain rfl := List.mem_singleton.mp hp
      refine ⟨hargv, ?_⟩
      by_contra hlong
      unfold lineArgv at hargv
      rw [if_pos (.inr (not_lt.mp hlong))] at hargv
      cases hargv
  have hkeep : ∀ {s s' : Shell} {p : CStr × List CStr}, SameSetup s s' →
      lineArgv s p.1 = some p.2 ∧ p.1.length < s.lineCapacity →
        lineArgv s' p.1 = some p.2 ∧ p.1.length < s'.lineCapacity := by
    intro s s' p hsetup hp
    rw [hsetup.lineArgv_eq, hsetup.lineCapacity]
    exact hp
  induction h with
  | start h hempty => exact fun p hp => absurd hp List.not_mem_nil
  | @executeLine st log h line hplain hquiet ih =>
    have hsetup := (apply_steps env st (.executeLine line)).sameSetup
    exact fun p hp => hkeep hsetup ((List.mem_append.mp hp).elim (hdispatched _ _ p) (ih p))
  | @enter st log h byte henter hplain hquiet ih =>
    have hsetup := (apply_steps env st (.inputByte byte)).sameSetup
    exact fun p hp => hkeep hsetup ((List.mem_append.mp hp).elim (hdispatched _ _ p) (ih p))
  | @other st log h op hsame ih =>
    have hsetup := (apply_steps env st op).sameSetup
    exact fun p hp => hkeep hsetup (ih p hp)

/-- **The history holds the lines of the log**, runs of equal lines collapsed.

**Proof sketch.** Induction on the session. A line that is executed or entered is added in front as
`keptLines` adds it, and any other call leaves the history alone. -/
theorem entries_eq (h : Session env st log) :
    st.sh.entries = keptLines st.sh.historyDepth log := by
  have hdepth : ∀ (st : Sys ω) (op : Op ω),
      (op.apply env st).1.sh.historyDepth = st.sh.historyDepth := fun st op =>
    (apply_steps env st op).sameSetup.historyDepth
  induction h with
  | @start st h hempty =>
    have hlength := h.wf.history.length_entries
    rw [show st.sh.historyCount = 0 from hempty] at hlength
    rw [List.eq_nil_of_length_eq_zero hlength]
    exact List.take_nil.symm
  | @executeLine st log h line hplain hquiet ih =>
    rw [show (shExecuteLine env st line).1.sh.historyDepth = _ from hdepth st (.executeLine line)]
    exact hplain.entries_eq_keptLines h.reachable.ready hquiet ih
  | @enter st log h byte henter hplain hquiet ih =>
    rw [show (shInputByte env st byte).1.sh.historyDepth = _ from hdepth st (.inputByte byte),
        henter]
    have hwf : (st.modify (·.fed byte)).sh.Wf := h.reachable.wf.fed byte
    have hfed : SameHistory st.sh (enterLine env (st.modify (·.fed byte))).sh :=
      ⟨rfl, rfl, rfl, rfl, rfl⟩
    have hready : Ready (enterLine env (st.modify (·.fed byte))) :=
      ⟨hwf, h.reachable.lineCapacity_eq⟩
    have hregistry : SameRegistry st.sh (enterLine env (st.modify (·.fed byte))).sh :=
      ⟨rfl, rfl, rfl⟩
    have hexec :=
      (hplain.frame hregistry rfl).entries_eq_keptLines hready hquiet (hfed.entries_eq.trans ih)
    rw [handleEnter_eq hwf]
    dsimp only
    rw [finishEnter_sh, (Shell.sameHistory_erase _).entries_eq]
    exact hexec
  | @other st log h op hsame ih =>
    rw [hdepth, hsame.entries_eq]
    exact ih

end Session

/-! ## The Up key -/

/-- The bytes that the Up key sends. -/
def upKey : List Byte := [esc, chr '[', chr 'A']

/-- The shell after the decoder has seen these bytes. -/
def Shell.fedUp (s : Shell) : Shell := ((s.fed esc).fed (chr '[')).fed (chr 'A')

/-- The decoder changes neither the line nor the history nor the position in it. -/
private theorem Shell.fed_keeps (s : Shell) (byte : Byte) :
    SameHistory s (s.fed byte) ∧ (s.fed byte).historyView = s.historyView ∧
      (s.fed byte).lineCapacity = s.lineCapacity ∧ (s.fed byte).execText = s.execText :=
  ⟨⟨rfl, rfl, rfl, rfl, rfl⟩, rfl, rfl, rfl⟩

/-- Nor does it on the bytes of the Up key. -/
private theorem Shell.fedUp_keeps (s : Shell) :
    SameHistory s s.fedUp ∧ s.fedUp.historyView = s.historyView ∧
      s.fedUp.lineCapacity = s.lineCapacity ∧ s.fedUp.execText = s.execText := by
  obtain ⟨hhistory, hview, hcapacity, htext⟩ := s.fed_keeps esc
  obtain ⟨hhistory', hview', hcapacity', htext'⟩ := (s.fed esc).fed_keeps (chr '[')
  obtain ⟨hhistory'', hview'', hcapacity'', htext''⟩ :=
    ((s.fed esc).fed (chr '[')).fed_keeps (chr 'A')
  exact ⟨(hhistory.trans hhistory').trans hhistory'', hview''.trans (hview'.trans hview),
    hcapacity''.trans (hcapacity'.trans hcapacity), htext''.trans (htext'.trans htext)⟩

variable (env) in
/-- **The Up key** walks back in the history and leaves the decoder idle. -/
theorem shInput_upKey {st : Sys ω} (h : st.sh.ansi.state = .idle) :
    shInput env st upKey = (moveHistory env (st.modify (·.fedUp)) (-1), Status.ok) ∧
      (st.modify (·.fedUp)).sh.ansi.state = .idle := by
  exact shInput_sequence env h .up (Nat.zero_le _)

/-! ## Walking back -/

/-- Walking leaves the history alone. -/
theorem Shell.sameHistory_walk (s : Shell) (direction : ℤ) : SameHistory s (s.walk direction) := by
  unfold Shell.walk
  split_ifs <;> exact ⟨rfl, rfl, rfl, rfl, rfl⟩

/-- So does a change of the history position. -/
private theorem Shell.sameHistory_stepView (s : Shell) (direction : ℤ) :
    SameHistory s (s.stepView direction) := ⟨rfl, rfl, rfl, rfl, rfl⟩

/-- The capacity of the line stays the same as well. -/
private theorem Shell.stepView_lineCapacity (s : Shell) (direction : ℤ) :
    (s.stepView direction).lineCapacity = s.lineCapacity := rfl

/-- Setting the line does not move in the history. -/
theorem Shell.setLine_historyView (s : Shell) (t : CStr) :
    (s.setLine t).historyView = s.historyView := rfl

/-- A line that is set is the one that Enter executes. -/
private theorem Shell.Wf.execText_setLine {s : Shell} (h : s.Wf) {t : CStr}
    (ht : t.length < s.lineCapacity) : (s.setLine t).execText = t := by
  have hsize := h.line_size
  have hlength : t.bytes.length = t.length := rfl
  have hlen : (if t.length ≥ s.lineCapacity then s.lineCapacity - 1 else t.length) = t.length :=
    if_neg (not_le.mpr ht)
  have hstore := Mem.store_store (m := s.line) (a := t.bytes) (b := [0]) 0
    (by rw [hlength, List.length_singleton]; omega)
  have hhold := Mem.holds_store (m := s.line) t.bytes t.nonzero (by omega)
  have htext : (s.setLine t).text = t.bytes := by
    unfold Shell.setLine Shell.text
    dsimp only
    rw [hlen, List.take_of_length_le (l := t.bytes) (i := t.length) le_rfl]
    rw [Nat.zero_add, hlength] at hstore
    rw [hstore]
    exact hhold.take_eq
  refine CStr.ext ?_
  unfold Shell.execText
  rw [CStr.at_bytes, List.drop_zero, htext]
  exact Mem.upto_append t.nonzero

/-- **Walking back** shows the next older entry, as long as the count does not overflow.

**Proof sketch.** Saving the draft keeps the history. The bound is the count less one, without
overflow, so the view moves to the next older entry, which fits the line. -/
theorem Shell.Wf.walk_back {s : Shell} (h : s.Wf) {k : ℕ} (hview : s.historyView = k - 1)
    (hk : (k : ℤ) < toInt s.historyCount) {entry : CStr} (hentry : s.entries[k]? = some entry)
    (hfit : entry.length < s.lineCapacity) :
    (s.walk (-1)).historyView = k ∧ (s.walk (-1)).execText = entry := by
  generalize hsaved : (if s.historyView < 0 then s.saveDraft else s) = saved
  have hwf : saved.Wf := by
    rw [← hsaved]
    split_ifs
    · exact h.saveDraft
    · exact h
  have hsame : SameHistory s saved := by
    rw [← hsaved]
    split_ifs <;> exact ⟨rfl, rfl, rfl, rfl, rfl⟩
  have hkeep : saved.historyView = s.historyView ∧ saved.lineCapacity = s.lineCapacity := by
    rw [← hsaved]
    split_ifs <;> exact ⟨rfl, rfl⟩
  have hstep : (saved.stepView (-1)).historyView = k := by
    have hpos : 0 < toInt s.historyCount := by omega
    unfold Shell.stepView
    dsimp only
    rw [if_pos (by decide), hkeep.1, hsame.count, hview, Wf.intSub_toInt_of_pos hpos,
      if_pos (by omega)]
    omega
  have hrecalled : (saved.stepView (-1)).recalled = entry := by
    unfold Shell.recalled
    rw [hstep, if_neg (by omega), Int.toNat_natCast,
      (saved.sameHistory_stepView (-1)).getNewest_eq, hsame.getNewest_eq,
      h.history.getNewest_eq, hentry]
    rfl
  have hwalk : s.walk (-1) = (saved.stepView (-1)).setLine entry := by
    unfold Shell.walk
    rw [hsaved]
    dsimp only
    rw [hrecalled]
  have hfit' : entry.length < (saved.stepView (-1)).lineCapacity := by
    rw [saved.stepView_lineCapacity, hkeep.2]
    exact hfit
  rw [hwalk]
  exact ⟨(Shell.setLine_historyView _ _).trans hstep, (hwf.stepView (-1)).execText_setLine hfit'⟩

/-- Walking leaves the decoder alone. -/
private theorem Shell.walk_ansi (s : Shell) (direction : ℤ) : (s.walk direction).ansi = s.ansi := by
  unfold Shell.walk
  split_ifs <;> rfl

variable (env) in
/-- **The Up key** in a history that is not empty. -/
theorem upKey_spec {st : Sys ω} (hidle : st.sh.ansi.state = .idle)
    (hne : shHistoryCount st.sh ≠ 0) :
    (shInput env st upKey).1.sh = st.sh.fedUp.walk (-1) ∧
      (shInput env st upKey).2 = Status.ok ∧
      dispatchCalls (shInput env st upKey).1 = dispatchCalls st ∧
      (shInput env st upKey).1.sh.ansi.state = .idle := by
  obtain ⟨hinput, hfed⟩ := shInput_upKey env hidle
  have hcalls : dispatchCalls (moveHistory env (st.modify (·.fedUp)) (-1)) =
      dispatchCalls (st.modify (·.fedUp)) :=
    observe_handleEscapeKey env dispatchCall_ignoresOutput (st.modify (·.fedUp)) .up
  have hcalls' : dispatchCalls (st.modify (·.fedUp)) = dispatchCalls st :=
    observe_eq (Sys.modify_trace st _)
  have hcount : (st.modify (·.fedUp)).sh.historyCount ≠ 0 := by
    rw [Sys.modify_sh, st.sh.fedUp_keeps.1.count]
    exact hne
  have hmove := moveHistory_sh env (-1) hcount
  rw [hinput]
  refine ⟨hmove, rfl, hcalls.trans hcalls', ?_⟩
  rw [hmove, Shell.walk_ansi]
  exact hfed

/-- Enter on an idle decoder dispatches the line in the editor. -/
private theorem dispatchCalls_enter {st : Sys ω} (hwf : st.sh.Wf)
    (hidle : st.sh.ansi.state = .idle) :
    dispatchCalls (shInput env st [chr '\r']).1 =
      dispatchCalls st ++ (dispatchedBy st.sh st.sh.execText).map Prod.snd := by
  have hleft : LeftToEditor st.sh.ansi.state (chr '\r') := .of_idle hidle (by decide)
  rw [shInput_singleton, shInputByte_left env hleft (by decide)]
  exact dispatchCalls_handleEnter env (hwf.fed (chr '\r'))

/-- Since a system at rest the Up key was pressed a number of times. -/
structure Browsing (start st : Sys ω) (k : ℕ) : Prop where
  wf : st.sh.Wf
  history : SameHistory start.sh st.sh
  setup : SameSetup start.sh st.sh
  calls : dispatchCalls st = dispatchCalls start
  idle : st.sh.ansi.state = .idle
  view : st.sh.historyView = k - 1

variable {start st : Sys ω}

variable (env) in
/-- **One more press** of the Up key shows the next older entry.

**Proof sketch.** The three bytes of the key are decoded and walk back once (`Shell.Wf.walk_back`);
no handler is called and the setup stays. -/
theorem Browsing.up {k : ℕ} (h : Browsing start st k)
    (hk : (k : ℤ) < toInt (shHistoryCount start.sh)) {entry : CStr}
    (hentry : start.sh.entries[k]? = some entry) (hfit : entry.length < start.sh.lineCapacity) :
    Browsing start (shInput env st upKey).1 (k + 1) ∧ (shInput env st upKey).2 = Status.ok ∧
      (shInput env st upKey).1.sh.execText = entry := by
  have hcount : st.sh.historyCount = shHistoryCount start.sh := h.history.count
  have hne : shHistoryCount st.sh ≠ 0 := by
    intro h0
    have hle := Shell.Wf.toInt_le 0
    rw [← hcount, show st.sh.historyCount = 0 from h0] at hk
    omega
  obtain ⟨hsh, hok, hcalls, hidle⟩ := upKey_spec env h.idle hne
  have hsetup := h.setup.trans (shInput_steps env st upKey).sameSetup
  obtain ⟨hsame, hview, hcapacity, -⟩ := st.sh.fedUp_keeps
  have hwf : st.sh.fedUp.Wf := ((h.wf.fed _).fed _).fed _
  obtain ⟨hwalk, hshown⟩ := hwf.walk_back (hview.trans h.view)
    (by rw [hsame.count, hcount]; exact hk)
    (by rw [hsame.entries_eq, h.history.entries_eq]; exact hentry)
    (by rw [hcapacity, h.setup.lineCapacity]; exact hfit)
  refine ⟨⟨?_, ?_, hsetup, hcalls.trans h.calls, hidle, ?_⟩, hok, ?_⟩
  · rw [hsh]
    exact hwf.walk (-1)
  · rw [hsh]
    exact (h.history.trans hsame).trans (st.sh.fedUp.sameHistory_walk (-1))
  · rw [hsh, hwalk]
    omega
  · rw [hsh]
    exact hshown

/-- The bytes of several presses. -/
def upKeys (n : ℕ) : List Byte := (List.replicate n upKey).flatten

/-- One press more. -/
private theorem upKeys_succ (n : ℕ) : upKeys (n + 1) = upKeys n ++ upKey := by
  unfold upKeys
  rw [List.replicate_succ', List.flatten_append, List.flatten_singleton]

variable (env) in
/-- **Several presses** show an entry of that age.

**Proof sketch.** Induction on the presses. Each one is `Browsing.up`, with the entry whose age is
the number of presses so far. -/
theorem browsing_upKeys {st : Sys ω} (hwf : st.sh.Wf) (hview : st.sh.historyView = -1)
    (hidle : st.sh.ansi.state = .idle) {n : ℕ} (hn : (n : ℤ) ≤ toInt (shHistoryCount st.sh))
    (hfit : ∀ entry ∈ st.sh.entries, entry.length < st.sh.lineCapacity) :
    Browsing st (shInput env st (upKeys n)).1 n ∧ (shInput env st (upKeys n)).2 = Status.ok ∧
      ∀ i, n = i + 1 → st.sh.entries[i]? = some (shInput env st (upKeys n)).1.sh.execText := by
  induction n with
  | zero =>
    refine ⟨⟨hwf, ⟨rfl, rfl, rfl, rfl, rfl⟩, .refl _, rfl, hidle, hview⟩, rfl, ?_⟩
    intro i hi
    exact absurd hi (by omega)
  | succ n ih =>
    obtain ⟨hbrowsing, hok, -⟩ := ih (by omega)
    have hlt : n < st.sh.entries.length := by
      have hle := Shell.Wf.toInt_le (shHistoryCount st.sh)
      have hlength := hwf.history.length_entries
      unfold shHistoryCount at hle hn
      omega
    have hentry : st.sh.entries[n]? = some st.sh.entries[n] := List.getElem?_eq_getElem hlt
    obtain ⟨hup, hok', hshown⟩ := hbrowsing.up env (by omega) hentry
      (hfit _ (List.getElem_mem hlt))
    rw [upKeys_succ, shInput_append hok]
    refine ⟨hup, hok', ?_⟩
    intro i hi
    obtain rfl : n = i := by omega
    rw [hshown]
    exact hentry

/-- **A replayed line is dispatched as it was.** In a session of plain lines, with the editor not
browsing and the decoder idle, `i + 1` presses of the Up key and Enter dispatch the argument
vector of the `i`-th newest line kept, for every entry that the count as an `int` reaches.

**Proof sketch.** The history holds the lines of the log as they were typed. Every press shows the
next older entry, which fits the editor. Enter executes a copy of it, and what a line is split
into does not change in a session. -/
theorem replay_dispatches {st : Sys ω} {log : List (CStr × List CStr)} (h : Session env st log)
    (hview : st.sh.historyView = -1) (hidle : st.sh.ansi.state = .idle) {i : ℕ}
    (hint : (i : ℤ) < toInt (shHistoryCount st.sh)) :
    ∃ line argv, ((log.destutter fun a b => a.1 ≠ b.1).take st.sh.historyDepth)[i]? =
        some (line, argv) ∧
      dispatchCalls (shInput env st (upKeys (i + 1) ++ [chr '\r'])).1 =
        dispatchCalls st ++ [argv] := by
  have hreach := h.reachable
  have hkept : (((log.destutter fun a b => a.1 ≠ b.1).take st.sh.historyDepth).map Prod.fst) =
      st.sh.entries := by
    rw [h.entries_eq, keptLines, List.map_take]
    exact congrArg (List.take st.sh.historyDepth)
      (List.map_destutter fun _ _ _ _ => Iff.rfl)
  have hspec : ∀ p ∈ (log.destutter fun a b => a.1 ≠ b.1).take st.sh.historyDepth,
      lineArgv st.sh p.1 = some p.2 ∧ p.1.length < st.sh.lineCapacity := fun p hp =>
    h.log_spec p ((List.destutter_sublist _ _).subset (List.mem_of_mem_take hp))
  have hfit : ∀ entry ∈ st.sh.entries, entry.length < st.sh.lineCapacity := by
    intro entry hentry
    rw [← hkept] at hentry
    obtain ⟨p, hp, rfl⟩ := List.mem_map.mp hentry
    exact (hspec p hp).2
  obtain ⟨hbrowsing, hok, hshown⟩ := browsing_upKeys env hreach.wf hview hidle
    (n := i + 1) (by omega) hfit
  have hentry := hshown i rfl
  rw [← hkept, List.getElem?_map, Option.map_eq_some_iff] at hentry
  obtain ⟨⟨line, argv⟩, hp, hline⟩ := hentry
  refine ⟨line, argv, hp, ?_⟩
  have hargv := (hspec _ (List.mem_of_getElem? hp)).1
  have hdispatched : ∀ {s : Shell}, SameSetup st.sh s → dispatchedBy s line = [(line, argv)] := by
    intro s hsetup
    unfold dispatchedBy
    rw [hsetup.lineArgv_eq, hargv]
  rw [shInput_append hok, dispatchCalls_enter hbrowsing.wf hbrowsing.idle, hbrowsing.calls, ← hline,
    hdispatched hbrowsing.setup]
  rfl

/-! ## Where the count overflows -/

/-- **With a negative bound** the Up key shows the line again.

**Proof sketch.** The view stays outside the history, so what is recalled is the draft, which has
just been saved from the line. -/
theorem Shell.Wf.walk_stuck {s : Shell} (h : s.Wf) (hdepth : s.historyDepth ≠ 0)
    (hview : s.historyView = -1) (hcount : intSub (toInt s.historyCount) 1 < 0) :
    (s.walk (-1)).execText = s.execText := by
  have hstep : (s.saveDraft.stepView (-1)).historyView = -1 := by
    have hsaved : s.saveDraft.historyView = -1 ∧ s.saveDraft.historyCount = s.historyCount :=
      ⟨hview, rfl⟩
    unfold Shell.stepView
    dsimp only
    rw [if_pos (by decide), hsaved.1, hsaved.2, if_neg (by omega)]
  have hrecalled : (s.saveDraft.stepView (-1)).recalled = s.execText := by
    unfold Shell.recalled
    rw [if_pos (by rw [hstep]; decide)]
    obtain ⟨d, hd, hat⟩ := h.draft_saveDraft hdepth
    have hdraft : (s.saveDraft.stepView (-1)).draft = some d := hd
    rw [hdraft, Option.getD_some, hat]
  have hwalk : s.walk (-1) = (s.saveDraft.stepView (-1)).setLine s.execText := by
    unfold Shell.walk
    rw [if_pos (by rw [hview]; decide)]
    dsimp only
    rw [hrecalled]
  have hfit : s.execText.length < (s.saveDraft.stepView (-1)).lineCapacity := by
    rw [s.saveDraft.stepView_lineCapacity]
    rw [h.length_execText]
    exact h.lineLen_lt
  rw [hwalk]
  exact (h.saveDraft.stepView (-1)).execText_setLine hfit

variable (env) in
/-- **With such a bound** the Up key and Enter dispatch the line in the editor, not an entry. -/
theorem dispatchCalls_stuck {st : Sys ω} (hwf : st.sh.Wf) (hdepth : st.sh.historyDepth ≠ 0)
    (hview : st.sh.historyView = -1) (hidle : st.sh.ansi.state = .idle)
    (hpos : st.sh.historyCount ≠ 0) (hcount : intSub (toInt st.sh.historyCount) 1 < 0) :
    dispatchCalls (shInput env st (upKeys 1 ++ [chr '\r'])).1 =
      dispatchCalls st ++ (dispatchedBy st.sh st.sh.execText).map Prod.snd := by
  obtain ⟨hsh, hok, hcalls, hidle'⟩ := upKey_spec env hidle hpos
  obtain ⟨hsame, hview', -, hexec⟩ := st.sh.fedUp_keeps
  have hwf' : st.sh.fedUp.Wf := ((hwf.fed _).fed _).fed _
  have hstuck := hwf'.walk_stuck (by rw [hsame.depth]; exact hdepth) (hview'.trans hview)
    (by rw [hsame.count]; exact hcount)
  have hsetup := (shInput_steps env st upKey).sameSetup
  have hkeys : upKeys 1 = upKey := List.append_nil _
  have hlog : ∀ line, dispatchedBy (shInput env st upKey).1.sh line = dispatchedBy st.sh line := by
    intro line
    unfold dispatchedBy
    rw [hsetup.lineArgv_eq]
  rw [hkeys, shInput_append hok, dispatchCalls_enter (by rw [hsh]; exact hwf'.walk (-1)) hidle',
    hcalls, hlog, hsh, hstuck, hexec]

variable (env) in
/-- A line that is answered by output only adds itself to the history.

**Proof sketch.** The dispatch prints, so the shell behind it is the one before it. The vector is
wiped, and neither that nor recording the line touches the registry. -/
private theorem shExecuteLine_print {st : Sys ω} {line : CStr} {argv : List CStr}
    (hargv : lineArgv st.sh line = some argv) {texts : List (List Byte)} {status : Status}
    (hplan : plan st.sh argv = .print texts status) :
    (shExecuteLine env st line).1.sh = (beforeDispatch env st line argv).sh.wipeArgv ∧
      QuietLine env st line ∧ SameRegistry st.sh (shExecuteLine env st line).1.sh := by
  have hregistry : SameRegistry st.sh (beforeDispatch env st line argv).sh := by
    have hrecord := recordLine_sameRegistry env ((st.touch .argv (shTokenize (line.bytes ++ [0])
      st.sh.argvCapacity).argv.length).modify (·.setArgv argv)) line argv
    exact ⟨hrecord.cfg, hrecord.commands, hrecord.commandSets⟩
  have hdispatch : (shCommandDispatchInternal env (beforeDispatch env st line argv) argv).1.sh =
      (beforeDispatch env st line argv).sh := by
    rw [dispatch_eq, hregistry.plan_eq, hplan]
    exact writes_sh env _ texts
  have hsh : (shExecuteLine env st line).1.sh = (beforeDispatch env st line argv).sh.wipeArgv := by
    rw [shExecuteLine_eq env hargv]
    exact congrArg Shell.wipeArgv hdispatch
  refine ⟨hsh, ?_, ?_⟩
  · intro argv' hargv'
    obtain rfl := Option.some.inj (hargv.symm.trans hargv')
    rw [hdispatch]
    exact ⟨rfl, rfl, rfl, rfl, rfl⟩
  · have hwipe : SameRegistry (beforeDispatch env st line argv).sh
        (beforeDispatch env st line argv).sh.wipeArgv := by
      unfold Shell.wipeArgv
      split_ifs <;> exact ⟨rfl, rfl, rfl⟩
    rw [hsh]
    exact ⟨hwipe.cfg.trans hregistry.cfg, hwipe.commands.trans hregistry.commands,
      hwipe.commandSets.trans hregistry.commandSets⟩

/-- Buffers for lines of one byte and a history of some depth. -/
def deepStorage (depth : ℕ) : Storage where
  lineBuffer := .array [0, 0]
  argvBuffer := .array [none]
  historyBuffer := some (List.replicate (depth * 2) 0)
  historyCapacity := depth
  historySlotSize := 2
  draftBuffer := .array [0, 0]

/-- A configuration that fits these buffers. -/
def deepConfig (depth : ℕ) : Config :=
  { shDefaultConfig with lineMax := 1, argcMax := 1, historyDepth := depth }

/-- The shell that `sh_init` sets up in these buffers. -/
def deepShell (depth : ℕ) : Shell :=
  initialShell ((deepConfig depth).completed (deepStorage depth)) (deepStorage depth)

/-- The buffers have the declared sizes, and the configuration is accepted. -/
private theorem shInit_deep (depth : ℕ) : (deepStorage depth).Sized ∧
    shInit (some (deepConfig depth)) (deepStorage depth) = .ok (deepShell depth) := by
  constructor
  · intro m hm
    rw [← Option.some.inj hm, List.length_replicate]
    exact le_rfl
  · have hbuffers : ((deepConfig depth).completed (deepStorage depth)).buffersFit
        (deepStorage depth) = true := rfl
    have hhistory : ((deepConfig depth).completed (deepStorage depth)).historyFits
        (deepStorage depth) = true := by
      simp [Config.historyFits, Config.completed, deepConfig, deepStorage, CArray.isNull,
        CArray.count]
    unfold shInit effectiveConfig
    rw [if_neg (by simp [deepStorage, CArray.isNull, CArray.count])]
    dsimp only
    rw [hbuffers, hhistory]
    rfl

/-- The `n`-th line: `a` and `b` in turn. -/
def letterLine (n : ℕ) : CStr := if n % 2 = 0 then str "a" else str "b"

/-- The system after `n` of these lines were executed. -/
def deepSys (depth : ℕ) : ℕ → Sys Unit
  | 0 => ⟨deepShell depth, (), [], []⟩
  | n + 1 => (shExecuteLine idleEnv (deepSys depth n) (letterLine n)).1

/-- What these lines dispatched. -/
def deepLog : ℕ → List (CStr × List CStr)
  | 0 => []
  | n + 1 => (letterLine n, [letterLine n]) :: deepLog n

/-- A line of this kind, in a new shell.

**Proof sketch.** The two letters are evaluated: each is one token, none is masked, and none is a
command. -/
private theorem letterLine_spec (depth n : ℕ) :
    PlainLine idleEnv (deepShell depth) (letterLine n) ∧
      lineArgv (deepShell depth) (letterLine n) = some [letterLine n] ∧
      ∃ texts status, plan (deepShell depth) [letterLine n] = .print texts status := by
  have hcapacity : (deepShell depth).argvCapacity = 1 := rfl
  have hletter : letterLine n = str "a" ∨ letterLine n = str "b" := by
    unfold letterLine
    split_ifs
    · exact .inl rfl
    · exact .inr rfl
  have htokens : shTokenize ((letterLine n).bytes ++ [0]) 1 =
      ⟨(letterLine n).bytes ++ [0], [0], Status.ok⟩ ∧ (letterLine n).length = 1 := by
    rcases hletter with h | h <;> rw [h] <;> exact ⟨rfl, rfl⟩
  have htexts : lineTokens (deepShell depth) (letterLine n) = [letterLine n] := by
    unfold lineTokens TokenizeResult.texts
    rw [hcapacity, htokens.1]
    exact congrArg (fun text => [text]) ((letterLine n).at_zero_append [])
  have hplain : PlainLine idleEnv (deepShell depth) (letterLine n) := by
    refine ⟨htokens.2.le, ?_, ?_, nofun⟩
    · rw [hcapacity, htokens.1]
    · rw [htexts]
      exact nofun
  refine ⟨hplain, ?_, ?_⟩
  · rw [hplain.lineArgv_eq (shInit_wf (shInit_deep depth).1 (shInit_deep depth).2) rfl, htexts]
    rfl
  · rcases hletter with h | h <;> rw [h] <;> exact ⟨_, _, rfl⟩

/-- Recording a line leaves the editor at rest. -/
theorem Shell.AtRest.beforeDispatch {st : Sys ω} (h : st.sh.AtRest) (line : CStr)
    (argv : List CStr) : (PortableShell.beforeDispatch env st line argv).sh.wipeArgv.AtRest := by
  have hwipe : ∀ s : Shell, s.AtRest → s.wipeArgv.AtRest := by
    intro s hs
    unfold Shell.wipeArgv
    split_ifs
    · exact ⟨hs.lineLen, hs.line, hs.cursor, hs.historyView, hs.idle⟩
    · exact hs
  have hset : (st.sh.setArgv argv).AtRest :=
    ⟨h.lineLen, h.line, h.cursor, h.historyView, h.idle⟩
  refine hwipe _ ?_
  unfold PortableShell.beforeDispatch recordLine
  cases buildHistoryLine env _ line argv with
  | none => exact hset
  | some historyLine =>
    dsimp only
    rw [shHistoryAddInternal_sh]
    split_ifs
    · exact hset
    · exact ⟨hset.lineLen, hset.line, hset.cursor, hset.historyView, hset.idle⟩

/-- These lines are a session, and leave the editor at rest.

**Proof sketch.** Induction on the lines. A letter is answered by an error message, so executing it
only adds it to the history (`shExecuteLine_print`). -/
theorem deepSys_session (depth n : ℕ) :
    Session idleEnv (deepSys depth n) (deepLog n) ∧
      SameRegistry (deepShell depth) (deepSys depth n).sh ∧
      SameSetup (deepShell depth) (deepSys depth n).sh ∧ (deepSys depth n).sh.AtRest := by
  induction n with
  | zero =>
    have hreach : Reachable idleEnv (deepSys depth 0) :=
      ⟨some (deepConfig depth), deepStorage depth, deepShell depth, (), [], (shInit_deep depth).1,
        (shInit_deep depth).2, rfl⟩
    exact ⟨.start hreach rfl, ⟨rfl, rfl, rfl⟩, .refl _, rfl, rfl, rfl, rfl, rfl⟩
  | succ n ih =>
    obtain ⟨hsession, hregistry, hsetup, hrest⟩ := ih
    obtain ⟨hplain, hargv, texts, status, hplan⟩ := letterLine_spec depth n
    have hargv' : lineArgv (deepSys depth n).sh (letterLine n) = some [letterLine n] := by
      rw [hsetup.lineArgv_eq, hargv]
    have hplan' : plan (deepSys depth n).sh [letterLine n] = .print texts status := by
      rw [hregistry.plan_eq, hplan]
    obtain ⟨hsh, hquiet, hkept⟩ := shExecuteLine_print idleEnv hargv' hplan'
    have hnext := hsession.executeLine (letterLine n)
      (hplain.frame hregistry hsetup.argvCapacity) hquiet
    have hlog : dispatchedBy (deepSys depth n).sh (letterLine n) ++ deepLog n =
        deepLog (n + 1) := by
      unfold dispatchedBy
      rw [hargv']
      rfl
    rw [hlog] at hnext
    refine ⟨hnext, ?_, hsetup.trans (apply_steps idleEnv _ (.executeLine (letterLine n))).sameSetup,
      ?_⟩
    · exact ⟨hkept.cfg.trans hregistry.cfg, hkept.commands.trans hregistry.commands,
        hkept.commandSets.trans hregistry.commandSets⟩
    · show (shExecuteLine idleEnv (deepSys depth n) (letterLine n)).1.sh.AtRest
      rw [hsh]
      exact hrest.beforeDispatch (letterLine n) [letterLine n]

/-- The history holds as many of these lines as were executed and fit.

**Proof sketch.** Lines that follow each other are different, so no run collapses and the history
holds all of them. -/
theorem deepSys_count {depth n : ℕ} (h : n ≤ depth) :
    shHistoryCount (deepSys depth n).sh = n := by
  obtain ⟨hsession, -, hsetup, -⟩ := deepSys_session depth n
  have hlength : ∀ n, (deepLog n).length = n := by
    intro n
    induction n with
    | zero => rfl
    | succ n ih => exact congrArg (· + 1) ih
  have hdistinct : ∀ n, letterLine (n + 1) ≠ letterLine n := by
    intro n
    have hne : str "a" ≠ str "b" := by decide
    unfold letterLine
    split_ifs with h h'
    · omega
    · exact hne
    · exact hne.symm
    · omega
  have hchain : ∀ n, ((deepLog n).map Prod.fst).IsChain (· ≠ ·) := by
    intro n
    induction n with
    | zero => exact .nil
    | succ n ih =>
      cases n with
      | zero => exact .singleton _
      | succ n => exact List.isChain_cons_cons.mpr ⟨hdistinct n, ih⟩
  have hdepth : (deepSys depth n).sh.historyDepth = depth := hsetup.historyDepth
  show (deepSys depth n).sh.historyCount = n
  rw [← hsession.reachable.wf.history.length_entries, hsession.entries_eq, keptLines,
    List.destutter_of_isChain (· ≠ ·) _ (hchain n), hdepth, List.length_take, List.length_map,
    hlength]
  omega

/-- Where the bound is negative, the newest of these lines is not replayed.

**Proof sketch.** The Up key shows the empty line again (`dispatchCalls_stuck`), and entering that
one dispatches nothing. -/
private theorem deepSys_not_replayed {n : ℕ} (hn : n ≠ 0) (hcount : intSub (toInt n) 1 < 0) :
    (Session idleEnv (deepSys n n) (deepLog n) ∧ (deepSys n n).sh.historyView = -1 ∧
      (deepSys n n).sh.ansi.state = .idle ∧ 0 < shHistoryCount (deepSys n n).sh) ∧
    ¬∃ line argv, (((deepLog n).destutter fun a b => a.1 ≠ b.1).take
        (deepSys n n).sh.historyDepth)[0]? = some (line, argv) ∧
      dispatchCalls (shInput idleEnv (deepSys n n) (upKeys (0 + 1) ++ [chr '\r'])).1 =
        dispatchCalls (deepSys n n) ++ [argv] := by
  obtain ⟨hsession, -, hsetup, hrest⟩ := deepSys_session n n
  have hwf := hsession.reachable.wf
  have heq : (deepSys n n).sh.historyCount = n := deepSys_count le_rfl
  have hdepth : (deepSys n n).sh.historyDepth = n := hsetup.historyDepth
  have hempty : (deepSys n n).sh.execText = CStr.empty := by
    refine CStr.ext ?_
    unfold Shell.execText Shell.text
    rw [hrest.lineLen]
    rfl
  have hnothing : dispatchedBy (deepSys n n).sh CStr.empty = [] := by
    unfold dispatchedBy
    rw [hsetup.lineArgv_eq]
    rfl
  have hstuck := dispatchCalls_stuck idleEnv hwf (by rw [hdepth]; exact hn)
    hrest.historyView hrest.idle (by rw [heq]; exact hn) (by rw [heq]; exact hcount)
  rw [hempty, hnothing] at hstuck
  refine ⟨⟨hsession, hrest.historyView, hrest.idle, ?_⟩, ?_⟩
  · rw [deepSys_count le_rfl]
    exact Nat.pos_of_ne_zero hn
  · rintro ⟨line, argv, -, hcalls⟩
    rw [hstuck] at hcalls
    exact absurd (List.append_cancel_left hcalls) (List.cons_ne_nil _ _).symm

/-- With `2 ^ 31 + 1` entries the count as an `int` is negative. -/
theorem not_replay_dispatches_deep :
    (Session idleEnv (deepSys (2 ^ 31 + 1) (2 ^ 31 + 1)) (deepLog (2 ^ 31 + 1)) ∧
      (deepSys (2 ^ 31 + 1) (2 ^ 31 + 1)).sh.historyView = -1 ∧
      (deepSys (2 ^ 31 + 1) (2 ^ 31 + 1)).sh.ansi.state = .idle ∧
      0 < shHistoryCount (deepSys (2 ^ 31 + 1) (2 ^ 31 + 1)).sh) ∧
    ¬∃ line argv, (((deepLog (2 ^ 31 + 1)).destutter fun a b => a.1 ≠ b.1).take
        (deepSys (2 ^ 31 + 1) (2 ^ 31 + 1)).sh.historyDepth)[0]? = some (line, argv) ∧
      dispatchCalls (shInput idleEnv (deepSys (2 ^ 31 + 1) (2 ^ 31 + 1))
          (upKeys (0 + 1) ++ [chr '\r'])).1 =
        dispatchCalls (deepSys (2 ^ 31 + 1) (2 ^ 31 + 1)) ++ [argv] :=
  deepSys_not_replayed (by decide) (by decide)

/-- Replaying the second newest of three of these lines. -/
theorem replay_dispatches_small :
    ∃ line argv, (((deepLog 3).destutter fun a b => a.1 ≠ b.1).take
        (deepSys 3 3).sh.historyDepth)[1]? = some (line, argv) ∧
      dispatchCalls (shInput idleEnv (deepSys 3 3) (upKeys (1 + 1) ++ [chr '\r'])).1 =
        dispatchCalls (deepSys 3 3) ++ [argv] := by
  obtain ⟨hsession, -, -, hrest⟩ := deepSys_session 3 3
  refine replay_dispatches hsession hrest.historyView hrest.idle ?_
  rw [deepSys_count le_rfl]
  decide

end PortableShell
