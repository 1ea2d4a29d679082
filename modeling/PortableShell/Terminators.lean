import PortableShell.Acts
import PortableShell.Trace

set_option relaxedAutoImplicit false
set_option autoImplicit false

/-!
# Line terminators

How often a byte stream submits a line. Two state machines see every byte: the flag for a
carriage return, which is updated first, and the escape decoder, which decides whether the byte
reaches the editor. The second one loses terminators: a carriage return or line feed that
interrupts the parameters of a CSI sequence is dropped together with the sequence, while one that
interrupts a bare ESC is left to the editor.

## Main definitions

* `PortableShell.terminators` — the line terminators of a stream.
* `PortableShell.Sys.enters` — how often `handle_enter` ran.

## Main results

* `PortableShell.enters_foldl` — the runs of `handle_enter` and the terminators lost make up the
  terminators of the stream.
* `PortableShell.enters_eq_terminators_iff` — every terminator submits exactly once if and only
  if none arrives in the parameter phase.
-/

namespace PortableShell

variable {ω : Type} (env : Env ω)

/-! ## Terminators of a stream -/

/-- A carriage return or line feed. -/
def isTerminator (byte : Byte) : Bool := byte = chr '\r' || byte = chr '\n'

/-- The number of line terminators of a stream: carriage returns, line feeds and pairs of the
two, paired from left to right. -/
def terminators : List Byte → ℕ
  | [] => 0
  | [byte] => if isTerminator byte then 1 else 0
  | byte :: next :: rest =>
    if byte = chr '\r' ∧ next = chr '\n' then terminators rest + 1
    else if isTerminator byte then terminators (next :: rest) + 1
    else terminators (next :: rest)

/-- The number of terminators, when `afterCr` says whether a carriage return came just before:
a line feed then belongs to it. -/
def terminatorsFrom : Bool → List Byte → ℕ
  | _, [] => 0
  | afterCr, byte :: rest =>
    (if isTerminator byte ∧ ¬(byte = chr '\n' ∧ afterCr = true) then 1 else 0) +
      terminatorsFrom (decide (byte = chr '\r')) rest

/-- The terminators that begin while the decoder is in the parameter phase. -/
def interrupting : AnsiState → List Byte → ℕ
  | _, [] => 0
  | state, byte :: rest =>
    (if isTerminator byte ∧ state = .csi then 1 else 0) + interrupting (state.feed byte) rest

/-- A carriage return makes a line feed behind it part of the same terminator. -/
private theorem terminatorsFrom_true (byte : Byte) (rest : List Byte) :
    terminatorsFrom true (byte :: rest) =
      if byte = chr '\n' then terminatorsFrom false rest
      else terminatorsFrom false (byte :: rest) := by
  by_cases hlf : byte = chr '\n'
  · have hne : chr '\n' ≠ chr '\r' := by decide
    simp [terminatorsFrom, hlf, hne]
  · simp [terminatorsFrom, hlf]

/-- Counting byte by byte is counting the terminators.

**Proof sketch.** Induction along `terminators`, whose cases look at two bytes: behind a carriage
return a line feed counts no more, and behind any other byte the flag is clear. -/
private theorem terminatorsFrom_false (data : List Byte) :
    terminatorsFrom false data = terminators data := by
  induction data using terminators.induct with
  | case1 => rfl
  | case2 byte hterm => simp [terminators, terminatorsFrom]
  | case3 byte hterm => simp [terminators, terminatorsFrom]
  | case4 byte next rest h ih =>
    have hterm : isTerminator (chr '\r') = true := by decide
    have hne : chr '\r' ≠ chr '\n' := by decide
    rw [terminators, if_pos h, ← ih, terminatorsFrom, h.1, decide_eq_true rfl,
      terminatorsFrom_true, if_pos h.2]
    simp [hterm, Nat.add_comm]
  | case5 byte next rest h hterm ih =>
    rw [terminators, if_neg h, if_pos hterm, ← ih, terminatorsFrom]
    by_cases hcr : byte = chr '\r'
    · have hlf : next ≠ chr '\n' := fun hn => h ⟨hcr, hn⟩
      rw [decide_eq_true hcr, terminatorsFrom_true, if_neg hlf]
      simp [hterm, Nat.add_comm]
    · rw [decide_eq_false hcr]
      simp [hterm, Nat.add_comm]
  | case6 byte next rest h hterm ih =>
    have hcr : byte ≠ chr '\r' := by
      rintro rfl
      exact hterm (by decide)
    rw [terminators, if_neg h, if_neg hterm, ← ih, terminatorsFrom, decide_eq_false hcr]
    simp [hterm]

/-- No terminator is lost exactly when none meets the parameter phase. -/
private theorem interrupting_eq_zero_iff (state : AnsiState) (data : List Byte) :
    interrupting state data = 0 ↔
      ∀ i byte, data[i]? = some byte → isTerminator byte = true →
        (data.take i).foldl AnsiState.feed state ≠ .csi := by
  induction data generalizing state with
  | nil => simp [interrupting]
  | cons first rest ih =>
    rw [interrupting, Nat.add_eq_zero_iff, ih]
    constructor
    · rintro ⟨hfirst, hrest⟩ i byte hbyte hterm
      cases i with
      | zero =>
        obtain rfl : first = byte := by simpa using hbyte
        intro hcsi
        exact absurd hfirst (by simp [hterm, show state = .csi from hcsi])
      | succ i => exact hrest i byte (by simpa using hbyte) hterm
    · intro h
      constructor
      · refine if_neg ?_
        rintro ⟨hterm, hcsi⟩
        exact h 0 first rfl hterm hcsi
      · intro i byte hbyte hterm
        exact h (i + 1) byte (by simpa using hbyte) hterm

/-! ## What one byte does -/

/-- The observer that sees the runs of `handle_enter`. -/
def seeEnter : Event → Option Unit
  | .enter => some ()
  | _ => none

/-- How often `handle_enter` ran. -/
def Sys.enters (st : Sys ω) : ℕ := (st.observe seeEnter).length

/-- This observer ignores output. -/
private theorem seeEnter_ignoresOutput : IgnoresOutput seeEnter := ⟨fun _ => rfl, fun _ => rfl⟩

/-- Enter is seen once. -/
private theorem enters_handleEnter (st : Sys ω) : (handleEnter env st).1.enters = st.enters + 1 :=
  by
  have hline : ∀ argv : Option (List CStr), lineObserved seeEnter st.sh argv = [] := by
    intro argv
    cases argv with
    | none => rfl
    | some argv =>
      have hplan : (plan st.sh argv).observed seeEnter = [] := by
        cases plan st.sh argv <;> rfl
      rw [lineObserved, hplan]
      rfl
  unfold Sys.enters
  rw [observe_handleEnter env seeEnter_ignoresOutput, hline, List.append_nil, List.length_append]
  rfl

/-- What one byte does to the decoder, the flag and the count, when the flag implies an idle
decoder. -/
structure ByteCounted (st st' : Sys ω) (byte : Byte) : Prop where
  state : st'.sh.ansi.state = st.sh.ansi.state.feed byte
  lastCr : st'.sh.lastInputWasCr = decide (byte = chr '\r')
  enters : st'.enters + (if isTerminator byte ∧ st.sh.ansi.state = .csi then 1 else 0) =
    st.enters + if isTerminator byte ∧ ¬(byte = chr '\n' ∧ st.sh.lastInputWasCr = true) then 1
      else 0

/-- A terminator outside the parameter phase is left to the editor. -/
private theorem not_consumed_of_terminator {decoder : AnsiDecoder} {byte : Byte}
    (hterm : isTerminator byte = true) (hcsi : decoder.state ≠ .csi) :
    (shAnsiFeed decoder byte).1.lastByteConsumed = false ∧ (shAnsiFeed decoder byte).2 = .none := by
  have hbyte : byte = chr '\r' ∨ byte = chr '\n' := by simpa [isTerminator] using hterm
  have hne : byte ≠ esc ∧ byte ≠ chr '[' := by
    rcases hbyte with rfl | rfl <;> decide
  obtain ⟨hevent, hconsumed, -⟩ := shAnsiFeed_of_ne_csi hcsi hne.1 fun _ => hne.2
  exact ⟨hconsumed, hevent⟩

/-- The part of `sh_input_byte` behind the check for a line feed after a carriage return.

**Proof sketch.** Case split on what the decoder says. An event and a byte that it keeps enter
nothing, and a terminator is kept in the parameter phase only. A byte left to the editor enters
exactly when it is a terminator. -/
private theorem feedByte_counted (st : Sys ω) (byte : Byte)
    (hpair : ¬(byte = chr '\n' ∧ st.sh.lastInputWasCr = true)) :
    ByteCounted st (feedByte env st byte).1 byte := by
  have hstate := shAnsiFeed_state st.sh.ansi byte
  unfold feedByte
  dsimp only
  generalize hst : (st.modify fun s =>
    (s.setLastInputWasCr (decide (byte = chr '\r'))).setAnsi (shAnsiFeed st.sh.ansi byte).1) = st'
  have hansi : st'.sh.ansi = (shAnsiFeed st.sh.ansi byte).1 := by
    rw [← hst]
    rfl
  have hcr : st'.sh.lastInputWasCr = decide (byte = chr '\r') := by
    rw [← hst]
    rfl
  have henters : st'.enters = st.enters := by
    rw [← hst]
    rfl
  -- a byte that the decoder keeps is a terminator in the parameter phase only
  have hkept : ∀ r : Sys ω, r.enters = st'.enters →
      (isTerminator byte = true → st.sh.ansi.state = .csi) →
      r.enters + (if isTerminator byte ∧ st.sh.ansi.state = .csi then 1 else 0) =
        st.enters + if isTerminator byte ∧ ¬(byte = chr '\n' ∧ st.sh.lastInputWasCr = true) then 1
          else 0 := by
    intro r hr hcsi
    by_cases hterm : isTerminator byte = true
    · rw [if_pos ⟨hterm, hcsi hterm⟩, if_pos ⟨hterm, hpair⟩, hr, henters]
    · rw [if_neg fun h => hterm h.1, if_neg fun h => hterm h.1, hr, henters]
  split_ifs with hevent hconsumed
  · have hidle : st'.sh.ansi.state = .idle := by
      rw [hansi]
      exact shAnsiFeed_idle_of_event hevent
    have hsame : SameInput st'.sh _ :=
      EditSteps.sameInput (handleEscapeKey_steps env st' (shAnsiFeed st.sh.ansi byte).2)
    refine ⟨?_, hsame.lastCr.trans hcr, hkept _ ?_ ?_⟩
    · rw [hsame.idle hidle, ← hstate, ← hansi, hidle]
    · unfold Sys.enters
      rw [observe_handleEscapeKey env seeEnter_ignoresOutput]
    · intro hterm
      by_contra hcsi
      exact hevent (not_consumed_of_terminator hterm hcsi).2
  · refine ⟨by rw [hansi, hstate], hcr, hkept st' rfl ?_⟩
    intro hterm
    by_contra hcsi
    rw [shAnsiLastByteConsumed, (not_consumed_of_terminator hterm hcsi).1] at hconsumed
    exact absurd hconsumed (by decide)
  · have hleft : (shAnsiFeed st.sh.ansi byte).1.lastByteConsumed = false := by
      simpa [shAnsiLastByteConsumed] using hconsumed
    have hidle : st'.sh.ansi.state = .idle := by
      rw [hansi]
      exact shAnsiFeed_idle_of_not_consumed hleft
    have hcsi : st.sh.ansi.state ≠ .csi := by
      intro hs
      rw [shAnsiFeed_of_csi byte hs] at hleft
      exact absurd hleft (by decide)
    have hsame : SameInput st'.sh _ := EditSteps.sameInput (editByte_steps env st' byte)
    refine ⟨?_, hsame.lastCr.trans hcr, ?_⟩
    · rw [hsame.idle hidle, ← hstate, ← hansi, hidle]
    · rw [if_neg fun h => hcsi h.2]
      by_cases hterm : isTerminator byte = true
      · have hbyte : byte = chr '\r' ∨ byte = chr '\n' := by simpa [isTerminator] using hterm
        rw [if_pos ⟨hterm, hpair⟩, editByte, if_pos hbyte, enters_handleEnter, henters]
      · have hbyte : byte ≠ chr '\r' ∧ byte ≠ chr '\n' := by simpa [isTerminator] using hterm
        rw [if_neg fun h => hterm h.1]
        unfold Sys.enters at henters ⊢
        rw [observe_editByte env seeEnter_ignoresOutput st' hbyte.1 hbyte.2, henters]

/-- **An input byte** submits a line when it begins a terminator outside the parameter phase. -/
theorem shInputByte_counted (st : Sys ω) (byte : Byte)
    (hidle : st.sh.lastInputWasCr = true → st.sh.ansi.state = .idle) :
    ByteCounted st (shInputByte env st byte).1 byte := by
  unfold shInputByte
  split_ifs with hpair
  · have hstate : st.sh.ansi.state = .idle := hidle hpair.2
    refine ⟨?_, ?_, ?_⟩
    · show st.sh.ansi.state = _
      rw [hstate, hpair.1]
      decide
    · rw [hpair.1]
      rfl
    · have hcsi : ¬(isTerminator byte = true ∧ st.sh.ansi.state = .csi) := by
        rw [hstate]
        exact fun h => absurd h.2 (by decide)
      rw [if_neg hcsi, if_neg fun h => h.2 hpair]
      rfl
  · exact feedByte_counted env st byte hpair

/-! ## What a stream does -/

/-- A carriage return leaves the decoder idle. -/
private theorem feed_of_cr (state : AnsiState) : state.feed (chr '\r') = .idle := by
  cases state <;> decide

/-- **Every terminator submits or is lost**: the runs of `handle_enter` and the terminators that
begin in the parameter phase make up the terminators of a stream. -/
theorem enters_foldl (st : Sys ω) (data : List Byte)
    (hidle : st.sh.lastInputWasCr = true → st.sh.ansi.state = .idle) :
    (data.foldl (fun st byte => (shInputByte env st byte).1) st).enters +
        interrupting st.sh.ansi.state data =
      st.enters + terminatorsFrom st.sh.lastInputWasCr data := by
  induction data generalizing st with
  | nil => rfl
  | cons byte data ih =>
    have hbyte := shInputByte_counted env st byte hidle
    have hidle' : (shInputByte env st byte).1.sh.lastInputWasCr = true →
        (shInputByte env st byte).1.sh.ansi.state = .idle := by
      intro hcr
      have hb : byte = chr '\r' := by simpa [hbyte.lastCr] using hcr
      rw [hbyte.state, hb, feed_of_cr]
    have hrest := ih (shInputByte env st byte).1 hidle'
    have henters := hbyte.enters
    rw [hbyte.state, hbyte.lastCr] at hrest
    rw [List.foldl_cons, interrupting, terminatorsFrom]
    omega

/-- **Every line terminator submits exactly once** if and only if none arrives in the parameter
phase of an escape sequence. The shell has a fresh decoder, as after `sh_init`.

**Proof sketch.** By `enters_foldl` the difference is the number of terminators that begin in the
parameter phase. -/
theorem enters_eq_terminators_iff (st : Sys ω) (hidle : st.sh.ansi.state = .idle)
    (hcr : st.sh.lastInputWasCr = false) (data : List Byte) :
    (shInput env st data).1.enters = st.enters + terminators data ↔
      ∀ i byte, data[i]? = some byte → isTerminator byte = true →
        (ansiAfter (data.take i)).state ≠ .csi := by
  have hcount := enters_foldl env st data fun _ => hidle
  have hlost := interrupting_eq_zero_iff .idle data
  rw [hidle, hcr, terminatorsFrom_false, ← shInput_fst] at hcount
  simp only [ansiAfter_state]
  rw [← hlost]
  omega

/-- The small shell reads a line feed, a pair, and a line feed that interrupts a bare ESC. -/
theorem enters_eq_terminators_small :
    (shInput idleEnv ⟨smallShell, (), [], []⟩
      [chr '\n', chr '\r', chr '\n', esc, chr '\n']).1.enters = 3 := by
  refine (enters_eq_terminators_iff idleEnv ⟨smallShell, (), [], []⟩ rfl rfl _).mpr ?_
  simp only [ansiAfter_state]
  exact (interrupting_eq_zero_iff .idle _).mp (by decide)

/-- **A lost terminator**: the carriage return that interrupts `ESC [` submits nothing. -/
theorem enters_ne_terminators_small :
    (shInput idleEnv ⟨smallShell, (), [], []⟩ [esc, chr '[', chr '\r']).1.enters ≠
      terminators [esc, chr '[', chr '\r'] := by
  decide

end PortableShell
