import PortableShell.Terminators
import PortableShell.Simulation

set_option relaxedAutoImplicit false
set_option autoImplicit false

/-!
# Line endings

A stream with carriage returns, line feeds and pairs of the two does the same as the stream in
which each of them is one line feed. The two streams differ in length: the byte that the flag for
a carriage return swallows is missing from the second one, so the shells run side by side up to
this flag, and a swallowed byte is a step of one side only.

## Main definitions

* `PortableShell.lf` — a stream with its line endings normalised.
* `PortableShell.SameButCr` — two shells that differ at most in the flag.

## Main results

* `PortableShell.feedByte_lineFeed` — a byte and its normalised form have the same effect.
* `PortableShell.lf_equiv` — a stream and its normalised form have the same effect.
-/

namespace PortableShell

variable {ω : Type}

/-! ## The normalised stream -/

/-- A byte with a carriage return read as a line feed. -/
def lineFeed (byte : Byte) : Byte := if byte = chr '\r' then chr '\n' else byte

/-- A stream in which every pair of a carriage return and a line feed, paired from left to right,
and every other carriage return is one line feed. -/
def lf : List Byte → List Byte
  | [] => []
  | [byte] => [lineFeed byte]
  | byte :: next :: rest =>
    if byte = chr '\r' ∧ next = chr '\n' then chr '\n' :: lf rest
    else lineFeed byte :: lf (next :: rest)

/-- The normalised stream, when `afterCr` says whether a carriage return came just before: a line
feed then belongs to it. -/
def lfFrom : Bool → List Byte → List Byte
  | _, [] => []
  | afterCr, byte :: rest =>
    if byte = chr '\n' ∧ afterCr = true then lfFrom false rest
    else lineFeed byte :: lfFrom (decide (byte = chr '\r')) rest

/-- Behind a carriage return only a line feed is treated in another way. -/
private theorem lfFrom_true_of_ne {byte : Byte} (h : byte ≠ chr '\n') (rest : List Byte) :
    lfFrom true (byte :: rest) = lfFrom false (byte :: rest) := by
  simp [lfFrom, h]

/-- Normalising byte by byte is normalising the stream. -/
theorem lfFrom_false (data : List Byte) : lfFrom false data = lf data := by
  have hnot : ∀ byte : Byte, ¬(byte = chr '\n' ∧ false = true) := by
    rintro byte ⟨-, h⟩
    cases h
  induction data using lf.induct with
  | case1 => rfl
  | case2 byte => rw [lfFrom, if_neg (hnot byte), lf, lfFrom]
  | case3 byte next rest h ih =>
    have hlf : next = chr '\n' ∧ decide (byte = chr '\r') = true := ⟨h.2, decide_eq_true h.1⟩
    have hbyte : lineFeed byte = chr '\n' := if_pos h.1
    rw [lf, if_pos h, lfFrom, if_neg (hnot byte), lfFrom, if_pos hlf, ih, hbyte]
  | case4 byte next rest h ih =>
    have hrest :
        lfFrom (decide (byte = chr '\r')) (next :: rest) = lfFrom false (next :: rest) := by
      by_cases hcr : byte = chr '\r'
      · rw [decide_eq_true hcr]
        exact lfFrom_true_of_ne (fun hn => h ⟨hcr, hn⟩) rest
      · rw [decide_eq_false hcr]
    rw [lf, if_neg h, lfFrom, if_neg (hnot byte), hrest, ih]

/-- A normalised byte is not a carriage return. -/
private theorem lineFeed_ne_cr (byte : Byte) : lineFeed byte ≠ chr '\r' := by
  unfold lineFeed
  split_ifs with h
  · decide
  · exact h

/-! ## Shells up to the flag -/

/-- The second shell differs from the first at most in the flag for a carriage return. -/
def SameButCr (s s' : Shell) : Prop := s' = s.setLastInputWasCr s'.lastInputWasCr

/-- An update that leaves the flag alone or sets it. -/
theorem SameButCr.frame {s s' : Shell} (u : Update)
    (hu : ∃ b, u.apply s' = (u.apply s).setLastInputWasCr b) :
    SameButCr (u.apply s) (u.apply s') := by
  obtain ⟨b, hb⟩ := hu
  unfold SameButCr
  rw [hb]
  rfl

/-- Such shells have the same editor line. -/
theorem SameButCr.sameLine {s s' : Shell} (h : SameButCr s s') : SameLine s s' := by
  rw [h]
  exact ⟨rfl, rfl, rfl⟩

/-- **Shells that differ in the flag edit and execute alike.**

**Proof sketch.** One case per update: none of them but `setLastCr` writes the flag, and none reads
it. The fields that editing reads are other fields. -/
theorem sameButCr_simulation (env : Env ω) : EditSimulation env SameButCr where
  update := by
    intro s s' u h _
    refine SameButCr.frame u ?_
    obtain ⟨b, rfl⟩ : ∃ b, s' = s.setLastInputWasCr b := ⟨_, h⟩
    refine ⟨((u.apply (s.setLastInputWasCr b))).lastInputWasCr, ?_⟩
    cases u with
    | registerCommands l =>
      dsimp only [Update.apply, shRegisterCommands, Shell.setLastInputWasCr]
      split_ifs <;> rfl
    | registerCommandSets l =>
      dsimp only [Update.apply, shRegisterCommandSets, Shell.setLastInputWasCr]
      split_ifs <;> rfl
    | wipeArgv =>
      dsimp only [Update.apply, Shell.wipeArgv, Shell.setLastInputWasCr]
      split_ifs <;> rfl
    | walk direction =>
      dsimp only [Update.apply, Shell.walk, Shell.setLastInputWasCr]
      split_ifs <;> rfl
    | wipeDraft =>
      dsimp only [Update.apply, Shell.wipeDraft, Shell.setLastInputWasCr]
      split_ifs <;> rfl
    | _ => rfl
  cfg := fun h => by rw [h]; rfl
  echo := fun h => by rw [h]; rfl
  started := fun h => by rw [h]; rfl
  ansi := fun h => by rw [h]; rfl
  argvCapacity := fun h => by rw [h]; rfl
  lineCapacity := fun h => by rw [h]; rfl
  lineLen := fun h => by rw [h]; rfl
  cursor := fun h => by rw [h]; rfl
  text := fun h => by rw [h]; rfl
  left := fun h => by rw [h]; rfl
  wordStart := fun h => h.sameLine.wordStart_eq
  tokenStart := fun h => h.sameLine.tokenStart_eq
  tokenEnd := fun h => h.sameLine.tokenEnd_eq
  tokenPrefix := fun h => h.sameLine.tokenPrefix_eq
  spaceLen := fun h _ _ _ => by rw [h]; rfl
  display := fun h => by rw [h]; rfl
  storage := fun h => by rw [h]; rfl
  depth := fun h => by rw [h]; rfl
  count := fun h => by rw [h]; rfl
  newest := fun h _ => by rw [h]; rfl
  resolve := fun h _ => by rw [h]; rfl
  help := fun h _ _ => by rw [h]; rfl
  rootExact := fun h _ => by rw [h]; rfl
  rootLimit := fun h => by rw [h]; rfl
  rootCandidate := fun h _ => by rw [h]; rfl

/-! ## One byte on both sides -/

/-- The decoder treats a carriage return and a line feed alike. -/
private theorem shAnsiFeed_lineFeed (decoder : AnsiDecoder) (byte : Byte) :
    shAnsiFeed decoder (lineFeed byte) = shAnsiFeed decoder byte := by
  unfold lineFeed
  split_ifs with h
  · subst h
    unfold shAnsiFeed
    cases decoder.state <;> rfl
  · rfl

/-- The editor treats a carriage return and a line feed alike. -/
private theorem editByte_lineFeed (env : Env ω) (st : Sys ω) (byte : Byte) :
    editByte env st (lineFeed byte) = editByte env st byte := by
  unfold lineFeed
  split_ifs with h
  · unfold editByte
    rw [if_pos (Or.inr rfl), if_pos (Or.inl h)]
  · rfl

/-- Behind the check for a pair, the flag says whether the byte was a carriage return. -/
theorem feedByte_lastCr (env : Env ω) (st : Sys ω) (byte : Byte) :
    (feedByte env st byte).1.sh.lastInputWasCr = decide (byte = chr '\r') := by
  unfold feedByte
  dsimp only
  split_ifs
  · exact (EditSteps.sameInput (handleEscapeKey_steps env _ _)).lastCr
  · rfl
  · exact (EditSteps.sameInput (editByte_steps env _ byte)).lastCr

/-- **A byte and its normalised form** have the same effect, when neither ends a pair. -/
theorem feedByte_lineFeed (env : Env ω) {st st' : Sys ω} (h : Sim SameButCr st st') (byte : Byte) :
    SimResult SameButCr (feedByte env st byte) (feedByte env st' (lineFeed byte)) := by
  have hansi : st'.sh.ansi = st.sh.ansi := (sameButCr_simulation env).ansi h.shell
  have hfed : Sim SameButCr
      (st.modify fun s => (s.setLastInputWasCr (decide (byte = chr '\r'))).setAnsi
        (shAnsiFeed st.sh.ansi byte).1)
      (st'.modify fun s => (s.setLastInputWasCr (decide (lineFeed byte = chr '\r'))).setAnsi
        (shAnsiFeed st.sh.ansi byte).1) := by
    refine ⟨?_, h.io, h.trace⟩
    unfold SameButCr
    rw [Sys.modify_sh, Sys.modify_sh, h.shell]
    rfl
  unfold feedByte
  rw [hansi, shAnsiFeed_lineFeed]
  refine SimResult.ite Iff.rfl
    (fun _ => ⟨(sameButCr_simulation env).handleEscapeKey hfed _, rfl⟩) fun _ => ?_
  refine SimResult.ite Iff.rfl (fun _ => ⟨hfed, rfl⟩) fun _ => ?_
  rw [editByte_lineFeed]
  exact (sameButCr_simulation env).editByte hfed byte

/-! ## The stream on both sides -/

/-- The bytes of a stream, one call of `sh_input_byte` each. -/
def inputBytes (data : List Byte) : List (Op ω) := data.map Op.inputByte

/-- The statuses of a run other than `SH_OK`. -/
def errors (env : Env ω) (st : Sys ω) (ops : List (Op ω)) : List Status :=
  (statuses env st ops).filter (· ≠ Status.ok)

/-- Two runs with the same effect: systems that are alike, and the same errors. -/
structure SameRun (env : Env ω) (st st' : Sys ω) (ops ops' : List (Op ω)) : Prop where
  sys : Sim SameButCr (run env st ops) (run env st' ops')
  errors : errors env st' ops' = errors env st ops

/-- A call that only one side makes, and that returns `SH_OK`. -/
private theorem SameRun.skip {env : Env ω} {st st' : Sys ω} (op : Op ω) {ops ops' : List (Op ω)}
    (hok : (op.apply env st).2 = Status.ok) (h : SameRun env (op.apply env st).1 st' ops ops') :
    SameRun env st st' (op :: ops) ops' := by
  refine ⟨h.sys, ?_⟩
  rw [h.errors, PortableShell.errors, PortableShell.errors, statuses, hok]
  rfl

/-- A call on both sides with results that are alike. -/
theorem SameRun.cons {env : Env ω} {st st' : Sys ω} (op op' : Op ω) {ops ops' : List (Op ω)}
    (hstatus : (op'.apply env st').2 = (op.apply env st).2)
    (h : SameRun env (op.apply env st).1 (op'.apply env st').1 ops ops') :
    SameRun env st st' (op :: ops) (op' :: ops') := by
  refine ⟨h.sys, ?_⟩
  have herrors := h.errors
  unfold PortableShell.errors at herrors ⊢
  rw [statuses, statuses, hstatus, List.filter_cons, List.filter_cons, herrors]

/-- **A stream and its normalised form** side by side: the flag of the second shell stays clear.

**Proof sketch.** Induction on the stream. The line feed of a pair only clears the flag of the first
shell, so the second one skips it. Any other byte is fed by both, a terminator as a line feed, and
leaves the flag that `lfFrom` keeps. -/
theorem sameRun_lfFrom (env : Env ω) {st st' : Sys ω} (h : Sim SameButCr st st')
    (hcr : st'.sh.lastInputWasCr = false) (data : List Byte) :
    SameRun env st st' (inputBytes data) (inputBytes (lfFrom st.sh.lastInputWasCr data)) := by
  induction data generalizing st st' with
  | nil => exact ⟨h, rfl⟩
  | cons byte data ih =>
    by_cases hpair : byte = chr '\n' ∧ st.sh.lastInputWasCr = true
    · -- the line feed of a pair only clears the flag
      have hbyte : shInputByte env st byte = (st.modify (·.setLastInputWasCr false), Status.ok) :=
        if_pos hpair
      have hclear : Sim SameButCr (st.modify (·.setLastInputWasCr false)) st' := by
        refine ⟨?_, h.io, h.trace⟩
        rw [Sys.modify_sh, SameButCr, h.shell]
        rfl
      rw [lfFrom, if_pos hpair]
      refine SameRun.skip (.inputByte byte) ?_ ?_
      · rw [Op.apply, hbyte]
      · rw [Op.apply, hbyte]
        exact ih hclear hcr
    · have hbyte : shInputByte env st byte = feedByte env st byte := if_neg hpair
      have hbyte' : shInputByte env st' (lineFeed byte) = feedByte env st' (lineFeed byte) := by
        refine if_neg ?_
        rw [hcr]
        rintro ⟨-, hfalse⟩
        cases hfalse
      have hboth := feedByte_lineFeed env h byte
      have hflag := feedByte_lastCr env st byte
      have hflag' := feedByte_lastCr env st' (lineFeed byte)
      rw [decide_eq_false (lineFeed_ne_cr byte)] at hflag'
      rw [lfFrom, if_neg hpair, ← hflag]
      refine SameRun.cons (.inputByte byte) (.inputByte (lineFeed byte)) ?_ ?_
      · rw [Op.apply, Op.apply, hbyte, hbyte']
        exact hboth.status
      · rw [Op.apply, Op.apply, hbyte, hbyte']
        exact ih hboth.sys hflag'

/-- **Line endings do not matter**: from a state whose last byte was not a carriage return, a
stream and the stream with every pair and every other carriage return replaced by one line feed
give the same output and the same calls of handlers, the same errors in the same order, and the
same shell up to the flag.

**Proof sketch.** `sameRun_lfFrom` from a system and itself. -/
theorem lf_equiv (env : Env ω) (st : Sys ω) (hcr : st.sh.lastInputWasCr = false)
    (data : List Byte) :
    (run env st (inputBytes (lf data))).trace = (run env st (inputBytes data)).trace ∧
      (run env st (inputBytes (lf data))).io = (run env st (inputBytes data)).io ∧
      errors env st (inputBytes (lf data)) = errors env st (inputBytes data) ∧
      (run env st (inputBytes (lf data))).sh.setLastInputWasCr false =
        (run env st (inputBytes data)).sh.setLastInputWasCr false := by
  have hself : Sim SameButCr st st := ⟨rfl, rfl, rfl⟩
  have hrun := sameRun_lfFrom env hself hcr data
  rw [hcr, lfFrom_false] at hrun
  refine ⟨hrun.sys.trace, hrun.sys.io, hrun.errors, ?_⟩
  rw [hrun.sys.shell]
  rfl

/-- Two commands and an unknown one with all kinds of line endings, one inside a sequence. -/
def mixedEndings : List Byte := ascii "led on\r\nled\r\rnope\n\n\x1b[\r\nled"

example : lf mixedEndings = ascii "led on\nled\n\nnope\n\n\x1b[\nled" := by decide +kernel

/-- The small shell reads this stream: commands are executed, and one line is an error. -/
theorem lf_equiv_small :
    .handler 7 [str "led", str "on"] none ∈ (run idleEnv ledSys (inputBytes mixedEndings)).trace ∧
      errors idleEnv ledSys (inputBytes mixedEndings) = [Status.errUnknownCommand] ∧
      (run idleEnv ledSys (inputBytes (lf mixedEndings))).trace =
        (run idleEnv ledSys (inputBytes mixedEndings)).trace ∧
      (run idleEnv ledSys (inputBytes (lf mixedEndings))).io =
        (run idleEnv ledSys (inputBytes mixedEndings)).io ∧
      errors idleEnv ledSys (inputBytes (lf mixedEndings)) =
        errors idleEnv ledSys (inputBytes mixedEndings) ∧
      (run idleEnv ledSys (inputBytes (lf mixedEndings))).sh.setLastInputWasCr false =
        (run idleEnv ledSys (inputBytes mixedEndings)).sh.setLastInputWasCr false := by
  refine ⟨?_, ?_, lf_equiv idleEnv ledSys rfl mixedEndings⟩
  · decide +kernel
  · decide +kernel

/-! ## A block -/

/-- `sh_input` makes the calls for its bytes and returns the first error.

**Proof sketch.** Induction on the bytes, with the status so far as accumulator: once it is an error
it stays. -/
private theorem shInput_eq (env : Env ω) (st : Sys ω) (data : List Byte) :
    shInput env st data =
      (run env st (inputBytes data), (errors env st (inputBytes data)).headD Status.ok) := by
  have hfold : ∀ acc : Sys ω × Status, data.foldl (inputStep env) acc =
      (run env acc.1 (inputBytes data), if acc.2 = Status.ok then
        (errors env acc.1 (inputBytes data)).headD Status.ok else acc.2) := by
    induction data with
    | nil =>
      intro acc
      refine Prod.ext rfl ?_
      split_ifs with hok
      · exact hok
      · rfl
    | cons byte data ih =>
      intro acc
      rw [List.foldl_cons, ih]
      refine Prod.ext rfl ?_
      have herrors : errors env acc.1 (inputBytes (byte :: data)) =
          ([(shInputByte env acc.1 byte).2].filter (· ≠ Status.ok)) ++
            errors env (shInputByte env acc.1 byte).1 (inputBytes data) :=
        List.filter_append [_] _
      rw [herrors]
      dsimp only [inputStep]
      by_cases hacc : acc.2 = Status.ok <;>
        by_cases hbyte : (shInputByte env acc.1 byte).2 = Status.ok <;>
        simp [hacc, hbyte]
  exact hfold (st, Status.ok)

/-- **A block and its normalised form** return the same. -/
theorem shInput_lf_status (env : Env ω) (st : Sys ω) (hcr : st.sh.lastInputWasCr = false)
    (data : List Byte) : (shInput env st (lf data)).2 = (shInput env st data).2 := by
  have hself : Sim SameButCr st st := ⟨rfl, rfl, rfl⟩
  have hrun := sameRun_lfFrom env hself hcr data
  rw [hcr, lfFrom_false] at hrun
  rw [shInput_eq, shInput_eq, hrun.errors]

end PortableShell
