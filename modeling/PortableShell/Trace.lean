import PortableShell.Acts

set_option relaxedAutoImplicit false
set_option autoImplicit false

/-!
# Observations of a run

The trace of a run records output, executed lines and handler calls. An observer that ignores
output sees nothing of acts that enter, dispatch and call nothing, so nearly nothing of editing.
This file says what there is to see: line terminators, dispatches and handler calls.

## Main definitions

* `PortableShell.Sys.observe` — the events of a trace that an observer sees.
* `PortableShell.IgnoresOutput` — the observer ignores output.
* `PortableShell.lineArgv` — the argument vector that executing a line dispatches.

## Main results

* `PortableShell.Acts.observe` — acts without calls are not seen.
* `PortableShell.observe_dispatch` — a dispatch is seen, and the handler call it comes to.
* `PortableShell.observe_shExecuteLine` — executing a line is one dispatch or none.
* `PortableShell.observe_editByte` — editing is not seen.
-/

namespace PortableShell

variable {ω α : Type}

/-- The events of a trace that an observer sees. -/
def Sys.observe (f : Event → Option α) (st : Sys ω) : List α := st.trace.filterMap f

/-- The observer ignores output. -/
structure IgnoresOutput (f : Event → Option α) : Prop where
  write : ∀ data, f (.write data) = none
  handlerWrite : ∀ data, f (.handlerWrite data) = none

variable {f : Event → Option α} (env : Env ω)

/-- The observer looks at the trace. -/
theorem observe_eq {st st' : Sys ω} (h : st'.trace = st.trace) : st'.observe f = st.observe f := by
  rw [Sys.observe, Sys.observe, h]

/-- A new event is seen or not. -/
theorem observe_emit (st : Sys ω) (e : Event) :
    (st.emit e).observe f = st.observe f ++ (f e).toList := by
  simp only [Sys.observe, Sys.emit_trace, List.filterMap_append, List.filterMap_cons,
    List.filterMap_nil]
  cases f e <;> rfl

/-! ## Acts that are not seen -/

/-- **Acts without calls** are not seen. -/
theorem Acts.observe {T : Shell → Shell → Prop} {E : (ω → ω) → Prop} (hf : IgnoresOutput f)
    {st st' : Sys ω} (h : Acts env T E False st st') : st'.observe f = st.observe f := by
  induction h with
  | refl => rfl
  | @tail a b _ hact ih =>
    rw [← ih]
    cases hact with
    | update log hsteps hlog hio htrace haccesses => exact observe_eq htrace
    | write data => exact (observe_emit a (.write data)).trans (by simp [hf.write data])
    | handlerWrite data =>
      exact (observe_emit a (.handlerWrite data)).trans (by simp [hf.handlerWrite data])
    | flush => rfl
    | effect hE => rfl
    | event hC he => exact absurd hC id

/-- The core's output is not seen. -/
theorem observe_writes (hf : IgnoresOutput f) (st : Sys ω) (texts : List (List Byte)) :
    (writes env st texts).observe f = st.observe f :=
  Acts.observe env (T := Step) (E := fun _ => True) hf (writes_acts env st texts)

/-- Starting a session is not seen. -/
theorem observe_shStart (hf : IgnoresOutput f) (st : Sys ω) :
    (shStart env st).1.observe f = st.observe f :=
  Acts.observe env (E := fun _ => True) hf (shStart_acts env st)

/-- Application code is not seen. -/
private theorem observe_runCalls (hf : IgnoresOutput f) (st : Sys ω) (calls : List (ApiCall ω)) :
    (runCalls env st calls).observe f = st.observe f :=
  Acts.observe env (E := fun _ => True) hf (runCalls_acts env st fun _ _ => trivial)

/-- Inserting a character is not seen. -/
theorem observe_insertChar (hf : IgnoresOutput f) (st : Sys ω) {c : Byte} (hc : c ≠ 0) :
    (insertChar env st c).1.observe f = st.observe f :=
  Acts.observe env (E := fun _ => True) hf (insertChar_acts env st hc)

/-- An escape key is not seen. -/
theorem observe_handleEscapeKey (hf : IgnoresOutput f) (st : Sys ω) (key : AnsiEvent) :
    (handleEscapeKey env st key).observe f = st.observe f :=
  Acts.observe env (E := fun _ => True) hf (handleEscapeKey_acts env st key)

/-- **Editing is not seen**: of the bytes that reach the editor only the line terminators are. -/
theorem observe_editByte (hf : IgnoresOutput f) (st : Sys ω) {byte : Byte}
    (hcr : byte ≠ chr '\r') (hlf : byte ≠ chr '\n') :
    (editByte env st byte).1.observe f = st.observe f :=
  Acts.observe env hf (editByte_acts env env.actsBy_true st fun h => h.elim hcr hlf)

/-! ## Dispatch -/

/-- The handler call that a plan comes to, as it is seen. -/
def Plan.observed (f : Event → Option α) : Plan → List α
  | .handler fn argv ctx => (f (.handler fn argv ctx)).toList
  | _ => []

/-- Performing a plan shows the handler call only. -/
private theorem observe_perform (hf : IgnoresOutput f) (st : Sys ω) (argv : List CStr) (p : Plan) :
    (perform env st argv p).1.observe f = st.observe f ++ p.observed f := by
  cases p with
  | print texts status => exact (observe_writes env hf st texts).trans (List.append_nil _).symm
  | history =>
    have hnone := Acts.observe env (E := fun _ => True) hf (builtinHistory_acts env st argv)
    exact hnone.trans (List.append_nil _).symm
  | echo =>
    have hnone := Acts.observe env (E := fun _ => True) hf (builtinEcho_acts env st argv)
    exact hnone.trans (List.append_nil _).symm
  | handler fn args ctx =>
    rw [perform, callHandler]
    simp only [Plan.observed]
    rw [observe_runCalls env hf, observe_emit]

/-- **A dispatch** is seen, and the handler call it comes to. -/
theorem observe_dispatch (hf : IgnoresOutput f) (st : Sys ω) (argv : List CStr) :
    (shCommandDispatchInternal env st argv).1.observe f =
      st.observe f ++ (f (.dispatch argv)).toList ++ (plan st.sh argv).observed f := by
  rw [dispatch_eq, observe_perform env hf, observe_emit]

/-! ## Executing a line -/

/-- The argument vector that executing a line dispatches. -/
def lineArgv (s : Shell) (line : CStr) : Option (List CStr) :=
  if line.length ≥ shMaxLineLen + 1 ∨ line.length ≥ s.lineCapacity then none
  else
    let r := shTokenize (line.bytes ++ [0]) s.argvCapacity
    if r.status ≠ Status.ok ∨ r.argv = [] then none else some r.texts

/-- **A line that is tokenized** is recorded and dispatched. -/
theorem shExecuteLine_eq {st : Sys ω} {line : CStr} {argv : List CStr}
    (h : lineArgv st.sh line = some argv) :
    shExecuteLine env st line =
      let stored := (st.touch .argv (shTokenize (line.bytes ++ [0])
        st.sh.argvCapacity).argv.length).modify (·.setArgv argv)
      let res := shCommandDispatchInternal env (recordLine env stored line argv) argv
      (cleanup res.1, res.2) := by
  unfold lineArgv at h
  unfold shExecuteLine
  split_ifs at h with hlong
  rw [if_neg hlong]
  dsimp only at h ⊢
  generalize shTokenize (line.bytes ++ [0]) st.sh.argvCapacity = r at h ⊢
  split_ifs at h with hr
  obtain rfl := Option.some.inj h
  unfold executeTokens
  rw [if_neg fun hs => hr (.inl hs), if_neg fun ha => hr (.inr ha)]

/-- Recording a line is not seen. -/
private theorem observe_recordLine (hf : IgnoresOutput f) (st : Sys ω) (line : CStr)
    (argv : List CStr) :
    (recordLine env st line argv).observe f = st.observe f :=
  Acts.observe env (E := fun _ => True) hf (recordLine_acts env st line argv)

/-- Recording a line leaves the registry and the configuration alone. -/
theorem recordLine_sameRegistry (st : Sys ω) (line : CStr) (argv : List CStr) :
    SameRegistry st.sh (recordLine env st line argv).sh := by
  rw [recordLine]
  cases buildHistoryLine env st.sh line argv with
  | none => exact ⟨rfl, rfl, rfl⟩
  | some historyLine =>
    dsimp only
    rw [shHistoryAddInternal_sh]
    split_ifs <;> exact ⟨rfl, rfl, rfl⟩

/-- What an observer sees of a dispatched line. -/
def lineObserved (f : Event → Option α) (s : Shell) : Option (List CStr) → List α
  | none => []
  | some argv => (f (.dispatch argv)).toList ++ (plan s argv).observed f

/-- **Executing a line** is one dispatch or none. -/
theorem observe_shExecuteLine (hf : IgnoresOutput f) (st : Sys ω) (line : CStr) :
    (shExecuteLine env st line).1.observe f =
      st.observe f ++ lineObserved f st.sh (lineArgv st.sh line) := by
  rw [shExecuteLine, lineArgv]
  split_ifs with hlong
  · rw [observe_writes env hf]
    simp [lineObserved]
  · dsimp only
    generalize shTokenize (line.bytes ++ [0]) st.sh.argvCapacity = r
    change (executeTokens env _ line r).1.observe f = _
    rw [executeTokens]
    by_cases hs : r.status ≠ Status.ok
    · rw [if_pos hs, if_pos (Or.inl hs), observe_writes env hf]
      simp [lineObserved, Sys.observe]
    · by_cases ha : r.argv = []
      · rw [if_neg hs, if_pos ha, if_pos (Or.inr ha)]
        simp [lineObserved, Sys.observe]
      · rw [if_neg hs, if_neg ha, if_neg (by tauto), observe_dispatch env hf,
          observe_recordLine env hf]
        have hreg := recordLine_sameRegistry env ((st.touch .argv r.argv.length).modify
          (·.setArgv r.texts)) line r.texts
        rw [hreg.plan_eq]
        simp only [lineObserved, List.append_assoc]
        rfl

/-- Enter is seen, and the line it executes. -/
theorem observe_handleEnter (hf : IgnoresOutput f) (st : Sys ω) :
    (handleEnter env st).1.observe f = st.observe f ++ (f .enter).toList ++
      lineObserved f st.sh
        (if st.sh.lineLen < shMaxLineLen + 1 then lineArgv st.sh st.sh.execText else none) := by
  have henter : (writeInternal env (st.emit .enter) (str "\r\n")).observe f =
      st.observe f ++ (f .enter).toList := by
    rw [writeInternal_eq, observe_writes env hf, observe_emit]
  have hfinish : ∀ st' : Sys ω, (finishEnter env st').observe f = st'.observe f := fun st' =>
    observe_writes env hf ((touchEraseDraft (touchErase st')).modify _) [_]
  rw [handleEnter, hfinish, ← henter]
  have hsh : (writeInternal env (st.emit .enter) (str "\r\n")).sh = st.sh := rfl
  rw [← hsh]
  generalize writeInternal env (st.emit .enter) (str "\r\n") = st'
  rw [executeTyped]
  split_ifs
  · exact observe_shExecuteLine env hf (st'.touch .line st'.sh.lineLen) _
  · simp [lineObserved]

end PortableShell
