import PortableShell.Acts

set_option relaxedAutoImplicit false
set_option autoImplicit false

/-!
# What a call does to the outside world

The outside world is reached through the output backend and through application code only. What
the two of them keep, every call keeps.

## Main definitions

* `PortableShell.KeepsOutput` — the backend keeps a property of the world.
* `PortableShell.KeepsWorld` — the application code keeps it, too.

## Main results

* `PortableShell.KeepsOutput.acts` — then every sequence of acts keeps it.
* `PortableShell.KeepsWorld.shInput`, `shExecuteLine`, … — and so do the calls.
-/

namespace PortableShell

variable {ω : Type}

/-- The backend keeps a property of the outside world. -/
structure KeepsOutput (env : Env ω) (P : ω → Prop) : Prop where
  output : ∀ f ctx io data, P io → P (env.output f ctx io data)
  write : ∀ t write io data, (env.transport t).write = some write → P io → P (write io data).1
  flush : ∀ t flush io, (env.transport t).flush = some flush → P io → P (flush io).1

/-- The backend and the application code keep a property of the outside world. -/
structure KeepsWorld (env : Env ω) (P : ω → Prop) : Prop extends KeepsOutput env P where
  handler : ∀ fn view io argv ctx f, .effect f ∈ (env.handler fn view io argv ctx).1 →
    ∀ io', P io' → P (f io')
  completion : ∀ fn view io i j ctx f, .effect f ∈ (env.completion fn view io i j ctx).1 →
    ∀ io', P io' → P (f io')

/-! ## Output -/

namespace KeepsOutput

variable {env : Env ω} {P : ω → Prop}

/-- The partial-write loop. -/
theorem writeLoop {write : ω → List Byte → ω × TransportStatus × ℕ}
    (hwrite : ∀ io data, P io → P (write io data).1) (data : List Byte) (n : ℕ) {io : ω} (h : P io)
    (total : ℕ) (last : TransportStatus) :
    P (PortableShell.writeLoop write data n io total last).io := by
  induction n generalizing io total last with
  | zero => exact h
  | succ n ih =>
    unfold PortableShell.writeLoop
    dsimp only
    split_ifs <;> first | exact h | exact hwrite _ _ h | exact ih (hwrite _ _ h) _ _

variable (hP : KeepsOutput env P)

include hP

/-- The body of `sh_write`. -/
theorem backendWrite (cfg : Config) {io : ω} (h : P io) (data : List Byte) :
    P (PortableShell.backendWrite env cfg io data).1 := by
  unfold PortableShell.backendWrite
  cases cfg.transport with
  | none =>
    cases cfg.write with
    | none => exact h
    | some f =>
      dsimp only
      split_ifs
      · exact hP.output f _ _ _ h
      · exact h
  | some t =>
    show P (shTransportWriteAll (env.transport t) io data cfg.transportWriteAttempts).io
    unfold shTransportWriteAll
    cases hwrite : (env.transport t).write with
    | none => exact h
    | some write =>
      dsimp only
      split_ifs
      · exact h
      · exact h
      · exact writeLoop (fun io data => hP.write t write io data hwrite) data _ h _ _

/-- The body of `sh_flush`. -/
theorem backendFlush (cfg : Config) {io : ω} (h : P io) :
    P (PortableShell.backendFlush env cfg io).1 := by
  unfold PortableShell.backendFlush
  cases cfg.transport with
  | none => exact h
  | some t =>
    show P (shTransportFlush (env.transport t) io).1
    unfold shTransportFlush
    cases hflush : (env.transport t).flush with
    | none => exact h
    | some flush => exact hP.flush t flush io hflush h

/-- **A sequence of acts** keeps what the backend and the effects in it keep. -/
theorem acts {T : Shell → Shell → Prop} {E : (ω → ω) → Prop} {C : Prop} {st st' : Sys ω}
    (hE : ∀ f, E f → ∀ io, P io → P (f io)) (hacts : Acts env T E C st st') (h : P st.io) :
    P st'.io := by
  induction hacts with
  | refl => exact h
  | tail _ hact ih =>
    cases hact with
    | update log hsteps hlog hio htrace haccesses => exact hio ▸ ih
    | write data => exact hP.backendWrite _ ih data
    | handlerWrite data => exact hP.backendWrite _ ih data
    | flush => exact hP.backendFlush _ ih
    | effect hf => exact hE _ hf _ ih
    | event hC he => exact ih

/-- What acts without application code keeps what the backend keeps. -/
theorem core_acts {T : Shell → Shell → Prop} {C : Prop} {st st' : Sys ω}
    (hacts : Acts env T (fun _ => False) C st st') (h : P st.io) : P st'.io :=
  hP.acts (fun _ hf => absurd hf id) hacts h

/-- One use of the API by application code. -/
theorem runCall {st : Sys ω} {call : ApiCall ω}
    (hcall : ∀ f, call = .effect f → ∀ io', P io' → P (f io')) (h : P st.io) :
    P (PortableShell.runCall env st call).io :=
  hP.acts (E := fun f => ∀ io, P io → P (f io)) (C := True) (fun _ hf => hf)
    (runCall_acts env st hcall) h

end KeepsOutput

namespace KeepsWorld

variable {env : Env ω} {P : ω → Prop} {st : Sys ω} (hP : KeepsWorld env P)

include hP

/-- The application code acts in a way that keeps the property. -/
private theorem actsBy : env.ActsBy fun f => ∀ io, P io → P (f io) := ⟨hP.handler, hP.completion⟩

/-- **A sequence of acts** keeps what the surroundings keep. -/
theorem acts {T : Shell → Shell → Prop} {C : Prop} {st' : Sys ω}
    (hacts : Acts env T (fun f => ∀ io, P io → P (f io)) C st st') (h : P st.io) : P st'.io :=
  hP.toKeepsOutput.acts (fun _ hf => hf) hacts h

/-- `sh_start`. -/
theorem shStart (h : P st.io) : P (PortableShell.shStart env st).1.io :=
  hP.acts (C := True) (shStart_acts env st) h

/-- `sh_execute_argv`. -/
theorem shExecuteArgv (h : P st.io) (argv : List CStr) :
    P (PortableShell.shExecuteArgv env st argv).1.io :=
  hP.acts (shExecuteArgv_acts env hP.actsBy trivial st argv) h

/-- `sh_execute_line`. -/
theorem shExecuteLine (h : P st.io) (line : CStr) :
    P (PortableShell.shExecuteLine env st line).1.io :=
  hP.acts (shExecuteLine_acts env hP.actsBy trivial st line) h

/-- **An input byte** keeps what the surroundings keep. -/
theorem shInputByte (h : P st.io) (byte : Byte) :
    P (PortableShell.shInputByte env st byte).1.io :=
  hP.acts (shInputByte_acts env hP.actsBy trivial st byte) h

/-- **A block of input** keeps what the surroundings keep. -/
theorem shInput (h : P st.io) (data : List Byte) : P (PortableShell.shInput env st data).1.io :=
  hP.acts (shInput_acts env hP.actsBy trivial st data) h

end KeepsWorld

end PortableShell
