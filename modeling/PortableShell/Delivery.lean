import PortableShell.Acts
import PortableShell.PartialWrites

set_option relaxedAutoImplicit false
set_option autoImplicit false

/-!
# What reaches the device

The core ignores the status of nearly everything it prints, so output can be lost. This file shows
how it can be lost: over a transport that reports truthfully what it takes, a device gets, over any
run, a beginning of each text that is printed, in the order in which the texts are printed, and
nothing else. When each text is taken within the attempts of the configuration, nothing is lost.

## Main definitions

* `PortableShell.OutStep` — what a call does to the outside world and to the list of texts.
* `PortableShell.Outputs` — a call that does such steps only.
* `PortableShell.Delivers` — what a transport does to the bytes that a device has.
* `PortableShell.Truthful` — a transport that reports what it takes.

## Main results

* `PortableShell.Outputs.of_act`, `run_outputs` — an act and a run do such steps only.
* `PortableShell.Delivers.run` — the bytes that a device has after a run.
* `PortableShell.Truthful.delivers` — a truthful transport takes a beginning of each text.
-/

namespace PortableShell

open Relation

variable {ω : Type}

/-! ## Steps of the outside world -/

/-- The texts that the core and the application hand to the backend, in order. -/
def outputTexts (trace : List Event) : List (List Byte) :=
  trace.filterMap fun
    | .write data => some data
    | .handlerWrite data => some data
    | _ => none

/-- The outside world and the texts printed so far. -/
def Sys.face (st : Sys ω) : ω × List (List Byte) := (st.io, outputTexts st.trace)

/-- What can happen to the outside world: a text is printed, the backend is flushed, or the
application acts on its own. -/
inductive OutStep (env : Env ω) (cfg : Config) (E : (ω → ω) → Prop) :
    ω × List (List Byte) → ω × List (List Byte) → Prop
  | write (io : ω) (texts : List (List Byte)) (data : List Byte) :
      OutStep env cfg E (io, texts) ((backendWrite env cfg io data).1, texts ++ [data])
  | flush (io : ω) (texts : List (List Byte)) :
      OutStep env cfg E (io, texts) ((backendFlush env cfg io).1, texts)
  | effect (io : ω) (texts : List (List Byte)) {f : ω → ω} (hf : E f) :
      OutStep env cfg E (io, texts) (f io, texts)

/-- One system is reached from another one by such steps, with the configuration it had. -/
structure Outputs (env : Env ω) (E : (ω → ω) → Prop) (st st' : Sys ω) : Prop where
  cfg_eq : st'.sh.cfg = st.sh.cfg
  steps : ReflTransGen (OutStep env st.sh.cfg E) st.face st'.face

namespace Outputs

variable {env : Env ω} {T : Shell → Shell → Prop} {E : (ω → ω) → Prop} {C : Prop}
  {st₀ st st' : Sys ω}

/-- Nothing happened yet. -/
theorem refl (st : Sys ω) : Outputs env E st st := ⟨rfl, .refl⟩

/-- One call after the other. -/
theorem trans (h : Outputs env E st₀ st) (h' : Outputs env E st st') : Outputs env E st₀ st' :=
  ⟨h'.cfg_eq.trans h.cfg_eq, h.steps.trans (h.cfg_eq ▸ h'.steps)⟩

/-- The face of a system behind an event. -/
private theorem face_emit (st : Sys ω) (io : ω) (e : Event) :
    Sys.face { st with io := io, trace := st.trace ++ [e] } =
      (io, outputTexts st.trace ++ outputTexts [e]) := by
  rw [Sys.face, outputTexts, outputTexts, outputTexts, List.filterMap_append]

/-- **An act** is a step of the outside world, or none. -/
theorem of_act (hT : ∀ s s', T s s' → s'.cfg = s.cfg) (h : Act env T E C st st') :
    Outputs env E st st' := by
  cases h with
  | update log hsteps hlog hio htrace haccesses =>
    refine ⟨keeps_of_steps (T := T) (P := fun s => s.cfg = st.sh.cfg)
      (fun s s' hstep hs => (hT s s' hstep).trans hs) hsteps rfl, ?_⟩
    rw [Sys.face, Sys.face, hio, htrace]
  | write data =>
    refine ⟨rfl, .single ?_⟩
    rw [shWrite, face_emit]
    exact .write _ _ _
  | handlerWrite data =>
    refine ⟨rfl, .single ?_⟩
    rw [PortableShell.runCall, face_emit]
    exact .write _ _ _
  | flush => exact ⟨rfl, .single (.flush _ _)⟩
  | effect hf => exact ⟨rfl, .single (.effect _ _ hf)⟩
  | event hC he =>
    refine ⟨rfl, ?_⟩
    rw [Sys.emit, face_emit]
    cases he <;> rw [Sys.face, outputTexts, outputTexts, List.filterMap_cons_none rfl,
      List.filterMap_nil, List.append_nil]

/-- A sequence of acts. -/
theorem acts (hT : ∀ s s', T s s' → s'.cfg = s.cfg) (h : Outputs env E st₀ st)
    (hacts : Acts env T E C st st') : Outputs env E st₀ st' := by
  induction hacts with
  | refl => exact h
  | tail _ hact ih => exact ih.trans (of_act hT hact)

/-- A step of the outside world. -/
theorem act (h : Outputs env E st₀ st) {f : ω → ω} (hf : E f) :
    Outputs env E st₀ { st with io := f st.io } :=
  h.trans (of_act (T := Step) (C := True) (fun _ _ hstep => hstep.sameSetup.cfg) (.effect st hf))

/-- A write of the core. -/
theorem shWrite (h : Outputs env E st₀ st) (data : List Byte) :
    Outputs env E st₀ (PortableShell.shWrite env st data).1 :=
  h.trans (of_act (T := Step) (C := True) (fun _ _ hstep => hstep.sameSetup.cfg) (.write st data))

/-- One use of the API by application code. -/
theorem runCall (h : Outputs env E st₀ st) {call : ApiCall ω}
    (hcall : ∀ f, call = .effect f → E f) :
    Outputs env E st₀ (PortableShell.runCall env st call) :=
  h.acts (C := True) (fun _ _ hstep => hstep.sameSetup.cfg) (runCall_acts env st hcall)

/-- **A call of the API.** -/
theorem apply (h : Outputs env E st₀ st) (hE : env.ActsBy E) {op : Op ω}
    (hop : ∀ f, op = .api (.effect f) → E f) : Outputs env E st₀ (op.apply env st).1 :=
  h.acts (fun _ _ hstep => hstep.sameSetup.cfg) (apply_acts env hE trivial st hop)

end Outputs

/-- **A run** prints, flushes and lets the application act, and does nothing else to the world. -/
theorem run_outputs {env : Env ω} {E : (ω → ω) → Prop} (hE : env.ActsBy E) (st : Sys ω)
    (ops : List (Op ω)) (hops : ∀ f, .api (.effect f) ∈ ops → E f) :
    Outputs env E st (run env st ops) :=
  (Outputs.refl st).acts (fun _ _ hstep => hstep.sameSetup.cfg)
    (run_acts env hE trivial st ops hops)

/-! ## What a device has -/

/-- What the backend does to the bytes that a device has: of each text it takes those that `T`
allows. The device is `Ready` between two texts. -/
structure Delivers (env : Env ω) (cfg : Config) (E : (ω → ω) → Prop) (Ready : ω → Prop)
    (sent : ω → List Byte) (T : List Byte → List Byte → Prop) : Prop where
  write : ∀ io data, Ready io → Ready (backendWrite env cfg io data).1 ∧
    ∃ taken, T taken data ∧ sent (backendWrite env cfg io data).1 = sent io ++ taken
  flush : ∀ io, Ready io → Ready (backendFlush env cfg io).1 ∧
    sent (backendFlush env cfg io).1 = sent io
  effect : ∀ f, E f → ∀ io, Ready io → Ready (f io) ∧ sent (f io) = sent io

namespace Delivers

variable {env : Env ω} {cfg : Config} {E : (ω → ω) → Prop} {Ready : ω → Prop}
  {sent : ω → List Byte} {T : List Byte → List Byte → Prop}

/-- Steps of the world: the device gets a part of each text, in order. -/
theorem steps (h : Delivers env cfg E Ready sent T) {a b : ω × List (List Byte)}
    (hsteps : ReflTransGen (OutStep env cfg E) a b) (ha : Ready a.1) :
    Ready b.1 ∧ ∃ texts taken, b.2 = a.2 ++ texts ∧ List.Forall₂ T taken texts ∧
      sent b.1 = sent a.1 ++ taken.flatten := by
  induction hsteps with
  | refl => exact ⟨ha, [], [], (List.append_nil _).symm, .nil, (List.append_nil _).symm⟩
  | tail _ hstep ih =>
    obtain ⟨hready, texts, taken, htexts, hall, hsent⟩ := ih
    cases hstep with
    | write io before data =>
      obtain ⟨hready', taken', htaken, hsent'⟩ := h.write io data hready
      refine ⟨hready', texts ++ [data], taken ++ [taken'], ?_, ?_, ?_⟩
      · rw [← List.append_assoc, ← htexts]
      · exact List.rel_append hall (.cons htaken .nil)
      · rw [hsent', hsent, List.flatten_append, List.flatten_singleton, List.append_assoc]
    | flush io before =>
      obtain ⟨hready', hsent'⟩ := h.flush io hready
      exact ⟨hready', texts, taken, htexts, hall, hsent'.trans hsent⟩
    | effect io before hf =>
      obtain ⟨hready', hsent'⟩ := h.effect _ hf io hready
      exact ⟨hready', texts, taken, htexts, hall, hsent'.trans hsent⟩

/-- **A run**: the device gets a part of each text that is printed, in order, and nothing else. -/
theorem run {st : Sys ω} (h : Delivers env st.sh.cfg E Ready sent T) (hE : env.ActsBy E)
    (hready : Ready st.io) (ops : List (Op ω)) (hops : ∀ f, .api (.effect f) ∈ ops → E f) :
    Ready (PortableShell.run env st ops).io ∧ ∃ texts taken,
      outputTexts (PortableShell.run env st ops).trace = outputTexts st.trace ++ texts ∧
      List.Forall₂ T taken texts ∧
      sent (PortableShell.run env st ops).io = sent st.io ++ taken.flatten :=
  h.steps (run_outputs hE st ops hops).steps hready

end Delivers

/-! ## Truthful transports -/

/-- A transport that reports what it takes: `sent` are the bytes that the device has. -/
structure Truthful (t : Transport ω) (sent : ω → List Byte) : Prop where
  write : ∀ write, t.write = some write → ∀ io data,
    (write io data).2.2 ≤ data.length ∧
      sent (write io data).1 = sent io ++ data.take (write io data).2.2
  flush : ∀ flush, t.flush = some flush → ∀ io, sent (flush io).1 = sent io

namespace Truthful

variable {t : Transport ω} {sent : ω → List Byte}

/-- The partial-write loop: the device gets what the loop reports.

**Proof sketch.** Induction on the attempts that are left. What the loop takes over is the part of
the data that one attempt wrote, followed by what the rest of the loop writes. -/
theorem writeLoop {write : ω → List Byte → ω × TransportStatus × ℕ}
    (hwrite : ∀ io data, (write io data).2.2 ≤ data.length ∧
      sent (write io data).1 = sent io ++ data.take (write io data).2.2)
    (data : List Byte) (n : ℕ) (io : ω) (total : ℕ) (last : TransportStatus) :
    ∃ k, (PortableShell.writeLoop write data n io total last).written = total + k ∧
      sent (PortableShell.writeLoop write data n io total last).io =
        sent io ++ (data.drop total).take k := by
  have hnone : ∃ k, total = total + k ∧ sent io = sent io ++ (data.drop total).take k :=
    ⟨0, rfl, (List.append_nil _).symm⟩
  induction n generalizing io total last with
  | zero => exact hnone
  | succ n ih =>
    obtain ⟨hle, hsent⟩ := hwrite io (data.drop total)
    rw [List.length_drop] at hle
    unfold PortableShell.writeLoop
    dsimp only
    split_ifs with hleft hover
    · exact absurd hover (not_lt.mpr hle)
    · exact ⟨_, rfl, hsent⟩
    · exact ⟨_, rfl, hsent⟩
    · exact ⟨_, rfl, hsent⟩
    · exact ⟨_, rfl, hsent⟩
    · -- the loop goes on behind the bytes taken
      obtain ⟨k, hwritten, hrest⟩ := ih (write io (data.drop total)).1
        (total + (write io (data.drop total)).2.2) (write io (data.drop total)).2.1
        ⟨0, rfl, (List.append_nil _).symm⟩
      refine ⟨(write io (data.drop total)).2.2 + k, by rw [hwritten, Nat.add_assoc], ?_⟩
      rw [hrest, hsent, List.append_assoc, List.take_add, List.drop_drop]
    · exact hnone
    · exact hnone

/-- `sh_transport_write_all`: the device gets as many bytes of the text as are reported. -/
theorem writeAll (h : Truthful t sent) (io : ω) (data : List Byte) (attempts : ℕ) :
    sent (shTransportWriteAll t io data attempts).io =
      sent io ++ data.take (shTransportWriteAll t io data attempts).written := by
  unfold shTransportWriteAll
  cases hwrite : t.write with
  | none => exact (List.append_nil _).symm
  | some write =>
    dsimp only
    split_ifs
    · exact (List.append_nil _).symm
    · exact (List.append_nil _).symm
    · obtain ⟨k, hwritten, hsent⟩ := writeLoop (h.write write hwrite) data attempts io 0 .ok
      rw [hwritten, hsent, List.drop_zero, Nat.zero_add]

variable {env : Env ω} {cfg : Config} {p : Ptr}

/-- `sh_write`: the device gets a beginning of the text, and all of it when `SH_OK` is returned. -/
theorem backendWrite (h : Truthful (env.transport p) sent) (hcfg : cfg.transport = some p) (io : ω)
    (data : List Byte) : ∃ taken, taken <+: data ∧
      sent (PortableShell.backendWrite env cfg io data).1 = sent io ++ taken ∧
      ((PortableShell.backendWrite env cfg io data).2 = Status.ok → taken = data) := by
  have hall := h.writeAll io data cfg.transportWriteAttempts
  rw [PortableShell.backendWrite, hcfg]
  refine ⟨_, List.take_prefix _ _, hall, ?_⟩
  dsimp only
  split_ifs with hdone hblocked
  · intro _
    rw [hdone.2, List.take_length]
  · exact fun hok => absurd hok (by decide)
  · exact fun hok => absurd hok (by decide)

/-- `sh_flush`: the device gets nothing more. -/
theorem backendFlush (h : Truthful (env.transport p) sent) (hcfg : cfg.transport = some p)
    (io : ω) : sent (PortableShell.backendFlush env cfg io).1 = sent io := by
  rw [PortableShell.backendFlush, hcfg]
  dsimp only
  rw [shTransportFlush]
  cases hflush : (env.transport p).flush with
  | none => rfl
  | some flush => exact h.flush flush hflush io

/-- **A truthful transport** takes a beginning of each text. -/
theorem delivers (h : Truthful (env.transport p) sent) (hcfg : cfg.transport = some p)
    {E : (ω → ω) → Prop} (hsent : ∀ f, E f → ∀ io, sent (f io) = sent io) :
    Delivers env cfg E (fun _ => True) sent (· <+: ·) where
  write := by
    intro io data _
    obtain ⟨taken, hprefix, htaken, _⟩ := h.backendWrite hcfg io data
    exact ⟨trivial, taken, hprefix, htaken⟩
  flush := fun io _ => ⟨trivial, h.backendFlush hcfg io⟩
  effect := fun f hf io _ => ⟨trivial, hsent f hf io⟩

end Truthful

/-- **What reaches the device over a run.** Over a truthful transport, when the application leaves
the device to the shell, the device gets a beginning of each text that the core or the application
prints, in order and nothing else; and a text whose write returns `SH_OK` gets there whole. -/
theorem run_delivered {env : Env ω} {st : Sys ω} {p : Ptr} {sent : ω → List Byte}
    (hp : st.sh.cfg.transport = some p) (htruthful : Truthful (env.transport p) sent)
    (hE : env.ActsBy fun f => ∀ io, sent (f io) = sent io) (ops : List (Op ω))
    (hops : ∀ f, .api (.effect f) ∈ ops → ∀ io, sent (f io) = sent io) :
    (∃ texts taken, outputTexts (run env st ops).trace = outputTexts st.trace ++ texts ∧
      List.Forall₂ (· <+: ·) taken texts ∧
      sent (run env st ops).io = sent st.io ++ taken.flatten) ∧
    ∀ data, callStatus env (run env st ops) (.write data) = Status.ok →
      sent (runCall env (run env st ops) (.write data)).io = sent (run env st ops).io ++ data := by
  constructor
  · exact ((htruthful.delivers hp fun _ hf => hf).run hE trivial ops hops).2
  · intro data hok
    have hcfg : (run env st ops).sh.cfg.transport = some p := by
      rw [(run_steps env st ops).sameSetup.cfg]
      exact hp
    obtain ⟨taken, -, hsent, hwhole⟩ := htruthful.backendWrite hcfg (run env st ops).io data
    rw [hwhole hok] at hsent
    exact hsent

/-- A device that takes two bytes at a time and keeps them. -/
def dripping : Transport (List Byte) where
  write := some fun sent data => (sent ++ data.take 2, .ok, (data.take 2).length)
  flush := none

/-- It reports what it takes. -/
private theorem truthful_dripping : Truthful dripping id where
  write := by
    intro write hwrite io data
    obtain rfl := Option.some.inj hwrite
    dsimp only
    rw [List.length_take]
    exact ⟨Nat.min_le_right _ _, by rw [← List.take_eq_take_min]; rfl⟩
  flush := nofun

/-- Application code that does nothing, over this device. -/
def drippingEnv : Env (List Byte) where
  output := fun _ _ io _ => io
  transport := fun _ => dripping
  shouldMaskArg := fun _ _ _ _ _ => false
  handler := fun _ _ _ _ _ => ([], Status.ok)
  completion := fun _ _ _ _ _ _ => ([], none)

/-- A small shell over this device, with two attempts for a text. -/
def drippingShell : Shell :=
  { smallShell with
    cfg := { smallShell.cfg with transport := some 3, transportWriteAttempts := 2 } }

/-- Application code without effects, over this device. -/
private theorem drippingEnv_actsBy (E : (List Byte → List Byte) → Prop) : drippingEnv.ActsBy E where
  handler := by simp [drippingEnv]
  completion := by simp [drippingEnv]

/-- A start, two keys and a command over this device, which gets beginnings of the texts. -/
theorem run_delivered_small :
    ∃ texts taken, outputTexts (run drippingEnv ⟨drippingShell, [], [], []⟩
        [.api .start, .input (ascii "ok"), .executeLine (str "nosuch")]).trace = texts ∧
      List.Forall₂ (· <+: ·) taken texts ∧
      (run drippingEnv ⟨drippingShell, [], [], []⟩
        [.api .start, .input (ascii "ok"), .executeLine (str "nosuch")]).io = taken.flatten :=
  (run_delivered (rfl : drippingShell.cfg.transport = some 3) truthful_dripping
    (drippingEnv_actsBy _) [.api .start, .input (ascii "ok"), .executeLine (str "nosuch")]
    (by simp)).1

end PortableShell
