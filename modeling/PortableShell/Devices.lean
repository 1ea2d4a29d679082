import PortableShell.Surroundings
import PortableShell.Delivery

set_option relaxedAutoImplicit false
set_option autoImplicit false

/-!
# Shells over devices

A device may take a text piece by piece and may refuse to take anything for a while. As long as it
takes each text within the attempts of the configuration, nobody can tell it from a device that
takes each text at once: neither the shell nor the application behaves differently, no call
returns anything else, and the device has the same bytes.

## Main definitions

* `PortableShell.besideDevice` — application code that reaches a device through the shell only.
* `PortableShell.TakesAll` — a device that takes each text within a number of attempts.
* `PortableShell.unbounded` — the device that takes each text at once.
* `PortableShell.GetsOn` — a device that takes some bytes or waits, and not for ever.

## Main results

* `PortableShell.GetsOn.takesAll` — a truthful device that gets on takes each text.
* `PortableShell.TakesAll.answersTogether` — such a device answers as the unbounded one.
* `PortableShell.TakesAll.transparent` — runs over the two devices.
-/

namespace PortableShell

variable {W D : Type}

/-! ## Applications and devices -/

/-- A use of the API by code beside a device. -/
def ApiCall.beside (D : Type) : ApiCall W → ApiCall (W × D)
  | .write data => .write data
  | .flush => .flush
  | .historyClear => .historyClear
  | .setEchoEnabled enabled => .setEchoEnabled enabled
  | .registerCommands commands => .registerCommands commands
  | .registerCommandSets sets => .registerCommandSets sets
  | .start => .start
  | .stop => .stop
  | .effect f => .effect (Prod.map f id)

/-- A call beside a device. -/
def Op.beside (D : Type) : Op W → Op (W × D)
  | .inputByte byte => .inputByte byte
  | .input data => .input data
  | .executeLine line => .executeLine line
  | .executeArgv argv => .executeArgv argv
  | .api call => .api (call.beside D)
  | .prompt => .prompt

/-- A device beside the state of an application. -/
def Transport.beside (W : Type) (dev : Transport D) : Transport (W × D) where
  write := dev.write.map fun write io data => ((io.1, (write io.2 data).1), (write io.2 data).2)
  flush := dev.flush.map fun flush io => ((io.1, (flush io.2).1), (flush io.2).2)

/-- Application code beside a device: it reaches the device through the shell only. -/
def besideDevice (app : Env W) (dev : Transport D) : Env (W × D) where
  output := fun f ctx io data => (app.output f ctx io.1 data, io.2)
  transport := fun _ => dev.beside W
  shouldMaskArg := app.shouldMaskArg
  handler := fun fn view io argv ctx =>
    let r := app.handler fn view io.1 argv ctx
    (r.1.map (ApiCall.beside D), r.2)
  completion := fun fn view io argIndex index ctx =>
    let r := app.completion fn view io.1 argIndex index ctx
    (r.1.map (ApiCall.beside D), r.2)

/-- The partial-write loop leaves the application alone. -/
private theorem writeLoop_beside (write : D → List Byte → D × TransportStatus × ℕ)
    (data : List Byte) (n : ℕ) (w : W) (d : D) (total : ℕ) (last : TransportStatus) :
    writeLoop (fun (io : W × D) data => ((io.1, (write io.2 data).1), (write io.2 data).2)) data n
        (w, d) total last =
      ⟨(w, (writeLoop write data n d total last).io), (writeLoop write data n d total last).status,
        (writeLoop write data n d total last).written⟩ := by
  induction n generalizing d total last with
  | zero => rfl
  | succ n ih =>
    unfold writeLoop
    dsimp only
    split_ifs <;> first | rfl | exact ih _ _ _

/-- `sh_transport_write_all` leaves the application alone. -/
private theorem shTransportWriteAll_beside (dev : Transport D) (w : W) (d : D) (data : List Byte)
    (attempts : ℕ) : shTransportWriteAll (dev.beside W) (w, d) data attempts =
      ⟨(w, (shTransportWriteAll dev d data attempts).io),
        (shTransportWriteAll dev d data attempts).status,
        (shTransportWriteAll dev d data attempts).written⟩ := by
  unfold shTransportWriteAll Transport.beside
  cases dev.write with
  | none => rfl
  | some write =>
    dsimp only [Option.map_some]
    split_ifs
    · rfl
    · rfl
    · exact writeLoop_beside write data attempts w d 0 .ok

/-- `sh_transport_flush` leaves the application alone. -/
private theorem shTransportFlush_beside (dev : Transport D) (w : W) (d : D) :
    shTransportFlush (dev.beside W) (w, d) =
      ((w, (shTransportFlush dev d).1), (shTransportFlush dev d).2) := by
  unfold shTransportFlush Transport.beside
  cases dev.flush with
  | none => rfl
  | some flush => rfl

/-! ## Devices that take everything -/

/-- A device that takes each text within a number of attempts, when it is ready, and is ready
again afterwards; `sent` are the bytes it has. -/
structure TakesAll (dev : Transport D) (attempts : ℕ) (Ready : D → Prop) (sent : D → List Byte) :
    Prop where
  write : ∀ d data, Ready d → Ready (shTransportWriteAll dev d data attempts).io ∧
    sent (shTransportWriteAll dev d data attempts).io = sent d ++ data ∧
    (shTransportWriteAll dev d data attempts).status = .ok ∧
    (shTransportWriteAll dev d data attempts).written = data.length
  flush : ∀ d, Ready d → Ready (shTransportFlush dev d).1 ∧
    sent (shTransportFlush dev d).1 = sent d ∧ (shTransportFlush dev d).2 = .ok

/-- The device that takes each text at once. -/
def unbounded : Transport (List Byte) where
  write := some fun sent data => (sent ++ data, .ok, data.length)
  flush := none

/-! ## Devices that get on -/

/-- A device that gets on. Asked when it is ready, it takes some of the bytes or has the shell wait,
and is ready again; `need d n` bounds how often it has to be asked again until it took `n` bytes. -/
structure GetsOn (dev : Transport D) (Ready : D → Prop) (need : D → ℕ → ℕ) : Prop where
  isSome : dev.write.isSome
  write : ∀ write, dev.write = some write → ∀ d data, Ready d → data ≠ [] →
    Ready (write d data).1 ∧
      ((write d data).2.1 = .wouldBlock ∨ (write d data).2.1 = .ok ∧ 0 < (write d data).2.2) ∧
      ((write d data).2.2 < data.length →
        need (write d data).1 (data.length - (write d data).2.2) < need d data.length)
  flush : ∀ flush, dev.flush = some flush → ∀ d, Ready d → Ready (flush d).1 ∧ (flush d).2 = .ok

namespace GetsOn

variable {dev : Transport D} {Ready : D → Prop} {need : D → ℕ → ℕ} {sent : D → List Byte}

/-- The partial-write loop takes the whole text when it may ask often enough.

**Proof sketch.** Induction on the attempts that are left. An answer ends the loop with the whole
text, or it leaves some bytes, for which the device needs to be asked fewer times. -/
theorem writeLoop (h : GetsOn dev Ready need) (htruthful : Truthful dev sent)
    {write : D → List Byte → D × TransportStatus × ℕ} (hwrite : dev.write = some write)
    (data : List Byte) {n : ℕ} {d : D} {total : ℕ} (last : TransportStatus) (hd : Ready d)
    (htotal : total < data.length) (hneed : need d (data.length - total) < n) :
    Ready (PortableShell.writeLoop write data n d total last).io ∧
      (PortableShell.writeLoop write data n d total last).status = .ok ∧
      (PortableShell.writeLoop write data n d total last).written = data.length := by
  induction n generalizing d total last with
  | zero => exact absurd hneed (Nat.not_lt_zero _)
  | succ n ih =>
    have hlength : (data.drop total).length = data.length - total := List.length_drop
    have hne : data.drop total ≠ [] := by
      rw [ne_eq, List.drop_eq_nil_iff]
      omega
    obtain ⟨hready, hstatus, hless⟩ := h.write write hwrite d (data.drop total) hd hne
    have hle := (htruthful.write write hwrite d (data.drop total)).1
    rw [hlength] at hle hless
    have hlegal : isCallbackStatus (write d (data.drop total)).2.1 = true := by
      rcases hstatus with hwait | ⟨hok, -⟩
      · rw [hwait]
        rfl
      · rw [hok]
        rfl
    have hnotIo : (write d (data.drop total)).2.1 ≠ .errIo := by
      rcases hstatus with hwait | ⟨hok, -⟩
      · rw [hwait]
        decide
      · rw [hok]
        decide
    rw [PortableShell.writeLoop, if_pos htotal]
    dsimp only
    rw [if_neg (not_lt.mpr hle), hlegal, if_neg (by decide), if_neg hnotIo]
    by_cases hdone : total + (write d (data.drop total)).2.2 = data.length
    · rw [if_pos hdone]
      exact ⟨hready, rfl, hdone⟩
    · have hsome :
          ¬((write d (data.drop total)).2.1 = .ok ∧ (write d (data.drop total)).2.2 = 0) := by
        rintro ⟨hok, hnone⟩
        rcases hstatus with hwait | ⟨-, htook⟩
        · rw [hwait] at hok
          cases hok
        · omega
      rw [if_neg hdone, if_neg hsome]
      have hrest := hless (by omega)
      rw [Nat.sub_sub] at hrest
      exact ih _ hready (by omega) (by omega)

/-- **A truthful device that gets on** takes each text, when it never has to be asked again as often
as the configuration allows to ask.

**Proof sketch.** `GetsOn.writeLoop` bounds the attempts by `need`, which is below the configured
number, so the loop ends with the whole text written. What the device then has is what a truthful
device reports. -/
theorem takesAll {attempts : ℕ} (h : GetsOn dev Ready need) (htruthful : Truthful dev sent)
    (hneed : ∀ d n, Ready d → need d n < attempts) : TakesAll dev attempts Ready sent where
  write := by
    intro d data hd
    have hpos : attempts ≠ 0 := Nat.ne_of_gt (Nat.zero_lt_of_lt (hneed d 0 hd))
    have hsent := htruthful.writeAll d data attempts
    revert hsent
    obtain ⟨write, hwrite⟩ := Option.isSome_iff_exists.mp h.isSome
    rw [shTransportWriteAll, hwrite]
    dsimp only
    by_cases hempty : data.length = 0
    · obtain rfl : data = [] := List.eq_nil_of_length_eq_zero hempty
      exact fun hsent => ⟨hd, hsent, rfl, rfl⟩
    · rw [if_neg hempty, if_neg hpos]
      obtain ⟨hready, hstatus, hwritten⟩ := h.writeLoop htruthful hwrite data .ok hd
        (Nat.pos_of_ne_zero hempty) (hneed d _ hd)
      intro hsent
      rw [hwritten, List.take_length] at hsent
      exact ⟨hready, hsent, hstatus, hwritten⟩
  flush := by
    intro d hd
    rw [shTransportFlush]
    cases hflush : dev.flush with
    | none => exact ⟨hd, rfl, rfl⟩
    | some flush =>
      obtain ⟨hready, hok⟩ := h.flush flush hflush d hd
      refine ⟨hready, htruthful.flush flush hflush d, ?_⟩
      dsimp only
      rw [hok]
      rfl

end GetsOn

/-- It reports what it takes. -/
private theorem truthful_unbounded : Truthful unbounded id where
  write := by
    intro write hwrite d data
    obtain rfl := Option.some.inj hwrite
    exact ⟨le_rfl, by rw [List.take_length]; rfl⟩
  flush := nofun

/-- It never has to be asked again. -/
private theorem getsOn_unbounded : GetsOn unbounded (fun _ => True) fun _ _ => 0 where
  isSome := rfl
  write := by
    intro write hwrite d data _ hne
    obtain rfl := Option.some.inj hwrite
    exact ⟨trivial, .inr ⟨rfl, List.length_pos_of_ne_nil hne⟩, fun h => absurd h (lt_irrefl _)⟩
  flush := nofun

/-- It takes each text at the first attempt. -/
private theorem takesAll_unbounded {attempts : ℕ} (h : attempts ≠ 0) :
    TakesAll unbounded attempts (fun _ => True) id :=
  getsOn_unbounded.takesAll truthful_unbounded fun _ _ _ => Nat.pos_of_ne_zero h

/-! ## Two devices -/

/-- The same application beside two devices that have the same bytes. -/
structure SameSent {D' : Type} (Ready : D → Prop) (sent : D → List Byte) (Ready' : D' → Prop)
    (sent' : D' → List Byte) (io : W × D) (io' : W × D') : Prop where
  ready : Ready io.2
  ready' : Ready' io'.2
  app : io'.1 = io.1
  sent : sent' io'.2 = sent io.2

namespace TakesAll

variable {D' : Type} {dev : Transport D} {dev' : Transport D'} {cfg : Config} {Ready : D → Prop}
  {sent : D → List Byte} {Ready' : D' → Prop} {sent' : D' → List Byte}

/-- An application does the same beside two devices. -/
private theorem corresponds (call : ApiCall W) :
    (call.beside D).Corresponds (SameSent Ready sent Ready' sent') (call.beside D') := by
  cases call with
  | write data => exact .write data
  | flush => exact .flush
  | historyClear => exact .historyClear
  | setEchoEnabled enabled => exact .setEchoEnabled enabled
  | registerCommands commands => exact .registerCommands commands
  | registerCommandSets sets => exact .registerCommandSets sets
  | start => exact .start
  | stop => exact .stop
  | effect f => exact .effect fun io io' h => ⟨h.ready, h.ready', congrArg f h.app, h.sent⟩

/-- A list of such uses. -/
private theorem corresponds_map (calls : List (ApiCall W)) :
    List.Forall₂ (ApiCall.Corresponds (SameSent Ready sent Ready' sent'))
      (calls.map (ApiCall.beside D)) (calls.map (ApiCall.beside D')) := by
  induction calls with
  | nil => exact .nil
  | cons call calls ih => exact .cons (corresponds call) ih

/-- The same calls beside two devices. -/
private theorem op_corresponds (ops : List (Op W)) :
    List.Forall₂ (Op.Corresponds (SameSent Ready sent Ready' sent'))
      (ops.map (Op.beside D)) (ops.map (Op.beside D')) := by
  induction ops with
  | nil => exact .nil
  | cons op ops ih =>
    refine .cons ?_ ih
    cases op with
    | inputByte byte => exact .inputByte byte
    | input data => exact .input data
    | executeLine line => exact .executeLine line
    | executeArgv argv => exact .executeArgv argv
    | api call => exact .api (corresponds call)
    | prompt => exact .prompt

/-- **Two devices that take each text** within the attempts answer alike.

**Proof sketch.** Field by field. Both devices take the whole text and report `SH_OK`, so what is
sent grows by the same bytes, and the application never sees the device. -/
theorem answersTogether (h : TakesAll dev cfg.transportWriteAttempts Ready sent)
    (h' : TakesAll dev' cfg.transportWriteAttempts Ready' sent') (app : Env W) :
    AnswersTogether (besideDevice app dev) (besideDevice app dev') cfg
      (SameSent Ready sent Ready' sent') where
  write := by
    rintro ⟨w, d⟩ ⟨w', d'⟩ data ⟨hready, hready', hw, hsent⟩
    obtain rfl : w' = w := hw
    unfold backendWrite besideDevice
    cases cfg.transport with
    | none =>
      cases cfg.write with
      | none => exact ⟨⟨hready, hready', rfl, hsent⟩, rfl⟩
      | some f =>
        dsimp only
        split_ifs <;> exact ⟨⟨hready, hready', rfl, hsent⟩, rfl⟩
    | some p =>
      obtain ⟨hr, hs, hstatus, hwritten⟩ := h.write d data hready
      obtain ⟨hr', hs', hstatus', hwritten'⟩ := h'.write d' data hready'
      dsimp only
      rw [shTransportWriteAll_beside, shTransportWriteAll_beside, hstatus, hstatus', hwritten,
        hwritten']
      refine ⟨⟨hr, hr', rfl, ?_⟩, rfl⟩
      rw [hs, hs', hsent]
  flush := by
    rintro ⟨w, d⟩ ⟨w', d'⟩ ⟨hready, hready', hw, hsent⟩
    obtain rfl : w' = w := hw
    unfold backendFlush besideDevice
    cases cfg.transport with
    | none => exact ⟨⟨hready, hready', rfl, hsent⟩, rfl⟩
    | some p =>
      obtain ⟨hr, hs, hstatus⟩ := h.flush d hready
      obtain ⟨hr', hs', hstatus'⟩ := h'.flush d' hready'
      dsimp only
      rw [shTransportFlush_beside, shTransportFlush_beside, hstatus, hstatus']
      refine ⟨⟨hr, hr', rfl, ?_⟩, rfl⟩
      rw [hs, hs', hsent]
  mask := rfl
  handler := by
    rintro fn view io io' argv ctx h
    unfold besideDevice
    dsimp only
    rw [h.app]
    exact ⟨corresponds_map _, rfl⟩
  completion := by
    rintro fn view io io' i j ctx h
    unfold besideDevice
    dsimp only
    rw [h.app]
    exact ⟨corresponds_map _, rfl⟩

/-- The texts that are printed reach the device whole. -/
theorem delivers (h : TakesAll dev cfg.transportWriteAttempts Ready sent) (app : Env W) {p : Ptr}
    (hp : cfg.transport = some p) {E : (W × D → W × D) → Prop}
    (hE : ∀ f, E f → ∀ io, (f io).2 = io.2) :
    Delivers (besideDevice app dev) cfg E (fun io => Ready io.2) (fun io => sent io.2) (· = ·) where
  write := by
    rintro ⟨w, d⟩ data hready
    obtain ⟨hr, hs, -, -⟩ := h.write d data hready
    unfold backendWrite besideDevice
    rw [hp]
    dsimp only
    rw [shTransportWriteAll_beside]
    exact ⟨hr, data, rfl, hs⟩
  flush := by
    rintro ⟨w, d⟩ hready
    obtain ⟨hr, hs, -⟩ := h.flush d hready
    unfold backendFlush besideDevice
    rw [hp]
    dsimp only
    rw [shTransportFlush_beside]
    exact ⟨hr, hs⟩
  effect := by
    intro f hf io hready
    rw [hE f hf io]
    exact ⟨hready, rfl⟩

end TakesAll

/-- An application beside a device acts on its own state only. -/
private theorem besideDevice_actsBy (app : Env W) (dev : Transport D) :
    (besideDevice app dev).ActsBy fun f => ∀ io, (f io).2 = io.2 := by
  have hbeside : ∀ (calls : List (ApiCall W)) (f : W × D → W × D),
      .effect f ∈ calls.map (ApiCall.beside D) → ∀ io, (f io).2 = io.2 := by
    intro calls f hmem
    obtain ⟨call, -, hcall⟩ := List.mem_map.mp hmem
    cases call with
    | effect g =>
      obtain rfl := ApiCall.effect.inj hcall
      exact fun io => rfl
    | _ => cases hcall
  exact ⟨fun fn view io argv ctx => hbeside _, fun fn view io i j ctx => hbeside _⟩

/-- **Partial writes and retries cannot be noticed.** An application runs over a device that takes
each text within the attempts of the configuration, piece by piece and after any number of
refusals. Over the device that takes each text at once it runs alike: same shell, same application
state, same events and statuses, and both devices have the same bytes, which are the texts printed
by the core and by the application in their order.

**Proof sketch.** The unbounded device takes all as well, so the two runs correspond step by step
(`answersTogether`). The bytes of the device are the printed texts because every write is reported
as complete (`Delivers.run`). -/
theorem TakesAll.transparent {dev : Transport D} {Ready : D → Prop} {sent : D → List Byte}
    {s : Shell} {p : Ptr} (h : TakesAll dev s.cfg.transportWriteAttempts Ready sent)
    (hp : s.cfg.transport = some p) (hattempts : s.cfg.transportWriteAttempts ≠ 0) (app : Env W)
    (w : W) (d : D) (hd : Ready d) (ops : List (Op W)) {st : Sys (W × D)}
    {st' : Sys (W × List Byte)}
    (hst : st = run (besideDevice app dev) ⟨s, (w, d), [], []⟩ (ops.map (Op.beside D)))
    (hst' : st' = run (besideDevice app unbounded) ⟨s, (w, sent d), [], []⟩
      (ops.map (Op.beside (List Byte)))) :
    st.sh = st'.sh ∧ st.io.1 = st'.io.1 ∧ st.trace = st'.trace ∧
      statuses (besideDevice app dev) ⟨s, (w, d), [], []⟩ (ops.map (Op.beside D)) =
        statuses (besideDevice app unbounded) ⟨s, (w, sent d), [], []⟩
          (ops.map (Op.beside (List Byte))) ∧
      sent st.io.2 = st'.io.2 ∧ sent st.io.2 = sent d ++ (outputTexts st.trace).flatten := by
  have halike := h.answersTogether (takesAll_unbounded hattempts) app
  have hstart : Together (SameSent Ready sent (fun _ => True) id) s.cfg
      (⟨s, (w, d), [], []⟩ : Sys (W × D)) ⟨s, (w, sent d), [], []⟩ :=
    ⟨rfl, ⟨hd, trivial, rfl, rfl⟩, rfl⟩
  obtain ⟨htogether, hstatuses⟩ := halike.run hstart (TakesAll.op_corresponds ops)
  rw [← hst, ← hst'] at htogether
  have heq := htogether.eq
  have hio := htogether.io
  refine ⟨htogether.sh.symm, hio.app.symm, ?_, hstatuses.symm, hio.sent.symm, ?_⟩
  · rw [heq]
    rfl
  · -- every text is delivered as a whole
    have hops : ∀ f, .api (.effect f) ∈ ops.map (Op.beside D) → ∀ io : W × D, (f io).2 = io.2 := by
      intro f hmem
      obtain ⟨op, -, hop⟩ := List.mem_map.mp hmem
      cases op with
      | api call =>
        cases call with
        | effect g =>
          obtain rfl := ApiCall.effect.inj (Op.api.inj hop)
          exact fun io => rfl
        | _ => cases Op.api.inj hop
      | _ => cases hop
    have hdelivers : Delivers (besideDevice app dev) (⟨s, (w, d), [], []⟩ : Sys (W × D)).sh.cfg
        (fun f => ∀ io, (f io).2 = io.2) (fun io => Ready io.2) (fun io => sent io.2) (· = ·) :=
      h.delivers app hp fun _ hf => hf
    obtain ⟨-, texts, taken, htexts, hall, hsent⟩ :=
      hdelivers.run (besideDevice_actsBy app dev) hd (ops.map (Op.beside D)) hops
    obtain rfl := List.forall₂_eq_eq_eq ▸ hall
    rw [← hst] at htexts hsent
    rw [hsent, htexts]
    rfl

/-- A device that refuses every text once and then takes it. -/
def hesitating : Transport (Bool × List Byte) where
  write := some fun d data =>
    if d.1 then ((false, d.2 ++ data), .ok, data.length) else ((true, d.2), .wouldBlock, 0)
  flush := none

/-- It reports what it takes. -/
private theorem truthful_hesitating : Truthful hesitating Prod.snd where
  write := by
    intro write hwrite d data
    obtain rfl := Option.some.inj hwrite
    dsimp only
    split_ifs
    · exact ⟨le_rfl, by rw [List.take_length]⟩
    · exact ⟨Nat.zero_le _, (List.append_nil _).symm⟩
  flush := nofun

/-- It has to be asked once more, or not at all behind a refusal. -/
private theorem getsOn_hesitating :
    GetsOn hesitating (fun _ => True) fun d _ => if d.1 then 0 else 1 where
  isSome := rfl
  write := by
    rintro write hwrite ⟨refused, sent⟩ data - hne
    obtain rfl := Option.some.inj hwrite
    cases refused with
    | false => exact ⟨trivial, .inl rfl, fun _ => Nat.zero_lt_one⟩
    | true =>
      exact ⟨trivial, .inr ⟨rfl, List.length_pos_of_ne_nil hne⟩, fun h => absurd h (lt_irrefl _)⟩
  flush := nofun

/-- It takes each text at the second attempt. -/
private theorem takesAll_hesitating (attempts : ℕ) (h : 2 ≤ attempts) :
    TakesAll hesitating attempts (fun _ => True) Prod.snd := by
  refine getsOn_hesitating.takesAll truthful_hesitating ?_
  rintro ⟨refused, sent⟩ n -
  cases refused with
  | false => exact h
  | true => exact Nat.zero_lt_of_lt h

/-- A start, two keys and a command, over a device that refuses every text once. -/
theorem transparent_small :
    (run (besideDevice idleEnv hesitating) ⟨drippingShell, ((), (false, [])), [], []⟩
        [.api .start, .input (ascii "ok"), .executeLine (str "nosuch")]).io.2.2 =
      (run (besideDevice idleEnv unbounded) ⟨drippingShell, ((), []), [], []⟩
        [.api .start, .input (ascii "ok"), .executeLine (str "nosuch")]).io.2 :=
  ((takesAll_hesitating 2 le_rfl).transparent (s := drippingShell) (p := 3)
    rfl (by decide) idleEnv () (false, []) trivial
    [.api .start, .input (ascii "ok"), .executeLine (str "nosuch")] rfl rfl).2.2.2.2.1

end PortableShell
