import PortableShell.Transport

set_option relaxedAutoImplicit false
set_option autoImplicit false

/-!
# The partial-write loop

`sh_transport_write_all` offers a backend what is left of a text until the backend took all of it,
failed, or was asked often enough. This file follows the bytes: what the backend takes over all
calls is a beginning of the text, and the loop reports how long it is.

## Main definitions

* `PortableShell.WriteCall` — a call of the write callback with its answer.
* `PortableShell.recording` — a backend that keeps a list of the calls made to it.
* `PortableShell.ExactWrite` — what the calls of a loop have to do with its result.

## Main results

* `PortableShell.writeLoop_exact` — the loop, from any number of bytes already written.
* `PortableShell.shTransportWriteAll_exact` — `sh_transport_write_all` and `sh_write` over any
  backend.
-/

namespace PortableShell

variable {ω : Type}

/-! ## Calls of the write callback -/

/-- A call of the write callback: the bytes offered and the answer. -/
structure WriteCall where
  offered : List Byte
  status : TransportStatus
  written : ℕ

namespace WriteCall

/-- The bytes a backend takes are the first of those offered. -/
def accepted (c : WriteCall) : List Byte := c.offered.take c.written

/-- More bytes are reported than were offered. -/
def Overreports (c : WriteCall) : Prop := c.offered.length < c.written

/-- The answer is an IO error or no status of a callback. -/
def Fails (c : WriteCall) : Prop := c.status = .errIo ∨ isCallbackStatus c.status = false

end WriteCall

/-- The bytes that a backend took over several calls. -/
def acceptedBytes (calls : List WriteCall) : List Byte := calls.flatMap WriteCall.accepted

/-- A write callback that also keeps a list of its calls. -/
def recording (write : ω → List Byte → ω × TransportStatus × ℕ) (b : ω × List WriteCall)
    (offered : List Byte) : (ω × List WriteCall) × TransportStatus × ℕ :=
  let r := write b.1 offered
  ((r.1, b.2 ++ [⟨offered, r.2.1, r.2.2⟩]), r.2.1, r.2.2)

/-- The calls of a loop that writes `data`, against the status and the number of bytes written that
the loop reports. -/
structure ExactWrite (data : List Byte) (calls : List WriteCall) (status : TransportStatus)
    (written : ℕ) : Prop where
  written_le : written ≤ data.length
  /-- Without a report of too many bytes the backend has the first `written` bytes. -/
  accepted : (∀ c ∈ calls, ¬c.Overreports) → acceptedBytes calls = data.take written
  /-- Such a report ends the loop, and the bytes of the calls before are counted. -/
  protocol : ∀ c ∈ calls, c.Overreports → status = .errProtocol ∧
    ∃ before, calls = before ++ [c] ∧ (∀ c' ∈ before, ¬c'.Overreports) ∧
      acceptedBytes before = data.take written
  ok_iff : status = .ok ↔ written = data.length ∧ ∀ c ∈ calls, ¬c.Fails

namespace ExactWrite

variable {data : List Byte} {calls : List WriteCall} {status : TransportStatus} {written : ℕ}

/-- The loop has nothing to say when it makes no call. -/
theorem nil (hne : data ≠ []) (hstatus : status ≠ .ok) : ExactWrite data [] status 0 where
  written_le := Nat.zero_le _
  accepted := fun _ => rfl
  protocol := nofun
  ok_iff := by
    have hpos : 0 < data.length := List.length_pos_of_ne_nil hne
    constructor
    · exact fun h => absurd h hstatus
    · exact fun h => absurd h.1 (by omega)

/-- A loop that ends with a report of too many bytes. -/
private theorem overreport {c : WriteCall} (hc : c.Overreports) (hne : data ≠ []) :
    ExactWrite data [c] .errProtocol 0 where
  written_le := Nat.zero_le _
  accepted := fun h => absurd hc (h c List.mem_cons_self)
  protocol := by
    intro c' hc' _
    obtain rfl := List.mem_singleton.mp hc'
    exact ⟨rfl, [], rfl, nofun, rfl⟩
  ok_iff := by
    have hpos : 0 < data.length := List.length_pos_of_ne_nil hne
    constructor
    · exact fun h => absurd h (by decide)
    · exact fun h => absurd h.1 (by omega)

/-- A loop that ends with an answer it can use. -/
theorem last {c : WriteCall} (hoffered : c.offered = data) (hc : ¬c.Overreports)
    (hok : status = .ok ↔ c.written = data.length ∧ ¬c.Fails) :
    ExactWrite data [c] status c.written where
  written_le := by
    rw [← hoffered]
    exact not_lt.mp hc
  accepted := by
    intro _
    rw [acceptedBytes, List.flatMap_singleton, WriteCall.accepted, hoffered]
  protocol := by
    intro c' hc' hover
    obtain rfl := List.mem_singleton.mp hc'
    exact absurd hover hc
  ok_iff := by simpa using hok

/-- The bytes of a call and of the rest of the loop. -/
private theorem take_written (data : List Byte) (n k : ℕ) :
    data.take n ++ (data.drop n).take k = data.take (n + k) := List.take_add.symm

/-- A loop that goes on behind an answer.

**Proof sketch.** Field by field: the beginning that the first answer took is put in front of what
the rest of the loop says about the rest of the text. -/
theorem cons {c : WriteCall} (hoffered : c.offered = data) (hc : ¬c.Overreports) (hfails : ¬c.Fails)
    (h : ExactWrite (data.drop c.written) calls status written) :
    ExactWrite data (c :: calls) status (c.written + written) where
  written_le := by
    have hle := h.written_le
    have hfirst : c.written ≤ data.length := hoffered ▸ not_lt.mp hc
    rw [List.length_drop] at hle
    omega
  accepted := by
    intro hnone
    have hrest := h.accepted fun c' hc' => hnone c' (List.mem_cons_of_mem c hc')
    rw [acceptedBytes, List.flatMap_cons, ← acceptedBytes, hrest, WriteCall.accepted, hoffered,
      take_written]
  protocol := by
    intro c' hc' hover
    rcases List.mem_cons.mp hc' with rfl | hc'
    · exact absurd hover hc
    · obtain ⟨hstatus, before, hbefore, hnone, hbytes⟩ := h.protocol c' hc' hover
      refine ⟨hstatus, c :: before, congrArg (c :: ·) hbefore, ?_, ?_⟩
      · intro c'' hc''
        rcases List.mem_cons.mp hc'' with rfl | hc''
        · exact hc
        · exact hnone c'' hc''
      · rw [acceptedBytes, List.flatMap_cons, ← acceptedBytes, hbytes, WriteCall.accepted,
          hoffered, take_written]
  ok_iff := by
    have hfirst : c.written ≤ data.length := hoffered ▸ not_lt.mp hc
    have hlength : written = (data.drop c.written).length ↔ c.written + written = data.length := by
      rw [List.length_drop]
      omega
    rw [h.ok_iff, hlength, List.forall_mem_cons]
    exact and_congr_right fun _ => ⟨fun hrest => ⟨hfails, hrest⟩, fun hall => hall.2⟩

end ExactWrite

/-! ## The loop -/

/-- **The loop**, when `total` bytes are written and some are left.

**Proof sketch.** Induction on the attempts that are left. Every answer but one that lets the loop
go on is the last of the list; behind that one the loop writes what it left. -/
theorem writeLoop_exact (write : ω → List Byte → ω × TransportStatus × ℕ) (data : List Byte) (n : ℕ)
    (io : ω) (log : List WriteCall) (total : ℕ) (last : TransportStatus)
    (htotal : total < data.length) :
    ∃ calls written,
      (writeLoop (recording write) data n (io, log) total last).io.2 = log ++ calls ∧
      calls.length ≤ n ∧
      (writeLoop (recording write) data n (io, log) total last).written = total + written ∧
      ExactWrite (data.drop total) calls
        (writeLoop (recording write) data n (io, log) total last).status written := by
  have hne : data.drop total ≠ [] := by
    rw [ne_eq, List.drop_eq_nil_iff]
    omega
  have hrest : (data.drop total).length = data.length - total := List.length_drop
  induction n generalizing io log total last with
  | zero =>
    refine ⟨[], 0, (List.append_nil log).symm, le_rfl, rfl, .nil hne ?_⟩
    rw [writeLoop]
    dsimp only
    split_ifs <;> decide
  | succ n ih =>
    generalize hanswer : write io (data.drop total) = r
    have hrecord : recording write (io, log) (data.drop total) =
        ((r.1, log ++ [⟨data.drop total, r.2.1, r.2.2⟩]), r.2.1, r.2.2) := by
      rw [recording, hanswer]
    have hreport : WriteCall.Overreports ⟨data.drop total, r.2.1, r.2.2⟩ ↔
        data.length - total < r.2.2 := by
      rw [WriteCall.Overreports, hrest]
    rw [writeLoop, if_pos htotal, hrecord]
    dsimp only
    split_ifs with hover hillegal hio hdone hstuck
    · exact ⟨[_], 0, rfl, by simp, rfl, .overreport (hreport.mpr hover) hne⟩
    · refine ⟨[_], r.2.2, rfl, by simp, rfl, .last rfl (hreport.not.mpr hover) ?_⟩
      have hillegal' : isCallbackStatus r.2.1 = false := by simpa using hillegal
      simp [WriteCall.Fails, hillegal']
    · refine ⟨[_], r.2.2, rfl, by simp, rfl, .last rfl (hreport.not.mpr hover) ?_⟩
      simp [WriteCall.Fails, hio]
    · refine ⟨[_], r.2.2, rfl, by simp, rfl, .last rfl (hreport.not.mpr hover) ?_⟩
      have hwritten : r.2.2 = (data.drop total).length := by omega
      have hlegal : isCallbackStatus r.2.1 = true := by simpa using hillegal
      simp [WriteCall.Fails, hwritten, hio, hlegal]
    · refine ⟨[_], r.2.2, rfl, by simp, rfl, .last rfl (hreport.not.mpr hover) ?_⟩
      have hwritten : r.2.2 ≠ (data.drop total).length := by omega
      exact iff_of_false (nofun : ¬TransportStatus.errNoProgress = .ok) fun h => hwritten h.1
    · -- the loop goes on
      have hnext : total + r.2.2 < data.length := by omega
      have hdrop : data.drop (total + r.2.2) ≠ [] := by
        rw [ne_eq, List.drop_eq_nil_iff]
        omega
      obtain ⟨calls, written, hlog, hcalls, htotal', hexact⟩ :=
        ih r.1 (log ++ [⟨data.drop total, r.2.1, r.2.2⟩]) (total + r.2.2) r.2.1 hnext hdrop
          List.length_drop
      rw [← List.drop_drop] at hexact
      refine ⟨⟨data.drop total, r.2.1, r.2.2⟩ :: calls, r.2.2 + written, ?_, ?_, ?_,
        .cons rfl (hreport.not.mpr hover) ?_ hexact⟩
      · rw [hlog, List.append_assoc, List.singleton_append]
      · simpa using hcalls
      · rw [htotal', Nat.add_assoc]
      · have hlegal : isCallbackStatus r.2.1 = true := by simpa using hillegal
        simp [WriteCall.Fails, hio, hlegal]

/-! ## The functions of the source -/

/-- **The partial-write loop is exact.** Over any backend, started with an empty list of calls,
`sh_transport_write_all` makes at most `maxAttempts` calls; the backend has the beginning of the
text that the loop reports as written; and the status is `SH_TRANSPORT_OK` exactly when that is
the whole text and no answer failed. `sh_write` over this backend succeeds exactly then.

**Proof sketch.** An empty text makes no call. Else `writeLoop_exact` describes the loop, started
with all attempts and nothing written, and `sh_write` translates its result. -/
theorem shTransportWriteAll_exact (write : ω → List Byte → ω × TransportStatus × ℕ)
    (flush : Option (ω × List WriteCall → (ω × List WriteCall) × TransportStatus)) (io : ω)
    (data : List Byte) {maxAttempts : ℕ} (hattempts : 1 ≤ maxAttempts)
    {r : WriteResult (ω × List WriteCall)}
    (hr : r = shTransportWriteAll ⟨some (recording write), flush⟩ (io, []) data maxAttempts) :
    r.io.2.length ≤ maxAttempts ∧ ExactWrite data r.io.2 r.status r.written ∧
      ∀ (env : Env (ω × List WriteCall)) (st : Sys (ω × List WriteCall)) (t : Ptr),
        st.sh.cfg.transport = some t → env.transport t = ⟨some (recording write), flush⟩ →
        st.sh.cfg.transportWriteAttempts = maxAttempts → st.io = (io, []) →
        ((shWrite env st data).2 = Status.ok ↔
          r.written = data.length ∧ ∀ c ∈ r.io.2, ¬c.Fails) := by
  have hexact : r.io.2.length ≤ maxAttempts ∧ ExactWrite data r.io.2 r.status r.written := by
    by_cases hempty : data.length = 0
    · obtain rfl : data = [] := List.eq_nil_of_length_eq_zero hempty
      obtain rfl : r = ⟨(io, []), .ok, 0⟩ := hr
      exact ⟨Nat.zero_le _, le_rfl, fun _ => rfl, nofun, iff_of_true rfl ⟨rfl, nofun⟩⟩
    · have hloop : r = writeLoop (recording write) data maxAttempts (io, []) 0 .ok := by
        rw [hr, shTransportWriteAll]
        dsimp only
        rw [if_neg hempty, if_neg (by omega)]
      obtain ⟨calls, written, hlog, hcalls, hwritten, hexact⟩ :=
        writeLoop_exact write data maxAttempts io [] 0 .ok (Nat.pos_of_ne_zero hempty)
      rw [← hloop, List.nil_append] at hlog
      rw [← hloop, Nat.zero_add] at hwritten
      rw [← hloop, List.drop_zero] at hexact
      rw [hlog, hwritten]
      exact ⟨hcalls, hexact⟩
  refine ⟨hexact.1, hexact.2, fun env st t ht henv hcfg hio => ?_⟩
  have hstatus : (shWrite env st data).2 =
      if r.status = .ok ∧ r.written = data.length then Status.ok
      else if r.status = .wouldBlock ∨ r.status = .errAttemptsExhausted then Status.errWouldBlock
      else Status.errTransport := by
    rw [shWrite, backendWrite, ht]
    dsimp only
    rw [henv, hcfg, hio, ← hr]
  have hok := hexact.2.ok_iff
  rw [hstatus, ← hok]
  split_ifs with hdone hblocked
  · exact iff_of_true rfl hdone.1
  · exact iff_of_false (by decide) fun h => hdone ⟨h, (hok.mp h).1⟩
  · exact iff_of_false (by decide) fun h => hdone ⟨h, (hok.mp h).1⟩

/-- The callback that gives prepared answers. -/
def scripted (answers : List (TransportStatus × ℕ)) (_ : List Byte) :
    List (TransportStatus × ℕ) × TransportStatus × ℕ :=
  (answers.tail, answers.headD (.ok, 0))

/-- Five bytes over a backend that takes two, then none, then the rest on the last attempt. -/
theorem shTransportWriteAll_exact_scripted :
    ∃ r : WriteResult (List (TransportStatus × ℕ) × List WriteCall),
      r = shTransportWriteAll ⟨some (recording scripted), none⟩
        ([(.ok, 2), (.wouldBlock, 0), (.wouldBlock, 3)], []) (ascii "hello") 3 ∧
      r.status = .ok ∧ r.io.2.length = 3 ∧ ExactWrite (ascii "hello") r.io.2 r.status r.written :=
  ⟨_, rfl, by decide, by decide,
    (shTransportWriteAll_exact scripted none _ (ascii "hello") (by decide) rfl).2.1⟩

end PortableShell
