import PortableShell.Types

set_option relaxedAutoImplicit false
set_option autoImplicit false

/-!
# Output

The partial-write loop of `sh_transport.c` and the output functions of `sh_shell.c` that end in
it. The core ignores the status of nearly everything it prints, so what the rest of the
development needs is that printing touches neither the shell instance nor the buffers.

## Main definitions

* `PortableShell.shTransportWriteAll`, `PortableShell.shTransportFlush` — the transport helpers.
* `PortableShell.shWrite`, `shPuts` — output through the configured backend.
* `PortableShell.writeInternal`, `shPrompt` — the same with the status dropped.
* `PortableShell.vprintfBytes` — what is written of a formatted text.
* `PortableShell.writes` — a sequence of writes.

## Main results

* `PortableShell.shWrite_sh`, `shWrite_trace`, … — frame lemmas of the output functions.
* `PortableShell.writes_sh`, `writes_trace`, … — the same for a sequence of writes.
-/

namespace PortableShell

variable {ω : Type}

/-! ## The transport helpers -/

/-- `is_callback_status`: the statuses a write or flush callback may return. -/
def isCallbackStatus : TransportStatus → Bool
  | .ok | .wouldBlock | .errIo => true
  | _ => false

/-- The outcome of `sh_transport_write_all`: backend state, status and `*written_total`. -/
structure WriteResult (ω : Type) where
  io : ω
  status : TransportStatus
  written : ℕ

/-- The loop of `sh_transport_write_all` with `n` attempts left. -/
def writeLoop (write : ω → List Byte → ω × TransportStatus × ℕ) (data : List Byte) :
    ℕ → ω → ℕ → TransportStatus → WriteResult ω
  | 0, io, total, last =>
    ⟨io, if last = .wouldBlock then .wouldBlock else .errAttemptsExhausted, total⟩
  | n + 1, io, total, last =>
    if total < data.length then
      let remaining := data.length - total
      let r := write io (data.drop total)
      let status := r.2.1
      let written := r.2.2
      if written > remaining then ⟨r.1, .errProtocol, total⟩
      else if !isCallbackStatus status then ⟨r.1, .errProtocol, total + written⟩
      else if status = .errIo then ⟨r.1, .errIo, total + written⟩
      else if total + written = data.length then ⟨r.1, .ok, total + written⟩
      else if status = .ok ∧ written = 0 then ⟨r.1, .errNoProgress, total + written⟩
      else writeLoop write data n r.1 (total + written) status
    else ⟨io, if last = .wouldBlock then .wouldBlock else .errAttemptsExhausted, total⟩

/-- `sh_transport_write_all`. -/
def shTransportWriteAll (t : Transport ω) (io : ω) (data : List Byte) (maxAttempts : ℕ) :
    WriteResult ω :=
  match t.write with
  | none => ⟨io, .errInvalidArgument, 0⟩
  | some write =>
    if data.length = 0 then ⟨io, .ok, 0⟩
    else if maxAttempts = 0 then ⟨io, .errInvalidArgument, 0⟩
    else writeLoop write data maxAttempts io 0 .ok

/-- `sh_transport_flush`. -/
def shTransportFlush (t : Transport ω) (io : ω) : ω × TransportStatus :=
  match t.flush with
  | none => (io, .ok)
  | some flush =>
    let r := flush io
    (r.1, if isCallbackStatus r.2 then r.2 else .errProtocol)

/-! ## Output of the shell -/

variable (env : Env ω)

/-- The body of `sh_write`: the backend a configuration names gets the bytes. -/
def backendWrite (cfg : Config) (io : ω) (data : List Byte) : ω × Status :=
  match cfg.transport with
  | some t =>
    let r := shTransportWriteAll (env.transport t) io data cfg.transportWriteAttempts
    (r.io,
      if r.status = .ok ∧ r.written = data.length then Status.ok
      else if r.status = .wouldBlock ∨ r.status = .errAttemptsExhausted then Status.errWouldBlock
      else Status.errTransport)
  | none =>
    match cfg.write with
    | none => (io, Status.errInvalidConfig)
    | some f => (if data.length ≠ 0 then env.output f cfg.writeCtx io data else io, Status.ok)

/-- `sh_write`, called by the core. -/
def shWrite (st : Sys ω) (data : List Byte) : Sys ω × Status :=
  let r := backendWrite env st.sh.cfg st.io data
  ({ st with io := r.1, trace := st.trace ++ [.write data] }, r.2)

/-- `sh_puts`. -/
def shPuts (st : Sys ω) (text : CStr) : Sys ω × Status := shWrite env st text.bytes

/-- The bytes that `sh_vprintf` hands to `sh_write`, given the complete formatted text: it goes
through a buffer of 256 bytes, the last of them for the terminator. The core drops the status that
tells that a text was cut. -/
def vprintfBytes (text : List Byte) : List Byte :=
  if text.length ≥ 256 then text.take 255 else text

/-- `sh_write_internal`. -/
def writeInternal (st : Sys ω) (text : CStr) : Sys ω := (shPuts env st text).1

/-- The prompt that is printed: the configured one or `"sh> "`. -/
def Config.promptText (cfg : Config) : CStr := cfg.prompt.getD (str "sh> ")

/-- `sh_prompt`. -/
def shPrompt (st : Sys ω) : Sys ω := writeInternal env st st.sh.cfg.promptText

/-- The body of `sh_flush`. -/
def backendFlush (cfg : Config) (io : ω) : ω × Status :=
  match cfg.transport with
  | none => (io, Status.ok)
  | some t =>
    let r := shTransportFlush (env.transport t) io
    (r.1,
      if r.2 = .ok then Status.ok
      else if r.2 = .wouldBlock then Status.errWouldBlock
      else Status.errTransport)

/-- `sh_flush`. -/
def shFlush (st : Sys ω) : Sys ω × Status :=
  let r := backendFlush env st.sh.cfg st.io
  ({ st with io := r.1 }, r.2)

/-- `sh_start`. -/
def shStart (st : Sys ω) : Sys ω × Status :=
  if st.sh.started then (st, Status.errBusy)
  else
    let r := shPuts env (st.modify (·.setStarted true)) st.sh.cfg.promptText
    if r.2 ≠ Status.ok then (r.1.modify (·.setStarted false), r.2) else r

/-! ## What printing leaves alone -/

/-- What the core wrote, in order: the observable output apart from that of handlers. -/
def coreOutput (trace : List Event) : List (List Byte) :=
  trace.filterMap fun
    | .write data => some data
    | _ => none

@[simp] theorem shWrite_sh (st : Sys ω) (d : List Byte) : (shWrite env st d).1.sh = st.sh := rfl

@[simp] theorem shWrite_trace (st : Sys ω) (d : List Byte) :
    (shWrite env st d).1.trace = st.trace ++ [.write d] := rfl

@[simp] theorem shWrite_accesses (st : Sys ω) (d : List Byte) :
    (shWrite env st d).1.accesses = st.accesses := rfl

@[simp] theorem writeInternal_sh (st : Sys ω) (t : CStr) : (writeInternal env st t).sh = st.sh :=
  rfl

@[simp] theorem writeInternal_trace (st : Sys ω) (t : CStr) :
    (writeInternal env st t).trace = st.trace ++ [.write t.bytes] := rfl

/-- A sequence of writes of the core. -/
def writes (st : Sys ω) (texts : List (List Byte)) : Sys ω :=
  texts.foldl (fun st d => (shWrite env st d).1) st

@[simp] theorem writes_nil (st : Sys ω) : writes env st [] = st := rfl

@[simp] theorem writes_cons (st : Sys ω) (d : List Byte) (texts : List (List Byte)) :
    writes env st (d :: texts) = writes env (shWrite env st d).1 texts := rfl

/-- Two sequences of writes, one after the other. -/
theorem writes_append (st : Sys ω) (a b : List (List Byte)) :
    writes env st (a ++ b) = writes env (writes env st a) b := List.foldl_append

@[simp] theorem writes_sh (st : Sys ω) (texts : List (List Byte)) :
    (writes env st texts).sh = st.sh := by
  induction texts generalizing st with
  | nil => rfl
  | cons d texts ih => rw [writes_cons, ih, shWrite_sh]

@[simp] theorem writes_trace (st : Sys ω) (texts : List (List Byte)) :
    (writes env st texts).trace = st.trace ++ texts.map .write := by
  induction texts generalizing st with
  | nil => simp
  | cons d texts ih => rw [writes_cons, ih, shWrite_trace]; simp

/-- A line of text, written as one string. -/
theorem writeInternal_eq (st : Sys ω) (t : CStr) :
    writeInternal env st t = writes env st [t.bytes] :=
  rfl

@[simp] theorem shPrompt_sh (st : Sys ω) : (shPrompt env st).sh = st.sh := rfl

@[simp] theorem shPrompt_trace (st : Sys ω) :
    (shPrompt env st).trace = st.trace ++ [.write st.sh.cfg.promptText.bytes] := rfl

/-- Starting a session changes at most the `started` flag. -/
theorem shStart_sh (st : Sys ω) : ∃ b, (shStart env st).1.sh = st.sh.setStarted b := by
  unfold shStart
  split
  · exact ⟨st.sh.started, rfl⟩
  · have hr : (shPuts env (st.modify (·.setStarted true)) st.sh.cfg.promptText).1.sh =
        st.sh.setStarted true := rfl
    revert hr
    generalize shPuts env (st.modify (·.setStarted true)) st.sh.cfg.promptText = r
    intro hr
    dsimp only
    split
    · exact ⟨false, by rw [Sys.modify_sh, hr, Shell.setStarted_setStarted]⟩
    · exact ⟨true, hr⟩

end PortableShell
