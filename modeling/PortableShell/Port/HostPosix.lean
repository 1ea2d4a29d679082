import PortableShell.Port.Host

set_option relaxedAutoImplicit false
set_option autoImplicit false

/-!
# The POSIX host port

`sh_port_posix.c`: standard input is read byte by byte. If it is a terminal it is put into raw mode
and set back when it is closed.

## Main definitions

* `PortableShell.PosixTerminal` — a `sh_host_terminal_t`.
* `PortableShell.shHostMakeRaw` — the function of the source.
* `PortableShell.posixOpen`, `posixReadByte`, `posixClose` — the functions of the header.
* `PortableShell.PosixSystem.Lawful` — what `tcsetattr` promises.

## Main results

* `PortableShell.posixReadByte_yields` — what reads return.
* `PortableShell.posixPort_restores` — opening, reading and closing restore the modes.

## Design

`tcsetattr` succeeds when it carries out any of the changes. So nothing is known of the mode behind
a successful call, unless the terminal has been in the requested mode before.
-/

namespace PortableShell

/-! ## Data -/

/-- A `struct termios`. -/
structure Termios where
  iflag : UInt32
  oflag : UInt32
  cflag : UInt32
  lflag : UInt32
  cc : List Byte
  deriving DecidableEq

/-- The flags and indices of `<termios.h>`. Each system has its own numbers. -/
structure TermiosConstants where
  brkint : UInt32
  icrnl : UInt32
  inpck : UInt32
  istrip : UInt32
  ixon : UInt32
  opost : UInt32
  cs8 : UInt32
  echo : UInt32
  icanon : UInt32
  iexten : UInt32
  isig : UInt32
  vmin : ℕ
  vtime : ℕ
  nccs : ℕ

/-- `sh_host_terminal_t` on POSIX systems. -/
structure PosixTerminal where
  inputFd : ℕ
  originalInputMode : Termios
  inputModeSaved : Bool
  opened : Bool
  deriving DecidableEq

/-- What a call of `read` for one byte does. -/
inductive PosixRead
  | byte (b : Byte)
  /-- It returns 0. -/
  | endOfFile
  /-- It fails with `EINTR`. -/
  | interrupted
  /-- It fails otherwise. -/
  | failed
  deriving DecidableEq

/-- A terminal with the input to come. -/
structure PosixInput where
  terminal : PosixTerminal
  reads : List PosixRead
  deriving DecidableEq

/-- Why `tcgetattr` fails. -/
inductive TtyError
  /-- `ENOTTY`. -/
  | notATty
  | other
  deriving DecidableEq

/-- The functions of the operating system, over the state of the outside world. -/
structure PosixSystem (W : Type) where
  constants : TermiosConstants
  tcgetattr : W → ℕ → Except TtyError Termios
  /-- `tcsetattr` with `TCSAFLUSH`, with its success. -/
  tcsetattr : W → ℕ → Termios → W × Bool

/-! ## The functions of the port -/

/-- `sh_host_make_raw`. -/
def shHostMakeRaw (k : TermiosConstants) (mode : Termios) : Termios where
  iflag := mode.iflag &&& ~~~(k.brkint ||| k.icrnl ||| k.inpck ||| k.istrip ||| k.ixon)
  oflag := mode.oflag &&& ~~~k.opost
  cflag := mode.cflag ||| k.cs8
  lflag := mode.lflag &&& ~~~(k.echo ||| k.icanon ||| k.iexten ||| k.isig)
  cc := (mode.cc.set k.vmin 1).set k.vtime 0

/-- A terminal filled with zeros. -/
def PosixTerminal.zero (k : TermiosConstants) : PosixTerminal :=
  ⟨0, ⟨0, 0, 0, 0, List.replicate k.nccs 0⟩, false, false⟩

variable {W : Type} (os : PosixSystem W)

/-- `sh_host_terminal_open`. `STDIN_FILENO` is 0. -/
def posixOpen (w : W) : W × PosixTerminal × HostStatus :=
  match os.tcgetattr w 0 with
  | .ok mode =>
    let r := os.tcsetattr w 0 (shHostMakeRaw os.constants mode)
    if r.2 then (r.1, ⟨0, mode, true, true⟩, .success) else (r.1, .zero os.constants, .error)
  | .error .notATty => (w, { PosixTerminal.zero os.constants with opened := true }, .success)
  | .error .other => (w, .zero os.constants, .error)

/-- The loop of `sh_host_terminal_read_byte`, with the status behind it. -/
def posixReadLoop : List PosixRead → Option (List PosixRead × HostRead)
  | [] => none
  | .interrupted :: rest => posixReadLoop rest
  | .byte b :: rest => some (rest, .byte b)
  | .endOfFile :: rest => some (rest, .eof)
  | .failed :: rest => some (rest, .error)

/-- `sh_host_terminal_read_byte`. -/
def posixReadByte (s : PosixInput) : Option (PosixInput × HostRead) :=
  if s.terminal.opened = false then some (s, .error)
  else
    match posixReadLoop s.reads with
    | none => none
    | some (rest, r) => some ({ s with reads := rest }, r)

/-- `sh_host_terminal_close`. -/
def posixClose (w : W) (t : PosixTerminal) : W × PosixTerminal × HostStatus :=
  if t.opened = false then (w, t, .success)
  else
    let r := if t.inputModeSaved then os.tcsetattr w t.inputFd t.originalInputMode else (w, true)
    (r.1, { t with opened := false, inputModeSaved := false }, if r.2 then .success else .error)

/-- The functions of the port, for the input to come. -/
def posixPort (reads : List PosixRead) : HostPort PosixInput W where
  «open» := fun w =>
    let r := posixOpen os w
    (r.1, ⟨r.2.1, reads⟩, r.2.2)
  readByte := posixReadByte
  close := fun w s =>
    let r := posixClose os w s.terminal
    (r.1, { s with terminal := r.2.1 }, r.2.2)

/-! ## Reading -/

/-- What a read returns, if it returns. -/
def PosixRead.result : PosixRead → Option HostRead
  | .byte b => some (.byte b)
  | .endOfFile => some .eof
  | .interrupted => none
  | .failed => some .error

/-- **Reads of an open terminal** return what the calls of `read` return that are not
interrupted.

**Proof sketch.** Induction on the calls of `read`. An interrupted one is repeated, so it has no
result, and each other one is the result of a read. -/
theorem posixReadByte_yields {s : PosixInput} (hopened : s.terminal.opened = true) :
    Yields posixReadByte (s.reads.filterMap PosixRead.result) s := by
  have hclosed : ¬s.terminal.opened = false := by simp [hopened]
  have hstep : ∀ {reads rest : List PosixRead} {r : HostRead},
      posixReadLoop reads = some (rest, r) →
      posixReadByte { s with reads := reads } = some ({ s with reads := rest }, r) := by
    intro reads rest r h
    rw [posixReadByte, if_neg hclosed, h]
  have hall : ∀ reads : List PosixRead,
      Yields posixReadByte (reads.filterMap PosixRead.result) { s with reads := reads } := by
    intro reads
    induction reads with
    | nil =>
      show posixReadByte { s with reads := [] } = none
      rw [posixReadByte, if_neg hclosed]
      rfl
    | cons read reads ih =>
      cases read with
      | byte b => exact ⟨_, hstep rfl, ih⟩
      | endOfFile => exact ⟨_, hstep rfl, ih⟩
      | failed => exact ⟨_, hstep rfl, ih⟩
      | interrupted =>
        have hskip : posixReadByte { s with reads := .interrupted :: reads } =
            posixReadByte { s with reads := reads } := by
          rw [posixReadByte, posixReadByte, if_neg hclosed, if_neg hclosed, posixReadLoop]
        show Yields posixReadByte (reads.filterMap PosixRead.result) _
        cases hresults : reads.filterMap PosixRead.result with
        | nil =>
          rw [hresults] at ih
          exact hskip.trans ih
        | cons r rest =>
          rw [hresults] at ih
          obtain ⟨s', hread, hrest⟩ := ih
          exact ⟨s', hskip.trans hread, hrest⟩
  exact hall s.reads

/-! ## Modes -/

section Modes

variable {os} {τ : Type} [DecidableEq τ] {terminal : ℕ → τ}

/-- What `tcsetattr` promises: it touches its terminal only, or fails and changes nothing; and a
mode in which the terminal has been can be set as a whole. Descriptors of one terminal have the same
mode. -/
structure PosixSystem.Lawful (os : PosixSystem W) (terminal : ℕ → τ) : Prop where
  shared : ∀ w fd fd', terminal fd = terminal fd' → os.tcgetattr w fd = os.tcgetattr w fd'
  set_success : ∀ w fd mode, (os.tcsetattr w fd mode).2 = true →
    ∃ mode', os.tcgetattr (os.tcsetattr w fd mode).1 =
      setTerminal terminal (os.tcgetattr w) fd (.ok mode')
  set_failure : ∀ w fd mode, (os.tcsetattr w fd mode).2 = false →
    os.tcgetattr (os.tcsetattr w fd mode).1 = os.tcgetattr w
  set_back : ∀ w w' fd mode, os.tcgetattr w' fd = .ok mode → (os.tcsetattr w fd mode).2 = true →
    os.tcgetattr (os.tcsetattr w fd mode).1 = setTerminal terminal (os.tcgetattr w) fd (.ok mode)

/-- The remembered mode of an open terminal: `m'` are turned back into `m`. -/
structure PosixSaved (os : PosixSystem W) (terminal : ℕ → τ)
    (m m' : ℕ → Except TtyError Termios) (s : PosixInput) : Prop where
  opened : s.terminal.opened = true
  /-- The terminal has been in this mode. -/
  seen : s.terminal.inputModeSaved = true →
    ∃ w, os.tcgetattr w s.terminal.inputFd = .ok s.terminal.originalInputMode
  restored : (if s.terminal.inputModeSaved then
    setTerminal terminal m' s.terminal.inputFd (.ok s.terminal.originalInputMode) else m') = m

/-- Reading leaves the terminal alone. -/
private theorem posixReadByte_terminal {s s' : PosixInput} {r : HostRead}
    (h : posixReadByte s = some (s', r)) : s'.terminal = s.terminal := by
  unfold posixReadByte at h
  split_ifs at h
  · cases h
    rfl
  · cases hloop : posixReadLoop s.reads with
    | none =>
      rw [hloop] at h
      cases h
    | some found =>
      rw [hloop] at h
      cases h
      rfl

/-- **The POSIX port** restores the modes.

**Proof sketch.** Field by field. Opening sets the raw mode, which setting the remembered mode on
the same terminal undoes, or it finds no terminal or fails and changes nothing. Reading changes no
mode, and closing sets the remembered one. -/
theorem posixPort_restores (hos : os.Lawful terminal) (reads : List PosixRead) :
    (posixPort os reads).Restores os.tcgetattr (PosixSaved os terminal) where
  open_success := by
    intro w h
    dsimp only [posixPort, posixOpen] at h ⊢
    cases hmode : os.tcgetattr w 0 with
    | ok mode =>
      rw [hmode] at h
      dsimp only at h ⊢
      split_ifs at h ⊢ with hset
      · refine ⟨rfl, fun _ => ⟨w, hmode⟩, ?_⟩
        obtain ⟨mode', hmode'⟩ := hos.set_success w 0 _ hset
        rw [if_pos rfl, hmode', setTerminal_idem, ← hmode]
        exact setTerminal_eq_self _ _ _ fun fd hsame => hos.shared w fd 0 hsame
    | error e =>
      rw [hmode] at h
      cases e with
      | notATty => exact ⟨rfl, fun hfalse => absurd hfalse Bool.false_ne_true, rfl⟩
      | other => cases h
  open_error := by
    intro w h
    dsimp only [posixPort, posixOpen] at h ⊢
    cases hmode : os.tcgetattr w 0 with
    | ok mode =>
      rw [hmode] at h
      dsimp only at h ⊢
      split_ifs at h ⊢ with hset
      · exact absurd rfl h
      · exact hos.set_failure w 0 _ ((Bool.not_eq_true _).mp hset)
    | error e =>
      cases e <;> rfl
  read := by
    intro m m' s s' r hsaved hread
    have hterminal := posixReadByte_terminal hread
    exact ⟨hterminal ▸ hsaved.opened, hterminal ▸ hsaved.seen, hterminal ▸ hsaved.restored⟩
  close := by
    intro m w s hsaved h
    have hclosed : ¬s.terminal.opened = false := by simp [hsaved.opened]
    have hrestored := hsaved.restored
    dsimp only [posixPort] at h ⊢
    rw [posixClose, if_neg hclosed] at h ⊢
    dsimp only at h ⊢
    cases hmode : s.terminal.inputModeSaved with
    | false =>
      rw [hmode] at hrestored
      exact hrestored
    | true =>
      rw [hmode, if_pos rfl] at hrestored h
      split_ifs at h with hset
      obtain ⟨w', hw'⟩ := hsaved.seen hmode
      rw [if_pos rfl]
      exact (hos.set_back w w' _ _ hw' hset).trans hrestored

end Modes

end PortableShell
