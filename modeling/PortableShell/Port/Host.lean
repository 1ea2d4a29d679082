import PortableShell.Types

set_option relaxedAutoImplicit false
set_option autoImplicit false

/-!
# The host ports

`sh_port_host.h`: opening a terminal, reading one byte of it at a time, and closing it. The header
has one implementation for each family of operating systems; what they share is here.

## Main definitions

* `PortableShell.HostStatus`, `HostRead` — the statuses of the header.
* `PortableShell.Yields` — what reads of a terminal return, one after the other.
* `PortableShell.readMany` — a number of reads.
* `PortableShell.HostPort` — the three functions of an implementation.
* `PortableShell.HostPort.Restores` — how an implementation saves and restores terminal modes.
* `PortableShell.setTerminal` — one of several terminals gets a mode.

## Main results

* `PortableShell.Yields.readMany` — several reads return the first of these results.
* `PortableShell.setTerminal_idem`, `setTerminal_eq_self`, `setTerminal_comm` — setting modes.

## Design

The input of a terminal is the list of what is still to come. A read that would wait longer than
that has no result.
-/

namespace PortableShell

variable {T W M : Type}

/-- The statuses of `open`, `close` and the functions inside them. `SH_HOST_TERMINAL_READ_EOF` is
the number of `SH_HOST_TERMINAL_SUCCESS`. -/
inductive HostStatus
  | error
  | success
  | readByte
  deriving DecidableEq

/-- What a read returns, with the byte. -/
inductive HostRead
  | byte (b : Byte)
  | eof
  | error
  deriving DecidableEq

/-- Several reads, as far as the input goes. -/
def readMany (read : T → Option (T × HostRead)) : ℕ → T → List HostRead
  | 0, _ => []
  | n + 1, t =>
    match read t with
    | none => []
    | some r => r.2 :: readMany read n r.1

/-- The reads of a terminal return these results one after the other; then a read waits. -/
def Yields (read : T → Option (T × HostRead)) : List HostRead → T → Prop
  | [], t => read t = none
  | r :: rest, t => ∃ t', read t = some (t', r) ∧ Yields read rest t'

/-- **Several reads** return the first of the results. -/
theorem Yields.readMany {read : T → Option (T × HostRead)} {results : List HostRead} {t : T}
    (h : Yields read results t) (n : ℕ) : readMany read n t = results.take n := by
  induction n generalizing results t with
  | zero => rfl
  | succ n ih =>
    cases results with
    | nil =>
      have hwait : read t = none := h
      rw [PortableShell.readMany, hwait]
      rfl
    | cons r rest =>
      obtain ⟨t', hread, hrest⟩ := h
      rw [PortableShell.readMany, hread, List.take_succ_cons, ← ih hrest]

/-! ## Implementations -/

/-- The functions of an implementation, over terminals with their input and the state of the outside
world. -/
structure HostPort (T W : Type) where
  /-- `sh_host_terminal_open`. -/
  «open» : W → W × T × HostStatus
  /-- `sh_host_terminal_read_byte`. -/
  readByte : T → Option (T × HostRead)
  /-- `sh_host_terminal_close`. -/
  close : W → T → W × T × HostStatus

/-- How an implementation treats terminal modes: `Saved m m' t` says that closing `t` turns the
modes `m'` back into `m`. -/
structure HostPort.Restores (port : HostPort T W) (modes : W → M) (Saved : M → M → T → Prop) :
    Prop where
  open_success : ∀ w, (port.open w).2.2 = .success →
    Saved (modes w) (modes (port.open w).1) (port.open w).2.1
  open_error : ∀ w, (port.open w).2.2 ≠ .success → modes (port.open w).1 = modes w
  read : ∀ m m' t t' r, Saved m m' t → port.readByte t = some (t', r) → Saved m m' t'
  close : ∀ m w t, Saved m (modes w) t → (port.close w t).2.2 = .success →
    modes (port.close w t).1 = m

/-! ## Modes -/

section SetTerminal

variable {κ τ μ : Type} [DecidableEq τ] (terminal : κ → τ) (m : κ → μ) (k : κ)

/-- Handles or descriptors `k` refer to terminals, perhaps several of them to one. The terminal
behind `k` gets the mode `x`. -/
def setTerminal (x : μ) : κ → μ := fun k' => if terminal k' = terminal k then x else m k'

/-- The later mode counts. -/
theorem setTerminal_idem (x y : μ) :
    setTerminal terminal (setTerminal terminal m k x) k y = setTerminal terminal m k y := by
  funext k'
  unfold setTerminal
  split_ifs <;> rfl

/-- A terminal gets the mode it has. -/
theorem setTerminal_eq_self (h : ∀ k', terminal k' = terminal k → m k' = m k) :
    setTerminal terminal m k (m k) = m := by
  funext k'
  unfold setTerminal
  split_ifs with hsame
  · exact (h k' hsame).symm
  · rfl

/-- Two terminals get modes in either order. -/
theorem setTerminal_comm {k k' : κ} (hne : terminal k ≠ terminal k') (x y : μ) :
    setTerminal terminal (setTerminal terminal m k x) k' y =
      setTerminal terminal (setTerminal terminal m k' y) k x := by
  funext j
  unfold setTerminal
  split_ifs with hy hx
  · exact absurd (hx.symm.trans hy) hne
  · rfl
  · rfl
  · rfl

end SetTerminal

end PortableShell
