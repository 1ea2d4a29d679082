import PortableShell.Port.HostWindows

set_option relaxedAutoImplicit false
set_option autoImplicit false

/-!
# Terminal modes on Windows

Opening a terminal changes the modes of the console and remembers the old ones; closing it sets them
back. Nothing between the two changes what is remembered.

## Main definitions

* `PortableShell.WindowsSystem.Lawful` — what `SetConsoleMode` promises.
* `PortableShell.windowsPort` — the port as one of the implementations of the header.
* `PortableShell.WindowsTerminal.restored` — the modes when a terminal is closed.

## Main results

* `PortableShell.windowsReadByte_settings` — reading leaves alone what is remembered.
* `PortableShell.windowsPort_restores` — opening, reading and closing restore the modes.
-/

namespace PortableShell

/-! ## Modes -/

section Modes

variable {W τ : Type} [DecidableEq τ] {os : WindowsSystem W} {terminal : Ptr → τ} {w : W}

/-- What `SetConsoleMode` promises: it sets the mode of the buffer behind its handle, or fails and
sets nothing. Handles of one buffer have the same mode. The input of a console is not its output. -/
structure WindowsSystem.Lawful (os : WindowsSystem W) (terminal : Ptr → τ) : Prop where
  shared : ∀ w h h', terminal h = terminal h' → os.getConsoleMode w h = os.getConsoleMode w h'
  set_success : ∀ w h mode, (os.setConsoleMode w h mode).2 = true →
    os.getConsoleMode (os.setConsoleMode w h mode).1 =
      setTerminal terminal (os.getConsoleMode w) h (some mode)
  set_failure : ∀ w h mode, (os.setConsoleMode w h mode).2 = false →
    os.getConsoleMode (os.setConsoleMode w h mode).1 = os.getConsoleMode w
  distinct : ∀ w h h' mode, os.stdInput w = .handle h → os.getConsoleMode w h = some mode →
    os.stdOutput w = .handle h' → terminal h ≠ terminal h'

/-- A mode is set back. -/
def setBack (terminal : Ptr → τ) (handle : StdHandle) (mode : UInt32) (m : Ptr → Option UInt32) :
    Ptr → Option UInt32 :=
  match handle with
  | .handle h => setTerminal terminal m h (some mode)
  | _ => m

/-- The modes when a terminal is closed. -/
def WindowsTerminal.restored (terminal : Ptr → τ) (t : WindowsTerminal) (m : Ptr → Option UInt32) :
    Ptr → Option UInt32 :=
  let input := if t.inputModeSaved then setBack terminal t.inputHandle t.originalInputMode m else m
  if t.outputModeSaved then setBack terminal t.outputHandle t.originalOutputMode input else input

/-- A successful `SetConsoleMode` on a saved handle. -/
theorem WindowsSystem.Lawful.setMode (hos : os.Lawful terminal) {handle : StdHandle} {mode : UInt32}
    (h : (PortableShell.setMode os w handle mode).2 = true) :
    os.getConsoleMode (PortableShell.setMode os w handle mode).1 =
      setBack terminal handle mode (os.getConsoleMode w) := by
  cases handle with
  | null => cases h
  | invalid => cases h
  | handle p => exact hos.set_success w p mode h

/-- A mode that was saved is set back. -/
theorem WindowsSystem.Lawful.restoreMode (hos : os.Lawful terminal) {saved : Bool}
    {handle : StdHandle} {mode : UInt32}
    (h : (PortableShell.restoreMode os w saved handle mode).2 = true) :
    os.getConsoleMode (PortableShell.restoreMode os w saved handle mode).1 =
      if saved then setBack terminal handle mode (os.getConsoleMode w)
      else os.getConsoleMode w := by
  cases saved with
  | false => rfl
  | true => exact hos.setMode h

/-- **Closing** restores the modes unless it reports an error. -/
theorem WindowsSystem.Lawful.close (hos : os.Lawful terminal) {t : WindowsTerminal}
    (hopened : t.opened = true) (h : (windowsClose os w t).2.2 = .success) :
    os.getConsoleMode (windowsClose os w t).1 = t.restored terminal (os.getConsoleMode w) := by
  have hclosed : ¬t.opened = false := by simp [hopened]
  unfold windowsClose at h ⊢
  rw [if_neg hclosed] at h ⊢
  dsimp only at h ⊢
  split_ifs at h with hfailed
  obtain ⟨hinput, houtput⟩ := not_or.mp hfailed
  rw [hos.restoreMode ((Bool.not_eq_false _).mp houtput),
    hos.restoreMode ((Bool.not_eq_false _).mp hinput)]
  rfl

/-- Opening the input remembers its mode.

**Proof sketch.** Without a mode the input is no console and nothing is changed. With one it is
remembered before it is set, and setting it back on the same terminal gives the mode that was
read. -/
theorem WindowsSystem.Lawful.openInput (hos : os.Lawful terminal) {t t' : WindowsTerminal} {w' : W}
    {input : Ptr} (hhandle : t.inputHandle = .handle input) (hsaved : t.inputModeSaved = false)
    (h : PortableShell.openInput os w t input = (w', some t')) :
    (if t'.inputModeSaved then
      setBack terminal (.handle input) t'.originalInputMode (os.getConsoleMode w')
      else os.getConsoleMode w') = os.getConsoleMode w ∧
      (t'.inputModeSaved = true → ∃ mode, os.getConsoleMode w input = some mode) ∧
      t'.inputHandle = .handle input ∧ t'.outputHandle = t.outputHandle ∧
      t'.outputModeSaved = t.outputModeSaved := by
  unfold PortableShell.openInput at h
  cases hmode : os.getConsoleMode w input with
  | none =>
    rw [hmode] at h
    cases h
    rw [hsaved]
    exact ⟨rfl, fun hfalse => absurd hfalse Bool.false_ne_true, hhandle, rfl, rfl⟩
  | some mode =>
    rw [hmode] at h
    dsimp only at h
    split_ifs at h with hset
    · cases h
      refine ⟨?_, fun _ => ⟨mode, rfl⟩, hhandle, rfl, rfl⟩
      rw [if_pos rfl, hos.set_success w input _ hset, setBack, setTerminal_idem, ← hmode]
      exact setTerminal_eq_self _ _ _ fun h hsame => hos.shared w h input hsame
    · cases h

/-- Opening the output remembers its mode, if it has one.

**Proof sketch.** As for the input, except that a failed setting is passed over; then the modes have
not changed, and setting the remembered one back does nothing. -/
theorem WindowsSystem.Lawful.openOutput (hos : os.Lawful terminal) {t : WindowsTerminal} :
    PortableShell.openOutput os w t = (w, t) ∨
      ∃ output mode, t.outputHandle = .handle output ∧
        (PortableShell.openOutput os w t).2 =
          { t with outputHandle := .handle output, outputModeSaved := true,
                   originalOutputMode := mode } ∧
        setTerminal terminal (os.getConsoleMode (PortableShell.openOutput os w t).1) output
          (some mode) = os.getConsoleMode w := by
  have hset : ∀ w output mode original,
      setTerminal terminal (os.getConsoleMode (os.setConsoleMode w output mode).1) output original =
        setTerminal terminal (os.getConsoleMode w) output original := by
    intro w output mode original
    cases hresult : (os.setConsoleMode w output mode).2 with
    | true => rw [hos.set_success w output mode hresult, setTerminal_idem]
    | false => rw [hos.set_failure w output mode hresult]
  have hself : ∀ output, setTerminal terminal (os.getConsoleMode w) output
      (os.getConsoleMode w output) = os.getConsoleMode w := fun output =>
    setTerminal_eq_self _ _ _ fun h hsame => hos.shared w h output hsame
  unfold PortableShell.openOutput
  cases houtput : t.outputHandle with
  | null => exact .inl rfl
  | invalid => exact .inl rfl
  | handle output =>
    dsimp only
    cases hmode : os.getConsoleMode w output with
    | none => exact .inl rfl
    | some mode =>
      refine .inr ⟨output, mode, rfl, ?_, ?_⟩
      · dsimp only
        split_ifs <;> rfl
      · dsimp only
        split_ifs
        · rw [hset, ← hmode, hself]
        · rw [hset, hset, ← hmode, hself]

/-- **Opening** remembers what closing needs.

**Proof sketch.** The output is set back first and the input second. They are different terminals of
the system, so the two settings commute and each undoes its own. -/
theorem WindowsSystem.Lawful.open (hos : os.Lawful terminal)
    (h : (windowsOpen os w).2.2 = .success) :
    (windowsOpen os w).2.1.restored terminal (os.getConsoleMode (windowsOpen os w).1) =
      os.getConsoleMode w := by
  obtain ⟨input, w', t, hstd, hopen, heq⟩ := windowsOpen_success h
  obtain ⟨hrestored, hconsole, hinput, houtput, hunsaved⟩ := hos.openInput rfl rfl hopen
  rw [heq]
  rcases hos.openOutput (w := w') (t := t) with hsame | ⟨output, mode, hhandle, ht, hback⟩
  · rw [hsame]
    show (if t.outputModeSaved then _ else _) = _
    rw [if_neg (by rw [hunsaved]; exact Bool.false_ne_true), hinput]
    exact hrestored
  · rw [ht]
    show setBack terminal (.handle output) mode
      (if t.inputModeSaved then setBack terminal t.inputHandle _ _ else _) = _
    rw [hinput]
    dsimp only [setBack] at hrestored ⊢
    cases hsaved : t.inputModeSaved with
    | false =>
      rw [hsaved] at hrestored
      exact hback.trans hrestored
    | true =>
      obtain ⟨m, hm⟩ := hconsole hsaved
      have hne : terminal input ≠ terminal output := by
        refine hos.distinct w input output m hstd hm ?_
        have hstdout := houtput.symm.trans hhandle
        unfold withHandles at hstdout
        dsimp only at hstdout
        split_ifs at hstdout
        exact hstdout
      rw [hsaved, if_pos rfl] at hrestored
      rw [if_pos rfl, setTerminal_comm _ _ hne, hback]
      exact hrestored

/-- Opening that fails changes no mode. -/
theorem WindowsSystem.Lawful.open_error (hos : os.Lawful terminal)
    (h : (windowsOpen os w).2.2 ≠ .success) :
    os.getConsoleMode (windowsOpen os w).1 = os.getConsoleMode w := by
  unfold windowsOpen at h ⊢
  cases hinput : os.stdInput w with
  | null => rfl
  | invalid => rfl
  | handle input =>
    rw [hinput] at h
    dsimp only at h ⊢
    cases hterminal : (PortableShell.openInput os w (withHandles os w input) input).2 with
    | some t =>
      rw [hterminal] at h
      exact absurd rfl h
    | none =>
      dsimp only
      unfold PortableShell.openInput at hterminal ⊢
      cases hmode : os.getConsoleMode w input with
      | none => rfl
      | some mode =>
        rw [hmode] at hterminal
        dsimp only at hterminal ⊢
        split_ifs at hterminal ⊢ with hset
        exact hos.set_failure w input _ ((Bool.not_eq_true _).mp hset)

end Modes

end PortableShell
