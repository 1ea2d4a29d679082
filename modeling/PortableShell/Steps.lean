import PortableShell.Execute

set_option relaxedAutoImplicit false
set_option autoImplicit false

/-!
# Elementary steps

Every function of the library changes the shell instance by a few kinds of updates, each made
under a condition the function has checked. This file lists them. What each step keeps, a sequence
of steps keeps.

## Main definitions

* `PortableShell.ExecStep`, `EditStep`, `Step` — the elementary updates with their conditions, in
  three layers: what an execution does, what an editing byte does, and what an input byte does.

## Main results

* `PortableShell.keeps_of_steps` — what every step keeps, a sequence of them keeps.
* `PortableShell.Steps.sameSetup` — the configuration and the sizes of the buffers never change.
* `PortableShell.EditSteps.sameInput` — editing leaves the decoder alone or resets it.
-/

namespace PortableShell

open Relation

/-- The updates that executing a command makes. -/
inductive ExecStep : Shell → Shell → Prop
  | app {s s' : Shell} (h : ShellStep s s') : ExecStep s s'
  | store {s : Shell} (line : CStr) (hne : line.isEmpty = false)
      (hstorage : s.historyStorage.isSome) (hdepth : s.historyDepth ≠ 0)
      (hnew : shHistoryGetNewest s 0 ≠ some line) : ExecStep s (s.storeEntry line)
  | argv (s : Shell) (texts : List CStr) : ExecStep s (s.setArgv texts)
  | wipeArgv (s : Shell) : ExecStep s s.wipeArgv

/-- The updates that an editing byte makes. -/
inductive EditStep : Shell → Shell → Prop
  | exec {s s' : Shell} (h : ExecStep s s') : EditStep s s'
  | resetAnsi (s : Shell) : EditStep s s.resetAnsi
  | walk {s : Shell} (direction : ℤ) (h : s.historyCount ≠ 0) : EditStep s (s.walk direction)
  | insert {s : Shell} {c : Byte} (hc : c ≠ 0) (h : s.lineLen + 1 < s.lineCapacity) :
      EditStep s (s.insertAt c)
  | backspace {s : Shell} (h : s.cursor ≠ 0) : EditStep s (s.deleteRange (s.cursor - 1) s.cursor)
  | delete {s : Shell} (h : s.cursor < s.lineLen) :
      EditStep s (s.deleteRange s.cursor (s.cursor + 1))
  | word (s : Shell) : EditStep s (s.deleteRange s.wordStart s.cursor)
  | eraseLine (s : Shell) : EditStep s s.eraseLine
  | eraseDraft (s : Shell) : EditStep s s.eraseDraft
  | wipeDraft (s : Shell) : EditStep s s.wipeDraft
  | cursor {s : Shell} {cursor : ℕ} (h : cursor ≤ s.cursor ∨ cursor ≤ s.lineLen) :
      EditStep s (s.setCursor cursor)
  | replace {s : Shell} {start stop space : ℕ} (replacement : CStr) (hstart : start ≤ stop)
      (hstop : stop ≤ s.lineLen) (hspace : space ≤ 1)
      (hfit : start + replacement.length + space + (s.lineLen - stop) < s.lineCapacity) :
      EditStep s (s.replaceRange start stop replacement space)

/-- The elementary updates of a shell. -/
inductive Step : Shell → Shell → Prop
  | edit {s s' : Shell} (h : EditStep s s') : Step s s'
  | lastCr (s : Shell) (b : Bool) : Step s (s.setLastInputWasCr b)
  | feed (s : Shell) (byte : Byte) : Step s (s.setAnsi (shAnsiFeed s.ansi byte).1)

/-- A sequence of updates of an execution. -/
abbrev ExecSteps : Shell → Shell → Prop := ReflTransGen ExecStep

/-- A sequence of updates of editing bytes. -/
abbrev EditSteps : Shell → Shell → Prop := ReflTransGen EditStep

/-- A sequence of elementary updates. -/
abbrev Steps : Shell → Shell → Prop := ReflTransGen Step

/-- What application code does. -/
theorem ExecSteps.app {s s' : Shell} (h : ReflTransGen ShellStep s s') : ExecSteps s s' :=
  h.lift id fun _ _ => .app

/-- What an execution does. -/
theorem EditSteps.exec {s s' : Shell} (h : ExecSteps s s') : EditSteps s s' :=
  h.lift id fun _ _ => .exec

/-- What editing does. -/
theorem Steps.edit {s s' : Shell} (h : EditSteps s s') : Steps s s' := h.lift id fun _ _ => .edit

/-- What every update keeps, a sequence of updates keeps. -/
theorem keeps_of_steps {T : Shell → Shell → Prop} {P : Shell → Prop}
    (step : ∀ s s', T s s' → P s → P s') {s s' : Shell} (h : ReflTransGen T s s') (hs : P s) :
    P s' := by
  induction h with
  | refl => exact hs
  | tail _ hstep ih => exact step _ _ hstep ih

/-! ## What no update changes -/

/-- The configuration and the sizes of the buffers are those of another shell. -/
structure SameSetup (s s' : Shell) : Prop where
  cfg : s'.cfg = s.cfg
  lineCapacity : s'.lineCapacity = s.lineCapacity
  argvCapacity : s'.argvCapacity = s.argvCapacity
  historyDepth : s'.historyDepth = s.historyDepth
  historySlotSize : s'.historySlotSize = s.historySlotSize

namespace SameSetup

/-- A shell has its own setup. -/
theorem refl (s : Shell) : SameSetup s s := ⟨rfl, rfl, rfl, rfl, rfl⟩

/-- The setup stays the same over two changes. -/
theorem trans {a b c : Shell} (h : SameSetup a b) (k : SameSetup b c) : SameSetup a c :=
  ⟨k.cfg.trans h.cfg, k.lineCapacity.trans h.lineCapacity, k.argvCapacity.trans h.argvCapacity,
    k.historyDepth.trans h.historyDepth, k.historySlotSize.trans h.historySlotSize⟩

end SameSetup

/-- Application code does not change the setup. -/
theorem ShellStep.sameSetup {s s' : Shell} (hstep : ShellStep s s') : SameSetup s s' := by
  cases hstep with
  | clear => exact ⟨rfl, rfl, rfl, rfl, rfl⟩
  | echo enabled => exact ⟨rfl, rfl, rfl, rfl, rfl⟩
  | commands l =>
    rcases shRegisterCommands_cases s l with hc | ⟨e, -, hc⟩ <;> rw [hc] <;>
      exact ⟨rfl, rfl, rfl, rfl, rfl⟩
  | commandSets l =>
    rcases shRegisterCommandSets_cases s l with hc | ⟨e, -, hc⟩ <;> rw [hc] <;>
      exact ⟨rfl, rfl, rfl, rfl, rfl⟩
  | started b => exact ⟨rfl, rfl, rfl, rfl, rfl⟩
  | stopped => exact ⟨rfl, rfl, rfl, rfl, rfl⟩

/-- Executing a command does not change the setup. -/
theorem ExecStep.sameSetup {s s' : Shell} (hstep : ExecStep s s') : SameSetup s s' := by
  cases hstep with
  | app h => exact h.sameSetup
  | store line hne hstorage hdepth hnew => exact ⟨rfl, rfl, rfl, rfl, rfl⟩
  | argv texts => exact ⟨rfl, rfl, rfl, rfl, rfl⟩
  | wipeArgv =>
    unfold Shell.wipeArgv
    split_ifs <;> exact ⟨rfl, rfl, rfl, rfl, rfl⟩

/-- Editing does not change the setup. -/
theorem EditStep.sameSetup {s s' : Shell} (hstep : EditStep s s') : SameSetup s s' := by
  cases hstep with
  | exec h => exact h.sameSetup
  | resetAnsi => exact ⟨rfl, rfl, rfl, rfl, rfl⟩
  | walk direction h =>
    unfold Shell.walk
    split_ifs <;> exact ⟨rfl, rfl, rfl, rfl, rfl⟩
  | insert hc h => exact ⟨rfl, rfl, rfl, rfl, rfl⟩
  | backspace h => exact ⟨rfl, rfl, rfl, rfl, rfl⟩
  | delete h => exact ⟨rfl, rfl, rfl, rfl, rfl⟩
  | word => exact ⟨rfl, rfl, rfl, rfl, rfl⟩
  | eraseLine => exact ⟨rfl, rfl, rfl, rfl, rfl⟩
  | eraseDraft => exact ⟨rfl, rfl, rfl, rfl, rfl⟩
  | wipeDraft =>
    unfold Shell.wipeDraft
    split_ifs <;> exact ⟨rfl, rfl, rfl, rfl, rfl⟩
  | cursor h => exact ⟨rfl, rfl, rfl, rfl, rfl⟩
  | replace replacement hstart hstop hspace hfit => exact ⟨rfl, rfl, rfl, rfl, rfl⟩

/-- No step changes the setup. -/
theorem Step.sameSetup {s s' : Shell} (hstep : Step s s') : SameSetup s s' := by
  cases hstep with
  | edit h => exact h.sameSetup
  | lastCr b => exact ⟨rfl, rfl, rfl, rfl, rfl⟩
  | feed byte => exact ⟨rfl, rfl, rfl, rfl, rfl⟩

/-- **The setup of a shell** stays the same over all steps. -/
theorem Steps.sameSetup {s s' : Shell} (h : Steps s s') : SameSetup s s' :=
  keeps_of_steps (T := Step) (P := SameSetup s) (fun _ _ hstep hs => hs.trans hstep.sameSetup) h
    (.refl s)

/-! ## What editing leaves of the input state -/

/-- The decoder is that of another shell, possibly reset, and the flag for a carriage return is the
same. -/
structure SameInput (s s' : Shell) : Prop where
  ansi : s'.ansi = s.ansi ∨ s'.ansi = shAnsiReset s.ansi
  lastCr : s'.lastInputWasCr = s.lastInputWasCr

namespace SameInput

/-- A shell has its own input state. -/
theorem refl (s : Shell) : SameInput s s := ⟨.inl rfl, rfl⟩

/-- Resetting the decoder twice is resetting it once. -/
theorem trans {a b c : Shell} (h : SameInput a b) (k : SameInput b c) : SameInput a c := by
  refine ⟨?_, k.lastCr.trans h.lastCr⟩
  rcases k.ansi with hk | hk <;> rcases h.ansi with hh | hh <;> rw [hk, hh]
  · exact .inl rfl
  · exact .inr rfl
  · exact .inr rfl
  · exact .inr rfl

/-- An idle decoder stays idle. -/
theorem idle {s s' : Shell} (h : SameInput s s') (hs : s.ansi.state = .idle) :
    s'.ansi.state = .idle := by
  rcases h.ansi with hansi | hansi <;> rw [hansi]
  · exact hs
  · rfl

/-- The buffer of the decoder keeps its contents. -/
theorem csi {s s' : Shell} (h : SameInput s s') : s'.ansi.csi = s.ansi.csi := by
  rcases h.ansi with hansi | hansi <;> rw [hansi]
  rfl

end SameInput

/-- Editing leaves the input state alone or resets the decoder.

**Proof sketch.** One case per step. Stopping and `resetAnsi` reset the decoder, and no other step
of editing touches the input state. -/
theorem EditStep.sameInput {s s' : Shell} (hstep : EditStep s s') : SameInput s s' := by
  cases hstep with
  | exec he =>
    cases he with
    | app ha =>
      cases ha with
      | commands l =>
        rcases shRegisterCommands_cases s l with hc | ⟨e, -, hc⟩ <;> rw [hc] <;>
          exact ⟨.inl rfl, rfl⟩
      | commandSets l =>
        rcases shRegisterCommandSets_cases s l with hc | ⟨e, -, hc⟩ <;> rw [hc] <;>
          exact ⟨.inl rfl, rfl⟩
      | stopped => exact ⟨.inr rfl, rfl⟩
      | _ => exact ⟨.inl rfl, rfl⟩
    | wipeArgv =>
      unfold Shell.wipeArgv
      split_ifs <;> exact ⟨.inl rfl, rfl⟩
    | _ => exact ⟨.inl rfl, rfl⟩
  | resetAnsi => exact ⟨.inr rfl, rfl⟩
  | walk direction _ =>
    unfold Shell.walk
    split_ifs <;> exact ⟨.inl rfl, rfl⟩
  | wipeDraft =>
    unfold Shell.wipeDraft
    split_ifs <;> exact ⟨.inl rfl, rfl⟩
  | _ => exact ⟨.inl rfl, rfl⟩

/-- A sequence of editing steps leaves it alone or resets the decoder. -/
theorem EditSteps.sameInput {s s' : Shell} (h : EditSteps s s') : SameInput s s' :=
  keeps_of_steps (T := EditStep) (P := SameInput s) (fun _ _ hstep hs => hs.trans hstep.sameInput) h
    (.refl s)

/-- No step changes the size of the parameter buffer. -/
theorem Step.csi_length {s s' : Shell} (hstep : Step s s') :
    s'.ansi.csi.length = s.ansi.csi.length := by
  cases hstep with
  | edit h => rw [h.sameInput.csi]
  | lastCr b => rfl
  | feed byte => exact shAnsiFeed_csi_length s.ansi byte

/-- A sequence of steps does not change the size of the parameter buffer. -/
theorem Steps.csi_length {s s' : Shell} (h : Steps s s') :
    s'.ansi.csi.length = s.ansi.csi.length :=
  keeps_of_steps (T := Step) (P := fun s' => s'.ansi.csi.length = s.ansi.csi.length)
    (fun _ _ hstep hs => hstep.csi_length.trans hs) h rfl

end PortableShell
