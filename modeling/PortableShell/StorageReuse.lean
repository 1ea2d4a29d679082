import PortableShell.Simulation

set_option relaxedAutoImplicit false
set_option autoImplicit false

/-!
# Reuse of the buffers

`sh_init` leaves in the buffers what it finds there, apart from one byte of the line and of the
draft. Nothing of it is ever read: the line is read up to its terminator, the history where it is
populated, and the draft behind what was saved to it. So shells that are initialized in buffers
with different contents behave alike.

## Main definitions

* `PortableShell.SameContents` — two shells whose buffers hold the same line, history and draft.
* `PortableShell.Storage.SameSizes` — buffers of the same sizes.

## Main results

* `PortableShell.sameContents_simulation` — shells with the same contents behave alike.
* `PortableShell.storage_reuse` — the contents of the buffers before initialization do not matter.
-/

namespace PortableShell

variable {ω : Type}

/-! ## The contents of the buffers -/

/-- A shell with other buffers. -/
def Shell.withBuffers (s : Shell) (line : List Byte) (argv : List (Option CStr))
    (storage draft : Option (List Byte)) : Shell :=
  { s with line := line, argv := argv, historyStorage := storage, draft := draft }

/-- Two shells that differ in their buffers only, and whose buffers hold the same line, the same
history and the same draft. -/
structure SameContents (s s' : Shell) : Prop where
  shell : s' = s.withBuffers s'.line s'.argv s'.historyStorage s'.draft
  wf : s.Wf
  wf' : s'.Wf
  text : s'.text = s.text
  entries : s'.entries = s.entries
  storage : s'.historyStorage.isSome = s.historyStorage.isSome
  draft : s'.draft.map (CStr.at · 0) = s.draft.map (CStr.at · 0)

namespace SameContents

variable {s s' : Shell}

/-- The second shell is the first with other buffers. -/
private theorem exists_buffers (h : SameContents s s') :
    ∃ line argv storage draft, s' = s.withBuffers line argv storage draft := ⟨_, _, _, _, h.shell⟩

/-- A field that is no buffer is the same. -/
theorem field {β : Type} (h : SameContents s s') {f : Shell → β}
    (hf : ∀ line argv storage draft, f (s.withBuffers line argv storage draft) = f s) :
    f s' = f s := by
  rw [h.shell]
  exact hf _ _ _ _

/-- A lookup in the history gives the same. -/
theorem newest (h : SameContents s s') (i : ℕ) :
    shHistoryGetNewest s' i = shHistoryGetNewest s i := by
  rw [h.wf'.history.getNewest_eq, h.wf.history.getNewest_eq, h.entries]

/-- The registry is the same. -/
theorem sameRegistry (h : SameContents s s') : SameRegistry s s' :=
  ⟨h.field (f := Shell.cfg) fun _ _ _ _ => rfl, h.field (f := Shell.commands) fun _ _ _ _ => rfl,
    h.field (f := Shell.commandSets) fun _ _ _ _ => rfl⟩

/-- The bytes of the line up to its end are the same. -/
theorem cell_eq (h : SameContents s s') {i : ℕ} (hi : i < s.lineLen) :
    cell s'.line i = cell s.line i := by
  have hlen : s'.lineLen = s.lineLen := h.field (f := Shell.lineLen) fun _ _ _ _ => rfl
  have hsome := h.wf.getElem?_text hi
  rw [← h.text, h.wf'.getElem?_text (hlen ▸ hi)] at hsome
  exact Option.some.inj hsome

/-- The line up to a place in it is the same. -/
theorem take_eq (h : SameContents s s') {n : ℕ} (hn : n ≤ s.lineLen) :
    s'.line.take n = s.line.take n := by
  have hlen : s'.lineLen = s.lineLen := h.field (f := Shell.lineLen) fun _ _ _ _ => rfl
  have htext := congrArg (List.take n) h.text
  rwa [Shell.text, Shell.text, hlen, List.take_take, List.take_take, Nat.min_eq_left hn] at htext

end SameContents

/-! ## Updates on both sides -/

/-- An update made under its condition keeps a shell well formed.

**Proof sketch.** One case per update: each is a step of the shell, or has its own lemma for which
the guard gives the hypotheses. -/
theorem Shell.Wf.update {s : Shell} (h : s.Wf) (u : Update) (hu : u.Guard s) : (u.apply s).Wf := by
  have happ : ∀ {s'}, ShellStep s s' → s'.Wf := fun hstep => shellStep hstep h
  cases u with
  | clearHistory => exact happ (.clear s)
  | setEcho enabled => exact happ (.echo s enabled)
  | registerCommands l => exact happ (.commands s l)
  | registerCommandSets l => exact happ (.commandSets s l)
  | setStarted b => exact happ (.started s b)
  | stopped => exact happ (.stopped s)
  | storeEntry line => exact h.storeEntry hu.2.2.1 line
  | setArgv texts => exact execStep (.argv s texts) h
  | wipeArgv => exact execStep (.wipeArgv s) h
  | setLastCr b => exact h.step (.lastCr s b)
  | setAnsi decoder =>
    obtain ⟨byte, rfl⟩ := hu
    exact h.step (.feed s byte)
  | resetAnsi => exact editStep (.resetAnsi s) h
  | walk direction => exact h.walk direction
  | insertAt c => exact h.insertAt hu.1 hu.2
  | deleteRange start stop =>
    have hcursor := h.cursor_le
    exact h.deleteRange hu.1 (by have := hu.2; omega)
  | eraseLine => exact h.eraseLine
  | eraseDraft => exact h.eraseDraft
  | wipeDraft => exact h.wipeDraft
  | setCursor cursor => exact h.setCursor hu
  | replaceRange start stop replacement space =>
    exact h.replaceRange replacement hu.1 hu.2.1 hu.2.2.1 hu.2.2.2

namespace SameContents

variable {s s' : Shell}

/-- The condition of an update holds on both sides. -/
private theorem guard (h : SameContents s s') (u : Update) (hu : u.Guard s) : u.Guard s' := by
  have hnewest := h.newest 0
  have hstorage := h.storage
  obtain ⟨line, argv, storage, draft, rfl⟩ := h.exists_buffers
  cases u with
  | storeEntry line =>
    refine ⟨hu.1, ?_, hu.2.2.1, ?_⟩
    · rw [hstorage]
      exact hu.2.1
    · rw [hnewest]
      exact hu.2.2.2
  | _ => exact hu

/-- An update on both sides that leaves the contents alike. -/
private theorem update_of (h : SameContents s s') (u : Update) (hu : u.Guard s)
    (hshell : u.apply s' = (u.apply s).withBuffers (u.apply s').line (u.apply s').argv
      (u.apply s').historyStorage (u.apply s').draft)
    (htext : (u.apply s').text = (u.apply s).text)
    (hentries : (u.apply s').entries = (u.apply s).entries)
    (hstorage : (u.apply s').historyStorage.isSome = (u.apply s).historyStorage.isSome)
    (hdraft : (u.apply s').draft.map (CStr.at · 0) = (u.apply s).draft.map (CStr.at · 0)) :
    SameContents (u.apply s) (u.apply s') :=
  ⟨hshell, h.wf.update u hu, h.wf'.update u (h.guard u hu), htext, hentries, hstorage, hdraft⟩

/-- An update on both sides that leaves the history alone. -/
private theorem update_frame (h : SameContents s s') (u : Update) (hu : u.Guard s)
    (hshell : u.apply s' = (u.apply s).withBuffers (u.apply s').line (u.apply s').argv
      (u.apply s').historyStorage (u.apply s').draft)
    (htext : (u.apply s').text = (u.apply s).text)
    (hhistory : SameHistory s (u.apply s)) (hhistory' : SameHistory s' (u.apply s'))
    (hdraft : (u.apply s').draft.map (CStr.at · 0) = (u.apply s).draft.map (CStr.at · 0)) :
    SameContents (u.apply s) (u.apply s') := by
  refine h.update_of u hu hshell htext ?_ ?_ hdraft
  · rw [hhistory'.entries_eq, hhistory.entries_eq, h.entries]
  · rw [hhistory'.storage, hhistory.storage, h.storage]

/-- A draft that is overwritten from its start on holds nothing. -/
private theorem at_emptied {n : ℕ} (hn : 0 < n) (d : List Byte) :
    CStr.at (Mem.fill d 0 0 n) 0 = CStr.empty ∧ CStr.at (Mem.store d 0 [0]) 0 = CStr.empty := by
  obtain ⟨k, rfl⟩ : ∃ k, n = k + 1 := ⟨n - 1, by omega⟩
  cases d with
  | nil => exact ⟨CStr.ext rfl, CStr.ext rfl⟩
  | cons c d => exact ⟨CStr.ext rfl, CStr.ext rfl⟩

/-- Overwriting the drafts on both sides leaves nothing in them. -/
private theorem map_emptied (h : SameContents s s') {f : List Byte → List Byte}
    (hf : ∀ d, CStr.at (f d) 0 = CStr.empty) :
    (s'.draft.map f).map (CStr.at · 0) = (s.draft.map f).map (CStr.at · 0) := by
  have hdraft := congrArg (Option.map fun _ => CStr.empty) h.draft
  rw [Option.map_map, Option.map_map] at hdraft ⊢
  rw [show ((CStr.at · 0) ∘ f) = (fun _ => CStr.empty) from funext hf]
  exact hdraft

/-- Clearing the history on both sides. -/
theorem clearHistory (h : SameContents s s') :
    SameContents (Update.clearHistory.apply s) (Update.clearHistory.apply s') := by
  have hpos : 0 < s.lineCapacity := Nat.zero_lt_of_lt h.wf.lineLen_lt
  have hdraft := h.map_emptied (f := (Mem.fill · 0 0 s.lineCapacity)) fun d => (at_emptied hpos d).1
  have hstorage := h.storage
  have htext := h.text
  have hsome : ∀ t : Shell, t.clearHistory.historyStorage.isSome = t.historyStorage.isSome := by
    intro t
    rw [Shell.clearHistory]
    dsimp only
    split_ifs
    · exact Option.isSome_map
    · rfl
  refine h.update_of .clearHistory trivial ?_ htext ?_ ?_ ?_
  · obtain ⟨line, argv, storage, draft, rfl⟩ := h.exists_buffers
    rfl
  · exact (entries_clearHistory s').trans (entries_clearHistory s).symm
  · exact (hsome s').trans (hstorage.trans (hsome s).symm)
  · have hcapacity : s'.lineCapacity = s.lineCapacity :=
      h.field (f := Shell.lineCapacity) fun _ _ _ _ => rfl
    show (s'.draft.map (Mem.fill · 0 0 s'.lineCapacity)).map (CStr.at · 0) = _
    rw [hcapacity]
    exact hdraft

/-- Writing a history entry on both sides. -/
theorem storeEntry (h : SameContents s s') (line : CStr) (hu : (Update.storeEntry line).Guard s) :
    SameContents ((Update.storeEntry line).apply s) ((Update.storeEntry line).apply s') := by
  have hdepth : s'.historyDepth = s.historyDepth :=
    h.field (f := Shell.historyDepth) fun _ _ _ _ => rfl
  have hlen : slotLength s' line = slotLength s line :=
    h.field (f := (slotLength · line)) fun _ _ _ _ => rfl
  have hentries := (h.wf.history.enabled hu.2.2.1).entries_storeEntry hu.2.2.1 line
  have hentries' := (h.wf'.history.enabled (hdepth ▸ hu.2.2.1)).entries_storeEntry
    (hdepth ▸ hu.2.2.1) line
  refine h.update_of (.storeEntry line) hu ?_ h.text ?_ ?_ h.draft
  · obtain ⟨line, argv, storage, draft, rfl⟩ := h.exists_buffers
    rfl
  · refine hentries'.trans (Eq.trans ?_ hentries.symm)
    rw [hlen, h.entries, hdepth]
  · exact Option.isSome_map.trans (h.storage.trans Option.isSome_map.symm)

/-- Registering commands on both sides. -/
theorem registerCommands (h : SameContents s s') (l : CArray Cmd) :
    SameContents ((Update.registerCommands l).apply s) ((Update.registerCommands l).apply s') := by
  have hstatus := shRegisterCommands_status_eq h.sameRegistry.cfg l
  show SameContents (shRegisterCommands s l).1 (shRegisterCommands s' l).1
  rcases shRegisterCommands_cases s l with hs | ⟨e, he, hs⟩ <;>
    rcases shRegisterCommands_cases s' l with hs' | ⟨e', he', hs'⟩ <;>
    rw [hs, hs'] at hstatus
  · have hframe := h.update_frame (.registerCommands l) trivial
    have happly : (Update.registerCommands l).apply s = s.setCommands l.cells := by
      rw [Update.apply, hs]
    have happly' : (Update.registerCommands l).apply s' = s'.setCommands l.cells := by
      rw [Update.apply, hs']
    rw [happly, happly'] at hframe
    rw [hs, hs']
    refine hframe ?_ h.text ⟨rfl, rfl, rfl, rfl, rfl⟩ ⟨rfl, rfl, rfl, rfl, rfl⟩ h.draft
    obtain ⟨line, argv, storage, draft, rfl⟩ := h.exists_buffers
    rfl
  · exact absurd hstatus he'
  · exact absurd hstatus.symm he
  · rw [hs, hs']
    exact h

/-- Registering sets on both sides. -/
theorem registerCommandSets (h : SameContents s s') (l : CArray CommandSet) :
    SameContents ((Update.registerCommandSets l).apply s)
      ((Update.registerCommandSets l).apply s') := by
  have hstatus := shRegisterCommandSets_status_eq h.sameRegistry.cfg l
  show SameContents (shRegisterCommandSets s l).1 (shRegisterCommandSets s' l).1
  rcases shRegisterCommandSets_cases s l with hs | ⟨e, he, hs⟩ <;>
    rcases shRegisterCommandSets_cases s' l with hs' | ⟨e', he', hs'⟩ <;>
    rw [hs, hs'] at hstatus
  · have hframe := h.update_frame (.registerCommandSets l) trivial
    have happly : (Update.registerCommandSets l).apply s = s.setCommandSets l := by
      rw [Update.apply, hs]
    have happly' : (Update.registerCommandSets l).apply s' = s'.setCommandSets l := by
      rw [Update.apply, hs']
    rw [happly, happly'] at hframe
    rw [hs, hs']
    refine hframe ?_ h.text ⟨rfl, rfl, rfl, rfl, rfl⟩ ⟨rfl, rfl, rfl, rfl, rfl⟩ h.draft
    obtain ⟨line, argv, storage, draft, rfl⟩ := h.exists_buffers
    rfl
  · exact absurd hstatus he'
  · exact absurd hstatus.symm he
  · rw [hs, hs']
    exact h

/-! ### Editing on both sides -/

/-- Saving the line to the draft on both sides. -/
theorem saveDraft (h : SameContents s s') (hdepth : s.historyDepth ≠ 0) :
    SameContents s.saveDraft s'.saveDraft := by
  have hdepth' : s'.historyDepth = s.historyDepth :=
    h.field (f := Shell.historyDepth) fun _ _ _ _ => rfl
  have hexec : s'.execText = s.execText := by rw [Shell.execText, Shell.execText, h.text]
  obtain ⟨d, hd, hat⟩ := h.wf.draft_saveDraft hdepth
  obtain ⟨d', hd', hat'⟩ := h.wf'.draft_saveDraft (hdepth' ▸ hdepth)
  refine ⟨?_, h.wf.saveDraft, h.wf'.saveDraft, h.text, h.entries, h.storage, ?_⟩
  · obtain ⟨line, argv, storage, draft, rfl⟩ := h.exists_buffers
    rfl
  · rw [hd, hd', Option.map_some, Option.map_some, hat, hat', hexec]

/-- Moving in the history on both sides. -/
theorem stepView (h : SameContents s s') (direction : ℤ) :
    SameContents (s.stepView direction) (s'.stepView direction) := by
  refine ⟨?_, h.wf.stepView direction, h.wf'.stepView direction, h.text, h.entries, h.storage,
    h.draft⟩
  obtain ⟨line, argv, storage, draft, rfl⟩ := h.exists_buffers
  rfl

/-- The line recalled is the same. -/
private theorem recalled_eq (h : SameContents s s') : s'.recalled = s.recalled := by
  have hview : s'.historyView = s.historyView := h.field (f := Shell.historyView) fun _ _ _ _ => rfl
  have hat : ∀ draft : Option (List Byte), CStr.at (draft.getD []) 0 =
      (draft.map (CStr.at · 0)).getD CStr.empty := by
    intro draft
    cases draft with
    | none => exact CStr.ext rfl
    | some d => rfl
  rw [Shell.recalled, Shell.recalled, hview, h.newest, hat, hat, h.draft]

/-- Replacing the line on both sides. -/
theorem setLine (h : SameContents s s') (t : CStr) : SameContents (s.setLine t) (s'.setLine t) := by
  have hcapacity : s'.lineCapacity = s.lineCapacity :=
    h.field (f := Shell.lineCapacity) fun _ _ _ _ => rfl
  refine ⟨?_, h.wf.setLine t, h.wf'.setLine t, ?_, h.entries, h.storage, h.draft⟩
  · obtain ⟨line, argv, storage, draft, rfl⟩ := h.exists_buffers
    rfl
  · rw [h.wf.text_setLine, h.wf'.text_setLine, hcapacity]

/-- Walking through the history on both sides. -/
theorem walk (h : SameContents s s') (direction : ℤ) (hcount : s.historyCount ≠ 0) :
    SameContents (s.walk direction) (s'.walk direction) := by
  have hview : s'.historyView = s.historyView := h.field (f := Shell.historyView) fun _ _ _ _ => rfl
  have hdepth : s.historyDepth ≠ 0 := fun h0 => hcount (h.wf.history.disabled h0)
  have hstepped : SameContents
      ((if s.historyView < 0 then s.saveDraft else s).stepView direction)
      ((if s'.historyView < 0 then s'.saveDraft else s').stepView direction) := by
    rw [hview]
    split_ifs
    · exact (h.saveDraft hdepth).stepView direction
    · exact h.stepView direction
  unfold Shell.walk
  dsimp only
  rw [hstepped.recalled_eq]
  exact hstepped.setLine _

/-- Inserting a byte on both sides. -/
theorem insertAt (h : SameContents s s') {c : Byte} (hu : (Update.insertAt c).Guard s) :
    SameContents ((Update.insertAt c).apply s) ((Update.insertAt c).apply s') := by
  have hcursor : s'.cursor = s.cursor := h.field (f := Shell.cursor) fun _ _ _ _ => rfl
  have hu' := h.guard (.insertAt c) hu
  refine h.update_frame (.insertAt c) hu ?_ ?_ ⟨rfl, rfl, rfl, rfl, rfl⟩ ⟨rfl, rfl, rfl, rfl, rfl⟩
    h.draft
  · obtain ⟨line, argv, storage, draft, rfl⟩ := h.exists_buffers
    rfl
  · refine (h.wf'.text_insertAt hu'.1 hu'.2).trans (Eq.trans ?_ (h.wf.text_insertAt hu.1 hu.2).symm)
    rw [h.text, hcursor]

/-- Removing a part of the line on both sides. -/
theorem deleteRange (h : SameContents s s') {start stop : ℕ}
    (hu : (Update.deleteRange start stop).Guard s) :
    SameContents ((Update.deleteRange start stop).apply s)
      ((Update.deleteRange start stop).apply s') := by
  have hlen : s'.lineLen = s.lineLen := h.field (f := Shell.lineLen) fun _ _ _ _ => rfl
  have hle := h.wf.cursor_le
  have hstop : stop ≤ s.lineLen := by
    have := hu.2
    omega
  refine h.update_frame (.deleteRange start stop) hu ?_ ?_ ⟨rfl, rfl, rfl, rfl, rfl⟩
    ⟨rfl, rfl, rfl, rfl, rfl⟩ h.draft
  · obtain ⟨line, argv, storage, draft, rfl⟩ := h.exists_buffers
    rfl
  · refine (h.wf'.text_deleteRange hu.1 (hlen ▸ hstop)).trans
      (Eq.trans ?_ (h.wf.text_deleteRange hu.1 hstop).symm)
    rw [h.text]

/-- Replacing a part of the line on both sides. -/
theorem replaceRange (h : SameContents s s') {start stop space : ℕ} {replacement : CStr}
    (hu : (Update.replaceRange start stop replacement space).Guard s) :
    SameContents ((Update.replaceRange start stop replacement space).apply s)
      ((Update.replaceRange start stop replacement space).apply s') := by
  have hu' := h.guard (.replaceRange start stop replacement space) hu
  refine h.update_frame (.replaceRange start stop replacement space) hu ?_ ?_
    ⟨rfl, rfl, rfl, rfl, rfl⟩ ⟨rfl, rfl, rfl, rfl, rfl⟩ h.draft
  · obtain ⟨line, argv, storage, draft, rfl⟩ := h.exists_buffers
    rfl
  · refine (h.wf'.text_replaceRange replacement hu'.1 hu'.2.1 hu'.2.2.1 hu'.2.2.2).trans
      (Eq.trans ?_ (h.wf.text_replaceRange replacement hu.1 hu.2.1 hu.2.2.1 hu.2.2.2).symm)
    rw [h.text]

/-- Wiping the draft on both sides. -/
theorem wipeDraft (h : SameContents s s') : SameContents s.wipeDraft s'.wipeDraft := by
  have hpos : 0 < s.lineCapacity := Nat.zero_lt_of_lt h.wf.lineLen_lt
  have hdraft := h.map_emptied (f := (Mem.fill · 0 0 s.lineCapacity)) fun d => (at_emptied hpos d).1
  have hcfg : s'.cfg = s.cfg := h.sameRegistry.cfg
  have hcapacity : s'.lineCapacity = s.lineCapacity :=
    h.field (f := Shell.lineCapacity) fun _ _ _ _ => rfl
  have hwf := h.wf.wipeDraft
  have hwf' := h.wf'.wipeDraft
  unfold Shell.wipeDraft at hwf hwf' ⊢
  rw [hcfg, hcapacity] at hwf' ⊢
  split_ifs at hwf hwf' ⊢
  · refine ⟨?_, hwf, hwf', h.text, h.entries, h.storage, hdraft⟩
    obtain ⟨line, argv, storage, draft, rfl⟩ := h.exists_buffers
    rfl
  · exact h

/-- Emptying the draft on both sides. -/
theorem eraseDraft (h : SameContents s s') : SameContents s.eraseDraft s'.eraseDraft := by
  have hpos : 0 < s.lineCapacity := Nat.zero_lt_of_lt h.wf.lineLen_lt
  have hcfg : s'.cfg = s.cfg := h.sameRegistry.cfg
  have hcapacity : s'.lineCapacity = s.lineCapacity :=
    h.field (f := Shell.lineCapacity) fun _ _ _ _ => rfl
  refine ⟨?_, h.wf.eraseDraft, h.wf'.eraseDraft, h.text, h.entries, h.storage, ?_⟩
  · obtain ⟨line, argv, storage, draft, rfl⟩ := h.exists_buffers
    rfl
  · unfold Shell.eraseDraft
    dsimp only
    rw [hcfg, hcapacity]
    refine h.map_emptied fun d => ?_
    split_ifs
    · exact (at_emptied hpos d).1
    · exact (at_emptied hpos d).2

/-- An update on both sides that leaves the line and the draft alone as well. -/
private theorem update_aside (h : SameContents s s') (u : Update) (hu : u.Guard s)
    (hshell : u.apply s' = (u.apply s).withBuffers (u.apply s').line (u.apply s').argv
      (u.apply s').historyStorage (u.apply s').draft)
    (htext : (u.apply s).text = s.text) (htext' : (u.apply s').text = s'.text)
    (hhistory : SameHistory s (u.apply s)) (hhistory' : SameHistory s' (u.apply s'))
    (hdraft : (u.apply s).draft = s.draft) (hdraft' : (u.apply s').draft = s'.draft) :
    SameContents (u.apply s) (u.apply s') := by
  refine h.update_frame u hu hshell ?_ hhistory hhistory' ?_
  · rw [htext', htext, h.text]
  · rw [hdraft', hdraft, h.draft]

/-- Wiping the argument vector on both sides. -/
theorem wipeArgv (h : SameContents s s') :
    SameContents (Update.wipeArgv.apply s) (Update.wipeArgv.apply s') := by
  have hkept : ∀ t : Shell, t.wipeArgv.text = t.text ∧ t.wipeArgv.draft = t.draft := by
    intro t
    unfold Shell.wipeArgv
    split_ifs <;> exact ⟨rfl, rfl⟩
  refine h.update_aside .wipeArgv trivial ?_ (hkept s).1 (hkept s').1 (Shell.sameHistory_wipeArgv s)
    (Shell.sameHistory_wipeArgv s') (hkept s).2 (hkept s').2
  obtain ⟨line, argv, storage, draft, rfl⟩ := h.exists_buffers
  dsimp only [Update.apply, Shell.wipeArgv, Shell.withBuffers]
  split_ifs <;> rfl

/-- **An update on both sides** leaves the contents alike. -/
theorem update (h : SameContents s s') (u : Update) (hu : u.Guard s) :
    SameContents (u.apply s) (u.apply s') := by
  obtain ⟨line, argv, storage, draft, rfl⟩ := h.exists_buffers
  have haside := h.update_aside u hu
  cases u with
  | clearHistory => exact h.clearHistory
  | registerCommands l => exact h.registerCommands l
  | registerCommandSets l => exact h.registerCommandSets l
  | storeEntry line => exact h.storeEntry line hu
  | walk direction => exact h.walk direction hu
  | insertAt c => exact h.insertAt hu
  | deleteRange start stop => exact h.deleteRange hu
  | replaceRange start stop replacement space => exact h.replaceRange hu
  | wipeDraft => exact h.wipeDraft
  | eraseDraft => exact h.eraseDraft
  | wipeArgv => exact h.wipeArgv
  | eraseLine =>
    exact h.update_frame .eraseLine hu rfl
      ((Shell.Wf.text_eraseLine _).trans (Shell.Wf.text_eraseLine s).symm)
      ⟨rfl, rfl, rfl, rfl, rfl⟩ ⟨rfl, rfl, rfl, rfl, rfl⟩ h.draft
  | _ => exact haside rfl rfl rfl ⟨rfl, rfl, rfl, rfl, rfl⟩ ⟨rfl, rfl, rfl, rfl, rfl⟩ rfl rfl

end SameContents

/-! ## What the library reads -/

namespace SameContents

variable {s s' : Shell}

/-- The word left of the cursor is the same. -/
theorem wordStart_eq (h : SameContents s s') : s'.wordStart = s.wordStart := by
  have hle := h.wf.cursor_le
  have hcursor : s'.cursor = s.cursor := h.field (f := Shell.cursor) fun _ _ _ _ => rfl
  have hspaces := Shell.Wf.skipSpacesLeft_le s s.cursor
  rw [Shell.wordStart, Shell.wordStart, hcursor,
    skipSpacesLeft_congr fun i hi => h.cell_eq (by omega),
    skipWordLeft_congr fun i hi => h.cell_eq (by omega)]

/-- The start of the token at the cursor is the same. -/
theorem tokenStart_eq (h : SameContents s s') : s'.tokenStart = s.tokenStart := by
  have hle := h.wf.cursor_le
  have hcursor : s'.cursor = s.cursor := h.field (f := Shell.cursor) fun _ _ _ _ => rfl
  rw [Shell.tokenStart, Shell.tokenStart, hcursor,
    skipWordLeft_congr fun i hi => h.cell_eq (by omega)]

/-- The end of the token at the cursor is the same. -/
theorem tokenEnd_eq (h : SameContents s s') : s'.tokenEnd = s.tokenEnd := by
  have hle := h.wf.cursor_le
  have hcursor : s'.cursor = s.cursor := h.field (f := Shell.cursor) fun _ _ _ _ => rfl
  have hlen : s'.lineLen = s.lineLen := h.field (f := Shell.lineLen) fun _ _ _ _ => rfl
  rw [Shell.tokenEnd, Shell.tokenEnd, hcursor, hlen,
    skipWordRight_congr fun i hi => h.cell_eq (by omega)]

/-- The token left of the cursor is the same. -/
theorem tokenPrefix_eq (h : SameContents s s') : s'.tokenPrefix = s.tokenPrefix := by
  have hcursor : s'.cursor = s.cursor := h.field (f := Shell.cursor) fun _ _ _ _ => rfl
  have hstart : s.tokenStart ≤ s.cursor := Shell.Wf.skipWordLeft_le s s.cursor
  rw [Shell.tokenPrefix, Shell.tokenPrefix, h.tokenStart_eq, hcursor, List.take_drop,
    List.take_drop, Nat.add_sub_cancel' hstart, h.take_eq h.wf.cursor_le]

/-- The space behind a completion is the same. -/
theorem spaceLen_eq (h : SameContents s s') {stop : ℕ} (hstop : stop ≤ s.lineLen) (b : Bool) :
    spaceLen s' stop b = spaceLen s stop b := by
  have hlen : s'.lineLen = s.lineLen := h.field (f := Shell.lineLen) fun _ _ _ _ => rfl
  rw [spaceLen, spaceLen, hlen]
  rcases hstop.lt_or_eq with hlt | rfl
  · rw [h.cell_eq hlt]
  · simp only [true_or]

/-- The displayed line is the same.

**Proof sketch.** The text, the configuration, the registry and the bytes up to the length of the
line are the same, and the display is made of nothing else. -/
theorem display_eq (h : SameContents s s') (env : Env ω) :
    buildDisplayLine env s' displaySize = buildDisplayLine env s displaySize := by
  have hcfg := h.sameRegistry.cfg
  have hlen : s'.lineLen = s.lineLen := h.field (f := Shell.lineLen) fun _ _ _ _ => rfl
  have hargv : s'.argvCapacity = s.argvCapacity :=
    h.field (f := Shell.argvCapacity) fun _ _ _ _ => rfl
  have hstr : s'.lineStr = s.lineStr :=
    CStr.ext (by rw [h.wf'.lineStr_bytes, h.wf.lineStr_bytes, h.text])
  have hparsed : parseDisplayed s' = parseDisplayed s := by
    unfold parseDisplayed
    rw [h.text, hstr, hargv, hlen]
  have hmask : maskToken env s' = maskToken env s := by
    funext r argv display i
    unfold maskToken
    rw [hstr, hcfg]
  have hresolve : shResolveCommandInternal s' = shResolveCommandInternal s :=
    funext h.sameRegistry.resolve_eq
  have htake : s'.line.take (if s.lineLen ≥ displaySize then displaySize - 1 else s.lineLen) =
      s.line.take (if s.lineLen ≥ displaySize then displaySize - 1 else s.lineLen) := by
    refine h.take_eq ?_
    split_ifs <;> omega
  unfold buildDisplayLine
  rw [hparsed, hmask, hresolve, hlen]
  dsimp only
  rw [htake]

end SameContents

/-- **Shells with the same contents behave alike.**

**Proof sketch.** Field by field: what a run reads of the shell is read inside the contents, which
are the same. The updates are `SameContents.update`. -/
theorem sameContents_simulation (env : Env ω) : Simulation env SameContents where
  update := fun u h hu => h.update u hu
  cfg := fun h => h.sameRegistry.cfg
  echo := fun h => h.field (f := Shell.echoEnabled) fun _ _ _ _ => rfl
  started := fun h => h.field (f := Shell.started) fun _ _ _ _ => rfl
  ansi := fun h => h.field (f := Shell.ansi) fun _ _ _ _ => rfl
  lastCr := fun h => h.field (f := Shell.lastInputWasCr) fun _ _ _ _ => rfl
  argvCapacity := fun h => h.field (f := Shell.argvCapacity) fun _ _ _ _ => rfl
  lineCapacity := fun h => h.field (f := Shell.lineCapacity) fun _ _ _ _ => rfl
  lineLen := fun h => h.field (f := Shell.lineLen) fun _ _ _ _ => rfl
  cursor := fun h => h.field (f := Shell.cursor) fun _ _ _ _ => rfl
  text := fun h => h.text
  left := by
    intro s s' h
    rw [h.field (f := Shell.cursor) fun _ _ _ _ => rfl, h.take_eq h.wf.cursor_le]
  wordStart := fun h => h.wordStart_eq
  tokenStart := fun h => h.tokenStart_eq
  tokenEnd := fun h => h.tokenEnd_eq
  tokenPrefix := fun h => h.tokenPrefix_eq
  spaceLen := fun h _ hstop b => h.spaceLen_eq hstop b
  display := fun h => h.display_eq env
  storage := by
    intro s s' h
    rw [← Option.not_isSome, ← Option.not_isSome, h.storage]
  depth := fun h => h.field (f := Shell.historyDepth) fun _ _ _ _ => rfl
  count := fun h => h.field (f := Shell.historyCount) fun _ _ _ _ => rfl
  newest := fun h i => h.newest i
  resolve := fun h argv => h.sameRegistry.resolve_eq argv
  help := fun h cmd path => h.sameRegistry.helpTexts_eq cmd path
  rootExact := fun h name =>
    h.field (f := fun s => findExactLevel s (rootLevel s) name) fun _ _ _ _ => rfl
  rootLimit := fun h => h.field (f := fun s => levelLimit s (rootLevel s)) fun _ _ _ _ => rfl
  rootCandidate := fun h i =>
    h.field (f := fun s => staticCandidate s (rootLevel s) i) fun _ _ _ _ => rfl

/-! ## Initialization in used buffers -/

/-- Arrays of the same size, or both missing. -/
structure CArray.SameSize {α : Type} (a a' : CArray α) : Prop where
  isNull : a'.isNull = a.isNull
  count : a'.count = a.count

/-- Buffers of the same sizes. Their contents are left open. -/
structure Storage.SameSizes (storage storage' : Storage) : Prop where
  line : storage.lineBuffer.SameSize storage'.lineBuffer
  argv : storage.argvBuffer.SameSize storage'.argvBuffer
  history : storage'.historyBuffer.isSome = storage.historyBuffer.isSome
  capacity : storage'.historyCapacity = storage.historyCapacity
  slotSize : storage'.historySlotSize = storage.historySlotSize
  draft : storage.draftBuffer.SameSize storage'.draftBuffer

namespace Storage.SameSizes

variable {storage storage' : Storage}

/-- The configuration in use is the same. -/
private theorem effectiveConfig_eq (h : storage.SameSizes storage') (cfg : Option Config) :
    effectiveConfig cfg storage' = effectiveConfig cfg storage := by
  cases cfg with
  | none => rfl
  | some cfg =>
    rw [effectiveConfig, effectiveConfig, Config.completed, Config.completed, h.line.count,
      h.argv.count]

/-- The checks of `sh_init` come to the same. -/
private theorem shInit_ok (h : storage.SameSizes storage') {cfg : Option Config} {s : Shell}
    (hinit : shInit cfg storage = .ok s) :
    shInit cfg storage' = .ok (initialShell (effectiveConfig cfg storage) storage') := by
  have hbuffers : ∀ c : Config, c.buffersFit storage' = c.buffersFit storage := by
    intro c
    rw [Config.buffersFit, Config.buffersFit, h.line.count, h.argv.count]
  have hhistory : ∀ c : Config, c.historyFits storage' = c.historyFits storage := by
    intro c
    rw [Config.historyFits, Config.historyFits, h.capacity, h.history, h.slotSize, h.draft.isNull,
      h.draft.count]
  unfold shInit at hinit ⊢
  rw [h.line.isNull, h.line.count, h.argv.isNull, h.argv.count]
  dsimp only at hinit ⊢
  rw [h.effectiveConfig_eq, hbuffers, hhistory]
  split_ifs at hinit ⊢
  rfl

/-- The two shells hold the same: nothing. -/
theorem sameContents (h : storage.SameSizes storage') (c : Config)
    (hwf : (initialShell c storage).Wf) (hwf' : (initialShell c storage').Wf) :
    SameContents (initialShell c storage) (initialShell c storage') := by
  have hnil : ∀ {t : Shell}, t.Wf → t.historyCount = 0 → t.entries = [] := by
    intro t ht hcount
    refine List.eq_nil_of_length_eq_zero ?_
    rw [ht.history.length_entries, hcount]
  have hempty : ∀ b : CArray Byte, (b.pointer.map fun d => Mem.store d 0 [0]).map (CStr.at · 0) =
      if b.isNull then none else some CStr.empty := by
    intro b
    cases b with
    | null n => rfl
    | array d => exact congrArg some (SameContents.at_emptied Nat.one_pos d).2
  refine ⟨?_, hwf, hwf', rfl, ?_, h.history, ?_⟩
  · unfold initialShell Shell.withBuffers
    rw [h.slotSize]
  · rw [hnil hwf rfl, hnil hwf' rfl]
  · have hdraft := hempty storage'.draftBuffer
    rw [h.draft.isNull, ← hempty storage.draftBuffer] at hdraft
    exact hdraft

end Storage.SameSizes

/-- **The contents of the buffers before initialization** do not matter. In buffers of the same
sizes `sh_init` accepts the same configurations, and every run of calls behind it prints the same,
calls the same handlers with the same arguments, acts the same on the outside world, returns the
same statuses and leaves the same history. -/
theorem storage_reuse {cfg : Option Config} {storage storage' : Storage} {s : Shell}
    (hsized : storage.Sized) (hsized' : storage'.Sized) (hsizes : storage.SameSizes storage')
    (hinit : shInit cfg storage = .ok s) (env : Env ω) (io : ω) :
    ∃ s', shInit cfg storage' = .ok s' ∧ ∀ ops : List (Op ω),
      let st := run env ⟨s, io, [], []⟩ ops
      let st' := run env ⟨s', io, [], []⟩ ops
      st'.trace = st.trace ∧ st'.io = st.io ∧
        statuses env ⟨s', io, [], []⟩ ops = statuses env ⟨s, io, [], []⟩ ops ∧
        shHistoryCount st'.sh = shHistoryCount st.sh ∧
        ∀ i, shHistoryGetNewest st'.sh i = shHistoryGetNewest st.sh i := by
  have hinit' := hsizes.shInit_ok hinit
  have hwf := shInit_wf hsized hinit
  have hwf' := shInit_wf hsized' hinit'
  obtain ⟨rfl, -⟩ := shInit_eq_ok hinit
  refine ⟨_, hinit', fun ops => ?_⟩
  have hR := sameContents_simulation env
  have hstart : Sim SameContents
      (⟨initialShell (effectiveConfig cfg storage) storage, io, [], []⟩ : Sys ω)
      ⟨initialShell (effectiveConfig cfg storage) storage', io, [], []⟩ :=
    ⟨hsizes.sameContents _ hwf hwf', rfl, rfl⟩
  have hrun := hR.run hstart ops
  exact ⟨hrun.trace, hrun.io, hR.statuses_eq hstart ops, hR.count hrun.shell, hR.newest hrun.shell⟩

/-- The buffers that a session left behind in which a line was executed, a line was saved and
another one begun. -/
def usedStorage : Storage :=
  let s := (run idleEnv ⟨smallShell, (), [], []⟩
    [.input (ascii "secret\r"), .input (ascii "draft"), .input [esc, chr '[', chr 'A']]).sh
  { smallStorage with
    lineBuffer := .array s.line
    argvBuffer := .array s.argv
    historyBuffer := s.historyStorage
    draftBuffer := .array (s.draft.getD []) }

/-- These buffers have the sizes they had before. -/
private theorem usedStorage_sameSizes : smallStorage.SameSizes usedStorage where
  line := ⟨by decide +kernel, by decide +kernel⟩
  argv := ⟨by decide +kernel, by decide +kernel⟩
  history := by decide +kernel
  capacity := by decide +kernel
  slotSize := by decide +kernel
  draft := ⟨by decide +kernel, by decide +kernel⟩

/-- Their history buffer has the declared size. -/
private theorem usedStorage_sized : usedStorage.Sized := by
  intro m hm
  have hlength : usedStorage.historyBuffer.map List.length = some 34 := by decide +kernel
  rw [hm, Option.map_some] at hlength
  rw [Option.some.inj hlength]
  decide +kernel

/-- A second session in these buffers, compared with one in the buffers of the first. -/
theorem storage_reuse_small :
    ∃ s', shInit (some smallConfig) usedStorage = .ok s' ∧ ∀ ops : List (Op Unit),
      let st := run idleEnv ⟨smallShell, (), [], []⟩ ops
      let st' := run idleEnv ⟨s', (), [], []⟩ ops
      st'.trace = st.trace ∧ st'.io = st.io ∧
        statuses idleEnv ⟨s', (), [], []⟩ ops = statuses idleEnv ⟨smallShell, (), [], []⟩ ops ∧
        shHistoryCount st'.sh = shHistoryCount st.sh ∧
        ∀ i, shHistoryGetNewest st'.sh i = shHistoryGetNewest st.sh i :=
  storage_reuse smallStorage_sized usedStorage_sized usedStorage_sameSizes shInit_small idleEnv ()

end PortableShell
