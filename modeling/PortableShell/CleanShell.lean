import PortableShell.Alphabet
import PortableShell.Invariant

set_option relaxedAutoImplicit false
set_option autoImplicit false

/-!
# Shells that keep to a vocabulary

The texts of a shell are its line, its draft, the entries of its history, its prompt and the texts
of the registered commands. This file follows them through the updates of a shell, and looks at
what a dispatch prints and what a completion offers when they all keep to one vocabulary.

## Main definitions

* `PortableShell.Shell.Over` — the texts of a shell keep to a vocabulary.
* `PortableShell.ControlText` — the control sequences that the shell makes itself.
* `PortableShell.Vocabulary.Shows` — what may be written.

## Main results

* `PortableShell.Shell.Over.insertAt`, `walk`, `storeEntry`, … — the updates of a shell.
* `PortableShell.shows_plan` — what a dispatch comes to.
* `PortableShell.over_descend`, `over_staticCandidate` — what a completion offers.
-/

namespace PortableShell

variable {ω : Type} {V : Vocabulary}

/-! ## What may be written -/

/-- The control sequences of the shell: clear the screen, erase the line, go back `n` columns. -/
inductive ControlText : List Byte → Prop
  | clear : ControlText (str "\x1b[2J\x1b[H").bytes
  | erase : ControlText (str "\r\x1b[2K").bytes
  | back (n : ℕ) : ControlText (vprintfBytes (ascii "\x1b[" ++ fmtUnsigned n ++ ascii "D"))

/-- A text of bytes that are shown or, in ANSI mode, a control sequence. -/
def Vocabulary.Shows (V : Vocabulary) (cfg : Config) (text : List Byte) : Prop :=
  V.shown.Over text ∨ cfg.ansiEnabled = true ∧ ControlText text

/-- The line, the draft and the history of a shell are of the bytes that are kept. -/
structure Shell.Over (V : Vocabulary) (s : Shell) : Prop where
  wf : s.Wf
  prompt : V.shown.Over s.cfg.promptText.bytes
  roots : ∀ cmd ∈ s.roots, cmd.Over V
  text : V.kept.Over s.text
  draft : ∀ d, s.draft = some d → V.kept.Over (CStr.at d 0).bytes
  entries : ∀ entry ∈ s.entries, V.kept.Over entry.bytes

/-! ## Changes of the shell -/

namespace Shell.Over

variable {s s' : Shell}

/-- An entry that is found in the history. -/
theorem newest (h : s.Over V) (i : ℕ) : V.kept.OverOption (shHistoryGetNewest s i) := by
  intro entry hentry
  rw [h.wf.history.getNewest_eq] at hentry
  exact h.entries entry (List.mem_of_getElem? hentry)

/-- A change of the line and the cursor. -/
theorem edited (h : s.Over V) (hwf : s'.Wf) (htext : V.kept.Over s'.text) (hcfg : s'.cfg = s.cfg)
    (hroots : s'.roots = s.roots) (hdraft : s'.draft = s.draft) (hsame : SameHistory s s') :
    s'.Over V where
  wf := hwf
  prompt := by
    rw [hcfg]
    exact h.prompt
  roots := by
    rw [hroots]
    exact h.roots
  text := htext
  draft := by
    rw [hdraft]
    exact h.draft
  entries := by
    rw [hsame.entries_eq]
    exact h.entries

/-- A change of the shell beside its texts. -/
theorem frame (h : s.Over V) (hwf : s'.Wf) (hline : s'.line = s.line)
    (hlen : s'.lineLen = s.lineLen) (hcfg : s'.cfg = s.cfg) (hroots : s'.roots = s.roots)
    (hdraft : s'.draft = s.draft) (hsame : SameHistory s s') : s'.Over V := by
  refine h.edited hwf ?_ hcfg hroots hdraft hsame
  rw [Shell.text, hline, hlen]
  exact h.text

/-- A character that a key types is inserted. -/
theorem insertAt (h : s.Over V) {c : Byte} (hc : 32 ≤ c ∧ c < 127)
    (hfit : s.lineLen + 1 < s.lineCapacity) : (s.insertAt c).Over V := by
  have hplain : isPrintable c = true := by
    rw [isPrintable, decide_eq_true hc.1, decide_eq_true hc.2]
    rfl
  have hzero : c ≠ 0 := by
    rintro rfl
    exact absurd hc.1 (by decide)
  refine h.edited (h.wf.insertAt hzero hfit) ?_ rfl rfl rfl ⟨rfl, rfl, rfl, rfl, rfl⟩
  rw [h.wf.text_insertAt hzero hfit]
  simp only [Alphabet.over_append, Alphabet.over_cons]
  exact ⟨⟨h.text.take _, V.kept.printable_mem c hplain, Alphabet.over_nil⟩, h.text.drop _⟩

/-- A part of the line is removed. -/
theorem deleteRange (h : s.Over V) {start stop : ℕ} (hs : start ≤ stop) (hstop : stop ≤ s.lineLen) :
    (s.deleteRange start stop).Over V := by
  refine h.edited (h.wf.deleteRange hs hstop) ?_ rfl rfl rfl ⟨rfl, rfl, rfl, rfl, rfl⟩
  rw [h.wf.text_deleteRange hs hstop]
  exact Alphabet.over_append.mpr ⟨h.text.take _, h.text.drop _⟩

/-- A part of the line is replaced. -/
theorem replaceRange (h : s.Over V) {start stop space : ℕ} {replacement : CStr}
    (hover : V.kept.Over replacement.bytes) (hs : start ≤ stop) (hstop : stop ≤ s.lineLen)
    (hspace : space ≤ 1)
    (hfit : start + replacement.length + space + (s.lineLen - stop) < s.lineCapacity) :
    (s.replaceRange start stop replacement space).Over V := by
  refine h.edited (h.wf.replaceRange replacement hs hstop hspace hfit) ?_ rfl rfl rfl
    ⟨rfl, rfl, rfl, rfl, rfl⟩
  rw [h.wf.text_replaceRange replacement hs hstop hspace hfit]
  simp only [Alphabet.over_append]
  exact ⟨⟨h.text.take _, hover, Alphabet.over_replicate (V.kept.printable_mem _ (by decide)) _⟩,
    h.text.drop _⟩

/-- The line is emptied. -/
theorem eraseLine (h : s.Over V) : s.eraseLine.Over V := by
  refine h.edited h.wf.eraseLine ?_ rfl rfl rfl ⟨rfl, rfl, rfl, rfl, rfl⟩
  rw [Shell.Wf.text_eraseLine]
  exact Alphabet.over_nil

/-- A string becomes the line. -/
theorem setLine (h : s.Over V) {t : CStr} (ht : V.kept.Over t.bytes) : (s.setLine t).Over V := by
  refine h.edited (h.wf.setLine t) ?_ rfl rfl rfl ⟨rfl, rfl, rfl, rfl, rfl⟩
  rw [h.wf.text_setLine]
  exact ht.take _

/-- A block that begins with a NUL byte holds no text. -/
theorem upto_store_zero (m d : List Byte) : Mem.upto 0 (Mem.store m 0 (0 :: d)) = [] := by
  cases m with
  | nil => rfl
  | cons b m => rfl

/-- The draft is overwritten. -/
theorem withDraft (h : s.Over V) {f : List Byte → List Byte}
    (hwf : Shell.Wf { s with draft := s.draft.map f })
    (hf : ∀ d, V.kept.Over (CStr.at (f d) 0).bytes) :
    Shell.Over V { s with draft := s.draft.map f } where
  wf := hwf
  prompt := h.prompt
  roots := h.roots
  text := h.text
  draft := by
    intro d hd
    obtain ⟨d', -, rfl⟩ := Option.map_eq_some_iff.mp hd
    exact hf d'
  entries := by
    have hsame : SameHistory s { s with draft := s.draft.map f } := ⟨rfl, rfl, rfl, rfl, rfl⟩
    rw [hsame.entries_eq]
    exact h.entries

/-- A block filled with NUL bytes from its start holds no text. -/
private theorem over_fill (d : List Byte) {n : ℕ} (hn : 0 < n) :
    V.kept.Over (CStr.at (Mem.fill d 0 0 n) 0).bytes := by
  obtain ⟨k, rfl⟩ := Nat.exists_eq_succ_of_ne_zero hn.ne'
  rw [CStr.at_bytes, List.drop_zero, Mem.fill, List.replicate_succ, upto_store_zero]
  exact Alphabet.over_nil

/-- The draft is emptied. -/
theorem eraseDraft (h : s.Over V) : s.eraseDraft.Over V := by
  refine h.withDraft h.wf.eraseDraft fun d => ?_
  split_ifs
  · exact over_fill d (h.wf.lineLen_lt.trans_le' (Nat.zero_le _))
  · rw [CStr.at_bytes, List.drop_zero, upto_store_zero]
    exact Alphabet.over_nil

/-- The draft is wiped. -/
theorem wipeDraft (h : s.Over V) : s.wipeDraft.Over V := by
  have hwf := h.wf.wipeDraft
  unfold Shell.wipeDraft at hwf ⊢
  split_ifs at hwf ⊢
  · exact h.withDraft hwf fun d => over_fill d (h.wf.lineLen_lt.trans_le' (Nat.zero_le _))
  · exact h

/-- The line becomes the draft. -/
theorem saveDraft (h : s.Over V) (hdepth : s.historyDepth ≠ 0) : s.saveDraft.Over V where
  wf := h.wf.saveDraft
  prompt := h.prompt
  roots := h.roots
  text := h.text
  draft := by
    intro d hd
    obtain ⟨d', hd', htext⟩ := h.wf.draft_saveDraft hdepth
    rw [hd'] at hd
    rw [← Option.some.inj hd, htext]
    exact h.text.cells_zero.at 0
  entries := by
    have hsame : SameHistory s s.saveDraft := ⟨rfl, rfl, rfl, rfl, rfl⟩
    rw [hsame.entries_eq]
    exact h.entries

/-- A step through the history. -/
theorem walk (h : s.Over V) (hcount : s.historyCount ≠ 0) (direction : ℤ) :
    (s.walk direction).Over V := by
  have hdepth : s.historyDepth ≠ 0 := fun h0 => hcount (h.wf.history.disabled h0)
  have hsaved : (if s.historyView < 0 then s.saveDraft else s).Over V := by
    split_ifs
    · exact h.saveDraft hdepth
    · exact h
  unfold Shell.walk
  dsimp only
  revert hsaved
  generalize (if s.historyView < 0 then s.saveDraft else s) = saved
  intro hsaved
  have hstep : (saved.stepView direction).Over V :=
    hsaved.frame (hsaved.wf.stepView direction) rfl rfl rfl rfl rfl ⟨rfl, rfl, rfl, rfl, rfl⟩
  refine hstep.setLine ?_
  unfold Shell.recalled
  split_ifs
  · cases hdraft : (saved.stepView direction).draft with
    | none => exact Alphabet.over_nil
    | some d => exact hstep.draft d hdraft
  · exact (hstep.newest _).getD

/-- An entry is stored. -/
theorem storeEntry (h : s.Over V) {line : CStr} (hline : V.kept.Over line.bytes)
    (hstep : ExecStep s (s.storeEntry line)) (hdepth : s.historyDepth ≠ 0) :
    (s.storeEntry line).Over V where
  wf := h.wf.execStep hstep
  prompt := h.prompt
  roots := h.roots
  text := h.text
  draft := h.draft
  entries := by
    intro entry hentry
    rw [(h.wf.history.enabled hdepth).entries_storeEntry hdepth] at hentry
    rcases List.mem_cons.mp (List.mem_of_mem_take hentry) with rfl | hold
    · exact hline.take _
    · exact h.entries entry hold

/-- The history is cleared. -/
theorem clearHistory (h : s.Over V) : s.clearHistory.Over V where
  wf := h.wf.clearHistory
  prompt := h.prompt
  roots := h.roots
  text := h.text
  draft := by
    intro d hd
    obtain ⟨d', -, rfl⟩ := Option.map_eq_some_iff.mp hd
    exact over_fill d' (h.wf.lineLen_lt.trans_le' (Nat.zero_le _))
  entries := by
    rw [entries_clearHistory]
    exact fun _ hmem => absurd hmem List.not_mem_nil

/-- Other commands are registered. -/
theorem register (h : s.Over V) (hwf : s'.Wf) (hroots : ∀ cmd ∈ s'.roots, cmd.Over V)
    (hcfg : s'.cfg = s.cfg) (hline : s'.line = s.line) (hlen : s'.lineLen = s.lineLen)
    (hdraft : s'.draft = s.draft) (hsame : SameHistory s s') : s'.Over V where
  wf := hwf
  prompt := by
    rw [hcfg]
    exact h.prompt
  roots := hroots
  text := by
    rw [Shell.text, hline, hlen]
    exact h.text
  draft := by
    rw [hdraft]
    exact h.draft
  entries := by
    rw [hsame.entries_eq]
    exact h.entries

/-- A table of commands is registered. -/
theorem registerCommands (h : s.Over V) {commands : CArray Cmd}
    (hover : ∀ cmd ∈ commands.cells, cmd.Over V) : (shRegisterCommands s commands).1.Over V := by
  have hwf := h.wf.shellStep (.commands s commands)
  rcases shRegisterCommands_cases s commands with hc | ⟨e, -, hc⟩ <;> rw [hc] at hwf ⊢
  · exact h.register hwf hover rfl rfl rfl rfl ⟨rfl, rfl, rfl, rfl, rfl⟩
  · exact h

/-- Command sets are registered. -/
theorem registerCommandSets (h : s.Over V) {sets : CArray CommandSet}
    (hover : ∀ cmd ∈ rootsOf sets.cells, cmd.Over V) : (shRegisterCommandSets s sets).1.Over V := by
  have hwf := h.wf.shellStep (.commandSets s sets)
  rcases shRegisterCommandSets_cases s sets with hc | ⟨e, -, hc⟩ <;> rw [hc] at hwf ⊢
  · refine h.register hwf ?_ rfl rfl rfl rfl ⟨rfl, rfl, rfl, rfl, rfl⟩
    cases sets with
    | null n => exact fun _ hmem => absurd hmem List.not_mem_nil
    | array l => exact hover
  · exact h

end Shell.Over

/-! ## What a dispatch prints -/

/-- A plan prints such texts or passes such arguments to a handler. -/
def Plan.Shows (V : Vocabulary) (cfg : Config) : Plan → Prop
  | .print texts _ => ∀ text ∈ texts, V.Shows cfg text
  | .handler _ argv _ => ∀ arg ∈ argv, V.kept.Over arg.bytes
  | _ => True

/-- A plan that prints a line of formatted output. -/
private theorem shows_print {cfg : Config} {texts : List (List Byte)} {status : Status}
    (h : ∀ text ∈ texts, V.shown.Over text) : (Plan.print texts status).Shows V cfg :=
  fun text ht => .inl (h text ht)

/-- An error message about an argument or a path. -/
private theorem over_message {before after : String} {text : List Byte}
    (hbefore : (ascii before).all isPlain = true) (htext : V.kept.Over text)
    (hafter : (ascii after).all isPlain = true) :
    V.shown.Over (vprintfBytes (ascii before ++ text ++ ascii after)) :=
  over_vprintfBytes (Alphabet.over_append.mpr ⟨Alphabet.over_append.mpr
    ⟨Vocabulary.over_of_plain hbefore, Vocabulary.over_shown htext⟩,
      Vocabulary.over_of_plain hafter⟩)

/-- The built-in `help`. -/
private theorem shows_helpPlan {s : Shell} (hs : s.Over V) {args : List CStr}
    (hargs : ∀ arg ∈ args, V.kept.Over arg.bytes) : (helpPlan s args).Shows V s.cfg := by
  have hresolved := over_shResolveCommandInternal hs.roots hargs
  unfold helpPlan
  dsimp only
  split_ifs
  · exact shows_print (over_helpTexts hs.roots (fun _ h => absurd h (Option.some_ne_none _).symm)
      Alphabet.over_nil)
  · exact shows_print
      (over_helpTexts hs.roots hresolved.2 (Vocabulary.over_shown hresolved.1))
  · exact shows_print fun text ht => by
      rw [List.mem_singleton.mp ht]
      exact Vocabulary.over_str (by decide)

/-- A command that was found.

**Proof sketch.** A page of help is over the vocabulary by `over_helpTexts`. The error texts are
fixed but for the path and the first argument that is left, and a handler gets arguments of the
line. -/
private theorem shows_commandPlan {s : Shell} (hs : s.Over V) {argv : List CStr}
    (hargv : ∀ arg ∈ argv, V.kept.Over arg.bytes) {r : Resolved} (hpath : V.kept.Over r.path.bytes)
    {cmd : Cmd} (hcmd : cmd.Over V) : (commandPlan s argv r cmd).Shows V s.cfg := by
  have hhelp : ∀ text ∈ helpTexts s (some cmd) r.path, V.shown.Over text :=
    over_helpTexts hs.roots (fun _ h => Option.some.inj h ▸ hcmd) (Vocabulary.over_shown hpath)
  have hrest : V.kept.Over ((argv.drop r.consumed).headD CStr.empty).bytes := by
    cases hdrop : argv.drop r.consumed with
    | nil => exact Alphabet.over_nil
    | cons arg rest =>
      exact hargv arg (List.mem_of_mem_drop (by rw [hdrop]; exact List.mem_cons_self))
  have hunknown : V.shown.Over (vprintfBytes (ascii "error: unknown subcommand: " ++
      ((argv.drop r.consumed).headD CStr.empty).bytes ++ ascii "\r\n")) :=
    over_message (by decide) hrest (by decide)
  have hincomplete : V.shown.Over (vprintfBytes (ascii "error: incomplete command: " ++
      r.path.bytes ++ ascii "\r\n")) := over_message (by decide) hpath (by decide)
  have harity : V.shown.Over (vprintfBytes (ascii "error: invalid argument count for " ++
      r.path.bytes ++ ascii "\r\n")) := over_message (by decide) hpath (by decide)
  unfold commandPlan
  cases cmd.handler with
  | none =>
    dsimp only
    split_ifs
    · exact shows_print hhelp
    · exact shows_print (List.forall_mem_singleton.mpr hunknown)
    · exact shows_print hhelp
    · exact shows_print (List.forall_mem_singleton.mpr hincomplete)
  | some fn =>
    dsimp only
    split_ifs
    · exact shows_print hhelp
    · exact shows_print (List.forall_mem_singleton.mpr hunknown)
    · exact shows_print hhelp
    · exact shows_print (List.forall_mem_cons.mpr
        ⟨harity, over_usageTexts hcmd.usage (Vocabulary.over_shown hpath)⟩)
    · exact fun arg harg => hargv arg (List.mem_of_mem_drop harg)

/-- **What a dispatch comes to** shows texts of the vocabulary.

**Proof sketch.** Case split on the branches of `plan`: a built-in prints fixed texts or one of its
arguments, and a command that was found is `shows_commandPlan`. -/
theorem shows_plan {s : Shell} (hs : s.Over V) {argv : List CStr}
    (hargv : ∀ arg ∈ argv, V.kept.Over arg.bytes) : (plan s argv).Shows V s.cfg := by
  cases argv with
  | nil => exact shows_print fun _ ht => absurd ht List.not_mem_nil
  | cons name args =>
    have hresolved := over_shResolveCommandInternal hs.roots hargv
    unfold plan
    dsimp only
    split_ifs
    · exact shows_helpPlan hs fun arg harg => hargv arg (List.mem_cons_of_mem _ harg)
    · exact trivial
    · exact trivial
    · intro text ht
      rw [List.mem_singleton.mp ht, clearText]
      by_cases hmode : s.cfg.ansiEnabled = true
      · rw [if_pos hmode]
        exact .inr ⟨hmode, .clear⟩
      · rw [if_neg hmode]
        exact .inl (Vocabulary.over_str (by decide))
    · cases hcmd : (shResolveCommandInternal s (name :: args)).cmd with
      | none =>
        exact shows_print fun text ht => by
          rw [List.mem_singleton.mp ht]
          exact over_message (by decide) (hargv name List.mem_cons_self) (by decide)
      | some cmd => exact shows_commandPlan hs hargv hresolved.1 (hresolved.2 cmd hcmd)

/-- One of two strings. -/
private theorem over_ite {A : Alphabet} {p : Prop} [Decidable p] {a b : CStr} (ha : A.Over a.bytes)
    (hb : A.Over b.bytes) : A.Over (if p then a else b).bytes := by
  by_cases h : p
  · rwa [if_pos h]
  · rwa [if_neg h]

/-- The name of a status. -/
theorem over_shStatusString (status : Status) : V.kept.Over (shStatusString status).bytes := by
  unfold shStatusString
  repeat refine over_ite (over_str (by decide)) ?_
  exact over_str (by decide)

/-- The byte of the displayed line left of the cursor. -/
theorem Shell.Over.echoed {s : Shell} (h : s.Over V) (env : Env ω) (hcursor : s.cursor ≠ 0) :
    V.kept.Over [cell (buildDisplayLine env s displaySize) (s.cursor - 1)] := by
  have hle := h.wf.cursor_le
  have hlt := h.wf.lineLen_lt
  have hcap := h.wf.capacity_le
  have hsize := h.wf.line_size
  have hlength : (buildDisplayLine env s displaySize).length = s.lineLen :=
    buildDisplayLine_length env (hlt.trans_le hcap) (by omega)
  refine Alphabet.over_cons.mpr
    ⟨over_buildDisplayLine env h.text displaySize _ ?_, Alphabet.over_nil⟩
  rw [cell, List.getD_eq_getElem?_getD, List.getElem?_eq_getElem (by omega), Option.getD_some]
  exact List.getElem_mem _

/-! ## What a completion offers -/

/-- The commands of a level are of the vocabulary. -/
def CompletionLevel.Over (V : Vocabulary) (level : CompletionLevel) : Prop :=
  (∀ cmd ∈ level.primary, cmd.Over V) ∧ ∀ cmd ∈ level.secondary, cmd.Over V

/-- An entry of a table of built-ins. -/
theorem over_shCmd {name usage help : String} (hname : (ascii name).all isPrintable = true)
    (husage : (ascii usage).all isPlain = true) (hhelp : (ascii help).all isPlain = true) :
    (shCmd name usage help).Over V := by
  have hstr : ∀ {s : String}, (ascii s).all isPlain = true → V.shown.OverOption (some (str s)) :=
    fun hs _ heq => Option.some.inj heq ▸ Vocabulary.over_str hs
  exact .intro (fun _ heq => Option.some.inj heq ▸ over_str hname) (hstr husage) (hstr hhelp)
    fun _ hmem => absurd hmem List.not_mem_nil

/-- An entry with subcommands. -/
private theorem over_shCmdSub {name usage help : String} {subs : List Cmd}
    (hcmd : (shCmd name usage help).Over V) (hsubs : ∀ sub ∈ subs, sub.Over V) :
    (shCmdSub name usage help subs).Over V :=
  .intro hcmd.name hcmd.usage hcmd.help hsubs

/-- The built-in commands. -/
private theorem over_builtinCommands : ∀ cmd ∈ builtinCommands, cmd.Over V := by
  have hhistory : ∀ cmd ∈ historyChildren, cmd.Over V :=
    List.forall_mem_cons.mpr ⟨over_shCmd (by decide) (by decide) (by decide),
      List.forall_mem_singleton.mpr (over_shCmd (by decide) (by decide) (by decide))⟩
  have hecho : ∀ cmd ∈ echoChildren, cmd.Over V :=
    List.forall_mem_cons.mpr ⟨over_shCmd (by decide) (by decide) (by decide),
      List.forall_mem_cons.mpr ⟨over_shCmd (by decide) (by decide) (by decide),
        List.forall_mem_singleton.mpr (over_shCmd (by decide) (by decide) (by decide))⟩⟩
  have hsub : ∀ {subs : List Cmd}, (∀ sub ∈ subs, sub.Over V) →
      (shCmdSub "history" "[clear|status]" "Show command history" subs).Over V :=
    over_shCmdSub (over_shCmd (by decide) (by decide) (by decide))
  exact List.forall_mem_cons.mpr ⟨over_shCmd (by decide) (by decide) (by decide),
    List.forall_mem_cons.mpr ⟨over_shCmd (by decide) (by decide) (by decide),
      List.forall_mem_cons.mpr ⟨hsub hhistory, List.forall_mem_singleton.mpr
        (over_shCmdSub (over_shCmd (by decide) (by decide) (by decide)) hecho)⟩⟩⟩

section Levels

variable {s : Shell} {level : CompletionLevel}

/-- The level of the root commands. -/
theorem over_rootLevel (hs : s.Over V) : (rootLevel s).Over V := by
  refine ⟨?_, ?_⟩
  · have hroots := hs.roots
    unfold Shell.roots at hroots
    unfold rootLevel
    cases hsets : s.commandSets with
    | none =>
      rw [hsets] at hroots
      exact hroots
    | some sets => exact fun _ hmem => absurd hmem List.not_mem_nil
  · unfold rootLevel
    dsimp only
    split_ifs
    · exact over_builtinCommands
    · exact fun _ hmem => absurd hmem List.not_mem_nil

/-- A command found on a level.

**Proof sketch.** The sets are searched first, then the two tables of the level. Whatever is found
is a root or an entry of one of the tables. -/
private theorem over_findExactLevel (hs : s.Over V) (hlevel : level.Over V) {name : CStr}
    {cmd : Cmd} (hfind : findExactLevel s level name = some cmd) : cmd.Over V := by
  have hsets : ∀ cmd, findExactSets s level name = some cmd → cmd.Over V := by
    intro cmd hcmd
    have hroots := hs.roots
    unfold Shell.roots at hroots
    unfold findExactSets at hcmd
    cases hsome : s.commandSets with
    | none =>
      rw [hsome] at hcmd
      exact absurd hcmd (Option.some_ne_none _).symm
    | some sets =>
      rw [hsome] at hcmd hroots
      dsimp only at hcmd hroots
      split_ifs at hcmd
      obtain ⟨set, hset, hchild⟩ := List.exists_of_findSome?_eq_some hcmd
      exact hroots cmd (List.mem_flatMap.mpr ⟨set, hset, List.mem_of_find?_eq_some hchild⟩)
  unfold findExactLevel at hfind
  cases hfirst : findExactSets s level name with
  | some found =>
    rw [hfirst] at hfind
    exact Option.some.inj hfind ▸ hsets found hfirst
  | none =>
    rw [hfirst] at hfind
    dsimp only at hfind
    cases hprimary : findChild level.primary name with
    | some found =>
      rw [hprimary] at hfind
      exact Option.some.inj hfind ▸ over_findChild hlevel.1 hprimary
    | none =>
      rw [hprimary] at hfind
      exact over_findChild hlevel.2 hfind

/-- The descent along the tokens before the cursor. -/
theorem over_descend (hs : s.Over V) {tokens : List CStr} (hlevel : level.Over V)
    {found : CompletionLevel} (hdescend : descend s level tokens = some found) : found.Over V := by
  induction tokens generalizing level with
  | nil => exact Option.some.inj hdescend ▸ hlevel
  | cons token tokens ih =>
    unfold descend at hdescend
    cases hexact : findExactLevel s level token with
    | none =>
      rw [hexact] at hdescend
      exact absurd hdescend (Option.some_ne_none _).symm
    | some exact =>
      rw [hexact] at hdescend
      have hcmd := over_findExactLevel hs hlevel hexact
      dsimp only at hdescend
      split_ifs at hdescend
      · exact ih ⟨hcmd.subs, fun _ hmem => absurd hmem List.not_mem_nil⟩ hdescend
      · rw [← Option.some.inj hdescend]
        exact ⟨fun _ hmem => absurd hmem List.not_mem_nil,
          fun _ hmem => absurd hmem List.not_mem_nil⟩

/-- A candidate of the tables of a level.

**Proof sketch.** A candidate is the name of a visible entry. Without sets it comes from the tables
of the level; with sets, induction on them finds the set or the secondary table that the index falls
into. -/
theorem over_staticCandidate (hs : s.Over V) (hlevel : level.Over V) {i : ℕ} {name : CStr}
    (hname : staticCandidate s level i = some (some name)) : V.kept.Over name.bytes := by
  have hvisible : ∀ {found : Option Cmd}, (∀ cmd, found = some cmd → cmd.Over V) →
      found.map visibleName = some (some name) → V.kept.Over name.bytes := by
    intro found hfound heq
    obtain ⟨cmd, hcmd, hshown⟩ := Option.map_eq_some_iff.mp heq
    unfold visibleName at hshown
    split_ifs at hshown
    exact (hfound cmd hcmd).name name hshown
  have htable : ∀ cmd, tableCandidate level i = some cmd → cmd.Over V := by
    intro cmd hcmd
    unfold tableCandidate at hcmd
    split_ifs at hcmd
    · exact hlevel.1 cmd (List.mem_of_getElem? hcmd)
    · exact hlevel.2 cmd (List.mem_of_getElem? hcmd)
  have hsets : ∀ (sets : List CommandSet) (i : ℕ) (cmd : Cmd), (∀ cmd ∈ rootsOf sets, cmd.Over V) →
      setsCandidate level.secondary sets i = some cmd → cmd.Over V := by
    intro sets
    induction sets with
    | nil => exact fun i cmd _ hcmd => hlevel.2 cmd (List.mem_of_getElem? hcmd)
    | cons set sets ih =>
      intro i cmd hover hcmd
      unfold setsCandidate at hcmd
      split_ifs at hcmd
      · exact hover cmd (List.mem_append_left _ (List.mem_of_getElem? hcmd))
      · exact ih _ cmd (fun cmd hmem => hover cmd (List.mem_append_right _ hmem)) hcmd
  have hroots := hs.roots
  unfold Shell.roots at hroots
  unfold staticCandidate at hname
  cases hsome : s.commandSets with
  | none =>
    rw [hsome] at hname
    exact hvisible htable hname
  | some sets =>
    rw [hsome] at hname hroots
    dsimp only at hname hroots
    split_ifs at hname
    · exact hvisible (fun cmd => hsets sets i cmd hroots) hname
    · exact hvisible htable hname

end Levels

end PortableShell
