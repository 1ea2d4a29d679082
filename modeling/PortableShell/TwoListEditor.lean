import PortableShell.Keys
import PortableShell.Lib.TwoLists

set_option relaxedAutoImplicit false
set_option autoImplicit false

/-!
# The line editor on two lists

The editor keeps one buffer with a length and a cursor and moves parts of it about. Seen as the text
before the cursor and the text after it, every editing key is a small operation on two lists.

## Main definitions

* `PortableShell.Shell.twoLists` — the line of a shell, cut at the cursor.
* `PortableShell.Key.step` — what a key does to the two lists.
* `PortableShell.Pressed` — what is seen of one key press.

## Main results

* `PortableShell.Key.edit_twoLists` — an editing key is its operation on two lists.
* `PortableShell.Key.edit_historyView` — when a key leaves the history.
* `PortableShell.typeKeys_refines` — the same for a stream of keys.
-/

namespace PortableShell

variable {ω : Type}

/-! ## The two lists -/

/-- The line of a shell, cut at the cursor. -/
def Shell.twoLists (s : Shell) : TwoLists Byte := .ofCursor s.text s.cursor

/-- The keys that edit the line without the history. -/
def Key.Edits : Key → Prop
  | .sequence .up | .sequence .down => False
  | _ => True

/-- The keys that clear the line. -/
def Key.Clears : Key → Prop
  | .control .ctrlU | .control .ctrlC => True
  | _ => False

/-- What a key does to the two lists, in a line of at most `max` bytes. -/
def Key.step (max : ℕ) (key : Key) (z : TwoLists Byte) : TwoLists Byte :=
  match key with
  | .char c _ => z.insert max c
  | .control .backspace | .control .del => z.backspace
  | .control .ctrlU | .control .ctrlC => .clear
  | .control .ctrlW => z.deleteWordLeft isspace
  | .control .ctrlL => z
  | .sequence key =>
    match key.event with
    | .left => z.left
    | .right => z.right
    | .home => z.home
    | .end => z.toEnd
    | .delete => z.delete
    | _ => z

/-! ## Words -/

/-- The byte of the line buffer at a position of the text. -/
private theorem Shell.Wf.take_text_succ {s : Shell} (h : s.Wf) {n : ℕ} (hn : n < s.lineLen) :
    s.text.take (n + 1) = s.text.take n ++ [cell s.line n] := by
  have hlength : n < s.text.length := by rwa [h.length_text]
  have hline : n < s.line.length := by
    have := h.lineLen_lt
    have := h.line_size
    omega
  rw [List.take_succ_eq_append_getElem hlength, cell, List.getD_eq_getElem?_getD,
    List.getElem?_eq_getElem hline, Option.getD_some]
  simp only [Shell.text, List.getElem_take]

/-- Skipping whitespace to the left drops it from the end. -/
private theorem Shell.Wf.take_skipSpacesLeft {s : Shell} (h : s.Wf) {n : ℕ} (hn : n ≤ s.lineLen) :
    s.text.take (s.skipSpacesLeft n) = (s.text.take n).rdropWhile isspace := by
  induction n with
  | zero => rfl
  | succ n ih =>
    rw [Shell.skipSpacesLeft, h.take_text_succ hn, List.rdropWhile_concat]
    split_ifs
    · exact ih (Nat.le_of_succ_le hn)
    · exact h.take_text_succ hn

/-- Skipping a word to the left drops it from the end. -/
theorem Shell.Wf.take_skipWordLeft {s : Shell} (h : s.Wf) {n : ℕ} (hn : n ≤ s.lineLen) :
    s.text.take (s.skipWordLeft n) = (s.text.take n).rdropWhile fun b => !isspace b := by
  induction n with
  | zero => rfl
  | succ n ih =>
    rw [Shell.skipWordLeft, h.take_text_succ hn, List.rdropWhile_concat]
    cases hspace : isspace (cell s.line n) with
    | true => exact h.take_text_succ hn
    | false => exact ih (Nat.le_of_succ_le hn)

/-- **The start of the word** that is deleted to the left. -/
theorem Shell.Wf.take_wordStart {s : Shell} (h : s.Wf) :
    s.text.take s.wordStart =
      ((s.text.take s.cursor).rdropWhile isspace).rdropWhile fun b => !isspace b := by
  rw [Shell.wordStart, h.take_skipWordLeft ((Shell.Wf.skipSpacesLeft_le s _).trans h.cursor_le),
    h.take_skipSpacesLeft h.cursor_le]

/-! ## One key -/

section Edit

variable {s : Shell}

/-- The line behind the removal of a range. -/
private theorem Shell.Wf.twoLists_deleteRange (h : s.Wf) {start stop : ℕ} (hs : start ≤ stop)
    (hstop : stop ≤ s.lineLen) :
    (s.deleteRange start stop).twoLists = ⟨s.text.take start, s.text.drop stop⟩ := by
  have hstart : start ≤ s.text.length := by
    rw [h.length_text]
    omega
  rw [Shell.twoLists, h.text_deleteRange hs hstop]
  exact TwoLists.ofCursor_remove hstart

/-- An emptied line. -/
private theorem twoLists_of_text_nil (htext : s.text = []) (hcursor : s.cursor = 0) :
    s.twoLists = .clear := by
  rw [Shell.twoLists, htext, hcursor]
  rfl

/-- Wiping the draft leaves the line alone. -/
private theorem Shell.wipeDraft_line (s : Shell) :
    s.wipeDraft.text = s.text ∧ s.wipeDraft.cursor = s.cursor ∧
      s.wipeDraft.historyView = s.historyView := by
  unfold Shell.wipeDraft
  split_ifs <;> exact ⟨rfl, rfl, rfl⟩

/-- Deleting the byte before the cursor. -/
private theorem Shell.Wf.twoLists_backspace (h : s.Wf) :
    (if s.cursor = 0 then s else s.deleteRange (s.cursor - 1) s.cursor).twoLists =
      s.twoLists.backspace := by
  have hcursor := h.cursor_le
  have hlength := h.length_text
  rw [Shell.twoLists, Shell.twoLists, TwoLists.backspace_ofCursor (by omega)]
  split_ifs with hzero
  · rw [hzero]
    rfl
  · exact h.twoLists_deleteRange (Nat.sub_le _ _) hcursor

/-- **An editing key** is its operation on two lists.

**Proof sketch.** One case per key. Each compares what the update makes of the text and the cursor
with the operation on the lists left and right of it. -/
theorem Key.edit_twoLists (h : s.Wf) {max : ℕ} (hmax : s.lineCapacity = max + 1) {key : Key}
    (hkey : key.Edits) : (key.edit s).twoLists = key.step max s.twoLists := by
  have hcursor := h.cursor_le
  have hlength := h.length_text
  cases key with
  | char c hc =>
    have hne : c ≠ 0 := by
      rintro rfl
      exact absurd hc (by decide)
    show (if s.lineLen + 1 < s.lineCapacity then s.insertAt c else s).twoLists =
      s.twoLists.insert max c
    rw [Shell.twoLists, Shell.twoLists, TwoLists.insert_ofCursor (by omega), hlength, hmax]
    simp only [Nat.add_lt_add_iff_right]
    split_ifs with hroom
    · rw [h.text_insertAt hne (by omega)]
      rfl
    · rfl
  | control key =>
    cases key with
    | backspace => exact h.twoLists_backspace
    | del => exact h.twoLists_backspace
    | ctrlC => exact twoLists_of_text_nil (Shell.Wf.text_eraseLine s) rfl
    | ctrlL => rfl
    | ctrlU =>
      obtain ⟨htext, hzero, -⟩ := s.eraseLine.wipeDraft_line
      exact twoLists_of_text_nil (htext.trans (Shell.Wf.text_eraseLine s)) hzero
    | ctrlW =>
      have hword := Shell.Wf.wordStart_le s
      have hstep : s.twoLists.deleteWordLeft isspace =
          ⟨s.text.take s.wordStart, s.text.drop s.cursor⟩ := by
        rw [h.take_wordStart]
        rfl
      show (if s.wordStart = s.cursor then s else s.deleteRange s.wordStart s.cursor).twoLists =
        s.twoLists.deleteWordLeft isspace
      rw [hstep]
      split_ifs with hstart
      · rw [hstart]
        rfl
      · exact h.twoLists_deleteRange hword hcursor
  | sequence key =>
    have hleft : (if s.cursor > 0 then s.setCursor (s.cursor - 1) else s).twoLists =
        s.twoLists.left := by
      rw [Shell.twoLists, Shell.twoLists, TwoLists.left_ofCursor (by omega)]
      split_ifs with hpos
      · rfl
      · rw [show s.cursor - 1 = s.cursor by omega]
    have hright : (if s.cursor < s.lineLen then s.setCursor (s.cursor + 1) else s).twoLists =
        s.twoLists.right := by
      rw [Shell.twoLists, Shell.twoLists, TwoLists.right_ofCursor, hlength]
      split_ifs <;> rfl
    have hhome : (if s.cursor ≠ 0 then s.setCursor 0 else s).twoLists = s.twoLists.home := by
      rw [Shell.twoLists, Shell.twoLists, TwoLists.home_ofCursor]
      split_ifs with hzero
      · rfl
      · rw [not_not.mp hzero]
    have hend : (if s.cursor ≠ s.lineLen then s.setCursor s.lineLen else s).twoLists =
        s.twoLists.toEnd := by
      rw [Shell.twoLists, Shell.twoLists, TwoLists.toEnd_ofCursor, hlength]
      split_ifs with hzero
      · rfl
      · rw [not_not.mp hzero]
    have hdelete : (if s.cursor ≥ s.lineLen then s
        else s.deleteRange s.cursor (s.cursor + 1)).twoLists = s.twoLists.delete := by
      rw [Shell.twoLists, Shell.twoLists, TwoLists.delete_ofCursor]
      split_ifs with hstop
      · rw [TwoLists.ofCursor, List.drop_eq_nil_of_le (by omega), List.drop_eq_nil_of_le (by omega)]
      · exact h.twoLists_deleteRange (Nat.le_succ _) (by omega)
    cases key with
    | up => exact hkey.elim
    | down => exact hkey.elim
    | left => exact hleft
    | right => exact hright
    | home => exact hhome
    | homeTilde => exact hhome
    | «end» => exact hend
    | endTilde => exact hend
    | delete => exact hdelete

/-- An editing key leaves the entries and the registry alone.

**Proof sketch.** One case per key: no update of editing writes the history or the registry. -/
private theorem Key.edit_frame {key : Key} (hkey : key.Edits) :
    SameHistory s (key.edit s) ∧ SameRegistry s (key.edit s) := by
  cases key with
  | char c hc =>
    unfold Key.edit
    dsimp only
    split_ifs <;> exact ⟨⟨rfl, rfl, rfl, rfl, rfl⟩, ⟨rfl, rfl, rfl⟩⟩
  | control key =>
    cases key with
    | ctrlC => exact ⟨⟨rfl, rfl, rfl, rfl, rfl⟩, ⟨rfl, rfl, rfl⟩⟩
    | ctrlL => exact ⟨⟨rfl, rfl, rfl, rfl, rfl⟩, ⟨rfl, rfl, rfl⟩⟩
    | ctrlU =>
      unfold Key.edit ControlKey.edit Shell.wipeDraft
      dsimp only
      split_ifs <;> exact ⟨⟨rfl, rfl, rfl, rfl, rfl⟩, ⟨rfl, rfl, rfl⟩⟩
    | _ =>
      unfold Key.edit ControlKey.edit
      dsimp only
      split_ifs <;> exact ⟨⟨rfl, rfl, rfl, rfl, rfl⟩, ⟨rfl, rfl, rfl⟩⟩
  | sequence key =>
    cases key with
    | up => exact hkey.elim
    | down => exact hkey.elim
    | _ =>
      unfold Key.edit SequenceKey.event AnsiEvent.edit
      dsimp only
      split_ifs <;> exact ⟨⟨rfl, rfl, rfl, rfl, rfl⟩, ⟨rfl, rfl, rfl⟩⟩

/-- The removal of a range changes the text. -/
private theorem Shell.Wf.text_deleteRange_ne (h : s.Wf) {start stop : ℕ} (hs : start < stop)
    (hstop : stop ≤ s.lineLen) : (s.deleteRange start stop).text ≠ s.text := by
  intro heq
  have hlength := congrArg List.length heq
  rw [h.text_deleteRange hs.le hstop, List.length_append, List.length_take, List.length_drop,
    h.length_text] at hlength
  omega

/-- What a key does to the position in the history: it is left when the text changes or the line is
cleared. -/
structure LeavesHistory (s s' : Shell) (key : Key) : Prop where
  leaves : s'.text ≠ s.text ∨ key.Clears → s'.historyView = -1
  stays : s'.text = s.text → ¬key.Clears → s'.historyView = s.historyView

/-- A key that does nothing to the line. -/
theorem LeavesHistory.of_same {s s' : Shell} {key : Key} (hkey : ¬key.Clears)
    (htext : s'.text = s.text) (hview : s'.historyView = s.historyView) : LeavesHistory s s' key :=
  ⟨fun h => (h.elim (absurd htext) (absurd · hkey)), fun _ _ => hview⟩

/-- A key that changes the line. -/
private theorem LeavesHistory.of_changed {s s' : Shell} {key : Key}
    (hchanged : s'.text ≠ s.text ∨ key.Clears)
    (hview : s'.historyView = -1) : LeavesHistory s s' key :=
  ⟨fun _ => hview, fun htext hkey => (hchanged.elim (absurd htext) (absurd · hkey))⟩

/-- **An editing key** leaves the history when it changes or clears the line.

**Proof sketch.** One case per key. A key that deletes or inserts changes the text and sets the view
back, one that clears the line sets it back too, and every other key leaves both. -/
theorem Key.edit_historyView (h : s.Wf) {key : Key} (hkey : key.Edits) :
    LeavesHistory s (key.edit s) key := by
  have hcursor := h.cursor_le
  have hrange : ∀ {key : Key} {start stop : ℕ}, start < stop → stop ≤ s.lineLen →
      LeavesHistory s (s.deleteRange start stop) key :=
    fun hs hstop => .of_changed (.inl (h.text_deleteRange_ne hs hstop)) rfl
  have hbackspace : ∀ {key : Key}, ¬key.Clears →
      LeavesHistory s (if s.cursor = 0 then s else s.deleteRange (s.cursor - 1) s.cursor) key := by
    intro key hclears
    split_ifs with hzero
    · exact .of_same hclears rfl rfl
    · exact hrange (by omega) hcursor
  cases key with
  | char c hc =>
    have hne : c ≠ 0 := by
      rintro rfl
      exact absurd hc (by decide)
    unfold Key.edit
    dsimp only
    split_ifs with hroom
    · refine .of_changed (.inl fun heq => ?_) rfl
      have hlength := congrArg List.length heq
      rw [h.text_insertAt hne hroom, List.length_append, List.length_append, List.length_take,
        List.length_drop, List.length_singleton, h.length_text] at hlength
      omega
    · exact .of_same id rfl rfl
  | control key =>
    cases key with
    | backspace => exact hbackspace id
    | del => exact hbackspace id
    | ctrlC => exact .of_changed (.inr trivial) rfl
    | ctrlL => exact .of_same id rfl rfl
    | ctrlU => exact .of_changed (.inr trivial) s.eraseLine.wipeDraft_line.2.2
    | ctrlW =>
      have hword := Shell.Wf.wordStart_le s
      unfold Key.edit ControlKey.edit
      dsimp only
      split_ifs with hstart
      · exact .of_same id rfl rfl
      · exact hrange (by omega) hcursor
  | sequence key =>
    cases key with
    | up => exact hkey.elim
    | down => exact hkey.elim
    | delete =>
      unfold Key.edit SequenceKey.event AnsiEvent.edit
      dsimp only
      split_ifs with hstop
      · exact .of_same id rfl rfl
      · exact hrange (Nat.lt_succ_self _) (by omega)
    | _ =>
      unfold Key.edit SequenceKey.event AnsiEvent.edit
      dsimp only
      split_ifs <;> exact .of_same id rfl rfl

end Edit

/-! ## Streams of keys -/

/-- What is seen of one key press. -/
structure Pressed (env : Env ω) (st : Sys ω) (key : Key) : Prop where
  lists : (shInput env st key.bytes).1.sh.twoLists = key.step st.sh.cfg.lineMax st.sh.twoLists
  /-- The buffer holds the two lists and a terminator. -/
  terminated : Mem.Holds 0 (shInput env st key.bytes).1.sh.line (shInput env st key.bytes).1.sh.text
  status : (shInput env st key.bytes).2 = match key with
    | .char _ _ =>
      if st.sh.twoLists.before.length + st.sh.twoLists.after.length < st.sh.cfg.lineMax then
        Status.ok
      else Status.errLineTooLong
    | _ => Status.ok
  history : SameHistory st.sh (shInput env st key.bytes).1.sh
  registry : SameRegistry st.sh (shInput env st key.bytes).1.sh
  browsing : LeavesHistory st.sh (shInput env st key.bytes).1.sh key

section Stream

variable {env : Env ω} {st : Sys ω}

/-- The two lists have the length of the line. -/
private theorem Shell.Wf.length_twoLists {s : Shell} (h : s.Wf) :
    s.twoLists.before.length + s.twoLists.after.length = s.lineLen := by
  rw [← h.length_text, ← List.length_append]
  exact congrArg List.length (List.take_append_drop s.cursor s.text)

/-- **A key press** on an idle decoder. -/
theorem Shell.AwaitsKey.pressed (h : st.sh.AwaitsKey)
    (hmax : st.sh.lineCapacity = st.sh.cfg.lineMax + 1) {key : Key} (hkey : key.Edits) :
    Pressed env st key := by
  obtain ⟨⟨cr, decoder, hwf, hpress⟩, hnext⟩ := h.press env key
  obtain ⟨hhistory, hregistry⟩ := @Key.edit_frame (st.sh.decoded cr decoder) _ hkey
  have hbrowsing := Key.edit_historyView hwf hkey
  refine ⟨?_, hnext.wf.holds_text, ?_, ?_, ?_, ?_⟩
  · rw [hpress]
    exact Key.edit_twoLists hwf hmax hkey
  · rw [shInput_key_status h.idle h.buffer, h.wf.length_twoLists, hmax]
    cases key with
    | char c hc => simp only [Nat.add_lt_add_iff_right]
    | _ => rfl
  · rw [hpress]
    exact ⟨hhistory.storage, hhistory.depth, hhistory.slotSize, hhistory.count, hhistory.start⟩
  · rw [hpress]
    exact ⟨hregistry.cfg, hregistry.commands, hregistry.commandSets⟩
  · rw [hpress]
    exact ⟨hbrowsing.leaves, hbrowsing.stays⟩

/-- **The line editor refines a two-list editor**: over every stream of editing keys the two lists
go through the operations of the keys, the history and the registry stay as they are, and each key
is seen as it should be.

**Proof sketch.** `AwaitsKey.pressed` is the statement for one key, which holds behind every
beginning of the stream. The operations of the whole stream follow by induction on the keys, from
the end. -/
theorem typeKeys_refines (hreach : Reachable env st) (hidle : st.sh.ansi.state = .idle)
    {keys : List Key} (hkeys : ∀ key ∈ keys, key.Edits) :
    (typeKeys env st keys).sh.twoLists =
        keys.foldl (fun z key => key.step st.sh.cfg.lineMax z) st.sh.twoLists ∧
      SameHistory st.sh (typeKeys env st keys).sh ∧ SameRegistry st.sh (typeKeys env st keys).sh ∧
      ∀ pre key, pre ++ [key] <+: keys → Pressed env (typeKeys env st pre) key := by
  have hawaits := hreach.awaitsKey hidle
  have hmax := hreach.lineCapacity_eq
  have hsetup : ∀ pre, SameSetup st.sh (typeKeys env st pre).sh :=
    fun pre => (shInput_steps env st (pre.flatMap Key.bytes)).sameSetup
  have hpressed : ∀ pre key, key.Edits → Pressed env (typeKeys env st pre) key := by
    intro pre key hkey
    refine (hawaits.typeKeys env pre).pressed ?_ hkey
    rw [(hsetup pre).lineCapacity, (hsetup pre).cfg, hmax]
  have hstep : ∀ pre key, pre ++ [key] <+: keys → Pressed env (typeKeys env st pre) key := by
    intro pre key hpre
    exact hpressed pre key (hkeys key (hpre.subset (by simp)))
  have hrun : (typeKeys env st keys).sh.twoLists =
        keys.foldl (fun z key => key.step st.sh.cfg.lineMax z) st.sh.twoLists ∧
      SameHistory st.sh (typeKeys env st keys).sh ∧
        SameRegistry st.sh (typeKeys env st keys).sh := by
    clear hstep
    induction keys using List.reverseRecOn with
    | nil => exact ⟨rfl, ⟨rfl, rfl, rfl, rfl, rfl⟩, ⟨rfl, rfl, rfl⟩⟩
    | append_singleton keys key ih =>
      obtain ⟨hlists, hhistory, hregistry⟩ := ih fun k hk => hkeys k (List.mem_append_left _ hk)
      have hlast := hpressed keys key (hkeys key (by simp))
      rw [typeKeys_concat, List.foldl_append, ← hlists]
      refine ⟨?_, hhistory.trans hlast.history, ?_⟩
      · rw [hlast.lists, (hsetup keys).cfg]
        rfl
      · exact ⟨hlast.registry.cfg.trans hregistry.cfg,
          hlast.registry.commands.trans hregistry.commands,
          hlast.registry.commandSets.trans hregistry.commandSets⟩
  exact ⟨hrun.1, hrun.2.1, hrun.2.2, hstep⟩

end Stream

/-- Two words typed, with one character put in between, and the word left of the cursor deleted. -/
theorem typeKeys_refines_led :
    let keys : List Key := [.char (chr 'a') (by decide), .char (chr ' ') (by decide),
      .char (chr 'c') (by decide), .sequence .left, .char (chr 'b') (by decide), .control .ctrlW,
      .sequence .delete, .sequence .home]
    (typeKeys idleEnv ledSys keys).sh.twoLists = ⟨[], ascii "a "⟩ := by
  intro keys
  have hkeys : ∀ key ∈ keys, key.Edits := by simp [keys, Key.Edits]
  obtain ⟨hlists, -⟩ := typeKeys_refines ledSys_reachable (by decide +kernel) hkeys
  exact hlists.trans (by decide +kernel)

end PortableShell
