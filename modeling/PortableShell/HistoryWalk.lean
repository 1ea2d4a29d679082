import Mathlib.Algebra.Order.Group.Int
import PortableShell.Replay

set_option relaxedAutoImplicit false
set_option autoImplicit false

/-!
# Walking through the history

Up and Down move a position in the history; outside of it stands the line that was there before the
walk began, which is kept in the draft. `move_history` saves the draft each time it starts outside,
also when it does not get in, and compares the position with the count as an `int`, less one.

## Main definitions

* `PortableShell.Key.move` — what a key does to the position of a walk.
* `PortableShell.ShowsWalk` — the shell is at a position and shows what stands there.

## Main results

* `PortableShell.Walking.edit` — one key, from a position to the next one.
* `PortableShell.showsWalk_iff` — the walk is right exactly when the last position is an `int`.
-/

namespace PortableShell

variable {ω : Type}

/-! ## The walk -/

/-- The keys of a walk: those that move in the history or in the line, and the one that redraws. -/
def Key.Walks : Key → Prop
  | .sequence .delete => False
  | .sequence _ | .control .ctrlL => True
  | _ => False

/-- What a key does to the position of a walk through `n` entries, where `-1` stands outside. -/
def Key.move (n : ℕ) (key : Key) (pos : ℤ) : ℤ :=
  match key with
  | .sequence .up => min (pos + 1) (n - 1)
  | .sequence .down => max (pos - 1) (-1)
  | _ => pos

/-- What stands at a position: outside the line, else the entry of that age, cut to a line. -/
def Shell.textAt (s : Shell) (pos : ℤ) : List Byte :=
  if pos < 0 then s.text
  else ((shHistoryGetNewest s pos.toNat).getD CStr.empty).bytes.take s.cfg.lineMax

/-- The shell is at a position of a walk that began with `start`, and shows what stands there. -/
structure ShowsWalk (start s : Shell) (pos : ℤ) : Prop where
  view : s.historyView = pos
  text : s.text = start.textAt pos
  history : SameHistory start s

/-- The text in the draft. -/
def Shell.draftText (s : Shell) : List Byte := (CStr.at (s.draft.getD []) 0).bytes

/-! ## Counts -/

/-- Up to `2 ^ 31` entries the bound of `move_history` is the last position. -/
private theorem intSub_toInt_of_le {n : ℕ} (h : n ≤ 2 ^ 31) : intSub (toInt n) 1 = n - 1 := by
  unfold intSub toInt
  rw [Int.bmod_sub_bmod, Int.bmod_def]
  push_cast
  split_ifs <;> omega

/-- With more entries it is before the last position. -/
private theorem intSub_toInt_lt {n : ℕ} (h : 2 ^ 31 < n) : intSub (toInt n) 1 < n - 1 := by
  unfold intSub toInt
  rw [Int.bmod_sub_bmod, Int.bmod_def]
  push_cast
  split_ifs <;> omega

/-! ## One step -/

section Step

variable {s : Shell}

/-- The parts of a step through the history.

**Proof sketch.** Saving the draft and moving the view change neither the history nor the text. The
draft then reads as it was saved, and the line is set to what the new view recalls. -/
private theorem Shell.Wf.walk_spec (h : s.Wf) (hdepth : s.historyDepth ≠ 0) (direction : ℤ) :
    let next := (s.stepView direction).historyView
    let draft := if s.historyView < 0 then s.text else s.draftText
    (s.walk direction).historyView = next ∧ (s.walk direction).draftText = draft ∧
      (s.walk direction).text =
        (if next < 0 then draft
          else
            ((shHistoryGetNewest s next.toNat).getD CStr.empty).bytes).take
              (s.lineCapacity - 1) := by
  intro next draft
  generalize hsaved : (if s.historyView < 0 then s.saveDraft else s) = saved
  have hwf : saved.Wf := by
    rw [← hsaved]
    split_ifs
    · exact h.saveDraft
    · exact h
  have hview : (saved.stepView direction).historyView = next ∧
      (saved.stepView direction).lineCapacity = s.lineCapacity := by
    rw [← hsaved]
    split_ifs <;> exact ⟨rfl, rfl⟩
  have hhistory : SameHistory s (saved.stepView direction) := by
    rw [← hsaved]
    split_ifs <;> exact ⟨rfl, rfl, rfl, rfl, rfl⟩
  have hdraft : (saved.stepView direction).draftText = draft := by
    have hsaves : (saved.stepView direction).draftText = saved.draftText := rfl
    rw [hsaves, ← hsaved]
    show (if s.historyView < 0 then s.saveDraft else s).draftText =
      if s.historyView < 0 then s.text else s.draftText
    split_ifs
    · obtain ⟨d, hd, hat⟩ := h.draft_saveDraft hdepth
      rw [Shell.draftText, hd, Option.getD_some, hat, h.bytes_execText]
    · rfl
  have hwalk : s.walk direction = (saved.stepView direction).setLine
      (saved.stepView direction).recalled := by
    rw [Shell.walk, hsaved]
  refine ⟨?_, ?_, ?_⟩
  · rw [hwalk, Shell.setLine_historyView, hview.1]
  · rw [hwalk]
    exact hdraft
  · rw [hwalk, (hwf.stepView direction).text_setLine, hview.2, Shell.recalled, hview.1,
      hhistory.getNewest_eq]
    split_ifs
    · exact congrArg _ hdraft
    · rfl

/-- The line fits. -/
private theorem Shell.Wf.take_text (h : s.Wf) : s.text.take (s.lineCapacity - 1) = s.text := by
  have hlt := h.lineLen_lt
  exact List.take_of_length_le (by rw [h.length_text]; omega)

/-- Since a shell outside the history some keys of a walk were pressed. -/
structure Walking (start s : Shell) (pos : ℤ) : Prop where
  shows : ShowsWalk start s pos
  wf : s.Wf
  setup : SameSetup start s
  /-- Inside the history the draft holds the line that the walk began with. -/
  draft : 0 ≤ pos → s.draftText = start.text

/-- Keys that leave the text, the history and the position in it alone. -/
theorem Walking.of_same {start s' : Shell} {pos : ℤ} (h : Walking start s pos) (hwf : s'.Wf)
    (hsetup : SameSetup s s') (hhistory : SameHistory s s') (htext : s'.text = s.text)
    (hview : s'.historyView = s.historyView) (hdraft : s'.draft = s.draft) :
    Walking start s' pos where
  shows := ⟨hview.trans h.shows.view, htext.trans h.shows.text, h.shows.history.trans hhistory⟩
  wf := hwf
  setup := h.setup.trans hsetup
  draft hpos := by
    rw [Shell.draftText, hdraft]
    exact h.draft hpos

/-- The decoder changes nothing that the walk is about. -/
theorem Walking.decoded {start : Shell} {pos : ℤ} (h : Walking start s pos) {cr : Bool}
    {decoder : AnsiDecoder} (hwf : (s.decoded cr decoder).Wf) :
    Walking start (s.decoded cr decoder) pos :=
  h.of_same hwf ⟨rfl, rfl, rfl, rfl, rfl⟩ ⟨rfl, rfl, rfl, rfl, rfl⟩ rfl rfl rfl

/-- **A step through the history** moves to the next position and shows what stands there. -/
theorem Walking.walk {start : Shell} {pos : ℤ} (h : Walking start s pos) (hstart : start.Wf)
    (hmax : start.lineCapacity = start.cfg.lineMax + 1) (hcount : start.historyCount ≠ 0)
    {direction next : ℤ} (hnext : (s.stepView direction).historyView = next) :
    Walking start (s.walk direction) next := by
  obtain ⟨⟨hview, htext, hhistory⟩, hwf, hsetup, hdraft⟩ := h
  have hdepth : start.historyDepth ≠ 0 := fun h0 => hcount (hstart.history.disabled h0)
  obtain ⟨hposition, hsaved, hshown⟩ := hwf.walk_spec (by rwa [hsetup.historyDepth]) direction
  rw [hnext] at hposition hshown
  -- inside and outside the draft holds the first line by now
  have hkept : (if s.historyView < 0 then s.text else s.draftText) = start.text := by
    rw [hview]
    split_ifs with hpos
    · rw [htext, Shell.textAt, if_pos hpos]
    · exact hdraft (not_lt.mp hpos)
  rw [hkept] at hsaved hshown
  refine ⟨⟨hposition, ?_, hhistory.trans (s.sameHistory_walk direction)⟩, hwf.walk direction,
    hsetup.trans (EditStep.walk direction (by rwa [hhistory.count])).sameSetup, fun _ => hsaved⟩
  rw [hshown, Shell.textAt, hhistory.getNewest_eq, hsetup.lineCapacity, hmax, Nat.add_sub_cancel]
  split_ifs
  · have htake := hstart.take_text
    rwa [hmax] at htake
  · rfl

/-- A step back in the history. -/
private theorem Shell.stepView_back (s : Shell) :
    (s.stepView (-1)).historyView =
      if s.historyView < intSub (toInt s.historyCount) 1 then s.historyView + 1
      else s.historyView := by
  unfold Shell.stepView
  dsimp only
  rw [if_pos (by decide)]

/-- A step forward. -/
private theorem Shell.stepView_forward (s : Shell) :
    (s.stepView 1).historyView =
      if s.historyView ≥ 0 then s.historyView - 1 else s.historyView := by
  unfold Shell.stepView
  dsimp only
  rw [if_neg (by decide)]

/-- The position behind a key of a walk, when the last position is an `int`. -/
private theorem stepView_historyView {start : Shell} {pos : ℤ} (h : ShowsWalk start s pos)
    (hwf : s.Wf) (hint : start.historyCount ≤ 2 ^ 31) :
    (s.stepView (-1)).historyView = min (pos + 1) (start.historyCount - 1) ∧
      (s.stepView 1).historyView = max (pos - 1) (-1) := by
  have hge := hwf.view_ge
  have hlt := hwf.view_lt
  have hn := intSub_toInt_of_le hint
  rw [h.view] at hge hlt
  rw [h.history.count] at hlt
  rw [s.stepView_back, s.stepView_forward, h.view, h.history.count, hn]
  constructor
  · split_ifs <;> omega
  · split_ifs <;> omega

/-- **A key of a walk** moves to the next position and shows what stands there.

**Proof sketch.** One case per key. Up and Down move the view as `stepView_historyView` says and
show the entry there; the other keys of a walk only move the cursor. -/
theorem Walking.edit {start : Shell} {pos : ℤ} (h : Walking start s pos) (hstart : start.Wf)
    (hmax : start.lineCapacity = start.cfg.lineMax + 1) (hcount : start.historyCount ≠ 0)
    (hint : start.historyCount ≤ 2 ^ 31) {key : Key} (hkey : key.Walks) :
    Walking start (key.edit s) (key.move start.historyCount pos) := by
  obtain ⟨hup, hdown⟩ := stepView_historyView h.shows h.wf hint
  have hne : s.historyCount ≠ 0 := by rwa [h.shows.history.count]
  have hsame : ∀ {cursor : ℕ}, cursor ≤ s.cursor ∨ cursor ≤ s.lineLen →
      Walking start (s.setCursor cursor) pos := fun hc =>
    h.of_same (h.wf.setCursor hc) ⟨rfl, rfl, rfl, rfl, rfl⟩ ⟨rfl, rfl, rfl, rfl, rfl⟩ rfl rfl rfl
  have hhome : Walking start (if s.cursor ≠ 0 then s.setCursor 0 else s) pos := by
    split_ifs
    · exact hsame (.inl (Nat.zero_le _))
    · exact h
  have hend : Walking start (if s.cursor ≠ s.lineLen then s.setCursor s.lineLen else s) pos := by
    split_ifs
    · exact hsame (.inr le_rfl)
    · exact h
  cases key with
  | char c hc => exact hkey.elim
  | control key =>
    cases key with
    | ctrlL => exact h
    | _ => exact hkey.elim
  | sequence key =>
    cases key with
    | up =>
      have hedit : Key.edit s (.sequence .up) = s.walk (-1) := if_neg hne
      rw [hedit]
      exact h.walk hstart hmax hcount hup
    | down =>
      have hedit : Key.edit s (.sequence .down) = s.walk 1 := if_neg hne
      rw [hedit]
      exact h.walk hstart hmax hcount hdown
    | right =>
      show Walking start (if s.cursor < s.lineLen then s.setCursor (s.cursor + 1) else s) pos
      split_ifs with hlt
      · exact hsame (.inr hlt)
      · exact h
    | left =>
      show Walking start (if s.cursor > 0 then s.setCursor (s.cursor - 1) else s) pos
      split_ifs
      · exact hsame (.inl (Nat.sub_le _ _))
      · exact h
    | home => exact hhome
    | homeTilde => exact hhome
    | «end» => exact hend
    | endTilde => exact hend
    | delete => exact hkey.elim

end Step

/-! ## Walks -/

section Walks

variable {env : Env ω} {st : Sys ω}

/-- Some keys of a walk, when the last position is an `int`. -/
theorem Walking.typeKeys (hreach : Reachable env st) (hidle : st.sh.ansi.state = .idle)
    (hview : st.sh.historyView = -1) (hcount : shHistoryCount st.sh ≠ 0)
    (hint : shHistoryCount st.sh ≤ 2 ^ 31) {keys : List Key} (hkeys : ∀ key ∈ keys, key.Walks) :
    Walking st.sh (PortableShell.typeKeys env st keys).sh
      (keys.foldl (fun pos key => key.move (shHistoryCount st.sh) pos) (-1)) := by
  have hawaits := hreach.awaitsKey hidle
  induction keys using List.reverseRecOn with
  | nil =>
    have hout : st.sh.text = st.sh.textAt (-1) := (if_pos (by decide)).symm
    exact ⟨⟨hview, hout, ⟨rfl, rfl, rfl, rfl, rfl⟩⟩, hreach.wf, .refl _,
      fun h => absurd (show (0 : ℤ) ≤ -1 from h) (by decide)⟩
  | append_singleton keys key ih =>
    have hbefore := ih fun k hk => hkeys k (List.mem_append_left _ hk)
    obtain ⟨⟨cr, decoder, hwf, hpress⟩, -⟩ := (hawaits.typeKeys env keys).press env key
    rw [typeKeys_concat, List.foldl_append, hpress]
    exact (hbefore.decoded hwf).edit hreach.wf hreach.lineCapacity_eq hcount hint
        (hkeys key (by simp))

/-- The position behind a press of the Up key. -/
private theorem Shell.AwaitsKey.up_historyView (h : st.sh.AwaitsKey) (env : Env ω)
    (hcount : st.sh.historyCount ≠ 0) :
    (shInput env st (Key.sequence .up).bytes).1.sh.historyView =
      if st.sh.historyView < intSub (toInt st.sh.historyCount) 1 then st.sh.historyView + 1
      else st.sh.historyView := by
  obtain ⟨⟨cr, decoder, hwf, hpress⟩, -⟩ := h.press env (.sequence .up)
  have hdecoded : (st.sh.decoded cr decoder).historyView = st.sh.historyView ∧
      (st.sh.decoded cr decoder).historyCount = st.sh.historyCount := ⟨rfl, rfl⟩
  have hne : (st.sh.decoded cr decoder).historyCount ≠ 0 := hcount
  have hedit : Key.edit (st.sh.decoded cr decoder) (.sequence .up) =
      (st.sh.decoded cr decoder).walk (-1) := if_neg hne
  have hstep := (hwf.walk_spec (fun h0 => hne (hwf.history.disabled h0)) (-1)).1
  rw [Shell.stepView_back, hdecoded.1, hdecoded.2] at hstep
  rw [hpress, hedit, hstep]

/-- Presses of the Up key alone. -/
private theorem foldl_move_up {n k : ℕ} (hk : k ≤ n) :
    (List.replicate k (Key.sequence .up)).foldl (fun pos key => key.move n pos) (-1) = k - 1 := by
  induction k with
  | zero => rfl
  | succ k ih =>
    rw [List.replicate_succ', List.foldl_append, ih (Nat.le_of_succ_le hk)]
    show min ((k : ℤ) - 1 + 1) (n - 1) = _
    push_cast
    omega

/-- **The walk through the history**: after every stream of Up, Down, Left, Right, Home, End and
Ctrl+L keys the shell is where the walk is and shows what stands there, exactly when the position of
the oldest entry is an `int`.

**Proof sketch.** The draft holds the first line whenever the position is inside the history, as
it is saved only outside, where the line is the first one. With `2 ^ 31` entries the subtraction
overflows and wraps around to the right bound. With more of them the Up key stops at a bound that
is before the oldest entry. -/
theorem showsWalk_iff (hreach : Reachable env st) (hidle : st.sh.ansi.state = .idle)
    (hview : st.sh.historyView = -1) (hcount : shHistoryCount st.sh ≠ 0) :
    (∀ keys : List Key, (∀ key ∈ keys, key.Walks) →
        ShowsWalk st.sh (typeKeys env st keys).sh
          (keys.foldl (fun pos key => key.move (shHistoryCount st.sh) pos) (-1))) ↔
      shHistoryCount st.sh ≤ 2 ^ 31 := by
  constructor
  · intro hshows
    by_contra hgt
    have hlt := intSub_toInt_lt (not_le.mp hgt)
    -- the position from which the Up key does not get on
    obtain ⟨k, hk, hstuck⟩ : ∃ k : ℕ, k < shHistoryCount st.sh ∧
        intSub (toInt (shHistoryCount st.sh)) 1 ≤ k - 1 :=
      ⟨(intSub (toInt (shHistoryCount st.sh)) 1 + 1).toNat, by omega, by omega⟩
    have hups : ∀ k ≤ shHistoryCount st.sh,
        ShowsWalk st.sh (typeKeys env st (List.replicate k (.sequence .up))).sh (k - 1) := by
      intro k hk
      rw [← foldl_move_up hk]
      exact hshows _ fun key hkey => by rw [List.eq_of_mem_replicate hkey]; trivial
    have hbefore := hups k hk.le
    have hafter := (hups (k + 1) hk).view
    have hne : (typeKeys env st (List.replicate k (.sequence .up))).sh.historyCount ≠ 0 := by
      rw [hbefore.history.count]
      exact hcount
    have hstop : ¬(k : ℤ) - 1 < intSub (toInt st.sh.historyCount) 1 := not_lt.mpr hstuck
    rw [List.replicate_succ', typeKeys_concat,
      ((hreach.awaitsKey hidle).typeKeys env _).up_historyView env hne, hbefore.view,
      hbefore.history.count, if_neg hstop] at hafter
    push_cast at hafter
    clear hstuck hstop hlt
    omega
  · exact fun hint keys hkeys =>
      (Walking.typeKeys hreach hidle hview hcount hint hkeys).shows

end Walks

/-- Up and down in a history of three entries. -/
theorem showsWalk_iff_small :
    ShowsWalk (deepSys 3 3).sh
      (typeKeys idleEnv (deepSys 3 3) [.sequence .up, .sequence .left, .sequence .up, .sequence .up,
        .sequence .up, .sequence .down]).sh 1 := by
  obtain ⟨hsession, -, -, hrest⟩ := deepSys_session 3 3
  have hcount : shHistoryCount (deepSys 3 3).sh = 3 := deepSys_count le_rfl
  have hwalk := (showsWalk_iff hsession.reachable hrest.idle hrest.historyView
    (by rw [hcount]; decide)).mpr (by rw [hcount]; decide) [.sequence .up, .sequence .left,
      .sequence .up, .sequence .up, .sequence .up, .sequence .down] (by simp [Key.Walks])
  rw [hcount] at hwalk
  exact hwalk

/-- Where the bound is negative, the Up key does not move. -/
private theorem deepSys_not_showsWalk {n : ℕ} (hn : n ≠ 0) (hint : intSub (toInt n) 1 < 0) :
    Reachable idleEnv (deepSys n n) ∧ (deepSys n n).sh.ansi.state = .idle ∧
      (deepSys n n).sh.historyView = -1 ∧ shHistoryCount (deepSys n n).sh ≠ 0 ∧
      ¬∀ keys : List Key, (∀ key ∈ keys, key.Walks) →
        ShowsWalk (deepSys n n).sh (typeKeys idleEnv (deepSys n n) keys).sh
          (keys.foldl (fun pos key => key.move (shHistoryCount (deepSys n n).sh) pos) (-1)) := by
  obtain ⟨hsession, -, -, hrest⟩ := deepSys_session n n
  have hcount : shHistoryCount (deepSys n n).sh = n := deepSys_count le_rfl
  refine ⟨hsession.reachable, hrest.idle, hrest.historyView, by rwa [hcount], fun hshows => ?_⟩
  have hup := (hsession.reachable.awaitsKey hrest.idle).up_historyView idleEnv
    (by rw [← shHistoryCount, hcount]; exact hn)
  rw [← shHistoryCount, hcount, hrest.historyView, if_neg (not_lt.mpr (by omega))] at hup
  -- the walk is at the newest entry
  have hview := (hshows (List.replicate 1 (.sequence .up)) (by simp [Key.Walks])).view
  rw [hcount, foldl_move_up (Nat.pos_of_ne_zero hn), List.replicate_one,
    ← List.nil_append [Key.sequence .up], typeKeys_concat, typeKeys_nil, hup] at hview
  exact absurd hview (by decide)

/-- With `2 ^ 31 + 1` entries the Up key shows none of them. -/
theorem not_showsWalk_deep :
    let st := deepSys (2 ^ 31 + 1) (2 ^ 31 + 1)
    Reachable idleEnv st ∧ st.sh.ansi.state = .idle ∧ st.sh.historyView = -1 ∧
      shHistoryCount st.sh ≠ 0 ∧
      ¬∀ keys : List Key, (∀ key ∈ keys, key.Walks) →
        ShowsWalk st.sh (typeKeys idleEnv st keys).sh
          (keys.foldl (fun pos key => key.move (shHistoryCount st.sh) pos) (-1)) :=
  deepSys_not_showsWalk (by decide) (by decide)

end PortableShell
