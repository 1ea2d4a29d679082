import PortableShell.TerminalView

set_option relaxedAutoImplicit false
set_option autoImplicit false

/-!
# The listing of the history

`builtin_history` prints each entry through `sh_writef_internal`, which formats into a buffer of 256
bytes and drops what does not fit, the line ending first. A listing is complete exactly when
every line of it fits.

## Main definitions

* `PortableShell.listLine` — the line that shows an entry.
* `PortableShell.ListsHistory` — `history` prints its header and all entries, oldest first.

## Main results

* `PortableShell.digits_injective` — a number is determined by its digits.
* `PortableShell.printedLine_eq_iff` — the exact condition for one line.
* `PortableShell.listsHistory_iff` — the exact condition for a listing.
-/

namespace PortableShell

variable {ω : Type}

/-! ## Numbers -/

/-- The byte of a digit determines the digit. -/
private theorem ofNat_toNat_chr {c : Char} (h : c.isDigit) : Char.ofNat (chr c).toNat = c := by
  have hrange := Char.isDigit_iff_toNat.mp h
  have hbyte : (chr c).toNat = c.toNat := by
    have hnine : ('9' : Char).toNat = 57 := rfl
    rw [chr, UInt8.toNat_ofNat']
    omega
  rw [hbyte, Char.ofNat_toNat]

/-- **A number is determined by its digits.** -/
theorem digits_injective : Function.Injective Terminal.digits := by
  have hchars : ∀ n, (Terminal.digits n).map (fun b => Char.ofNat b.toNat) = Nat.toDigits 10 n := by
    intro n
    show ((Nat.toDigits 10 n).map chr).map _ = _
    rw [List.map_map]
    refine (List.map_congr_left fun c hc => ?_).trans (List.map_id _)
    exact ofNat_toNat_chr (Nat.isDigit_of_mem_toDigits (by decide) (by decide) hc)
  intro m n h
  have hdigits : Nat.toDigits 10 m = Nat.toDigits 10 n := by rw [← hchars, ← hchars, h]
  rw [← @Nat.ofDigitChars_ten_toDigits m, hdigits, Nat.ofDigitChars_ten_toDigits]

/-- A smaller number has no more digits. -/
private theorem length_digits_mono {m n : ℕ} (h : m ≤ n) :
    (Terminal.digits m).length ≤ (Terminal.digits n).length := by
  have hlength : ∀ n, (Terminal.digits n).length = (Nat.toDigits 10 n).length :=
    fun n => List.length_map _
  rw [hlength, hlength, Nat.length_toDigits_le_iff (by decide) Nat.length_toDigits_pos]
  exact h.trans_lt ((Nat.length_toDigits_le_iff (by decide) Nat.length_toDigits_pos).mp le_rfl)

/-- What `%u` prints is the number modulo `2 ^ 32`. -/
private theorem fmtUnsigned_eq (n : ℕ) : fmtUnsigned n = Terminal.digits (n % 2 ^ 32) := rfl

/-! ## Lines -/

/-- The line that shows an entry, with its line ending. -/
def listLine (i : ℕ) (entry : CStr) : List Byte :=
  Terminal.digits i ++ ascii ": " ++ entry.bytes ++ ascii "\r\n"

/-- The line that `builtin_history` prints for an entry. -/
def printedLine (i : ℕ) (entry : CStr) : List Byte :=
  vprintfBytes (fmtUnsigned i ++ ascii ": " ++ entry.bytes ++ ascii "\r\n")

/-- Formatting makes a text no longer. -/
private theorem length_vprintfBytes_le (text : List Byte) :
    (vprintfBytes text).length ≤ text.length := by
  rw [vprintfBytes]
  split_ifs
  · exact List.length_take_le' _ _
  · exact le_rfl

/-- The line printed is no longer than the line. -/
private theorem length_printedLine_le (i : ℕ) (entry : CStr) :
    (printedLine i entry).length ≤ (listLine i entry).length := by
  refine (length_vprintfBytes_le _).trans ?_
  have hdigits := length_digits_mono (Nat.mod_le i (2 ^ 32))
  simp only [fmtUnsigned_eq, listLine, List.length_append]
  omega

/-- **A line is printed as it is** exactly when its number is an `unsigned` and it fits the
buffer. -/
theorem printedLine_eq_iff (i : ℕ) (entry : CStr) :
    printedLine i entry = listLine i entry ↔ i < 2 ^ 32 ∧ (listLine i entry).length < 256 := by
  constructor
  · intro h
    have hlength := congrArg List.length h
    have hdigits := length_digits_mono (Nat.mod_le i (2 ^ 32))
    have hwhole : ¬(fmtUnsigned i ++ ascii ": " ++ entry.bytes ++ ascii "\r\n").length ≥ 256 := by
      intro hlong
      rw [printedLine, vprintfBytes, if_pos hlong, List.length_take] at hlength
      simp only [fmtUnsigned_eq, listLine, List.length_append] at hlength hlong
      omega
    rw [printedLine, vprintfBytes, if_neg hwhole, listLine] at h
    have hnumber : fmtUnsigned i = Terminal.digits i := by
      simpa only [List.append_cancel_right_eq] using h
    have hi : i % 2 ^ 32 = i := digits_injective hnumber
    refine ⟨hi ▸ Nat.mod_lt i (by decide), ?_⟩
    rw [listLine, ← h]
    omega
  · rintro ⟨hi, hlength⟩
    have hnumber : fmtUnsigned i = Terminal.digits i := by
      rw [fmtUnsigned_eq, Nat.mod_eq_of_lt hi]
    rw [printedLine, hnumber]
    exact if_neg (by rw [listLine] at hlength; omega)

/-! ## Listings -/

/-- When no part is longer than its counterpart, the concatenations are equal exactly when all parts
are.

**Proof sketch.** Induction on the list. Equal concatenations have the same length, so no part of
the left one can be shorter than its counterpart, and both can be cut behind the first part. -/
private theorem flatMap_eq_iff {α β : Type} {l : List α} {f g : α → List β}
    (h : ∀ a ∈ l, (f a).length ≤ (g a).length) :
    l.flatMap f = l.flatMap g ↔ ∀ a ∈ l, f a = g a := by
  have hle : ∀ l : List α, (∀ a ∈ l, (f a).length ≤ (g a).length) →
      (l.flatMap f).length ≤ (l.flatMap g).length := by
    intro l h
    induction l with
    | nil => exact le_rfl
    | cons a l ih =>
      have hhead := h a List.mem_cons_self
      have htail := ih fun b hb => h b (List.mem_cons_of_mem a hb)
      rw [List.flatMap_cons, List.flatMap_cons, List.length_append, List.length_append]
      omega
  induction l with
  | nil => simp
  | cons a l ih =>
    have hhead := h a List.mem_cons_self
    have hrest : ∀ b ∈ l, (f b).length ≤ (g b).length := fun b hb => h b (List.mem_cons_of_mem a hb)
    have htail := hle l hrest
    rw [List.flatMap_cons, List.flatMap_cons, List.forall_mem_cons]
    constructor
    · intro heq
      have hlength := congrArg List.length heq
      rw [List.length_append, List.length_append] at hlength
      obtain ⟨hfirst, hothers⟩ := List.append_inj heq (by omega)
      exact ⟨hfirst, (ih hrest).mp hothers⟩
    · rintro ⟨hfirst, hothers⟩
      rw [hfirst, (ih hrest).mpr hothers]

/-- The lines that `builtin_history` prints are those of the entries, oldest first. -/
private theorem historyListTexts_eq {s : Shell} (h : HistoryWf s) :
    historyListTexts s = s.entries.reverse.zipIdx.map fun e => printedLine e.2 e.1 := by
  have hlength := h.length_entries
  refine List.ext_getElem ?_ fun i hi hi' => ?_
  · simp [historyListTexts, shHistoryCount, hlength]
  · have hcount : i < s.entries.reverse.length := by simpa using hi'
    have hentry : shHistoryGetNewest s (shHistoryCount s - 1 - i) =
        some s.entries.reverse[i] := by
      rw [h.getNewest_eq, shHistoryCount, ← hlength, List.getElem_reverse,
        List.getElem?_eq_getElem]
    simp only [historyListTexts, List.getElem_map, List.getElem_range, List.getElem_zipIdx,
      hentry, Option.getD_some, zero_add, printedLine]

section Listing

variable {env : Env ω} {received : ω → List Byte} {st : Sys ω}

/-- A backend that accepts every byte receives all texts printed. -/
theorem AcceptsAll.writes (h : AcceptsAll env st.sh.cfg received)
    (hattempts : st.sh.cfg.transportWriteAttempts ≠ 0) (texts : List (List Byte)) :
    received (PortableShell.writes env st texts).io = received st.io ++ texts.flatten := by
  induction texts generalizing st with
  | nil => simp
  | cons text texts ih =>
    have hfirst : received (shWrite env st text).1.io = received st.io ++ text :=
      (h.backendWrite hattempts st.io text).1
    have hrest : received (PortableShell.writes env (shWrite env st text).1 texts).io = _ :=
      @ih (shWrite env st text).1 h hattempts
    rw [writes_cons, hrest, hfirst, List.flatten_cons, List.append_assoc]

/-- **The listing is complete**: the built-in `history` without arguments prints its header and
then a line for each entry, the oldest first. -/
def ListsHistory (env : Env ω) (received : ω → List Byte) (st : Sys ω) : Prop :=
  received (shCommandDispatchInternal env st [str "history"]).1.io =
    received st.io ++ historyHeader st.sh ++
      st.sh.entries.reverse.zipIdx.flatMap fun e => listLine e.2 e.1

/-- **A listing is complete** exactly when every line of it fits the buffer and is numbered below
`2 ^ 32`.

**Proof sketch.** The header and the lines are written one by one, so what is received is their
concatenation. It equals that of the full lines exactly when no line was cut (`flatMap_eq_iff`,
`printedLine_eq_iff`). -/
theorem listsHistory_iff (hreach : Reachable env st) (haccepts : AcceptsAll env st.sh.cfg received)
    (henabled : st.sh.cfg.builtinsEnabled = true) :
    ListsHistory env received st ↔
      ∀ i entry, st.sh.entries.reverse[i]? = some entry →
        i < 2 ^ 32 ∧ (Terminal.digits i).length + entry.length + 4 < 256 := by
  have hattempts := hreach.capacity_and_attempts.2
  have hplan : plan st.sh [str "history"] = .history := by
    rw [plan, if_neg fun h => absurd h.2 (by decide), if_pos ⟨henabled, rfl⟩]
  -- header and lines are written one by one
  have hprinted : received (shCommandDispatchInternal env st [str "history"]).1.io =
      received st.io ++ historyHeader st.sh ++ (historyListTexts st.sh).flatten := by
    let opened := writes env (st.emit (.dispatch [str "history"])) [historyHeader st.sh]
    have hlist : (shCommandDispatchInternal env st [str "history"]).1 =
        writes env (touchEntries opened) (historyListTexts st.sh) := by
      rw [dispatch_eq, hplan]
      rfl
    have hsh : (touchEntries opened).sh = st.sh := by
      rw [touchEntries_sh, writes_sh]
      rfl
    have hheader : received opened.io = received st.io ++ [historyHeader st.sh].flatten :=
      @AcceptsAll.writes _ _ _ (st.emit (.dispatch [str "history"])) haccepts hattempts _
    have haccepts' : AcceptsAll env (touchEntries opened).sh.cfg received := by rwa [hsh]
    rw [hlist, haccepts'.writes (by rwa [hsh]), touchEntries_io, hheader, List.flatten_singleton]
  have hshort : ∀ e ∈ st.sh.entries.reverse.zipIdx,
      (printedLine e.2 e.1).length ≤ (listLine e.2 e.1).length :=
    fun e _ => length_printedLine_le e.2 e.1
  rw [ListsHistory, hprinted, historyListTexts_eq hreach.wf.history, ← List.flatMap_def,
    List.append_cancel_left_eq, flatMap_eq_iff hshort]
  have hline : ∀ i entry, printedLine i entry = listLine i entry ↔
      i < 2 ^ 32 ∧ (Terminal.digits i).length + entry.length + 4 < 256 := by
    intro i entry
    have htexts : (ascii ": ").length + (ascii "\r\n").length = 4 := by decide
    rw [printedLine_eq_iff, listLine]
    simp only [List.length_append, CStr.length]
    omega
  simp only [Prod.forall, List.mem_zipIdx_iff_getElem?, hline]
  exact forall_comm

end Listing

/-- A history with one short entry. -/
theorem listsHistory_iff_console :
    ListsHistory loginEnv id (shExecuteLine loginEnv consoleSys (str "help")).1 := by
  have hsetup : (shExecuteLine loginEnv consoleSys (str "help")).1.sh.cfg = consoleSys.sh.cfg :=
    (Steps.edit
      (EditSteps.exec (shExecuteLine_steps loginEnv consoleSys (str "help")))).sameSetup.cfg
  have hentries : (shExecuteLine loginEnv consoleSys (str "help")).1.sh.entries.reverse =
      [str "help"] := by decide +kernel
  have haccepts :
      AcceptsAll loginEnv (shExecuteLine loginEnv consoleSys (str "help")).1.sh.cfg id := by
    rw [hsetup]
    exact startsOn_consoleSys.accepts
  refine (listsHistory_iff (startsOn_consoleSys.reachable.apply (.executeLine (str "help")))
    haccepts (by decide +kernel)).mpr fun i entry hentry => ?_
  obtain ⟨rfl, rfl⟩ : i = 0 ∧ entry = str "help" := by
    have hfirst : [str "help"][i]? = some entry := hentries ▸ hentry
    cases i with
    | zero => exact ⟨rfl, (Option.some.inj hfirst).symm⟩
    | succ i => cases hfirst
  decide

/-- A line that the tokenizer reads as some arguments dispatches them. -/
private theorem lineArgv_of_tokenize {s : Shell} {line : CStr} {argv : List CStr}
    (hcapacity : s.argvCapacity ≠ 0) (hfits : line.length < shMaxLineLen + 1 ∧
      line.length < s.lineCapacity) (hne : argv ≠ [])
    (htokens : tokenize s.argvCapacity line.bytes = .ok (argv.map CStr.bytes)) :
    lineArgv s line = some argv := by
  have hinj : Function.Injective CStr.bytes := fun a b => CStr.ext
  have hok : (shTokenize (line.bytes ++ [0]) s.argvCapacity).status = Status.ok :=
    (shTokenize_status_eq_ok hcapacity line.nonzero []).mpr ⟨_, htokens⟩
  have htexts : (shTokenize (line.bytes ++ [0]) s.argvCapacity).texts = argv :=
    hinj.list_map (shTokenize_texts hcapacity line.nonzero [] htokens)
  have hargv : (shTokenize (line.bytes ++ [0]) s.argvCapacity).argv ≠ [] := by
    intro hnil
    rw [TokenizeResult.texts, hnil] at htexts
    exact hne htexts.symm
  unfold lineArgv
  rw [if_neg (by omega)]
  dsimp only
  rw [if_neg (by simp [hok, hargv]), htexts]

/-- A line of 251 bytes. -/
def wideLine : CStr := ⟨List.replicate 251 (chr 'a'), by decide⟩

/-- The configuration of a console with lines of 256 bytes. -/
def wideConfig : Config := { shDefaultConfig with historyDepth := 1, write := some 0 }

/-- The console behind this line. -/
def wideConsoleSys : Sys (List Byte) :=
  run loginEnv ⟨exactShell wideConfig, [], [], []⟩ [.executeLine wideLine]

/-- The line of such an entry is printed without its line feed. -/
theorem not_listsHistory_wide :
    Reachable loginEnv wideConsoleSys ∧ AcceptsAll loginEnv wideConsoleSys.sh.cfg id ∧
      wideConsoleSys.sh.cfg.builtinsEnabled = true ∧ ¬ListsHistory loginEnv id wideConsoleSys := by
  obtain ⟨hsized, hinit⟩ := @shInit_exact wideConfig (by decide) (by decide)
  have hcfg : wideConsoleSys.sh.cfg = (exactShell wideConfig).cfg := by
    rw [wideConsoleSys, (run_steps loginEnv _ _).sameSetup.cfg]
  have hargv : lineArgv (exactShell wideConfig) wideLine = some [wideLine] :=
    lineArgv_of_tokenize (by decide) (by decide +kernel) (List.cons_ne_nil _ _) (by decide +kernel)
  refine ⟨⟨_, _, _, _, _, hsized, hinit, rfl⟩, ?_, by rw [hcfg]; rfl, ?_⟩
  · rw [hcfg]
    exact ⟨nofun, fun _ => ⟨0, rfl, fun _ _ => rfl⟩⟩
  · have hsys : wideConsoleSys =
        (shExecuteLine loginEnv ⟨exactShell wideConfig, [], [], []⟩ wideLine).1 := rfl
    rw [ListsHistory, hsys, @shExecuteLine_eq _ loginEnv
        ⟨exactShell wideConfig, [], [], []⟩ _ _ hargv]
    decide +kernel

end PortableShell
