import PortableShell.Port.HostModes
import PortableShell.Port.HostPosix
import PortableShell.Trace
import PortableShell.World

set_option relaxedAutoImplicit false
set_option autoImplicit false

/-!
# The host program

`host_terminal_shell.c` runs a shell over a host port: a loop reads bytes and feeds them, until the
application asks to exit or reading ends. Instead it can feed a file, in blocks.

## Main definitions

* `PortableShell.hostLoop` — the input loop of `main`.
* `PortableShell.sessionLoop` — the same over the results of the reads.
* `PortableShell.hostInteractive` — `main` behind the options, without a script.
* `PortableShell.runScript` — the function of the source.

## Main results

* `PortableShell.hostLoop_eq_session` — the loop depends on the results of the reads only.
* `PortableShell.hosts_agree` — keys do the same in a Windows console and in a POSIX terminal.
* `PortableShell.windows_modes_restored`, `posix_modes_restored` — the modes behind the program.
* `PortableShell.script_as_typed` — a script does what its bytes do when they are typed.
-/

namespace PortableShell

variable {ω T M : Type} (env : Env ω) (exitRequested : ω → Bool)

/-! ## The program -/

/-- The input loop of `main`, in at most `n` rounds, with the last status. -/
def hostLoop (read : T → Option (T × HostRead)) :
    ℕ → Sys ω → T → HostRead → Option (Sys ω × T × HostRead)
  | 0, _, _, _ => none
  | n + 1, st, t, last =>
    if exitRequested st.io then some (st, t, last)
    else
      match read t with
      | none => none
      | some (t', .byte b) => hostLoop read n (shInputByte env st b).1 t' (.byte b)
      | some (t', r) => some (st, t', r)

/-- The part of `main` without a script, behind the initialization, with the exit code. -/
def hostInteractive (port : HostPort T ω) (n : ℕ) (st : Sys ω) : Option (Sys ω × ℕ) :=
  let opened := port.open st.io
  if opened.2.2 ≠ .success then some ({ st with io := opened.1 }, 3)
  else
    let started := shStart env { st with io := opened.1 }
    if started.2 ≠ Status.ok then
      some ({ started.1 with io := (port.close started.1.io opened.2.1).1 }, 4)
    else
      match hostLoop env exitRequested port.readByte n started.1 opened.2.1 .eof with
      | none => none
      | some (st', t, last) =>
        let stopped := (shStop env st').1
        let closed := port.close stopped.io t
        let final := { stopped with io := closed.1 }
        if closed.2.2 ≠ .success then some (final, 7)
        else some (final, if exitRequested closed.1 ∨ last = .eof then 0 else 8)

/-- A file: the bytes that can be read of it, and whether reading fails behind them. -/
structure ScriptFile where
  bytes : List Byte
  broken : Bool

/-- The size of the buffer of `run_script`. -/
def scriptBlock : ℕ := 17

/-- The loop of `run_script`, with the error indicator of the stream. -/
def scriptLoop (broken : Bool) (st : Sys ω) (bytes : List Byte) (failed : Bool) : Sys ω × Bool :=
  if exitRequested st.io then (st, failed)
  else
    let failed := failed || (broken && decide (bytes.length < scriptBlock))
    if bytes = [] then (st, failed)
    else
      scriptLoop broken (shInput env st (bytes.take scriptBlock)).1 (bytes.drop scriptBlock) failed
termination_by bytes.length
decreasing_by
  have hpos : 0 < bytes.length := List.length_pos_of_ne_nil ‹_›
  rw [List.length_drop, scriptBlock]
  omega

/-- `run_script`; a file that cannot be opened is `none`. -/
def runScript (st : Sys ω) (file : Option ScriptFile) : Sys ω × ℕ :=
  match file with
  | none => (st, 5)
  | some file =>
    let r := scriptLoop env exitRequested file.broken st file.bytes false
    if r.2 then (r.1, 6)
    else if r.1.sh.lineLen ≠ 0 ∧ ¬exitRequested r.1.io then
      ((shInputByte env r.1 (chr '\n')).1, 0)
    else (r.1, 0)

/-! ## Sessions -/

/-- The input loop over the results of the reads. -/
def sessionLoop : List HostRead → Sys ω → HostRead → Option (Sys ω × HostRead)
  | [], st, last => if exitRequested st.io then some (st, last) else none
  | r :: rest, st, last =>
    if exitRequested st.io then some (st, last)
    else
      match r with
      | .byte b => sessionLoop rest (shInputByte env st b).1 (.byte b)
      | _ => some (st, r)

variable {env exitRequested}

/-- **The input loop** depends on the results of the reads only: it does not matter what the
terminal goes through to get at them. -/
theorem hostLoop_eq_session {read : T → Option (T × HostRead)} {results : List HostRead} {t : T}
    (h : Yields read results t) {n : ℕ} (hn : results.length < n) (st : Sys ω) (last : HostRead) :
    (hostLoop env exitRequested read n st t last).map (fun r => (r.1, r.2.2)) =
      sessionLoop env exitRequested results st last := by
  induction results generalizing t n st last with
  | nil =>
    obtain ⟨n, rfl⟩ : ∃ m, n = m + 1 := ⟨n - 1, by simp at hn; omega⟩
    have hwait : read t = none := h
    rw [hostLoop, sessionLoop, hwait]
    split_ifs <;> rfl
  | cons r rest ih =>
    obtain ⟨n, rfl⟩ : ∃ m, n = m + 1 := ⟨n - 1, by simp at hn; omega⟩
    obtain ⟨t', hread, hrest⟩ := h
    have hlength : rest.length < n := by simpa using hn
    unfold hostLoop sessionLoop
    rw [hread]
    split_ifs
    · rfl
    · cases r with
      | byte b => exact ih hrest hlength _ _
      | eof => rfl
      | error => rfl

/-- The bytes of a session that ends at the end of the input: all of them are fed, and the
application never asks to exit.

**Proof sketch.** Induction on the bytes. The loop asks the application before each byte and once
more before the end of the input, and it never wanted to exit, as it does not in the end. -/
private theorem sessionLoop_bytes {bytes : List Byte} {st st' : Sys ω} {last last' : HostRead}
    (h : sessionLoop env exitRequested (bytes.map .byte ++ [.eof]) st last = some (st', last'))
    (hexit : exitRequested st'.io = false) :
    st' = (shInput env st bytes).1 ∧
      ∀ fed, fed <+: bytes → exitRequested (shInput env st fed).1.io = false := by
  induction bytes generalizing st last with
  | nil =>
    rw [List.map_nil, List.nil_append] at h
    unfold sessionLoop at h
    split_ifs at h with hst
    · obtain ⟨rfl, rfl⟩ := Prod.mk.inj (Option.some.inj h)
      exact absurd hst (by simp [hexit])
    · obtain ⟨rfl, rfl⟩ := Prod.mk.inj (Option.some.inj h)
      refine ⟨rfl, fun fed hfed => ?_⟩
      rw [List.prefix_nil.mp hfed]
      exact hexit
  | cons b bytes ih =>
    rw [List.map_cons, List.cons_append] at h
    unfold sessionLoop at h
    split_ifs at h with hst
    · obtain ⟨rfl, rfl⟩ := Prod.mk.inj (Option.some.inj h)
      exact absurd hst (by simp [hexit])
    · obtain ⟨hall, hnone⟩ := ih h
      have hfirst : ∀ fed, (shInput env st (b :: fed)).1 =
          (shInput env (shInputByte env st b).1 fed).1 := by
        intro fed
        rw [shInput_fst, shInput_fst, List.foldl_cons]
      refine ⟨hall.trans (hfirst bytes).symm, ?_⟩
      intro fed hfed
      cases fed with
      | nil => exact (Bool.not_eq_true _).mp hst
      | cons c fed =>
        obtain ⟨rfl, hrest⟩ := List.cons_prefix_cons.mp hfed
        rw [hfirst]
        exact hnone fed hrest

/-- **Keys do the same in a Windows console and in a POSIX terminal**: whatever else the console
reports, however often the reads are interrupted, the two input loops end in the same system, with
the same last status, or both still wait. -/
theorem hosts_agree {W : Type} {os : WindowsSystem W} {w : W}
    (hopen : (windowsOpen os w).2.2 = .success)
    (hconsole : (windowsOpen os w).2.1.inputIsConsole = true) {toUtf8 : WideCharToMultiByte}
    (hconvert : ConvertsCharacters toUtf8) {console : List ConsoleRead}
    (hquiet : .failed ∉ console) {terminal : PosixTerminal} (hopened : terminal.opened = true)
    {reads : List PosixRead}
    (hreads : reads.filterMap PosixRead.result =
      ((pressedKeys none console).flatMap HostKey.bytes).map .byte)
    (file : List FileRead) (st : Sys ω) {n : ℕ}
    (hn : ((pressedKeys none console).flatMap HostKey.bytes).length < n) :
    (hostLoop env exitRequested (windowsReadByte toUtf8) n st
        ⟨(windowsOpen os w).2.1, console, file⟩ .eof).map (fun r => (r.1, r.2.2)) =
      (hostLoop env exitRequested posixReadByte n st ⟨terminal, reads⟩ .eof).map
        (fun r => (r.1, r.2.2)) := by
  have hwindows := windowsOpen_yields hopen hconsole hconvert console file
  have hposix := posixReadByte_yields (s := ⟨terminal, reads⟩) hopened
  have hlength :
      (((pressedKeys none console).flatMap HostKey.bytes).map HostRead.byte).length < n := by
    rw [List.length_map]
    exact hn
  rw [delivered_eq_keys hquiet] at hwindows
  rw [hreads] at hposix
  rw [hostLoop_eq_session hwindows hlength, hostLoop_eq_session hposix hlength]

/-- A system with a small shell that has an output callback. -/
def hostSys {ω : Type} (io : ω) : Sys ω :=
  ⟨{ smallShell with cfg := { smallShell.cfg with write := some 1 } }, io, [], []⟩

/-- The keys of a small console, and the same bytes with interruptions. -/
theorem hosts_agree_small :
    (hostLoop idleEnv (fun _ => false) (windowsReadByte exactConverter) 12 (hostSys ())
        ⟨(windowsOpen smallWindows smallModes).2.1, smallConsole, []⟩ .eof).map
          (fun r => (r.1, r.2.2)) =
      (hostLoop idleEnv (fun _ => false) posixReadByte 12 (hostSys ())
        ⟨⟨0, ⟨0, 0, 0, 0, []⟩, false, true⟩,
          .interrupted :: ([esc, chr '[', chr 'A', esc, chr '[', chr 'A'].map .byte ++
            [.interrupted, .interrupted] ++ [0xf0, 0x9f, 0x98, 0x80, chr '\r'].map .byte)⟩
        .eof).map (fun r => (r.1, r.2.2)) :=
  hosts_agree (by decide) (by decide) exactConverter_converts (by decide) rfl (by decide) []
    (hostSys ()) (by decide)

/-! ## Modes -/

/-- The input loop keeps a property of the world and what the terminal remembers.

**Proof sketch.** Induction on the budget. A read keeps what the terminal remembers, and a byte that
is fed keeps the modes, as commands and output do. -/
private theorem hostLoop_keeps {port : HostPort T ω} {modes : ω → M} {Saved : M → M → T → Prop}
    (hport : port.Restores modes Saved) (henv : ∀ m, KeepsWorld env fun io => modes io = m)
    {m m' : M} {n : ℕ} {st st' : Sys ω} {t t' : T} {last last' : HostRead} (hst : modes st.io = m')
    (hsaved : Saved m m' t)
    (h : hostLoop env exitRequested port.readByte n st t last = some (st', t', last')) :
    modes st'.io = m' ∧ Saved m m' t' := by
  induction n generalizing st t last with
  | zero => cases h
  | succ n ih =>
    unfold hostLoop at h
    split_ifs at h
    · cases h
      exact ⟨hst, hsaved⟩
    · cases hread : port.readByte t with
      | none =>
        rw [hread] at h
        cases h
      | some found =>
        obtain ⟨t₁, r⟩ := found
        have hnext := hport.read m m' t t₁ r hsaved hread
        rw [hread] at h
        cases r with
        | byte b => exact ih ((henv m').shInputByte hst b) hnext h
        | eof =>
          cases h
          exact ⟨hst, hnext⟩
        | error =>
          cases h
          exact ⟨hst, hnext⟩

/-- **The modes behind the program** are those before it, unless closing fails.

**Proof sketch.** Along the program: opening changes the modes to what is remembered, starting, the
loop and stopping keep them, and closing sets them back. The exit codes name the two failures that
are excluded. -/
theorem HostPort.Restores.hostInteractive {port : HostPort T ω} {modes : ω → M}
    {Saved : M → M → T → Prop} (hport : port.Restores modes Saved)
    (henv : ∀ m, KeepsWorld env fun io => modes io = m) {n code : ℕ} {st st' : Sys ω}
    (h : PortableShell.hostInteractive env exitRequested port n st = some (st', code))
    (hstart : code ≠ 4) (hclose : code ≠ 7) : modes st'.io = modes st.io := by
  unfold PortableShell.hostInteractive at h
  dsimp only at h
  split_ifs at h with hopen hstarted
  · cases h
    exact hport.open_error st.io hopen
  · cases h
    exact absurd rfl hstart
  · have hsaved := hport.open_success st.io (not_not.mp hopen)
    have hio : modes (shStart env { st with io := (port.open st.io).1 }).1.io =
        modes (port.open st.io).1 := (henv (modes (port.open st.io).1)).shStart rfl
    cases hloop : hostLoop env exitRequested port.readByte n
        (shStart env { st with io := (port.open st.io).1 }).1 (port.open st.io).2.1 .eof with
    | none =>
      rw [hloop] at h
      cases h
    | some found =>
      obtain ⟨st₁, t, last⟩ := found
      obtain ⟨hmodes, hsaved'⟩ := hostLoop_keeps hport henv hio hsaved hloop
      have hstop := (henv (modes (port.open st.io).1)).backendFlush st₁.sh.cfg hmodes
      rw [hloop] at h
      dsimp only at h
      split_ifs at h with hfail
      · cases h
        exact absurd rfl hclose
      all_goals
        cases h
        exact hport.close _ _ t (hstop ▸ hsaved') (not_not.mp hfail)

/-- Application code that does nothing, over any world. -/
def quietEnv (ω : Type) : Env ω where
  output := fun _ _ io _ => io
  transport := fun _ => ⟨none, none⟩
  shouldMaskArg := fun _ _ _ _ _ => false
  handler := fun _ _ _ _ _ => ([], Status.ok)
  completion := fun _ _ _ _ _ _ => ([], none)

/-- It keeps everything. -/
private theorem quietEnv_keepsWorld (P : ω → Prop) : KeepsWorld (quietEnv ω) P where
  output := fun _ _ _ _ h => h
  write := nofun
  flush := nofun
  handler := nofun
  completion := nofun

/-- **POSIX**: the same for terminal modes. -/
theorem posix_modes_restored {τ : Type} [DecidableEq τ] {os : PosixSystem ω}
    {terminal : ℕ → τ} (hos : os.Lawful terminal)
    (henv : ∀ m, KeepsWorld env fun io => os.tcgetattr io = m) (reads : List PosixRead)
    {n code : ℕ} {st st' : Sys ω}
    (h : hostInteractive env exitRequested (posixPort os reads) n st = some (st', code))
    (hstart : code ≠ 4) (hclose : code ≠ 7) : os.tcgetattr st'.io = os.tcgetattr st.io :=
  (posixPort_restores hos reads).hostInteractive henv h hstart hclose

/-- A system with a terminal behind the three standard descriptors: the world is its mode. -/
def smallPosix : PosixSystem Termios where
  constants := ⟨0x2, 0x100, 0x10, 0x20, 0x400, 0x1, 0x30, 0x8, 0x2, 0x8000, 0x1, 6, 5, 32⟩
  tcgetattr := fun w fd => if fd ≤ 2 then .ok w else .error .notATty
  tcsetattr := fun w fd mode => if fd ≤ 2 then (mode, true) else (w, false)

/-- A mode is set as a whole. -/
private theorem smallPosix_set {w mode : Termios} {fd : ℕ}
    (hset : (smallPosix.tcsetattr w fd mode).2 = true) :
    smallPosix.tcgetattr (smallPosix.tcsetattr w fd mode).1 =
      setTerminal (fun fd => decide (fd ≤ 2)) (smallPosix.tcgetattr w) fd (.ok mode) := by
  dsimp only [smallPosix] at hset ⊢
  split_ifs at hset ⊢ with hfd
  funext fd'
  rw [setTerminal, decide_eq_true hfd]
  by_cases hfd' : fd' ≤ 2
  · rw [if_pos hfd', if_pos (decide_eq_true hfd')]
  · rw [if_neg hfd', if_neg (by simpa using hfd'), if_neg hfd']

/-- The small system keeps the promises. -/
private theorem smallPosix_lawful : smallPosix.Lawful fun fd => decide (fd ≤ 2) where
  shared := by
    intro w fd fd' hsame
    have hiff : fd ≤ 2 ↔ fd' ≤ 2 := decide_eq_decide.mp hsame
    dsimp only [smallPosix]
    rw [if_congr hiff rfl rfl]
  set_success := fun w fd mode hset => ⟨mode, smallPosix_set hset⟩
  set_failure := by
    intro w fd mode hset
    dsimp only [smallPosix] at hset ⊢
    split_ifs at hset ⊢
    rfl
  set_back := fun w w' fd mode _ hset => smallPosix_set hset

/-- A terminal whose input ends behind a byte. -/
theorem posix_modes_restored_small :
    ∃ st', hostInteractive (quietEnv _) (fun _ => false)
        (posixPort smallPosix [.byte (chr 'l'), .interrupted, .endOfFile]) 3
        (hostSys (⟨0x500, 0x5, 0xbf, 0x8a3b, List.replicate 32 0⟩ : Termios)) = some (st', 0) ∧
      smallPosix.tcgetattr st'.io =
        smallPosix.tcgetattr ⟨0x500, 0x5, 0xbf, 0x8a3b, List.replicate 32 0⟩ := by
  have hrun : hostInteractive (quietEnv _) (fun _ => false)
      (posixPort smallPosix [.byte (chr 'l'), .interrupted, .endOfFile]) 3
      (hostSys (⟨0x500, 0x5, 0xbf, 0x8a3b, List.replicate 32 0⟩ : Termios)) = some (_, 0) := rfl
  exact ⟨_, hrun, posix_modes_restored smallPosix_lawful (fun _ => quietEnv_keepsWorld _) _ hrun
    (by decide) (by decide)⟩

/-! ## Scripts -/

/-- Input in two pieces. -/
private theorem shInput_fst_append (st : Sys ω) (a b : List Byte) :
    (shInput env st (a ++ b)).1 = (shInput env (shInput env st a).1 b).1 := by
  rw [shInput_fst, shInput_fst, shInput_fst, List.foldl_append]

variable (env exitRequested) in
/-- Of a file the bytes are fed up to the end of some block; if some are left out, the application
has asked to exit.

**Proof sketch.** Strong induction on the length of the file. A block is fed and the rest is
shorter; two calls of `sh_input` for two parts are one for both. -/
theorem scriptLoop_prefix (bytes : List Byte) (st : Sys ω) :
    ∃ fed, fed <+: bytes ∧
      scriptLoop env exitRequested false st bytes false = ((shInput env st fed).1, false) ∧
      (fed ≠ bytes → exitRequested (shInput env st fed).1.io = true) := by
  induction hlength : bytes.length using Nat.strong_induction_on generalizing bytes st with
  | _ n ih =>
    rw [scriptLoop]
    simp only [Bool.false_and, Bool.or_false]
    split_ifs with hexit hnil
    · exact ⟨[], List.nil_prefix, rfl, fun _ => hexit⟩
    · exact ⟨[], List.nil_prefix, rfl, fun hne => absurd hnil.symm hne⟩
    · have hsplit := List.take_append_drop scriptBlock bytes
      have hpos : 0 < bytes.length := List.length_pos_of_ne_nil hnil
      have hshorter : (bytes.drop scriptBlock).length < n := by
        rw [List.length_drop, scriptBlock]
        omega
      obtain ⟨fed, hbegin, hloop, hleft⟩ := ih _ hshorter (bytes.drop scriptBlock)
        (shInput env st (bytes.take scriptBlock)).1 rfl
      refine ⟨bytes.take scriptBlock ++ fed, ?_, ?_, ?_⟩
      · conv_rhs => rw [← hsplit]
        exact (List.prefix_append_right_inj _).mpr hbegin
      · rw [hloop, shInput_fst_append]
      · intro hne
        rw [shInput_fst_append]
        refine hleft fun heq => hne ?_
        rw [heq, hsplit]

/-- A file of an application that does not ask to exit is fed whole. -/
private theorem scriptLoop_eq {bytes : List Byte} {st : Sys ω}
    (hexit : ∀ fed, fed <+: bytes → exitRequested (shInput env st fed).1.io = false) :
    scriptLoop env exitRequested false st bytes false = ((shInput env st bytes).1, false) := by
  obtain ⟨fed, hbegin, hloop, hleft⟩ := scriptLoop_prefix env exitRequested bytes st
  have hall : fed = bytes := by
    by_contra hne
    exact absurd (hleft hne) (by rw [hexit fed hbegin]; exact Bool.false_ne_true)
  rw [hloop, hall]

/-- **A script does what its bytes do when they are typed**: if the input loop ends at the end of
these bytes, `run_script` leaves the same system, but for a line that is left over, which it
enters. -/
theorem script_as_typed {read : T → Option (T × HostRead)} {t t' : T} {bytes : List Byte}
    (ht : Yields read (bytes.map .byte ++ [.eof]) t) {n : ℕ} (hn : bytes.length + 1 < n)
    {st st' : Sys ω} {last : HostRead}
    (h : hostLoop env exitRequested read n st t .eof = some (st', t', last))
    (hexit : exitRequested st'.io = false) :
    runScript env exitRequested st (some ⟨bytes, false⟩) =
      if st'.sh.lineLen ≠ 0 then ((shInputByte env st' (chr '\n')).1, 0) else (st', 0) := by
  have hlength : (bytes.map HostRead.byte ++ [HostRead.eof]).length < n := by
    rw [List.length_append, List.length_map, List.length_singleton]
    exact hn
  have hsession : (hostLoop env exitRequested read n st t .eof).map (fun r => (r.1, r.2.2)) =
      sessionLoop env exitRequested (bytes.map .byte ++ [.eof]) st .eof :=
    hostLoop_eq_session ht hlength st .eof
  rw [h] at hsession
  obtain ⟨rfl, hnone⟩ := sessionLoop_bytes hsession.symm hexit
  unfold runScript
  dsimp only
  rw [scriptLoop_eq hnone, if_neg Bool.false_ne_true]
  simp only [hexit, Bool.false_eq_true, not_false_eq_true, and_true]

/-- The bytes of a command, without a line ending, and the end of the input. -/
def smallScript : PosixInput :=
  ⟨⟨0, ⟨0, 0, 0, 0, []⟩, false, true⟩, [.byte (chr 'l'), .byte (chr 'e'), .byte (chr 'd'),
    .endOfFile]⟩

/-- A file of this command. -/
theorem script_as_typed_small :
    runScript idleEnv (fun _ => false) (hostSys ()) (some ⟨ascii "led", false⟩) =
      if (shInput idleEnv (hostSys ()) (ascii "led")).1.sh.lineLen ≠ 0 then
        ((shInputByte idleEnv (shInput idleEnv (hostSys ()) (ascii "led")).1 (chr '\n')).1, 0)
      else ((shInput idleEnv (hostSys ()) (ascii "led")).1, 0) := by
  have hterminal : Yields posixReadByte ((ascii "led").map .byte ++ [.eof]) smallScript :=
    posixReadByte_yields (rfl : smallScript.terminal.opened = true)
  have hloop : hostLoop idleEnv (fun _ => false) posixReadByte 5 (hostSys ()) smallScript .eof =
      some ((shInput idleEnv (hostSys ()) (ascii "led")).1, { smallScript with reads := [] },
        .eof) := rfl
  exact script_as_typed hterminal (by decide) hloop rfl

end PortableShell
