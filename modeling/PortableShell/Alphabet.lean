import PortableShell.Execute

set_option relaxedAutoImplicit false
set_option autoImplicit false

/-!
# What texts are made of

A terminal obeys the control bytes it is sent, so it matters which bytes can get into a text. This
file follows the bytes through the functions that make texts: the tokenizer and the functions that
build the displayed line and the history line take them from the line, and what they add themselves
can be printed. What bytes an application uses is its own affair: those of its names can get into
the line and from there to handlers, those of its help texts and its prompt are only shown.

## Main definitions

* `PortableShell.Alphabet` — a set of bytes with the printable characters.
* `PortableShell.Alphabet.Over` — all bytes of a text are in the alphabet.
* `PortableShell.Vocabulary` — the bytes that a shell keeps and those that it shows.
* `PortableShell.Cmd.Over` — the texts of a command and of all commands below it are of these.

## Main results

* `PortableShell.over_texts_shTokenize` — the tokens of a line over an alphabet.
* `PortableShell.over_buildHistoryLine`, `over_buildDisplayLine` — the texts made of a line.
* `PortableShell.over_helpTexts` — what `help` prints.
-/

namespace PortableShell

/-! ## Alphabets -/

/-- A character that a key types. -/
def isPrintable (b : Byte) : Bool := decide (32 ≤ b) && decide (b < 127)

/-- Such a character, or a byte that ends a line of output. -/
def isPlain (b : Byte) : Bool := isPrintable b || decide (b = chr '\r') || decide (b = chr '\n')

/-- A printable character is plain. -/
private theorem isPlain_of_printable {b : Byte} (h : isPrintable b = true) : isPlain b = true := by
  rw [isPlain, h]
  rfl

/-- A set of bytes that texts are made of. -/
structure Alphabet where
  letters : Set Byte
  printable_mem : ∀ b, isPrintable b = true → b ∈ letters

namespace Alphabet

variable {A : Alphabet}

/-- All bytes of a text are in the alphabet. -/
def Over (A : Alphabet) (text : List Byte) : Prop := ∀ b ∈ text, b ∈ A.letters

/-- A memory block holds bytes of the alphabet and NUL bytes. -/
def OverCells (A : Alphabet) (m : List Byte) : Prop := ∀ b ∈ m, b = 0 ∨ b ∈ A.letters

@[simp] theorem over_nil : A.Over [] := fun _ h => absurd h List.not_mem_nil

@[simp] theorem over_cons {b : Byte} {text : List Byte} :
    A.Over (b :: text) ↔ b ∈ A.letters ∧ A.Over text := List.forall_mem_cons

@[simp] theorem over_append {a b : List Byte} : A.Over (a ++ b) ↔ A.Over a ∧ A.Over b :=
  List.forall_mem_append

/-- A part of a text. -/
theorem Over.subset {a b : List Byte} (h : A.Over b) (hsub : a ⊆ b) : A.Over a :=
  fun c hc => h c (hsub hc)

/-- The first bytes of a text. -/
theorem Over.take {text : List Byte} (h : A.Over text) (n : ℕ) : A.Over (text.take n) :=
  h.subset (List.take_subset n text)

/-- The bytes behind the first ones. -/
theorem Over.drop {text : List Byte} (h : A.Over text) (n : ℕ) : A.Over (text.drop n) :=
  h.subset (List.drop_subset n text)

/-- A text of printable characters. -/
private theorem over_of_printable {text : List Byte} (h : text.all isPrintable = true) :
    A.Over text :=
  fun b hb => A.printable_mem b (List.all_eq_true.mp h b hb)

/-- A repeated byte. -/
theorem over_replicate {b : Byte} (h : b ∈ A.letters) (n : ℕ) : A.Over (List.replicate n b) :=
  fun _ hc => (List.eq_of_mem_replicate hc) ▸ h

/-- The string that a block holds at an offset. -/
theorem OverCells.at {m : List Byte} (h : A.OverCells m) (off : ℕ) :
    A.Over (CStr.at m off).bytes := by
  intro b hb
  have hzero : b ≠ 0 := fun hz => (CStr.at m off).nonzero (hz ▸ hb)
  have hmem : b ∈ m := by
    rw [CStr.at_bytes, Mem.upto] at hb
    exact List.mem_of_mem_drop ((List.takeWhile_prefix _).subset hb)
  exact (h b hmem).resolve_left hzero

/-- A text is a block. -/
theorem Over.cells {text : List Byte} (h : A.Over text) : A.OverCells text :=
  fun b hb => .inr (h b hb)

/-- A text with its terminator is a block. -/
theorem Over.cells_zero {text : List Byte} (h : A.Over text) : A.OverCells (text ++ [0]) := by
  intro b hb
  rcases List.mem_append.mp hb with hb | hb
  · exact .inr (h b hb)
  · exact .inl (List.mem_singleton.mp hb)

/-- A cell of a block. -/
theorem OverCells.cell {m : List Byte} (h : A.OverCells m) (i : ℕ) :
    cell m i = 0 ∨ cell m i ∈ A.letters := by
  unfold PortableShell.cell
  rw [List.getD_eq_getElem?_getD]
  cases hi : m[i]? with
  | none => exact .inl rfl
  | some b => exact h b (List.mem_of_getElem? hi)

/-- A block with a byte stored in it. -/
theorem OverCells.store {m : List Byte} (h : A.OverCells m) (off : ℕ) {c : Byte}
    (hc : c = 0 ∨ c ∈ A.letters) : A.OverCells (Mem.store m off [c]) := by
  intro b hb
  rw [Mem.store] at hb
  have hparts := List.mem_of_mem_take hb
  simp only [List.mem_append, List.mem_singleton] at hparts
  rcases hparts with (hb | rfl) | hb
  · exact h b (List.mem_of_mem_take hb)
  · exact hc
  · exact h b (List.mem_of_mem_drop hb)

end Alphabet

variable {A : Alphabet}

/-! ## Formatted output -/

/-- A string literal of printable characters. -/
theorem over_str {s : String} (h : (ascii s).all isPrintable = true) : A.Over (str s).bytes :=
  (Alphabet.over_of_printable h).cells.at 0

/-- Shortening formatted output. -/
theorem over_vprintfBytes {text : List Byte} (h : A.Over text) : A.Over (vprintfBytes text) := by
  unfold vprintfBytes
  split_ifs
  · exact h.take 255
  · exact h

/-- A decimal digit is printable. -/
private theorem isPrintable_chr_digit {c : Char} (h : c.isDigit = true) :
    isPrintable (chr c) = true := by
  have hrange : 48 ≤ c.toNat ∧ c.toNat ≤ 57 := Char.isDigit_iff_toNat.mp h
  have hnat : (chr c).toNat = c.toNat := by
    rw [chr, UInt8.toNat_ofNat']
    omega
  have hspace : (32 : Byte).toNat = 32 := rfl
  have hdelete : (127 : Byte).toNat = 127 := rfl
  have hlow : (32 : Byte) ≤ chr c := by
    rw [UInt8.le_iff_toNat_le, hnat, hspace]
    omega
  have hhigh : chr c < (127 : Byte) := by
    rw [UInt8.lt_iff_toNat_lt, hnat, hdelete]
    omega
  rw [isPrintable, decide_eq_true hlow, decide_eq_true hhigh]
  rfl

/-- A number. -/
theorem over_fmtUnsigned (n : ℕ) : A.Over (fmtUnsigned n) := by
  refine Alphabet.over_of_printable (List.all_eq_true.mpr fun b hb => ?_)
  obtain ⟨c, hc, rfl⟩ := List.mem_map.mp hb
  exact isPrintable_chr_digit (Nat.isDigit_of_mem_toDigits (by decide) (by decide) hc)

/-- A name in its column. -/
private theorem over_fmtLeft14 {s : CStr} (h : A.Over s.bytes) : A.Over (fmtLeft14 s) :=
  Alphabet.over_append.mpr ⟨h, Alphabet.over_replicate (A.printable_mem 32 (by decide)) _⟩

/-! ## Tokens -/

/-- The loop over the bytes of one token moves bytes within the block. -/
private theorem overCells_tokenBody (n : ℕ) {m : List Byte} (h : A.OverCells m) (read write : ℕ)
    (quote : Byte) : A.OverCells (tokenBody n m read write quote).1 := by
  induction n generalizing m read write quote with
  | zero => exact h
  | succ n ih =>
    unfold tokenBody
    dsimp only
    split_ifs
    · exact h
    · exact h
    · exact h
    · exact ih (h.store _ (h.cell _)) _ _ _
    · exact ih h _ _ _
    · exact ih (h.store _ (h.cell _)) _ _ _
    · exact ih h _ _ _
    · exact ih (h.store _ (h.cell _)) _ _ _

/-- The loop over the tokens moves bytes within the block. -/
private theorem overCells_tokenizeLoop (cap n : ℕ) {m : List Byte} (h : A.OverCells m)
    (read write : ℕ) (argv : List ℕ) : A.OverCells (tokenizeLoop cap n m read write argv).mem := by
  induction n generalizing m read write argv with
  | zero => exact h
  | succ n ih =>
    unfold tokenizeLoop
    dsimp only
    have hbody := overCells_tokenBody m.length h (skipSpaces m.length m read) write 0
    revert hbody
    generalize tokenBody m.length m (skipSpaces m.length m read) write 0 = body
    intro hbody
    split_ifs
    · exact h
    · exact h
    · exact h
    · obtain ⟨m', read', write', quote⟩ := body
      cases quote with
      | none => exact hbody
      | some quote =>
        dsimp only
        split_ifs
        · exact hbody
        · exact ih (hbody.store _ (.inl rfl)) _ _ _

/-- **The tokens of a line** are made of bytes of the line. -/
theorem over_texts_shTokenize {line : List Byte} (h : A.OverCells line) (cap : ℕ) :
    ∀ t ∈ (shTokenize line cap).texts, A.Over t.bytes := by
  have hmem : A.OverCells (shTokenize line cap).mem := by
    unfold shTokenize
    split_ifs
    · exact h
    · exact overCells_tokenizeLoop cap _ h _ _ _
  intro t ht
  obtain ⟨off, -, rfl⟩ := List.mem_map.mp ht
  exact hmem.at off

/-! ## The displayed line -/

/-- Masking a span puts stars into a text. -/
private theorem over_starSpan {display : List Byte} (h : A.Over display) (start stop : ℕ) :
    A.Over (starSpan display start stop) := by
  intro b hb
  obtain ⟨i, hi, rfl⟩ := List.mem_mapIdx.mp hb
  split_ifs
  · exact A.printable_mem star (by decide)
  · exact h _ (List.getElem_mem hi)

/-- **The displayed line** is made of bytes of the line and of stars. -/
theorem over_buildDisplayLine {ω : Type} (env : Env ω) {s : Shell} (h : A.Over s.text) (size : ℕ) :
    A.Over (buildDisplayLine env s size) := by
  have hcopy : A.Over (s.line.take (if s.lineLen ≥ size then size - 1 else s.lineLen)) := by
    refine h.subset (List.take_subset_take_left s.line ?_)
    split_ifs <;> omega
  unfold buildDisplayLine
  dsimp only
  revert hcopy
  generalize s.line.take (if s.lineLen ≥ size then size - 1 else s.lineLen) = copy
  intro hcopy
  split_ifs
  · exact hcopy
  · refine List.foldlRecOn (motive := fun display : List Byte => A.Over display) _ _ hcopy ?_
    intro display hdisplay i _
    unfold maskToken
    split_ifs
    · cases rawTokenSpan s.lineStr i with
      | none => exact hdisplay
      | some span => exact over_starSpan hdisplay _ _
    · exact hdisplay

/-! ## The history line -/

/-- Appending a byte that fits. -/
private theorem over_appendChar {dst : List Byte} (h : A.Over dst) (size : ℕ) {c : Byte}
    (hc : c ∈ A.letters) : A.Over (appendChar dst size c) := by
  unfold appendChar
  split_ifs
  · exact Alphabet.over_append.mpr ⟨h, Alphabet.over_cons.mpr ⟨hc, Alphabet.over_nil⟩⟩
  · exact h

/-- Appending a token with its backslashes. -/
private theorem over_appendBytes {dst bytes : List Byte} (h : A.Over dst) (hbytes : A.Over bytes)
    (size : ℕ) : A.Over (appendBytes dst size bytes) := by
  refine List.foldlRecOn (motive := fun dst : List Byte => A.Over dst) _ _ h ?_
  intro dst hdst c hc
  refine over_appendChar ?_ size (hbytes c hc)
  split_ifs
  · exact over_appendChar hdst size (A.printable_mem backslash (by decide))
  · exact hdst

/-- Appending a token, in quotes if need be. -/
private theorem over_appendToken {dst : List Byte} (h : A.Over dst) (size : ℕ) {token : CStr}
    (ht : A.Over token.bytes) : A.Over (appendToken dst size token) := by
  have hquote : dquote ∈ A.letters := A.printable_mem dquote (by decide)
  have hspace : A.Over
      (if dst.length ≠ 0 ∧ dst.length + 1 < size then dst ++ [chr ' '] else dst) := by
    split_ifs
    · exact Alphabet.over_append.mpr ⟨h, Alphabet.over_of_printable (by decide)⟩
    · exact h
  unfold appendToken
  dsimp only
  revert hspace
  generalize (if dst.length ≠ 0 ∧ dst.length + 1 < size then dst ++ [chr ' '] else dst) = dst'
  intro hspace
  split_ifs
  · exact over_appendChar (over_appendBytes (over_appendChar hspace _ hquote) ht _) _ hquote
  · exact over_appendBytes hspace ht _

/-- **The history line** is made of bytes of the line, of quotes and of the text that stands for a
secret. -/
theorem over_buildHistoryLine {ω : Type} (env : Env ω) (s : Shell) {line : CStr} {argv : List CStr}
    (hline : A.Over line.bytes) (hargv : ∀ t ∈ argv, A.Over t.bytes) {entry : CStr}
    (hentry : buildHistoryLine env s line argv = some entry) : A.Over entry.bytes := by
  unfold buildHistoryLine at hentry
  dsimp only at hentry
  split_ifs at hentry
  · rw [← Option.some.inj hentry]
    exact hline.take _
  · rw [← Option.some.inj hentry]
    exact hline.take _
  · rw [← Option.some.inj hentry]
    refine Alphabet.OverCells.at (Alphabet.Over.cells_zero ?_) 0
    refine List.foldlRecOn (motive := fun out : List Byte => A.Over out) _ _ Alphabet.over_nil ?_
    intro out hout token htoken
    refine over_appendToken hout _ ?_
    obtain ⟨i, hi, rfl⟩ := List.mem_mapIdx.mp htoken
    split_ifs
    · exact over_str (by decide)
    · exact hargv _ (List.getElem_mem hi)

/-! ## The bytes of an application -/

/-- The bytes that an application uses: those of its command names and of the lines it executes,
which a shell keeps and hands on, and those of its help texts and prompt, which are only shown.
The ends of lines are among those that are shown. -/
structure Vocabulary where
  kept : Alphabet
  shown : Alphabet
  kept_subset : kept.letters ⊆ shown.letters
  plain_mem : ∀ b, isPlain b = true → b ∈ shown.letters

namespace Vocabulary

/-- The smallest one: printable characters are kept, and with the line ends they are shown. -/
def plain : Vocabulary where
  kept := ⟨{b | isPrintable b = true}, fun _ h => h⟩
  shown := ⟨{b | isPlain b = true}, fun _ h => isPlain_of_printable h⟩
  kept_subset := fun _ h => isPlain_of_printable h
  plain_mem := fun _ h => h

variable {V : Vocabulary}

/-- What is kept may be shown. -/
theorem over_shown {text : List Byte} (h : V.kept.Over text) : V.shown.Over text :=
  fun b hb => V.kept_subset (h b hb)

/-- A text of plain bytes may be shown. -/
theorem over_of_plain {text : List Byte} (h : text.all isPlain = true) : V.shown.Over text :=
  fun b hb => V.plain_mem b (List.all_eq_true.mp h b hb)

/-- A string literal of plain bytes may be shown. -/
theorem over_str {s : String} (h : (ascii s).all isPlain = true) : V.shown.Over (str s).bytes :=
  (over_of_plain h).cells.at 0

end Vocabulary

variable {V : Vocabulary}

/-! ## Commands -/

/-- All texts of an optional string. -/
def Alphabet.OverOption (A : Alphabet) (text : Option CStr) : Prop :=
  ∀ t, text = some t → A.Over t.bytes

/-- A string or the empty one. -/
theorem Alphabet.OverOption.getD {text : Option CStr} (h : A.OverOption text) :
    A.Over (text.getD CStr.empty).bytes := by
  cases text with
  | none => exact Alphabet.over_nil
  | some t => exact h t rfl

/-- The name of a command is kept, its other texts are shown, and so for all commands below it. -/
inductive Cmd.Over (V : Vocabulary) : Cmd → Prop
  | intro {cmd : Cmd} (name : V.kept.OverOption cmd.name) (usage : V.shown.OverOption cmd.usage)
      (help : V.shown.OverOption cmd.help)
      (subs : ∀ sub ∈ cmd.subcommands.cells, Cmd.Over V sub) :
      Cmd.Over V cmd

namespace Cmd.Over

variable {cmd : Cmd}

/-- The name of the command. -/
theorem name (h : cmd.Over V) : V.kept.OverOption cmd.name := by
  cases h with
  | intro name _ _ _ => exact name

/-- The usage of the command. -/
theorem usage (h : cmd.Over V) : V.shown.OverOption cmd.usage := by
  cases h with
  | intro _ usage _ _ => exact usage

/-- The help text of the command. -/
theorem help (h : cmd.Over V) : V.shown.OverOption cmd.help := by
  cases h with
  | intro _ _ help _ => exact help

/-- The commands below the command. -/
theorem subs (h : cmd.Over V) : ∀ sub ∈ cmd.subcommands.cells, sub.Over V := by
  cases h with
  | intro _ _ _ subs => exact subs

end Cmd.Over

/-- A command that was looked up. -/
theorem over_findChild {commands : List Cmd} (h : ∀ cmd ∈ commands, cmd.Over V) {name : CStr}
    {cmd : Cmd} (hfind : findChild commands name = some cmd) : cmd.Over V :=
  h cmd (List.mem_of_find?_eq_some hfind)

/-- A resolution finds a registered command, and its path consists of arguments.

**Proof sketch.** Induction on the arguments, along `resolveLoop`. A name that is found is an
argument and appended to the path, and the table below it consists of commands over the vocabulary
again. -/
theorem over_shResolveCommandInternal {s : Shell} (hroots : ∀ cmd ∈ s.roots, cmd.Over V)
    {argv : List CStr} (hargv : ∀ t ∈ argv, V.kept.Over t.bytes) :
    V.kept.Over (shResolveCommandInternal s argv).path.bytes ∧
      ∀ cmd, (shResolveCommandInternal s argv).cmd = some cmd → cmd.Over V := by
  have hloop : ∀ (argv : List CStr) (level : List Cmd) (r : Resolved),
      (∀ t ∈ argv, V.kept.Over t.bytes) → (∀ cmd ∈ level, cmd.Over V) → V.kept.Over r.path.bytes →
      (∀ cmd, r.cmd = some cmd → cmd.Over V) →
      V.kept.Over (resolveLoop (findChild level) r argv).path.bytes ∧
        ∀ cmd, (resolveLoop (findChild level) r argv).cmd = some cmd → cmd.Over V := by
    intro argv
    induction argv with
    | nil => exact fun _ _ _ _ hpath hcmd => ⟨hpath, hcmd⟩
    | cons name argv ih =>
      intro level r hargv hlevel hpath hcmd
      unfold resolveLoop
      cases hfind : findChild level name with
      | none => exact ⟨hpath, hcmd⟩
      | some next =>
        have hnext := over_findChild hlevel hfind
        refine ih _ _ (fun t ht => hargv t (List.mem_cons_of_mem _ ht)) hnext.subs ?_ ?_
        · have hname := hargv name List.mem_cons_self
          unfold appendPath
          refine Alphabet.Over.take (Alphabet.over_append.mpr ⟨?_, hname⟩) _
          split_ifs
          · exact hpath
          · exact Alphabet.over_append.mpr ⟨hpath, over_str (by decide)⟩
        · intro cmd heq
          exact Option.some.inj heq ▸ hnext
  have hroot : findRoot s = findChild s.roots := funext (findRoot_eq s)
  rw [shResolveCommandInternal, hroot]
  exact hloop argv s.roots ⟨none, 0, CStr.empty⟩ hargv hroots Alphabet.over_nil
    fun _ h => absurd h (Option.some_ne_none _).symm

/-! ## Help -/

/-- The lines of a list of commands. -/
private theorem over_commandListTexts {commands : List Cmd} (h : ∀ cmd ∈ commands, cmd.Over V) :
    ∀ text ∈ commandListTexts commands, V.shown.Over text := by
  intro text htext
  obtain ⟨cmd, hcmd, rfl⟩ := List.mem_map.mp htext
  have hover := h cmd (List.mem_of_mem_filter hcmd)
  refine over_vprintfBytes ?_
  simp only [Alphabet.over_append]
  exact ⟨⟨⟨⟨Vocabulary.over_of_plain (by decide),
    over_fmtLeft14 (Vocabulary.over_shown hover.name.getD)⟩,
    Vocabulary.over_of_plain (by decide)⟩, hover.help.getD⟩, Vocabulary.over_of_plain (by decide)⟩

/-- The lines of the root commands. -/
private theorem over_rootCommandListTexts {s : Shell} (h : ∀ cmd ∈ s.roots, cmd.Over V) :
    ∀ text ∈ rootCommandListTexts s, V.shown.Over text := by
  unfold rootCommandListTexts
  unfold Shell.roots at h
  cases hsets : s.commandSets with
  | none =>
    rw [hsets] at h
    exact over_commandListTexts h
  | some sets =>
    rw [hsets] at h
    intro text htext
    obtain ⟨set, hset, hmem⟩ := List.mem_flatMap.mp htext
    exact over_commandListTexts (fun cmd hcmd => h cmd (List.mem_flatMap.mpr ⟨set, hset, hcmd⟩))
      text hmem

/-- The line about the usage. -/
theorem over_usageTexts {usage : Option CStr} {path : CStr} (hu : V.shown.OverOption usage)
    (hp : V.shown.Over path.bytes) : ∀ text ∈ usageTexts usage path, V.shown.Over text := by
  unfold usageTexts
  cases usage with
  | none => exact fun _ h => absurd h List.not_mem_nil
  | some usage =>
    dsimp only
    split_ifs
    · exact fun _ h => absurd h List.not_mem_nil
    · intro text htext
      rw [List.mem_singleton.mp htext]
      refine over_vprintfBytes ?_
      simp only [Alphabet.over_append]
      exact ⟨⟨⟨⟨Vocabulary.over_of_plain (by decide), hp⟩, Vocabulary.over_of_plain (by decide)⟩,
        hu usage rfl⟩, Vocabulary.over_of_plain (by decide)⟩

/-- The line about the number of arguments. -/
private theorem over_arityTexts (cmd : Cmd) : ∀ text ∈ arityTexts cmd, V.shown.Over text := by
  intro text htext
  unfold arityTexts at htext
  split_ifs at htext
  · exact absurd htext List.not_mem_nil
  · rw [List.mem_singleton.mp htext]
    refine over_vprintfBytes ?_
    simp only [Alphabet.over_append]
    exact ⟨⟨Vocabulary.over_of_plain (by decide), over_fmtUnsigned _⟩,
      Vocabulary.over_of_plain (by decide)⟩
  · rw [List.mem_singleton.mp htext]
    refine over_vprintfBytes ?_
    simp only [Alphabet.over_append]
    exact ⟨⟨⟨⟨Vocabulary.over_of_plain (by decide), over_fmtUnsigned _⟩,
      Vocabulary.over_of_plain (by decide)⟩, over_fmtUnsigned _⟩,
      Vocabulary.over_of_plain (by decide)⟩

/-- **What `help` prints.**

**Proof sketch.** Every text of the page is a fixed one, or belongs to a command of the registry.
The parts of the page are taken from the back. -/
theorem over_helpTexts {s : Shell} (hroots : ∀ cmd ∈ s.roots, cmd.Over V) {cmd : Option Cmd}
    (hcmd : ∀ c, cmd = some c → c.Over V) {path : CStr} (hp : V.shown.Over path.bytes) :
    ∀ text ∈ helpTexts s cmd path, V.shown.Over text := by
  intro text htext
  unfold helpTexts at htext
  cases cmd with
  | none =>
    rcases List.mem_append.mp htext with hhead | hbuiltins
    · rcases List.mem_append.mp hhead with htitle | hlist
      · rw [List.mem_singleton.mp htitle]
        exact Vocabulary.over_str (by decide)
      · exact over_rootCommandListTexts hroots text hlist
    · split_ifs at hbuiltins
      · rw [List.mem_singleton.mp hbuiltins]
        exact Vocabulary.over_str (by decide +kernel)
      · exact absurd hbuiltins List.not_mem_nil
  | some cmd =>
    have hover := hcmd cmd rfl
    have hline : ∀ t, V.shown.Over t → V.shown.Over (vprintfBytes (t ++ ascii "\r\n")) := by
      intro t ht
      exact over_vprintfBytes (Alphabet.over_append.mpr ⟨ht, Vocabulary.over_of_plain (by decide)⟩)
    rcases List.mem_append.mp htext with hrest | hsubs
    · rcases List.mem_append.mp hrest with hrest | harity
      · rcases List.mem_append.mp hrest with hrest | hhelp
        · rcases List.mem_append.mp hrest with hpath | husage
          · rw [List.mem_singleton.mp hpath]
            exact hline _ hp
          · exact over_usageTexts hover.usage hp text husage
        · cases hsome : cmd.help with
          | none =>
            rw [hsome] at hhelp
            exact absurd hhelp List.not_mem_nil
          | some help =>
            rw [hsome] at hhelp
            dsimp only at hhelp
            split_ifs at hhelp
            · exact absurd hhelp List.not_mem_nil
            · rw [List.mem_singleton.mp hhelp]
              exact hline _ (hover.help help hsome)
      · exact over_arityTexts cmd text harity
    · split_ifs at hsubs
      · rcases List.mem_cons.mp hsubs with rfl | hlist
        · exact Vocabulary.over_str (by decide)
        · exact over_commandListTexts hover.subs text hlist
      · exact absurd hsubs List.not_mem_nil

end PortableShell
