import PortableShell.Handler
import PortableShell.Tokenizer

set_option relaxedAutoImplicit false
set_option autoImplicit false

/-!
# The displayed line

Echo masking in `sh_shell.c`. The displayed line is a copy of the editor line in which the bytes
of secret tokens are replaced by `*`. The line is tokenized to find out which tokens are secret,
and scanned a second time to find out where in the unparsed line they lie.

## Main definitions

* `PortableShell.rawTokenSpan`, `unmatchedQuote` — the scanners of the unparsed line.
* `PortableShell.tokenMasked` — whether a token is secret.
* `PortableShell.buildDisplayLine` — `build_display_line`.
* `PortableShell.shRedrawLineInternal` — `sh_redraw_line_internal`.

## Main results

* `PortableShell.buildDisplayLine_length` — the displayed line is as long as the editor line.
-/

namespace PortableShell

variable {ω : Type}

/-! ## Scanning the unparsed line -/

/-- The variables `quote` and `escaped` of the scanners. -/
structure RawScan where
  quote : Byte
  escaped : Bool
  deriving DecidableEq

namespace RawScan

/-- Outside any quotation. -/
def initial : RawScan := ⟨0, false⟩

/-- One byte of the scanners. -/
def step (s : RawScan) (c : Byte) : RawScan :=
  if s.escaped then { s with escaped := false }
  else if c = backslash then { s with escaped := true }
  else if s.quote ≠ 0 then if c = s.quote then { s with quote := 0 } else s
  else if isQuote c then { s with quote := c }
  else s

end RawScan

/-- `unmatched_quote`. -/
def unmatchedQuote (line : CStr) : Byte := (line.bytes.foldl RawScan.step .initial).quote

/-- The inner loop of `raw_token_span`: the word at the start of the bytes from `index` on. It
ends at whitespace that is neither quoted nor escaped. The result is the index behind it, the
bytes from there on and the scanner variables. -/
def rawWordEnd : List Byte → ℕ → RawScan → ℕ × List Byte × RawScan
  | [], index, scan => (index, [], scan)
  | c :: rest, index, scan =>
    if scan.escaped = false ∧ scan.quote = 0 ∧ isspace c then (index, c :: rest, scan)
    else rawWordEnd rest (index + 1) (scan.step c)

/-- The outer loop of `raw_token_span` at the bytes from `index` on, with `token` words behind
it. -/
def rawTokenSpanLoop (tokenIndex : ℕ) : ℕ → List Byte → ℕ → ℕ → RawScan → Option (ℕ × ℕ)
  | 0, _, _, _, _ => none
  | n + 1, rest, index, token, scan =>
    let start := index + (rest.takeWhile isspace).length
    let word := rest.dropWhile isspace
    if word = [] then none
    else
      let stop := rawWordEnd word start scan
      if token = tokenIndex then some (start, stop.1)
      else rawTokenSpanLoop tokenIndex n stop.2.1 stop.1 (token + 1) stop.2.2

/-- `raw_token_span`: the start of a word and the index behind it. -/
def rawTokenSpan (line : CStr) (tokenIndex : ℕ) : Option (ℕ × ℕ) :=
  rawTokenSpanLoop tokenIndex (line.length + 1) line.bytes 0 0 .initial

/-! ## Masking -/

/-- The text of the editor line, as the buffer holds it. -/
def Shell.text (s : Shell) : List Byte := s.line.take s.lineLen

/-- The contents of the line buffer as a string. -/
def Shell.lineStr (s : Shell) : CStr := CStr.at s.line 0

/-- The `parse` copy of `build_display_line` after `sh_tokenize`, with an open quotation
completed. -/
def parseDisplayed (s : Shell) : TokenizeResult :=
  let r := shTokenize (s.text ++ [0]) s.argvCapacity
  if r.status = Status.errUnterminatedQuote ∧ s.lineLen + 1 < shMaxLineLen + 2 then
    let quote := unmatchedQuote s.lineStr
    if quote ≠ 0 then shTokenize (s.text ++ [quote, 0]) s.argvCapacity else r
  else r

/-- Whether a token is kept from the display and from the history: it is payload of a sensitive
command or the application says so. -/
def tokenMasked (env : Env ω) (cfg : Config) (r : Resolved) (i : ℕ) (arg : CStr) : Bool :=
  (r.cmd.any fun cmd => cmd.sensitive && decide (r.consumed ≤ i)) ||
    cfg.shouldMaskArg.any fun f => env.shouldMaskArg f r.path i arg cfg.maskCtx

/-- The byte shown for a secret. -/
def star : Byte := chr '*'

/-- The loop of `build_display_line` over the bytes of one span. -/
def starSpan (display : List Byte) (start stop : ℕ) : List Byte :=
  display.mapIdx fun pos c => if start ≤ pos ∧ pos < stop ∧ isQuote c = false then star else c

/-- One round of the loop of `build_display_line` over the tokens. -/
def maskToken (env : Env ω) (s : Shell) (r : Resolved) (argv : List CStr) (display : List Byte)
    (i : ℕ) : List Byte :=
  if tokenMasked env s.cfg r i (argv.getD i CStr.empty) then
    match rawTokenSpan s.lineStr i with
    | none => display
    | some (start, stop) => starSpan display start stop
  else display

/-- `build_display_line`: the bytes before the terminator. -/
def buildDisplayLine (env : Env ω) (s : Shell) (displaySize : ℕ) : List Byte :=
  let len := if s.lineLen ≥ displaySize then displaySize - 1 else s.lineLen
  let display := s.line.take len
  let parsed := parseDisplayed s
  if parsed.status ≠ Status.ok ∨ parsed.argv = [] then display
  else
    let argv := parsed.texts
    (List.range argv.length).foldl
      (maskToken env s (shResolveCommandInternal s argv) argv) display

/-- The size of the buffers for the displayed line. -/
def displaySize : ℕ := shMaxLineLen + 1

/-! ## Redrawing -/

variable (env : Env ω)

/-- The sequence that moves the cursor back from the end of the line. -/
def cursorTexts (s : Shell) : List (List Byte) :=
  if s.cfg.ansiEnabled ∧ s.cursor < s.lineLen then
    [vprintfBytes (ascii "\x1b[" ++ fmtUnsigned (s.lineLen - s.cursor) ++ ascii "D")]
  else []

/-- The writes of `sh_redraw_line_internal`. -/
def redrawTexts (s : Shell) : List (List Byte) :=
  [(if s.cfg.ansiEnabled then str "\r\x1b[2K" else str "\r\n").bytes, s.cfg.promptText.bytes,
    (CStr.at (buildDisplayLine env s displaySize ++ [0]) 0).bytes] ++ cursorTexts s

/-- The reads of the line buffer when the displayed line is built: its text and, by the scanners,
the bytes up to the terminator. -/
def touchDisplay (st : Sys ω) : Sys ω :=
  (st.touch .line st.sh.lineLen).touch .line (st.sh.lineStr.length + 1)

/-- `sh_redraw_line_internal`. -/
def shRedrawLineInternal (st : Sys ω) : Sys ω :=
  if st.sh.echoEnabled then writes env (touchDisplay st) (redrawTexts env st.sh) else st

/-- Masking a span keeps the length. -/
@[simp] theorem length_starSpan (display : List Byte) (start stop : ℕ) :
    (starSpan display start stop).length = display.length := List.length_mapIdx

/-- Masking a token keeps the length. -/
@[simp] theorem length_maskToken (s : Shell) (r : Resolved) (argv : List CStr)
    (display : List Byte) (i : ℕ) : (maskToken env s r argv display i).length = display.length := by
  rw [maskToken]
  split_ifs
  · cases rawTokenSpan s.lineStr i with
    | none => rfl
    | some span => exact length_starSpan _ _ _
  · rfl

/-- The displayed line is as long as the editor line. -/
theorem buildDisplayLine_length {s : Shell} {size : ℕ} (hsize : s.lineLen < size)
    (hline : s.lineLen ≤ s.line.length) : (buildDisplayLine env s size).length = s.lineLen := by
  have hcopy : (s.line.take s.lineLen).length = s.lineLen := by
    rw [List.length_take, Nat.min_eq_left hline]
  rw [buildDisplayLine, if_neg (show ¬s.lineLen ≥ size by omega)]
  dsimp only
  split_ifs with h
  · exact hcopy
  · refine List.foldlRecOn (motive := fun display : List Byte => display.length = s.lineLen) _ _
      hcopy ?_
    intro display hd i _
    rw [length_maskToken, hd]

@[simp] theorem touchDisplay_sh (st : Sys ω) : (touchDisplay st).sh = st.sh := rfl

@[simp] theorem touchDisplay_io (st : Sys ω) : (touchDisplay st).io = st.io := rfl

@[simp] theorem touchDisplay_trace (st : Sys ω) : (touchDisplay st).trace = st.trace := rfl

@[simp] theorem shRedrawLineInternal_sh (st : Sys ω) :
    (shRedrawLineInternal env st).sh = st.sh := by
  rw [shRedrawLineInternal]
  split_ifs
  · rw [writes_sh, touchDisplay_sh]
  · rfl

end PortableShell
