import Mathlib.Algebra.BigOperators.Group.List.Basic
import Mathlib.Algebra.Ring.Int.Defs
import Mathlib.Algebra.Ring.Nat
import Mathlib.Logic.Relation
import PortableShell.Lib.Memory

set_option relaxedAutoImplicit false
set_option autoImplicit false

/-!
# Bytes and C strings

The text values of the shell: bytes, NUL-terminated strings and the few pieces of the C
library that the sources use on them (`isspace` in the "C" locale, `%u` and `%-14s`).

## Main definitions

* `PortableShell.CStr` — the contents of a C string. A NUL cannot occur in it, so a `CStr` is
  exactly what `strlen`, `strcmp` and `%s` see.
* `PortableShell.CStr.at` — the string that starts at an offset of a memory block.
* `PortableShell.isspace` — the whitespace of the "C" locale.
-/

namespace PortableShell

/-- One `char` or `unsigned char`. -/
abbrev Byte := UInt8

/-- The bytes of a source text, which is ASCII throughout. -/
def ascii (s : String) : List Byte := s.toList.map fun c => UInt8.ofNat c.toNat

/-- The byte of a character constant. -/
def chr (c : Char) : Byte := UInt8.ofNat c.toNat

/-- The contents of a C string: the bytes before its terminating NUL. -/
@[ext]
structure CStr where
  /-- The bytes, without the terminator. -/
  bytes : List Byte
  /-- No byte before the terminator is NUL. -/
  nonzero : 0 ∉ bytes
  deriving DecidableEq

namespace CStr

/-- The C string that starts at offset `off` of the block `m`. A block without a terminator is
read to its end. -/
def «at» (m : List Byte) (off : ℕ) : CStr := ⟨Mem.upto 0 (m.drop off), Mem.not_mem_upto 0 _⟩

/-- `strlen`. -/
def length (s : CStr) : ℕ := s.bytes.length

/-- The first `n` bytes of a string. -/
def take (n : ℕ) (s : CStr) : CStr :=
  ⟨s.bytes.take n, fun h => s.nonzero (List.mem_of_mem_take h)⟩

/-- Two strings in sequence. -/
def append (s t : CStr) : CStr :=
  ⟨s.bytes ++ t.bytes, fun h => (List.mem_append.mp h).elim s.nonzero t.nonzero⟩

/-- The empty string. -/
def empty : CStr := ⟨[], List.not_mem_nil⟩

/-- Whether the string is `""`. -/
def isEmpty (s : CStr) : Bool := s.bytes.isEmpty

/-- The bytes of a block up to its first NUL. -/
@[simp] theorem at_bytes (m : List Byte) (off : ℕ) : («at» m off).bytes = Mem.upto 0 (m.drop off) :=
  rfl

/-- The bytes of a prefix. -/
@[simp] theorem take_bytes (n : ℕ) (s : CStr) : (s.take n).bytes = s.bytes.take n := rfl

/-- The bytes of a concatenation. -/
@[simp] theorem append_bytes (s t : CStr) : (s.append t).bytes = s.bytes ++ t.bytes := rfl

/-- The empty string has no bytes. -/
@[simp] theorem empty_bytes : empty.bytes = [] := rfl

/-- The string read from a block that begins with its bytes and a NUL. -/
theorem at_zero_append (s : CStr) (r : List Byte) : CStr.at (s.bytes ++ 0 :: r) 0 = s :=
  CStr.ext (by simpa using Mem.upto_append s.nonzero)

/-- The string read from a block that holds it, terminated, at the given offset. -/
theorem at_append {p r : List Byte} {off : ℕ} (s : CStr) (h : p.length = off) :
    CStr.at (p ++ s.bytes ++ 0 :: r) off = s := by
  subst h
  refine CStr.ext ?_
  rw [at_bytes, List.append_assoc, List.drop_left, Mem.upto_append s.nonzero]

end CStr

/-- The string of a literal in the source. -/
def str (s : String) : CStr := CStr.at (ascii s) 0

/-- `isspace` in the "C" locale: the space and the bytes from `\t` to `\r`. -/
def isspace (c : Byte) : Bool := c = 32 || (9 ≤ c && c ≤ 13)

/-- The NUL is no whitespace. -/
@[simp] theorem isspace_zero : isspace 0 = false := by decide

/-- The conversion `%u` of an `unsigned` argument: the digits of the value modulo `2 ^ 32`. -/
def fmtUnsigned (n : ℕ) : List Byte := (Nat.toDigits 10 (n % 2 ^ 32)).map chr

/-- The conversion `%-14s`: the string, padded with spaces to 14 columns. -/
def fmtLeft14 (s : CStr) : List Byte := s.bytes ++ List.replicate (14 - s.length) 32

end PortableShell
