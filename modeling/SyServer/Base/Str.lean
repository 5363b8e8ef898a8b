import Mathlib.Tactic
import Mathlib.Data.List.GetD

/-! # Return codes, pointers and strings

The vocabulary shared by every module: the return codes of `util.h`, the assertions and wild
reads that end the worker (`Fault`), bytes, and the pointer-and-length strings of
`base/string.h`.

* **Pointers.** A `char*` is an object together with an offset into it.  The objects are the
  null object (so `NULL` is `(null, 0)`, and the code's `NULL + 1` is `(null, 1)`), the `data`
  array of the request's read buffer, and the string literals of the program.
* **Memory.** `Mem` gives the byte behind every pointer.  Positions past the end of an object
  have a byte too; the model never lets a result depend on one without saying so.
* **Strings.** `Str` is `sy_string_t`: a pointer and an `int` length.  The length is a bound for
  some functions (`stringHash`) and ignored by others (`stringCmp` runs to a NUL byte). -/

namespace SyServer

/-! ### Return codes and faults -/

/-- The return codes of `util.h`. -/
inductive Rc where
  | ok
  | again
  | emptyLine
  | closed
  | error
  | errInvalidRequest
  | errInvalidMethod
  | errInvalidVersion
  | errInternalError
  | errInvalidHeader
  | errInvalidUri
  | errUnsupportedVersion
  | errNomem
deriving DecidableEq, Repr

/-- How a worker dies: an `assert` that fails, or a read through a pointer to no object or to one
that was given back to its pool. -/
inductive Fault where
  | requestLineState
  | headerLineState
  | headerReturn
  | uriState
  | appendMargin
  | printMargin
  | statusRepr
  | errPage
  | bodyEncoding
  | fileWithUpstream
  | passLocation
  | heapEmpty
  | nullUpstream
  | wildRead
  | useAfterFree
deriving DecidableEq, Repr

/-! ### Bytes -/

/-- The bytes of a C string literal, without its NUL. -/
def bytes (s : String) : List UInt8 := s.toList.map Char.toUInt8

@[simp] abbrev cTab : UInt8 := 9
@[simp] abbrev cLf : UInt8 := 10
@[simp] abbrev cCr : UInt8 := 13
@[simp] abbrev cSp : UInt8 := 32
@[simp] abbrev cDash : UInt8 := 45
@[simp] abbrev cDot : UInt8 := 46
@[simp] abbrev cSlash : UInt8 := 47
@[simp] abbrev cColon : UInt8 := 58
@[simp] abbrev cQuestion : UInt8 := 63
@[simp] abbrev cUnderscore : UInt8 := 95

/-- `'A' ... 'Z'`. -/
def isUpper (c : UInt8) : Bool := 65 ≤ c && c ≤ 90
/-- `'a' ... 'z'`. -/
def isLower (c : UInt8) : Bool := 97 ≤ c && c ≤ 122
/-- `'0' ... '9'`. -/
def isDigit (c : UInt8) : Bool := 48 ≤ c && c ≤ 57
/-- `'A' ... 'Z'` or `'a' ... 'z'`. -/
def isAlpha (c : UInt8) : Bool := isUpper c || isLower c

/-- `*p - 'A' + 'a'`. -/
def toLower (c : UInt8) : UInt8 := c - 65 + 97

/-- The value of an `int` expression stored in 32 bits. -/
def wrap32 (z : ℤ) : ℤ := Int.bmod z (2 ^ 32)

theorem wrap32_range (n : ℤ) : -2 ^ 31 ≤ wrap32 n ∧ wrap32 n < 2 ^ 31 := by
  unfold wrap32
  have h1 := Int.le_bmod (x := n) (m := 2 ^ 32) (by decide)
  have h2 := Int.bmod_lt (x := n) (m := 2 ^ 32) (by decide)
  constructor
  · exact h1
  · exact h2

/-- An `int` is exact in its range. -/
theorem wrap32_of_lt {z : ℤ} (h0 : 0 ≤ z) (h : z < 2 ^ 31) : wrap32 z = z := by
  unfold wrap32
  rw [Int.bmod_def]
  norm_num
  split_ifs <;> omega

/-- It is negative in the upper half of each `2 ^ 32` numbers. -/
theorem wrap32_neg_iff {z : ℤ} : wrap32 z < 0 ↔ 2 ^ 31 ≤ z % 2 ^ 32 := by
  unfold wrap32
  rw [Int.bmod_def]
  norm_num
  split_ifs <;> omega

theorem wrap32_neg {z : ℤ} (h : 2 ^ 31 ≤ z) (h' : z < 2 ^ 32) : wrap32 z < 0 := by
  rw [wrap32_neg_iff, Int.emod_eq_of_lt (by omega) h']
  exact h

theorem wrap32_add (a b : ℤ) : wrap32 (wrap32 a + b) = wrap32 (a + b) := by
  unfold wrap32
  exact Int.bmod_add_bmod

/-- An `int` as a `size_t`. -/
def toSize (z : ℤ) : ℕ := (z % 2 ^ 64).toNat

theorem toSize_nonneg {z : ℤ} (h0 : 0 ≤ z) (h : z < 2 ^ 31) : toSize z = z.toNat := by
  unfold toSize
  rw [Int.emod_eq_of_lt h0 (h.trans (by norm_num))]

/-- A negative `int` is more than any object has. -/
theorem toSize_neg {z : ℤ} (h : z < 0) (hlow : -2 ^ 31 ≤ z) : 2 ^ 63 ≤ toSize z := by
  unfold toSize
  have hmod : z % 2 ^ 64 = z + 2 ^ 64 := by
    rw [← Int.add_emod_right, Int.emod_eq_of_lt (by omega) (by omega)]
  omega

theorem toSize_wrap32 {z : ℤ} (h0 : 0 ≤ z) (h : z < 2 ^ 31) : toSize (wrap32 z) = z.toNat := by
  rw [wrap32_of_lt h0 h, toSize_nonneg h0 h]

/-- A product that does not fit and is still the size of an object has lost `2 ^ 32`. -/
theorem toSize_wrapped {z : ℤ} (h : 2 ^ 31 ≤ z) (hn : toSize (wrap32 z) < 2 ^ 63) :
    (toSize (wrap32 z) : ℤ) + 2 ^ 32 ≤ z := by
  obtain ⟨hlow, hhigh⟩ := wrap32_range z
  by_cases hneg : wrap32 z < 0
  · exact absurd (toSize_neg hneg hlow) (by omega)
  · have hbig : 2 ^ 32 ≤ z := by
      by_contra hsmall
      exact hneg (wrap32_neg h (by omega))
    rw [toSize_nonneg (by omega) hhigh, Int.toNat_of_nonneg (by omega)]
    unfold wrap32 at hhigh hneg ⊢
    have hdvd : (z.bmod (2 ^ 32)) % 2 ^ 32 = z % 2 ^ 32 := Int.bmod_emod
    omega

/-! ### Pointers and strings -/

/-- A `char*`: an object and an offset. -/
inductive Ptr where
  | null (off : ℕ)
  | rb (off : ℕ)
  | lit (id off : ℕ)
deriving DecidableEq, Repr

/-- The null pointer. -/
abbrev Ptr.NULL : Ptr := .null 0

/-- Points to no object. -/
def Ptr.Null (p : Ptr) : Prop := ∃ off, p = .null off

instance : (p : Ptr) → Decidable p.Null
  | .null off => .isTrue ⟨off, rfl⟩
  | .rb _ => .isFalse fun ⟨_, h⟩ => Ptr.noConfusion h
  | .lit _ _ => .isFalse fun ⟨_, h⟩ => Ptr.noConfusion h

/-- `p + n`. -/
def Ptr.add : Ptr → ℕ → Ptr
  | null off, n => null (off + n)
  | rb off, n => rb (off + n)
  | lit id off, n => lit id (off + n)

/-- The byte behind every pointer. -/
abbrev Mem := Ptr → UInt8

@[simp] theorem Ptr.add_zero (p : Ptr) : p.add 0 = p := by cases p <;> rfl

theorem Ptr.add_add (p : Ptr) (m n : ℕ) : (p.add m).add n = p.add (m + n) := by
  cases p <;> simp [Ptr.add, Nat.add_assoc]

/-- `sy_string_t`. -/
structure Str where
  data : Ptr
  len : ℤ
deriving DecidableEq, Repr

/-- `sy_string_init`. -/
def Str.init : Str := ⟨.NULL, 0⟩

/-- The bytes of the slice `(data, len)`. -/
def Str.bytes (m : Mem) (s : Str) : List UInt8 :=
  (List.range s.len.toNat).map fun i => m (s.data.add i)

@[simp] theorem Str.length_bytes (m : Mem) (s : Str) : (s.bytes m).length = s.len.toNat := by
  simp [Str.bytes]

/-- `s` is a C literal: its bytes are NUL-free and followed by a NUL. -/
structure Str.IsLiteral (m : Mem) (s : Str) : Prop where
  notNull : s.data ≠ .NULL
  nulFree : ∀ b ∈ s.bytes m, b ≠ 0
  terminated : m (s.data.add s.len.toNat) = 0

end SyServer
