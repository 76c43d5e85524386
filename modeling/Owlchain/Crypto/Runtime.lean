import Mathlib.Data.Nat.Digits.Defs
import Owlchain.Runtime

/-! The part of D and Phobos that the address code runs on: `enforce`, 32-bit `int`
arithmetic, the search and conversion functions of `std.string`, `std.conv` and
`std.bigint`. Strings are lists of code units; a code unit of 128 or more is in none
of the tables, so a multi-byte character behaves as any other character outside the
alphabet. -/

namespace Owlchain.Crypto

abbrev Text := List Char

def enforce (p : Prop) [Decidable p] : Result Unit := if p then .ok () else .error .enforce

/-- `int` arithmetic keeps the low 32 bits, read as a signed number. -/
def int32 (x : ℤ) : ℤ := x.bmod (2 ^ 32)

theorem int32_natCast {n : ℕ} (h : n < 2147483648) : int32 n = n := by
  unfold int32
  rw [Int.bmod_eq_of_le] <;> omega

/-- A sum that leaves the range comes back by a multiple of 2 ^ 32. -/
theorem int32_eq {x y : ℤ} (k : ℤ) (h : y = x + k * 4294967296) (hlo : -2147483648 ≤ y)
    (hhi : y < 2147483648) : int32 x = y := by
  have hwrap := Int.add_mul_bmod_self_right x k (2 ^ 32)
  rw [int32, ← hwrap, show x + k * ((2 ^ 32 : ℕ) : ℤ) = y by rw [h]; norm_num,
    Int.bmod_eq_of_le] <;> omega

/-- `std.string.indexOf`: the first position of a character, or -1. -/
def indexOf (s : Text) (c : Char) : ℤ :=
  match s.findIdx? (· = c) with
  | some i => i
  | none => -1

theorem findIdx?_eq_none_of_notMem {s : Text} {c : Char} (hc : c ∉ s) :
    s.findIdx? (· = c) = none := by
  rw [List.findIdx?_eq_none_iff]
  intro x hx
  simp only [decide_eq_false_iff_not]
  rintro rfl
  exact hc hx

theorem indexOf_eq_neg_one {s : Text} {c : Char} (hc : c ∉ s) : indexOf s c = -1 := by
  rw [indexOf, findIdx?_eq_none_of_notMem hc]

/-- The position of the first of several occurrences. -/
theorem indexOf_append_cons {s : Text} {c : Char} (hc : c ∉ s) (t : Text) :
    indexOf (s ++ c :: t) c = s.length := by
  rw [indexOf, List.findIdx?_append, findIdx?_eq_none_of_notMem hc, List.findIdx?_cons]
  simp

/-- `to!string` of a `long`. -/
def longToString (n : ℤ) : Text :=
  let numeral := if n = 0 then ['0'] else (Nat.digits 10 n.natAbs).reverse.map Nat.digitChar
  if n < 0 then '-' :: numeral else numeral

/-- `cast(int) c - cast(int) '0'`. -/
def charDigit (c : Char) : ℤ := (c.toNat : ℤ) - 48

/-- `cast(char)(d + cast(int) '0')`. -/
def digitChar (d : ℤ) : Char := Char.ofNat ((d + 48) % 256).toNat

/-- `BigInt` of a decimal numeral. -/
def bigInt (s : Text) : ℤ := s.foldl (fun v c => v * 10 + charDigit c) 0

def longMax : ℤ := 2 ^ 63 - 1

/-- `BigInt.toLong` of a non-negative number saturates at `long.max`. -/
def toLong (n : ℤ) : ℤ := if n ≤ longMax then n else longMax

end Owlchain.Crypto
