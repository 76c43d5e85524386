import Mathlib.Data.List.Basic
import Mathlib.Tactic.Ring

/-! Numbers as bytes of a fixed count, the most significant byte first or last. -/

namespace Owlchain.Library.Endian

def bigEndian : ℕ → ℕ → List UInt8
  | 0, _ => []
  | w + 1, n => bigEndian w (n / 256) ++ [UInt8.ofNat n]

def fromBigEndian (bytes : List UInt8) : ℕ := bytes.foldl (fun n b => n * 256 + b.toNat) 0

@[simp] theorem length_bigEndian (w n : ℕ) : (bigEndian w n).length = w := by
  induction w generalizing n with
  | zero => rfl
  | succ w ih => rw [bigEndian, List.length_append, ih, List.length_singleton]

/-- The bytes that do not fit in are lost. -/
theorem fromBigEndian_bigEndian (w n : ℕ) : fromBigEndian (bigEndian w n) = n % 256 ^ w := by
  induction w generalizing n with
  | zero => rw [Nat.pow_zero, Nat.mod_one]; rfl
  | succ w ih =>
    have hfold := ih (n / 256)
    rw [fromBigEndian] at hfold
    rw [bigEndian, fromBigEndian, List.foldl_append, hfold, Nat.pow_succ', Nat.mod_mul]
    simp only [List.foldl_cons, List.foldl_nil, UInt8.toNat_ofNat']
    omega

theorem fromBigEndian_of_lt {w n : ℕ} (h : n < 256 ^ w) : fromBigEndian (bigEndian w n) = n := by
  rw [fromBigEndian_bigEndian, Nat.mod_eq_of_lt h]

def littleEndian (w n : ℕ) : List UInt8 := (bigEndian w n).reverse

def fromLittleEndian (bytes : List UInt8) : ℕ := fromBigEndian bytes.reverse

@[simp] theorem length_littleEndian (w n : ℕ) : (littleEndian w n).length = w := by
  rw [littleEndian, List.length_reverse, length_bigEndian]

theorem fromLittleEndian_of_lt {w n : ℕ} (h : n < 256 ^ w) :
    fromLittleEndian (littleEndian w n) = n := by
  rw [fromLittleEndian, littleEndian, List.reverse_reverse, fromBigEndian_of_lt h]

end Owlchain.Library.Endian
