import Mathlib.Data.Fintype.Basic
import Owlchain.Crypto.ReedSolomon
import Owlchain.Library.LogTable

/-! The field behind the check symbols. The values 0 to 31 are added by exclusive or
and multiplied through the exponent and logarithm tables of the source. On stored
symbols `gmult` never leaves a table and is this multiplication. -/

namespace Owlchain.Crypto

open Owlchain.Library Loop

/-- A symbol value from 0 to 31. -/
def Symbol : Type := Fin 32
  deriving DecidableEq, Fintype

namespace Symbol

/-- The `int` that stores a symbol. -/
def toInt (a : Symbol) : ℤ := (Fin.val a : ℤ)

def ofNat (n : ℕ) : Symbol := Fin.ofNat 32 n

theorem toInt_injective : Function.Injective toInt := by
  intro a b h
  exact Fin.ext (Int.ofNat.inj h)

theorem toInt_ofNat {n : ℕ} (h : n < 32) : (ofNat n).toInt = n := by
  simp only [toInt, ofNat, Fin.ofNat, Nat.mod_eq_of_lt h]

instance : Zero Symbol := ⟨(0 : Fin 32)⟩

instance : Add Symbol :=
  ⟨fun a b => ⟨Fin.val a ^^^ Fin.val b, Nat.xor_lt_two_pow (n := 5) a.isLt b.isLt⟩⟩

instance : Neg Symbol := ⟨id⟩

instance : AddCommGroup Symbol where
  add_assoc a b c := Fin.ext (Nat.xor_assoc (Fin.val a) (Fin.val b) (Fin.val c))
  zero_add a := Fin.ext (Nat.zero_xor (Fin.val a))
  add_zero a := Fin.ext (Nat.xor_zero (Fin.val a))
  nsmul := nsmulRec
  zsmul := zsmulRec
  neg_add_cancel a := Fin.ext (Nat.xor_self (Fin.val a))
  add_comm a b := Fin.ext (Nat.xor_comm (Fin.val a) (Fin.val b))

theorem add_self (a : Symbol) : a + a = 0 := neg_add_cancel a

@[simp] theorem toInt_zero : (0 : Symbol).toInt = 0 := rfl

@[simp] theorem toInt_add (a b : Symbol) : (a + b).toInt = Int.xor a.toInt b.toInt := rfl

theorem toInt_eq_zero {a : Symbol} : a.toInt = 0 ↔ a = 0 := toInt_injective.eq_iff (b := 0)

/-- The tables of the source, read as a field table of order 31. -/
def table : LogTable Symbol 31 where
  exp k := ofNat (gexp.getD k 0).toNat
  log a := (glog.getD (Fin.val a) 0).toNat
  exp_ne_zero := by decide
  log_lt := by decide
  log_exp := by decide
  exp_log := by decide
  generatorMul_add := by decide +kernel

instance : Field Symbol := table.field

/-- The generator of the multiplicative group. -/
def alpha : Symbol := table.exp 1

/-- The exponent table lists the powers of the generator. -/
theorem exp_mod (k : ℕ) : table.exp (k % 31) = alpha ^ k := by
  induction k with
  | zero => rfl
  | succ k ih =>
    have hmul : alpha ^ k * alpha = table.mul (table.exp (k % 31)) (table.exp (1 % 31)) := by
      rw [ih]; rfl
    rw [pow_succ, hmul, table.mul_of_ne (table.exp_mod_ne_zero k) (table.exp_mod_ne_zero 1),
      table.log_exp_mod, table.log_exp_mod, ← Nat.add_mod]

theorem alpha_ne_zero : alpha ≠ 0 := by decide

theorem alpha_pow_order : alpha ^ 31 = 1 := (exp_mod 31).symm

/-- Powers of the generator below its order are distinct. -/
theorem alpha_pow_injOn {k l : ℕ} (hk : k < 31) (hl : l < 31) (h : alpha ^ k = alpha ^ l) :
    k = l := by
  have hlog := congrArg table.log h
  rwa [← exp_mod, ← exp_mod, table.log_exp_mod, table.log_exp_mod, Nat.mod_eq_of_lt hk,
    Nat.mod_eq_of_lt hl] at hlog

end Symbol

open Owlchain.Crypto.Symbol

theorem load_glog (a : Symbol) : load glog a.toInt = .ok (table.log a : ℤ) := by
  revert a; decide

theorem load_gexp (k : ℕ) : load gexp ((k % 31 : ℕ) : ℤ) = .ok (alpha ^ k).toInt := by
  rw [← exp_mod]
  have h : ∀ i < 31, load gexp ((i : ℕ) : ℤ) = .ok (table.exp i).toInt := by decide
  exact h _ (Nat.mod_lt _ (by decide))

/-- `gmult` is multiplication in the field. -/
theorem gmult_toInt (a b : Symbol) : gmult a.toInt b.toInt = .ok (a * b).toInt := by
  change _ = Except.ok (table.mul a b).toInt
  unfold gmult
  by_cases h : a = 0 ∨ b = 0
  · have h' : a.toInt = 0 ∨ b.toInt = 0 := by simpa only [toInt_eq_zero] using h
    rw [if_pos h', LogTable.mul, if_pos h]
    rfl
  · have h' : ¬ (a.toInt = 0 ∨ b.toInt = 0) := by simpa only [toInt_eq_zero] using h
    have hmod : Int.tmod ((table.log a : ℤ) + table.log b) 31 =
        (((table.log a + table.log b) % 31 : ℕ) : ℤ) := by
      rw [Int.tmod_eq_emod_of_nonneg (by positivity)]
      push_cast
      rfl
    simp only [if_neg h', load_glog, ok_bind, hmod, load_gexp]
    rw [LogTable.mul, if_neg h, exp_mod]

end Owlchain.Crypto
