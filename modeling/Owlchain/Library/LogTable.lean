import Mathlib.Algebra.Field.Defs
import Mathlib.Algebra.Group.Basic
import Mathlib.Logic.Function.Iterate
import Mathlib.Tactic.Ring

/-! Finite fields given by tables. Multiplication adds logarithms modulo the order
`n` of the multiplicative group. The tables make an additive group into a field as
soon as they are mutually inverse on the nonzero elements and multiplication by the
generator is additive; distributivity then follows by iterating the generator. -/

namespace Owlchain.Library

/-- Multiplication by the generator, read off the tables. -/
def generatorMul {K : Type*} [Zero K] [DecidableEq K] (exp : ℕ → K) (log : K → ℕ) (n : ℕ)
    (a : K) : K :=
  if a = 0 then 0 else exp ((log a + 1) % n)

/-- Mutually inverse exponent and logarithm tables with an additive generator. -/
structure LogTable (K : Type*) [AddCommGroup K] [DecidableEq K] (n : ℕ) where
  exp : ℕ → K
  log : K → ℕ
  exp_ne_zero : ∀ k < n, exp k ≠ 0
  log_lt : ∀ a, log a < n
  log_exp : ∀ k < n, log (exp k) = k
  exp_log : ∀ a, a ≠ 0 → exp (log a) = a
  generatorMul_add : ∀ a b, generatorMul exp log n (a + b) =
    generatorMul exp log n a + generatorMul exp log n b

namespace LogTable

variable {K : Type*} [AddCommGroup K] [DecidableEq K] {n : ℕ} (T : LogTable K n)

def mul (a b : K) : K := if a = 0 ∨ b = 0 then 0 else T.exp ((T.log a + T.log b) % n)

def inv (a : K) : K := if a = 0 then 0 else T.exp ((n - T.log a) % n)

include T in
theorem order_pos : 0 < n := Nat.zero_lt_of_lt (T.log_lt 0)

theorem exp_mod_ne_zero (k : ℕ) : T.exp (k % n) ≠ 0 :=
  T.exp_ne_zero _ (Nat.mod_lt _ T.order_pos)

theorem log_exp_mod (k : ℕ) : T.log (T.exp (k % n)) = k % n :=
  T.log_exp _ (Nat.mod_lt _ T.order_pos)

@[simp] theorem zero_mul (a : K) : T.mul 0 a = 0 := by simp [mul]

@[simp] theorem mul_zero (a : K) : T.mul a 0 = 0 := by simp [mul]

theorem mul_of_ne {a b : K} (ha : a ≠ 0) (hb : b ≠ 0) :
    T.mul a b = T.exp ((T.log a + T.log b) % n) := by simp [mul, ha, hb]

theorem mul_comm (a b : K) : T.mul a b = T.mul b a := by
  simp only [mul, or_comm, Nat.add_comm]

theorem mul_ne_zero {a b : K} (ha : a ≠ 0) (hb : b ≠ 0) : T.mul a b ≠ 0 := by
  rw [T.mul_of_ne ha hb]
  exact T.exp_mod_ne_zero _

theorem mul_assoc (a b c : K) : T.mul (T.mul a b) c = T.mul a (T.mul b c) := by
  by_cases ha : a = 0
  · simp [ha]
  by_cases hb : b = 0
  · simp [hb]
  by_cases hc : c = 0
  · simp [hc]
  rw [T.mul_of_ne (T.mul_ne_zero ha hb) hc, T.mul_of_ne ha (T.mul_ne_zero hb hc),
    T.mul_of_ne ha hb, T.mul_of_ne hb hc, T.log_exp_mod, T.log_exp_mod, Nat.mod_add_mod,
    Nat.add_mod_mod, Nat.add_assoc]

theorem exp_zero_mul (a : K) : T.mul (T.exp 0) a = a := by
  by_cases ha : a = 0
  · simp [ha]
  rw [T.mul_of_ne (T.exp_ne_zero 0 T.order_pos) ha, T.log_exp 0 T.order_pos, Nat.zero_add,
    Nat.mod_eq_of_lt (T.log_lt a), T.exp_log a ha]

theorem mul_inv_cancel {a : K} (ha : a ≠ 0) : T.mul a (T.inv a) = T.exp 0 := by
  have hinv : T.inv a = T.exp ((n - T.log a) % n) := by simp [inv, ha]
  have hsum : T.log a + (n - T.log a) = n := by have := T.log_lt a; omega
  rw [hinv, T.mul_of_ne ha (T.exp_mod_ne_zero _), T.log_exp_mod, Nat.add_mod_mod, hsum,
    Nat.mod_self]

/-! ### Distributivity -/

theorem exp_one_mul (a : K) : T.mul (T.exp (1 % n)) a = generatorMul T.exp T.log n a := by
  by_cases ha : a = 0
  · simp [ha, generatorMul]
  rw [T.mul_of_ne (T.exp_mod_ne_zero 1) ha, T.log_exp_mod, Nat.mod_add_mod, Nat.add_comm,
    generatorMul, if_neg ha]

/-- A power of the generator multiplies by iterating the generator. -/
theorem exp_mul (k : ℕ) (a : K) :
    T.mul (T.exp (k % n)) a = (T.mul (T.exp (1 % n)))^[k] a := by
  induction k with
  | zero => simpa [Nat.zero_mod] using T.exp_zero_mul a
  | succ k ih =>
    rw [Function.iterate_succ_apply', ← ih, ← T.mul_assoc,
      T.mul_of_ne (T.exp_mod_ne_zero 1) (T.exp_mod_ne_zero k), T.log_exp_mod, T.log_exp_mod,
      ← Nat.add_mod, Nat.add_comm 1 k]

theorem mul_add (a b c : K) : T.mul a (b + c) = T.mul a b + T.mul a c := by
  by_cases ha : a = 0
  · simp [ha]
  have hexp : a = T.exp (T.log a % n) := by
    rw [Nat.mod_eq_of_lt (T.log_lt a), T.exp_log a ha]
  have hiter : ∀ k : ℕ, (T.mul (T.exp (1 % n)))^[k] (b + c) =
      (T.mul (T.exp (1 % n)))^[k] b + (T.mul (T.exp (1 % n)))^[k] c := by
    intro k
    induction k with
    | zero => rfl
    | succ k ih => simp only [Function.iterate_succ_apply', ih, T.exp_one_mul, T.generatorMul_add]
  rw [hexp, T.exp_mul, T.exp_mul, T.exp_mul, hiter]

/-- The field of a table. -/
abbrev field : Field K :=
  { (inferInstance : AddCommGroup K) with
    mul := T.mul
    mul_assoc := T.mul_assoc
    mul_comm := T.mul_comm
    one := T.exp 0
    one_mul := T.exp_zero_mul
    mul_one := fun a => (T.mul_comm a _).trans (T.exp_zero_mul a)
    left_distrib := T.mul_add
    right_distrib := fun a b c => by
      change T.mul (a + b) c = T.mul a c + T.mul b c
      rw [T.mul_comm, T.mul_add, T.mul_comm c a, T.mul_comm c b]
    zero_mul := T.zero_mul
    mul_zero := T.mul_zero
    inv := T.inv
    exists_pair_ne := ⟨0, T.exp 0, (T.exp_ne_zero 0 T.order_pos).symm⟩
    mul_inv_cancel := fun _ ha => T.mul_inv_cancel ha
    inv_zero := by simp [inv]
    nnqsmul := _
    qsmul := _ }

end LogTable

end Owlchain.Library
