import Mathlib.InformationTheory.Hamming
import Mathlib.LinearAlgebra.Vandermonde
import Mathlib.Tactic.LinearCombination

/-! Codes defined by power sums. Every position of a word has a locator, and a word
passes `r` checks when its locator-weighted power sums of order one to `r` vanish.
For distinct nonzero locators a nonzero word of weight at most `r` would solve a
nonsingular Vandermonde system, so passing words differ in more than `r` positions.
The second half treats a feedback register that divides by a monic polynomial: at
a root of that polynomial the register holds the message value times the root's
`r`-th power, whatever the message. -/

namespace Owlchain.Library.PowerCheck

section Distance

variable {ι K : Type*} [Fintype ι] [Field K]

/-- The power sum of order `i` of a word, weighted by the locators `x`. -/
def syndrome (x c : ι → K) (i : ℕ) : K := ∑ p, c p * x p ^ i

/-- The power sums of order one to `r` vanish. -/
def Passes (x : ι → K) (r : ℕ) (c : ι → K) : Prop :=
  ∀ i, 1 ≤ i → i ≤ r → syndrome x c i = 0

theorem syndrome_sub (x c d : ι → K) (i : ℕ) :
    syndrome x (c - d) i = syndrome x c i - syndrome x d i := by
  simp only [syndrome, Pi.sub_apply, sub_mul, Finset.sum_sub_distrib]

theorem Passes.sub {x c d : ι → K} {r : ℕ} (hc : Passes x r c) (hd : Passes x r d) :
    Passes x r (c - d) := by
  intro i h1 hr
  rw [syndrome_sub, hc i h1 hr, hd i h1 hr, sub_zero]

variable [DecidableEq K]

/-- The support of a passing word of weight at most `r` gives a square Vandermonde
system in the nonzero entries, so there are none. -/
theorem eq_zero_of_passes {x c : ι → K} {r : ℕ} (hx : Function.Injective x) (hne : ∀ p, x p ≠ 0)
    (hc : Passes x r c) (hw : hammingNorm c ≤ r) : c = 0 := by
  set S : Finset ι := Finset.univ.filter (fun p => c p ≠ 0) with hS
  have hcard : S.card ≤ r := hw
  let e : Fin S.card ≃ S := S.equivFin.symm
  have hsolve : (fun k => c (e k) * x (e k)) = 0 := by
    apply Matrix.eq_zero_of_forall_pow_sum_mul_pow_eq_zero (f := fun k => x (e k))
    · intro k l hkl
      exact e.injective (Subtype.ext (hx hkl))
    · intro i
      have hi := hc (i + 1) (by omega) (by have := i.isLt; omega)
      have hsupport : syndrome x c (i + 1) = ∑ p ∈ S, c p * x p ^ ((i : ℕ) + 1) := by
        refine (Finset.sum_subset (Finset.subset_univ S) ?_).symm
        intro p _ hp
        have : c p = 0 := by simpa [hS] using hp
        rw [this, zero_mul]
      rw [hsupport, ← Finset.sum_coe_sort] at hi
      rw [← hi]
      refine Fintype.sum_equiv e _ _ (fun k => ?_)
      ring
  funext p
  by_contra hp
  have hmem : p ∈ S := by simpa [hS] using hp
  have hk := congrFun hsolve (e.symm ⟨p, hmem⟩)
  simp only [Equiv.apply_symm_apply, Pi.zero_apply, mul_eq_zero] at hk
  exact hk.elim hp (hne p)

/-- Two different passing words differ in more than `r` positions. -/
theorem lt_hammingDist {x c d : ι → K} {r : ℕ} (hx : Function.Injective x) (hne : ∀ p, x p ≠ 0)
    (hc : Passes x r c) (hd : Passes x r d) (hcd : c ≠ d) : r < hammingDist c d := by
  by_contra hle
  rw [hammingDist_eq_hammingNorm, neg_add_eq_sub] at hle
  have hzero := eq_zero_of_passes hx hne (hd.sub hc) (by omega)
  exact hcd (sub_eq_zero.mp hzero).symm

end Distance

section Register

variable {K : Type*} [CommRing K] {m : ℕ}

/-- One shift of a register with feedback coefficients `g`: the incoming symbol and
the last cell are fed back into every cell. -/
def shift (g p : Fin (m + 1) → K) (d : K) : Fin (m + 1) → K :=
  Fin.cons (g 0 * (d + p (Fin.last m)))
    (fun k => p k.castSucc + g k.succ * (d + p (Fin.last m)))

/-- The value of a register at a point. -/
def value (p : Fin (m + 1) → K) (b : K) : K := ∑ k, p k * b ^ (k : ℕ)

/-- At a root of the divisor a shift multiplies the value by the root and adds the
incoming symbol at the register's own degree. -/
theorem value_shift (g p : Fin (m + 1) → K) (d b : K) (hb : b ^ (m + 1) = value g b) :
    value (shift g p d) b = b * value p b + d * b ^ (m + 1) := by
  have hp : b * value p b =
      (∑ k : Fin m, p k.castSucc * b ^ ((k : ℕ) + 1)) + p (Fin.last m) * b ^ (m + 1) := by
    rw [value, Fin.sum_univ_castSucc, mul_add, Finset.mul_sum]
    congr 1
    · exact Finset.sum_congr rfl (fun k _ => by rw [Fin.val_castSucc]; ring)
    · rw [Fin.val_last]; ring
  have hg : b ^ (m + 1) = g 0 + ∑ k : Fin m, g k.succ * b ^ ((k : ℕ) + 1) := by
    rw [hb, value, Fin.sum_univ_succ]
    simp
  have hs : value (shift g p d) b = g 0 * (d + p (Fin.last m)) +
      ((∑ k : Fin m, p k.castSucc * b ^ ((k : ℕ) + 1)) +
        (d + p (Fin.last m)) * ∑ k : Fin m, g k.succ * b ^ ((k : ℕ) + 1)) := by
    rw [value, Fin.sum_univ_succ, Finset.mul_sum, ← Finset.sum_add_distrib]
    congr 1
    · simp [shift]
    · exact Finset.sum_congr rfl
        (fun k _ => by simp only [shift, Fin.cons_succ, Fin.val_succ]; ring)
  rw [hs, hp]
  linear_combination (d + p (Fin.last m)) * hg.symm

/-- Feed the coefficients `d (n - 1), …, d 0` of a message into a register. -/
def feed (g : Fin (m + 1) → K) (d : ℕ → K) (n : ℕ) (p : Fin (m + 1) → K) : Fin (m + 1) → K :=
  (List.range n).reverse.foldl (fun p i => shift g p (d i)) p

theorem feed_succ (g : Fin (m + 1) → K) (d : ℕ → K) (n : ℕ) (p : Fin (m + 1) → K) :
    feed g d (n + 1) p = feed g d n (shift g p (d n)) := by
  simp [feed, List.range_succ]

/-- After a whole message the register holds, at every root, the message value
shifted by the register's length. -/
theorem value_feed (g : Fin (m + 1) → K) (d : ℕ → K) (b : K) (hb : b ^ (m + 1) = value g b) :
    ∀ (n : ℕ) (p : Fin (m + 1) → K),
      value (feed g d n p) b = b ^ (m + 1) * (∑ j ∈ Finset.range n, d j * b ^ j) + b ^ n * value p b
  | 0, p => by simp [feed]
  | n + 1, p => by
    rw [feed_succ, value_feed g d b hb n, value_shift g p (d n) b hb, Finset.sum_range_succ]
    ring

end Register

end Owlchain.Library.PowerCheck
