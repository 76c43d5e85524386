import Mathlib.Algebra.BigOperators.Fin
import Mathlib.Data.Nat.Digits.Lemmas
import Mathlib.Tactic.Ring

/-! Positional numerals and long division. Digits run from the most significant one.
Dividing a numeral in base `b` by `c` digit by digit, without writing leading zeros,
leaves the numeral of the quotient and the remainder; repeating it until the
quotient is empty yields the base-`c` digits, least significant first. Both hold for
any two bases, whichever is larger. -/

namespace Owlchain.Library.Radix

variable {b c : ℕ}

/-- The value of a digit list. -/
def value (b : ℕ) (ds : List ℕ) : ℕ := Nat.ofDigits b ds.reverse

@[simp] theorem value_nil : value b [] = 0 := rfl

@[simp] theorem value_concat (ds : List ℕ) (d : ℕ) : value b (ds ++ [d]) = value b ds * b + d := by
  simp only [value, List.reverse_append, List.reverse_singleton, List.singleton_append,
    Nat.ofDigits_cons]
  ring

/-- The numeral of `v` without leading zeros; zero has no digits. -/
def numeral (b v : ℕ) : List ℕ := (Nat.digits b v).reverse

@[simp] theorem value_numeral (v : ℕ) : value b (numeral b v) = v := by
  simp [value, numeral, Nat.ofDigits_digits]

theorem numeral_lt (hb : 1 < b) (v : ℕ) : ∀ d ∈ numeral b v, d < b := by
  intro d hd
  exact Nat.digits_lt_base hb (List.mem_reverse.mp hd)

/-- A digit list without leading zero is the numeral of its value. -/
theorem numeral_value (hb : 1 < b) {ds : List ℕ} (hds : ∀ d ∈ ds, d < b)
    (hhead : ds.head? ≠ some 0) :
    numeral b (value b ds) = ds := by
  rw [numeral, value, Nat.digits_ofDigits b hb ds.reverse (by simpa using hds),
    List.reverse_reverse]
  intro hne hlast
  apply hhead
  rw [List.getLast_reverse] at hlast
  rw [List.head?_eq_some_head (by simpa using hne), hlast]

theorem value_cons (d : ℕ) (ds : List ℕ) : value b (d :: ds) = d * b ^ ds.length + value b ds := by
  rw [value, List.reverse_cons, Nat.ofDigits_append, Nat.ofDigits_singleton,
    List.length_reverse, value]
  ring

/-- A digit list without leading zero is empty only for zero. -/
theorem length_pos_iff (hb : 0 < b) {ds : List ℕ} (hhead : ds.head? ≠ some 0) :
    0 < ds.length ↔ value b ds ≠ 0 := by
  cases ds with
  | nil => simp
  | cons d ds =>
    have hd : 0 < d := Nat.pos_of_ne_zero (by simpa using hhead)
    have hpos : 0 < d * b ^ ds.length := Nat.mul_pos hd (Nat.pow_pos hb)
    rw [value_cons]
    simp only [List.length_cons]
    omega

/-! ### One division -/

/-- One step of long division: the quotient digits so far and the remainder. -/
def divStep (b c : ℕ) (s : List ℕ × ℕ) (d : ℕ) : List ℕ × ℕ :=
  if c ≤ s.2 * b + d then (s.1 ++ [(s.2 * b + d) / c], (s.2 * b + d) % c)
  else if 0 < s.1.length then (s.1 ++ [0], s.2 * b + d)
  else (s.1, s.2 * b + d)

theorem divStep_value (s : List ℕ × ℕ) (d : ℕ) :
    value b (divStep b c s d).1 * c + (divStep b c s d).2 = (value b s.1 * c + s.2) * b + d := by
  unfold divStep
  split_ifs with hle hpos
  · have hmod := Nat.div_add_mod' (s.2 * b + d) c
    rw [value_concat, Nat.add_mul, Nat.add_assoc, hmod]
    ring
  · rw [value_concat]
    ring
  · rw [List.length_eq_zero_iff.mp (by omega : s.1.length = 0), value_nil]
    ring

theorem divStep_remainder_lt (hc : 0 < c) (s : List ℕ × ℕ) (d : ℕ) : (divStep b c s d).2 < c := by
  unfold divStep
  split_ifs with hle hpos
  · exact Nat.mod_lt _ hc
  · exact not_le.mp hle
  · exact not_le.mp hle

theorem head?_concat_ne {ds : List ℕ} (d : ℕ) (hne : 0 < ds.length) (h : ds.head? ≠ some 0) :
    (ds ++ [d]).head? ≠ some 0 := by
  cases ds with
  | nil => simp at hne
  | cons x xs => simpa using h

theorem divStep_head_ne (hc : 0 < c) {s : List ℕ × ℕ} (d : ℕ) (h : s.1.head? ≠ some 0) :
    (divStep b c s d).1.head? ≠ some 0 := by
  unfold divStep
  split_ifs with hle hpos
  · rcases Nat.eq_zero_or_pos s.1.length with h0 | h0
    · -- the first quotient digit is written once the running value reaches the divisor
      have hq : 0 < (s.2 * b + d) / c := Nat.div_pos hle hc
      rw [List.length_eq_zero_iff.mp h0]
      simp only [List.nil_append, List.head?_cons, ne_eq, Option.some.injEq]
      omega
    · exact head?_concat_ne _ h0 h
  · exact head?_concat_ne _ hpos h
  · exact h

/-- A bound on the digits gives one on the quotient digits. -/
theorem divStep_digit_lt {m m' : ℕ} (hm : b * c + m ≤ m' * c + b) {s : List ℕ × ℕ} {d : ℕ}
    (hrem : s.2 < c) (hd : d < m) (h : ∀ x ∈ s.1, x < m') : ∀ x ∈ (divStep b c s d).1, x < m' := by
  have hfit : s.2 * b + d < m' * c := by
    have hmul := Nat.mul_le_mul_right b (Nat.succ_le_of_lt hrem)
    rw [Nat.succ_mul, Nat.mul_comm c b] at hmul
    omega
  have hconcat : ∀ q < m', ∀ x ∈ s.1 ++ [q], x < m' := by
    intro q hq x hx
    rcases List.mem_append.mp hx with hx | hx
    · exact h x hx
    · rwa [List.mem_singleton.mp hx]
  unfold divStep
  split_ifs with hle hpos
  · exact hconcat _ ((Nat.div_lt_iff_lt_mul (by omega)).mpr hfit)
  · exact hconcat 0 (Nat.pos_of_mul_pos_right (by omega : 0 < m' * c))
  · exact h

def divide (b c : ℕ) (ds : List ℕ) : List ℕ × ℕ := ds.foldl (divStep b c) ([], 0)

theorem divide_concat (ds : List ℕ) (d : ℕ) :
    divide b c (ds ++ [d]) = divStep b c (divide b c ds) d := by
  rw [divide, List.foldl_append]
  rfl

/-- Quotient and remainder have the right value whatever the size of the digits. -/
theorem divide_value (ds : List ℕ) :
    value b (divide b c ds).1 * c + (divide b c ds).2 = value b ds := by
  induction ds using List.reverseRecOn with
  | nil => simp [divide]
  | append_singleton ds d ih => rw [divide_concat, divStep_value, ih, value_concat]

theorem divide_remainder_lt (hc : 0 < c) (ds : List ℕ) : (divide b c ds).2 < c := by
  cases ds using List.reverseRecOn with
  | nil => exact hc
  | append_singleton ds d => rw [divide_concat]; exact divStep_remainder_lt hc _ d

theorem divide_head_ne (hc : 0 < c) (ds : List ℕ) : (divide b c ds).1.head? ≠ some 0 := by
  induction ds using List.reverseRecOn with
  | nil => simp [divide]
  | append_singleton ds d ih => rw [divide_concat]; exact divStep_head_ne hc d ih

theorem divide_digit_lt {m m' : ℕ} (hm : b * c + m ≤ m' * c + b) (hc : 0 < c) {ds : List ℕ}
    (hds : ∀ d ∈ ds, d < m) : ∀ x ∈ (divide b c ds).1, x < m' := by
  induction ds using List.reverseRecOn with
  | nil => simp [divide]
  | append_singleton ds d ih =>
    rw [divide_concat]
    exact divStep_digit_lt hm (divide_remainder_lt hc ds) (hds d (by simp))
      (ih fun x hx => hds x (by simp [hx]))

theorem value_divide (hc : 0 < c) (ds : List ℕ) :
    value b (divide b c ds).1 = value b ds / c ∧ (divide b c ds).2 = value b ds % c := by
  have hvalue := divide_value (b := b) (c := c) ds
  have hrem := divide_remainder_lt (b := b) hc ds
  constructor
  · rw [← hvalue, Nat.add_comm, Nat.add_mul_div_right _ _ hc, Nat.div_eq_of_lt hrem, Nat.zero_add]
  · rw [← hvalue, Nat.mul_add_mod', Nat.mod_eq_of_lt hrem]

/-- Long division computes quotient and remainder. -/
theorem divide_eq (hb : 1 < b) (hc : 0 < c) (ds : List ℕ) (hds : ∀ d ∈ ds, d < b) :
    divide b c ds = (numeral b (value b ds / c), value b ds % c) := by
  obtain ⟨hdiv, hmod⟩ := value_divide (b := b) hc ds
  rw [← hdiv, ← hmod, numeral_value hb (divide_digit_lt le_rfl hc hds) (divide_head_ne hc ds)]

/-! ### Repeated division -/

/-- The digits of `v` in base `c`, least significant first; zero has one digit. -/
def lowDigits (c v : ℕ) : List ℕ := if v = 0 then [0] else Nat.digits c v

theorem lowDigits_of_lt {v : ℕ} (h : v < c) : lowDigits c v = [v] := by
  unfold lowDigits
  split_ifs with h0
  · rw [h0]
  · exact Nat.digits_of_lt c v h0 h

theorem lowDigits_of_le (hc : 1 < c) {v : ℕ} (h : c ≤ v) :
    lowDigits c v = v % c :: lowDigits c (v / c) := by
  have hv : v ≠ 0 := by omega
  have hq : v / c ≠ 0 := (Nat.div_pos h (by omega)).ne'
  rw [lowDigits, if_neg hv, lowDigits, if_neg hq, Nat.digits_eq_cons_digits_div hc hv]

theorem lowDigits_lt (hc : 1 < c) (v : ℕ) : ∀ d ∈ lowDigits c v, d < c := by
  intro d hd
  unfold lowDigits at hd
  split_ifs at hd
  · rw [List.mem_singleton.mp hd]; omega
  · exact Nat.digits_lt_base hc hd

@[simp] theorem ofDigits_lowDigits (v : ℕ) : Nat.ofDigits c (lowDigits c v) = v := by
  unfold lowDigits
  split_ifs with h0
  · simp [h0]
  · exact Nat.ofDigits_digits c v

theorem lowDigits_length_le (hc : 1 < c) {v k : ℕ} (hk : 0 < k) (h : v < c ^ k) :
    (lowDigits c v).length ≤ k := by
  unfold lowDigits
  split_ifs
  · exact hk
  · exact (Nat.digits_length_le_iff hc v).mpr h

theorem lowDigits_getD (hc : 1 < c) (v i : ℕ) : (lowDigits c v).getD i 0 = v / c ^ i % c := by
  unfold lowDigits
  split_ifs with h0
  · cases i <;> simp [h0]
  · exact Nat.getD_digits v i hc

/-! ### Fixed-length digits -/

theorem ofDigits_ofFn {k : ℕ} (f : Fin k → ℕ) :
    Nat.ofDigits b (List.ofFn f) = ∑ j : Fin k, f j * b ^ (j : ℕ) := by
  induction k with
  | zero => rfl
  | succ k ih =>
    rw [List.ofFn_succ, Nat.ofDigits_cons, ih, Fin.sum_univ_succ, Finset.mul_sum]
    simp only [Fin.val_zero, pow_zero, mul_one, Fin.val_succ, pow_succ]
    congr 1
    exact Finset.sum_congr rfl (fun j _ => by ring)

/-- The first `k` digits of a number have its value modulo `b ^ k`. -/
theorem ofDigits_ofFn_div (n k : ℕ) :
    Nat.ofDigits b (List.ofFn fun j : Fin k => n / b ^ (j : ℕ) % b) = n % b ^ k := by
  induction k generalizing n with
  | zero => simp [Nat.mod_one]
  | succ k ih =>
    have hshift : (fun j : Fin k => n / b ^ ((j.succ : Fin (k + 1)) : ℕ) % b) =
        fun j : Fin k => n / b / b ^ (j : ℕ) % b := by
      funext j
      rw [Fin.val_succ, pow_succ', Nat.div_div_eq_div_mul]
    rw [List.ofFn_succ, Nat.ofDigits_cons, hshift, ih (n / b), pow_succ', Nat.mod_mul]
    simp

end Owlchain.Library.Radix
