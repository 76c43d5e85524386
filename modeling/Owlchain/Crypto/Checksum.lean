import Owlchain.Crypto.Symbol
import Owlchain.Library.PowerCheck

/-! The checksum of an address. `is_codeword_valid` accepts a word exactly when its
four power sums vanish, position `p` having the locator `alpha ^ exponent p`; the
skipped exponents make this a shortened code. The feedback loop of `encode` divides
by the polynomial whose roots are the first four powers of `alpha`, so its register
is the only completion of thirteen data symbols that the checker accepts. -/

namespace Owlchain.Crypto

open Owlchain.Library Loop PowerCheck Owlchain.Crypto.Symbol

/-- Symbols as stored in an `int[]`. -/
def stored {n : ℕ} (w : Fin n → Symbol) : List ℤ := List.ofFn fun p => (w p).toInt

@[simp] theorem length_stored {n : ℕ} (w : Fin n → Symbol) : (stored w).length = n := by
  simp [stored]

theorem load_stored {n : ℕ} (w : Fin n → Symbol) (rest : List ℤ) (i : ℕ) (hi : i < n) :
    load (stored w ++ rest) (i : ℤ) = .ok (w ⟨i, hi⟩).toInt := by
  rw [load_natCast (by simp; omega), List.getElem_append_left (by simpa using hi)]
  simp [stored]

theorem stored_append {n m : ℕ} (d : Fin n → Symbol) (q : Fin m → Symbol) :
    stored (Fin.append d q) = stored d ++ stored q := by
  rw [stored, stored, stored, ← List.ofFn_fin_append]
  congr 1
  funext p
  induction p using Fin.addCases <;> simp

/-! ### The checker -/

/-- The exponent at which `is_codeword_valid` weighs a position. -/
def exponent (p : Fin 17) : ℕ := if (p : ℕ) < 13 then p else p + 14

def locator (p : Fin 17) : Symbol := alpha ^ exponent p

theorem exponent_lt (p : Fin 17) : exponent p < 31 := by revert p; decide

theorem locator_injective : Function.Injective locator := by
  intro p q h
  have he : exponent p = exponent q := alpha_pow_injOn (exponent_lt p) (exponent_lt q) h
  revert p q
  decide

theorem locator_ne_zero (p : Fin 17) : locator p ≠ 0 := pow_ne_zero _ alpha_ne_zero

/-- What round `j` of the inner loop adds to `t`. -/
def syndromeTerm (w : Fin 17 → Symbol) (i j : ℕ) : Symbol :=
  if 12 < j ∧ j < 27 then 0 else w (Fin.ofNat 17 (if 26 < j then j - 14 else j)) * alpha ^ (i * j)

theorem syndromeStep_stored (w : Fin 17 → Symbol) (i j : ℕ) (hj : j < 31) (t : Symbol) :
    syndromeStep (stored w) i t.toInt j = .ok (t + syndromeTerm w i j).toInt := by
  unfold syndromeStep syndromeTerm
  by_cases hskip : 12 < j ∧ j < 27
  · simp only [if_pos hskip, add_zero]
    rfl
  · have hpos : (if 26 < j then j - 14 else j) < 17 := by split_ifs <;> omega
    have hload := load_stored w [] _ hpos
    rw [List.append_nil] at hload
    have hfin : Fin.ofNat 17 (if 26 < j then j - 14 else j) = ⟨_, hpos⟩ :=
      Fin.ext (Nat.mod_eq_of_lt hpos)
    simp only [if_neg hskip, hload, ok_bind, load_gexp, gmult_toInt, hfin, toInt_add]
    rfl

/-- The re-indexed exponents weigh every position by its locator. -/
theorem sum_syndromeTerm (w : Fin 17 → Symbol) (i : ℕ) :
    ∑ j ∈ Finset.range 31, syndromeTerm w i j = syndrome locator w i := by
  simp only [syndrome, locator, ← pow_mul, Finset.sum_range_succ, Finset.sum_range_zero,
    Fin.sum_univ_succ, syndromeTerm, exponent]
  simp [mul_comm i, Fin.ofNat, add_assoc]

theorem syndrome_loop (w : Fin 17 → Symbol) (i : ℕ) :
    (List.range 31).foldlM (syndromeStep (stored w) i) 0 = .ok (syndrome locator w i).toInt := by
  obtain ⟨t, ht, h⟩ := foldlM_range
    (fun j t => t = (∑ k ∈ Finset.range j, syndromeTerm w i k).toInt)
    (syndromeStep (stored w) i) 31 0 (by
      rintro j hj _ rfl
      exact ⟨_, syndromeStep_stored w i j hj _, by rw [Finset.sum_range_succ]⟩) (by simp)
  rw [ht, h, sum_syndromeTerm]

theorem lor_toInt_eq_zero (a : ℕ) (b : Symbol) : Int.lor a b.toInt = 0 ↔ a = 0 ∧ b = 0 := by
  rw [← toInt_eq_zero (a := b)]
  change ((a ||| Fin.val b : ℕ) : ℤ) = 0 ↔ a = 0 ∧ ((Fin.val b : ℕ) : ℤ) = 0
  rw [Nat.cast_eq_zero, Nat.cast_eq_zero, Nat.or_eq_zero_iff]

/-- The checker always answers, and accepts exactly the words that pass. -/
theorem isCodewordValid_stored (w : Fin 17 → Symbol) :
    ∃ b, isCodewordValid (stored w) = .ok b ∧ (b = true ↔ Passes locator 4 w) := by
  refine ⟨_, by
    simp only [isCodewordValid, List.foldlM_cons, List.foldlM_nil, syndrome_loop, ok_bind]; rfl, ?_⟩
  rw [beq_iff_eq]
  constructor
  · intro h i h1 h4
    obtain ⟨h, h₄⟩ := (lor_toInt_eq_zero _ _).mp h
    obtain ⟨h, h₃⟩ := (lor_toInt_eq_zero _ _).mp (congrArg Int.ofNat h)
    obtain ⟨h, h₂⟩ := (lor_toInt_eq_zero _ _).mp (congrArg Int.ofNat h)
    obtain ⟨_, h₁⟩ := (lor_toInt_eq_zero 0 _).mp (congrArg Int.ofNat h)
    obtain rfl | rfl | rfl | rfl : i = 1 ∨ i = 2 ∨ i = 3 ∨ i = 4 := by omega
    exacts [h₁, h₂, h₃, h₄]
  · intro h
    rw [h 1 (by omega) (by omega), h 2 (by omega) (by omega), h 3 (by omega) (by omega),
      h 4 (by omega) (by omega)]
    rfl

theorem isCodewordValid_iff (w : Fin 17 → Symbol) :
    isCodewordValid (stored w) = .ok true ↔ Passes locator 4 w := by
  obtain ⟨b, hb, h⟩ := isCodewordValid_stored w
  rw [hb, Except.ok.injEq, h]

theorem isCodewordValid_eq_false {w : Fin 17 → Symbol} (h : ¬ Passes locator 4 w) :
    isCodewordValid (stored w) = .ok false := by
  obtain ⟨b, hb, hiff⟩ := isCodewordValid_stored w
  rw [hb, Bool.eq_false_iff.mpr (fun hb => h (hiff.mp hb))]

/-! ### Distance -/

theorem accepted_lt_hammingDist {u v : Fin 17 → Symbol} (hu : Passes locator 4 u)
    (hv : Passes locator 4 v) (huv : u ≠ v) : 4 < hammingDist u v :=
  lt_hammingDist locator_injective locator_ne_zero hu hv huv

/-- Exchanging two symbols changes at most two positions. -/
theorem hammingDist_swap_le (u : Fin 17 → Symbol) (i j : Fin 17) :
    hammingDist u (u ∘ Equiv.swap i j) ≤ 2 := by
  have hsub : (Finset.univ.filter fun p => u p ≠ (u ∘ Equiv.swap i j) p) ⊆ {i, j} := by
    intro p hp
    by_contra hnot
    simp only [Finset.mem_insert, Finset.mem_singleton, not_or] at hnot
    simp [Equiv.swap_apply_of_ne_of_ne hnot.1 hnot.2] at hp
  exact (Finset.card_le_card hsub).trans Finset.card_le_two

/-- Different accepted words differ in at least five positions; so a change of one to
four symbols of an accepted word, an exchange of two unequal symbols included, is
always rejected. -/
theorem isCodewordValid_distance :
    (∀ u v : Fin 17 → Symbol, isCodewordValid (stored u) = .ok true →
      isCodewordValid (stored v) = .ok true → u ≠ v → 5 ≤ hammingDist u v) ∧
    (∀ u v : Fin 17 → Symbol, isCodewordValid (stored u) = .ok true →
      1 ≤ hammingDist u v → hammingDist u v ≤ 4 → isCodewordValid (stored v) = .ok false) ∧
    (∀ (u : Fin 17 → Symbol) (i j : Fin 17), isCodewordValid (stored u) = .ok true →
      u i ≠ u j → isCodewordValid (stored (u ∘ Equiv.swap i j)) = .ok false) := by
  have hreject : ∀ u v : Fin 17 → Symbol, isCodewordValid (stored u) = .ok true → u ≠ v →
      hammingDist u v ≤ 4 → isCodewordValid (stored v) = .ok false := by
    intro u v hu hne hle
    apply isCodewordValid_eq_false
    intro hv
    have := accepted_lt_hammingDist ((isCodewordValid_iff u).mp hu) hv hne
    omega
  refine ⟨?_, ?_, ?_⟩
  · intro u v hu hv hne
    exact accepted_lt_hammingDist ((isCodewordValid_iff u).mp hu)
      ((isCodewordValid_iff v).mp hv) hne
  · intro u v hu h1 h4
    exact hreject u v hu (hammingDist_pos.mp h1) h4
  · intro u i j hu hij
    refine hreject u _ hu ?_ ((hammingDist_swap_le u i j).trans (by omega))
    intro h
    exact hij (by simpa using congrFun h i)

/-- The words of account numbers zero and one, one digit changed, two symbols swapped. -/
theorem isCodewordValid_distance_one :
    let zero : Fin 17 → Symbol := fun _ => 0
    let one : Fin 17 → Symbol := ![ofNat 1, 0, 0, 0, 0, 0, 0, 0, 0, 0, 0, 0, 0,
      ofNat 17, ofNat 9, ofNat 6, ofNat 30]
    5 ≤ hammingDist zero one ∧
      isCodewordValid (stored (Function.update zero 0 1)) = .ok false ∧
      isCodewordValid (stored (one ∘ Equiv.swap 0 12)) = .ok false :=
  ⟨isCodewordValid_distance.1 _ _ (by decide) (by decide) (by decide),
    isCodewordValid_distance.2.1 (fun _ => 0) _ (by decide) (by decide) (by decide),
    isCodewordValid_distance.2.2 _ _ _ (by decide) (by decide)⟩

/-! ### The encoder's register -/

/-- The multipliers of the feedback loop, lowest register cell first. -/
def multipliers : Fin 4 → Symbol := ![ofNat 17, ofNat 9, ofNat 6, ofNat 30]

/-- The first four powers of `alpha` are the roots of the divisor. -/
theorem root_multipliers (i : ℕ) (h1 : 1 ≤ i) (h4 : i ≤ 4) :
    (alpha ^ i) ^ 4 = value multipliers (alpha ^ i) := by
  have h : ∀ i ∈ [1, 2, 3, 4], (alpha ^ i) ^ 4 = value multipliers (alpha ^ i) := by decide
  exact h i (by simp; omega)

def Register.ofSymbols (q : Fin 4 → Symbol) : Register :=
  ⟨(q 0).toInt, (q 1).toInt, (q 2).toInt, (q 3).toInt⟩

theorem Register.ofSymbols_injective : Function.Injective Register.ofSymbols := by
  intro q r h
  simp only [Register.ofSymbols, Register.mk.injEq, toInt_injective.eq_iff] at h
  obtain ⟨h0, h1, h2, h3⟩ := h
  funext k
  fin_cases k <;> assumption

theorem Register.toList_ofSymbols (q : Fin 4 → Symbol) : (ofSymbols q).toList = stored q := by
  simp [ofSymbols, toList, stored, List.ofFn_succ]

/-- The data symbols of a message by index, for use in sums. -/
def coefficient (d : Fin 13 → Symbol) (j : ℕ) : Symbol := if h : j < 13 then d ⟨j, h⟩ else 0

/-- The check symbols of a message. -/
def parity (d : Fin 13 → Symbol) : Fin 4 → Symbol := feed multipliers (coefficient d) 13 0

theorem feedbackStep_stored (d : Fin 13 → Symbol) (rest : List ℤ) (i : ℕ) (hi : i < 13)
    (q : Fin 4 → Symbol) : feedbackStep (stored d ++ rest) (.ofSymbols q) i =
      .ok (.ofSymbols (shift multipliers q (coefficient d i))) := by
  have hc : coefficient d i = d ⟨i, hi⟩ := dif_pos hi
  have hmult : ∀ (k : ℕ) (b : Symbol), k < 32 → gmult k b.toInt = .ok (ofNat k * b).toInt := by
    intro k b hk
    rw [← toInt_ofNat hk, gmult_toInt]
  have h30 := hmult 30 (d ⟨i, hi⟩ + q 3) (by decide)
  have h6 := hmult 6 (d ⟨i, hi⟩ + q 3) (by decide)
  have h9 := hmult 9 (d ⟨i, hi⟩ + q 3) (by decide)
  have h17 := hmult 17 (d ⟨i, hi⟩ + q 3) (by decide)
  simp only [toInt_add, Nat.cast_ofNat] at h30 h6 h9 h17
  simp only [feedbackStep, load_stored d rest i hi, ok_bind, Register.ofSymbols, h30, h6,
    h9, h17, hc]
  rfl

/-- The feedback loop reads the data symbols only and ends with the check symbols. -/
theorem feedback_stored (d : Fin 13 → Symbol) (rest : List ℤ) :
    feedback (stored d ++ rest) = .ok (.ofSymbols (parity d)) := by
  obtain ⟨p, hp, h⟩ := foldlM_simulates (fun p q => p = Register.ofSymbols q)
    (feedbackStep (stored d ++ rest)) (fun q i => shift multipliers q (coefficient d i))
    (List.range 13).reverse ⟨0, 0, 0, 0⟩ 0 (by
      rintro i hi _ q rfl
      exact ⟨_, feedbackStep_stored d rest i (by simpa using hi) q, rfl⟩) rfl
  rw [feedback, base32Length, hp, h]
  rfl

theorem syndrome_append (d : Fin 13 → Symbol) (q : Fin 4 → Symbol) (i : ℕ) :
    syndrome locator (Fin.append d q) i =
      (∑ j ∈ Finset.range 13, coefficient d j * (alpha ^ i) ^ j) +
        (alpha ^ i) ^ 27 * value q (alpha ^ i) := by
  have hdata : ∀ j : Fin 13, locator (Fin.castAdd 4 j) ^ i = (alpha ^ i) ^ (j : ℕ) := by
    intro j
    rw [locator, exponent, Fin.val_castAdd, if_pos j.isLt, ← pow_mul, ← pow_mul, Nat.mul_comm]
  have hcheck : ∀ k : Fin 4,
      locator (Fin.natAdd 13 k) ^ i = (alpha ^ i) ^ 27 * (alpha ^ i) ^ (k : ℕ) := by
    intro k
    rw [locator, exponent, Fin.val_natAdd, if_neg (by omega), ← pow_mul, ← pow_mul,
      ← pow_mul, ← pow_add]
    congr 1
    ring
  refine (Fin.sum_univ_add (a := 13) (b := 4) _).trans ?_
  rw [Finset.sum_range]
  refine congrArg₂ (· + ·) ?_ ?_
  · refine Finset.sum_congr rfl (fun j _ => ?_)
    rw [hdata, Fin.append_left, coefficient, dif_pos j.isLt]
  · rw [value, Finset.mul_sum]
    refine Finset.sum_congr rfl (fun k _ => ?_)
    rw [hcheck, Fin.append_right]
    ring

/-- Data followed by the register passes: the register contributes the data's own
power sum a second time, and `alpha ^ 31 = 1`. -/
theorem passes_parity (d : Fin 13 → Symbol) : Passes locator 4 (Fin.append d (parity d)) := by
  intro i h1 h4
  have hroot := root_multipliers i h1 h4
  have hone : (alpha ^ i) ^ 31 = 1 := by
    rw [← pow_mul, Nat.mul_comm, pow_mul, alpha_pow_order, one_pow]
  have hzero : value (0 : Fin 4 → Symbol) (alpha ^ i) = 0 := by simp [value]
  have hfeed := value_feed multipliers (coefficient d) (alpha ^ i) hroot 13 0
  rw [hzero, mul_zero, add_zero] at hfeed
  rw [syndrome_append, parity, hfeed, ← mul_assoc, ← pow_add, hone, one_mul]
  exact add_self _

theorem passes_append_iff (d : Fin 13 → Symbol) (q : Fin 4 → Symbol) :
    Passes locator 4 (Fin.append d q) ↔ q = parity d := by
  constructor
  · intro h
    by_contra hne
    have happ : Fin.append d q ≠ Fin.append d (parity d) := by
      intro he
      apply hne
      funext k
      simpa using congrFun he (Fin.natAdd 13 k)
    have hlt := accepted_lt_hammingDist h (passes_parity d) happ
    -- both words carry the same data, so only the four check positions can differ
    have hsub : (Finset.univ.filter fun p => Fin.append d q p ≠ Fin.append d (parity d) p) ⊆
        Finset.univ.map (Fin.natAddEmb 13) := by
      intro p hp
      induction p using Fin.addCases with
      | left j => simp at hp
      | right k => exact Finset.mem_map.mpr ⟨k, Finset.mem_univ k, rfl⟩
    have hle := Finset.card_le_card hsub
    rw [Finset.card_map, Finset.card_univ, Fintype.card_fin] at hle
    exact absurd hlt (not_lt.mpr hle)
  · rintro rfl
    exact passes_parity d

/-- The checker accepts data followed by check symbols exactly when the feedback loop
computes these check symbols. -/
theorem isCodewordValid_append_iff (d : Fin 13 → Symbol) (q : Fin 4 → Symbol) (rest : List ℤ) :
    isCodewordValid (stored d ++ stored q) = .ok true ↔
      feedback (stored d ++ rest) = .ok (.ofSymbols q) := by
  rw [← stored_append, feedback_stored, Except.ok.injEq, Register.ofSymbols_injective.eq_iff]
  exact (isCodewordValid_iff (Fin.append d q)).trans ((passes_append_iff d q).trans eq_comm)

end Owlchain.Crypto
