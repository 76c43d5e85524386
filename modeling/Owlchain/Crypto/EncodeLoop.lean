import Owlchain.Crypto.Encode

/-! The base conversion of `encode`, pass by pass. Every pass finds the decimal digits
of what is left of the number in the front of `plain_string_10` and leaves those of the
quotient there; while it runs, the cells it has not read yet are untouched and the whole
array holds decimal digits. The loop ends with the pass that leaves no digit, which is the
last base-32 digit of the number. -/

namespace Owlchain.Crypto

open Owlchain.Library Loop Radix Owlchain.Crypto.Symbol

/-! ### The number of passes -/

theorem length_lowDigits (b n : ℕ) : (lowDigits b n).length = max 1 (Nat.digits b n).length := by
  unfold lowDigits
  split_ifs with h0
  · simp [h0]
  · have hne := List.length_pos_iff.mpr (Nat.digits_ne_nil_iff_ne_zero.mpr h0 : Nat.digits b n ≠ [])
    exact (max_eq_right hne).symm

/-- A loop that has ended has made a pass for every digit. -/
theorem lowDigits_length_le_of_convert {σ : Type} {b c m : ℕ} {step : Pass → ℕ → Result Pass}
    (hs : Exact b c step) (hm : b * c + m ≤ m * c + b) (hfits : b * c + m ≤ 2147483648 + b)
    (emit : σ → ℤ → Result σ) :
    ∀ (passes : ℕ) (ds : List ℕ) (tail : List ℤ) (out out' : σ), (∀ d ∈ ds, d < m) →
      convert step emit passes (ints ds ++ tail) ds.length out = .ok out' →
      (lowDigits c (value b ds)).length ≤ passes
  | 0, _, _, _, _, _, h => by cases h
  | passes + 1, ds, tail, out, out', hds, h => by
    have hc : 0 < c := by have := hs.divisor; omega
    obtain ⟨junk, hpass⟩ := pass_eq hs ds (fun d hd => by have := hds d hd; omega) tail
    obtain ⟨hdiv, -⟩ := value_divide (b := b) hc ds
    by_cases hlt : value b ds < c
    · rw [lowDigits_of_lt hlt]
      simp
    · have hle : c ≤ value b ds := not_lt.mp hlt
      have hmore : 0 < (divide b c ds).1.length := by
        rw [length_pos_iff (b := b) (by have := hs.base; omega) (divide_head_ne hc ds), hdiv]
        exact (Nat.div_pos hle hc).ne'
      rw [convert, hpass, ok_bind] at h
      cases he : emit out (divide b c ds).2 with
      | error e => rw [he] at h; cases h
      | ok next =>
        rw [he, ok_bind, if_pos hmore] at h
        have hrest := lowDigits_length_le_of_convert hs hm hfits emit passes _ junk next out'
          (divide_digit_lt hm hc hds) h
        rw [hdiv] at hrest
        rw [lowDigits_of_le hs.divisor hle, List.length_cons]
        omega

/-! ### One pass -/

/-- An array of decimal digits. -/
def DecimalCells (a : List ℤ) : Prop := ∀ x ∈ a, 0 ≤ x ∧ x ≤ 9

theorem decimalCells_append {a a' : List ℤ} :
    DecimalCells (a ++ a') ↔ DecimalCells a ∧ DecimalCells a' := List.forall_mem_append

theorem decimalCells_ints {ds : List ℕ} (hds : ∀ d ∈ ds, d < 10) : DecimalCells (ints ds) := by
  intro x hx
  obtain ⟨d, hd, rfl⟩ := List.mem_map.mp hx
  have := hds d hd
  omega

/-- A pass that has read `i` of the digits: it has written at most `i` cells, the cells from
the read index on are as they were, and the array holds decimal digits. -/
theorem reads_decimal (ds : List ℕ) (hds : ∀ d ∈ ds, d < 10) (tail : List ℤ)
    (htail : DecimalCells tail) (i : ℕ) (hi : i ≤ ds.length) :
    ∃ m, (List.range i).foldlM encodeStep ⟨ints ds ++ tail, 0, 0⟩ = .ok m ∧ m.newLength ≤ i ∧
      m.digits.drop i = (ints ds ++ tail).drop i ∧ DecimalCells m.digits := by
  have htake : ∀ d ∈ ds.take i, d < 10 := fun d hd => hds d (List.mem_of_mem_take hd)
  have hdrop : ∀ d ∈ ds.drop i, d < 10 := fun d hd => hds d (List.mem_of_mem_drop hd)
  have hlen : (ds.take i).length = i := by simpa using hi
  have harray : ints ds ++ tail = ints (ds.take i) ++ (ints (ds.drop i) ++ tail) := by
    rw [← List.append_assoc, ← ints_append, List.take_append_drop]
  obtain ⟨gap, hread, hgap, hsub⟩ := reads_eq encodeStep_exact (ds.take i)
    (fun d hd => by have := htake d hd; omega) (ints (ds.drop i) ++ tail)
  rw [hlen] at hread hgap
  rw [harray]
  refine ⟨_, hread, by simp only [passState]; omega, ?_, ?_⟩
  · rw [passState, List.drop_left' (by rw [List.length_append, length_ints]; exact hgap),
      List.drop_left' (by rw [length_ints]; exact hlen)]
  · have hgapCells : DecimalCells gap := fun x hx => decimalCells_ints htake x (hsub hx)
    have hquotient := divide_digit_lt (b := 10) (c := 32) le_rfl (by decide) htake
    simp only [passState, decimalCells_append]
    exact ⟨⟨decimalCells_ints hquotient, hgapCells⟩, decimalCells_ints hdrop, htail⟩

/-- A whole pass over the digits `ds`. -/
theorem pass_decimal (ds : List ℕ) (hds : ∀ d ∈ ds, d < 10) (tail : List ℤ)
    (htail : DecimalCells tail) :
    ∃ junk, DecimalCells junk ∧ (List.range ds.length).foldlM encodeStep ⟨ints ds ++ tail, 0, 0⟩ =
      .ok ⟨ints (numeral 10 (value 10 ds / 32)) ++ junk, (numeral 10 (value 10 ds / 32)).length,
        (value 10 ds % 32 : ℕ)⟩ := by
  obtain ⟨gap, hread, -, hsub⟩ := reads_eq encodeStep_exact ds
    (fun d hd => by have := hds d hd; omega) tail
  have hgap : DecimalCells gap := fun x hx => decimalCells_ints hds x (hsub hx)
  refine ⟨gap ++ tail, decimalCells_append.mpr ⟨hgap, htail⟩, ?_⟩
  rw [hread, passState, divide_eq (by decide) (by decide) ds hds, List.append_assoc]

/-! ### The loop -/

/-- The digit array with its length, and the last remainder, after so many passes. -/
def afterPasses (start : Pass) : ℕ → Result Pass
  | 0 => .ok start
  | k + 1 => do
    let s ← afterPasses start k
    (List.range s.newLength).foldlM encodeStep ⟨s.digits, 0, 0⟩

/-- The digits that pass `k` starts from: those of `plain`, or what the pass before it left. -/
def dividend (n : ℕ) : ℕ → List ℕ
  | 0 => decimal n
  | k + 1 => numeral 10 (n / 32 ^ (k + 1))

theorem dividend_lt (n k : ℕ) : ∀ d ∈ dividend n k, d < 10 := by
  cases k with
  | zero => exact decimal_lt n
  | succ k => exact numeral_lt (by decide) _

@[simp] theorem value_dividend (n k : ℕ) : value 10 (dividend n k) = n / 32 ^ k := by
  cases k with
  | zero => simp [dividend]
  | succ k => simp [dividend]

/-- While the loop runs, something is left of the number. -/
theorem dividend_eq_decimal {n k : ℕ} (hk : k < (lowDigits 32 n).length) :
    dividend n k = decimal (n / 32 ^ k) := by
  cases k with
  | zero => simp [dividend]
  | succ k =>
    have hpow : 32 ^ (k + 1) ≤ n := by
      by_contra hlt
      have := lowDigits_length_le (c := 32) (by decide) k.succ_pos (not_le.mp hlt)
      omega
    have hne : n / 32 ^ (k + 1) ≠ 0 := (Nat.div_pos hpow (by positivity)).ne'
    rw [dividend, decimal, lowDigits, if_neg hne, numeral]

theorem afterPasses_eq (n : ℕ) (tail : List ℤ) (htail : DecimalCells tail) (k : ℕ) :
    ∃ junk digit, DecimalCells junk ∧
      afterPasses ⟨ints (decimal n) ++ tail, (decimal n).length, 0⟩ k =
        .ok ⟨ints (dividend n k) ++ junk, (dividend n k).length, digit⟩ := by
  induction k with
  | zero => exact ⟨tail, 0, htail, rfl⟩
  | succ k ih =>
    obtain ⟨junk, digit, hjunk, hk⟩ := ih
    obtain ⟨junk', hjunk', hpass⟩ := pass_decimal (dividend n k) (dividend_lt n k) junk hjunk
    refine ⟨junk', (n / 32 ^ k % 32 : ℕ), hjunk', ?_⟩
    rw [afterPasses, hk, ok_bind, hpass, value_dividend, Nat.div_div_eq_div_mul, ← pow_succ]
    rfl

/-- The loop makes these passes: after `k` of them it has handed on the first `k` digits of the
number, and it goes on with the array that they left. -/
theorem convert_afterPasses {σ : Type} (emit : σ → ℤ → Result σ) (n : ℕ) (tail : List ℤ)
    (htail : DecimalCells tail) : ∀ (k : ℕ) (s : Pass), k < (lowDigits 32 n).length →
      afterPasses ⟨ints (decimal n) ++ tail, (decimal n).length, 0⟩ k = .ok s →
      ∀ (p : ℕ) (out : σ),
        convert encodeStep emit (k + p) (ints (decimal n) ++ tail) (decimal n).length out =
          (List.range k).foldlM (fun o i => emit o ((n / 32 ^ i % 32 : ℕ) : ℤ)) out >>=
            convert encodeStep emit p s.digits s.newLength
  | 0, s, _, hs, p, out => by
    cases hs
    rw [Nat.zero_add]
    rfl
  | k + 1, s, hk, hs, p, out => by
    obtain ⟨junk, digit, hjunk, hbefore⟩ := afterPasses_eq n tail htail k
    obtain ⟨junk', -, hpass⟩ := pass_decimal (dividend n k) (dividend_lt n k) junk hjunk
    rw [value_dividend] at hpass
    rw [afterPasses, hbefore, ok_bind, hpass] at hs
    cases hs
    -- something is left after this pass, so the test of the loop is true
    have hmore : 0 < (numeral 10 (n / 32 ^ k / 32)).length := by
      rw [Nat.div_div_eq_div_mul, ← pow_succ]
      change 0 < (dividend n (k + 1)).length
      rw [dividend_eq_decimal hk, decimal, List.length_reverse]
      exact Nat.lt_of_lt_of_le Nat.one_pos (by rw [length_lowDigits]; exact le_max_left _ _)
    have hrest := convert_afterPasses emit n tail htail k _ (by omega) hbefore (p + 1) out
    rw [Nat.add_assoc, Nat.add_comm 1 p, hrest, List.range_succ, List.foldlM_append, bind_assoc]
    congr 1
    funext out
    rw [convert, hpass, ok_bind]
    simp only [if_pos hmore, List.foldlM_cons, List.foldlM_nil, bind_pure]

/-- What a pass over the digits of `v` does, from state `s` to state `t`. -/
structure PassExact (v : ℕ) (s t : Pass) : Prop where
  dividend : s.digits.take s.newLength = ints (decimal v)
  quotient : t.digits.take t.newLength = ints (numeral 10 (v / 32))
  length : t.newLength = (numeral 10 (v / 32)).length
  remainder : t.digit = (v % 32 : ℕ)
  reading : ∀ i ≤ s.newLength, ∃ m, (List.range i).foldlM encodeStep ⟨s.digits, 0, 0⟩ = .ok m ∧
    m.newLength ≤ i ∧ m.digits.drop i = s.digits.drop i ∧ DecimalCells m.digits

theorem passExact_afterPasses (n : ℕ) (tail : List ℤ) (htail : DecimalCells tail) {k : ℕ}
    (hk : k < (lowDigits 32 n).length) :
    ∃ s t, afterPasses ⟨ints (decimal n) ++ tail, (decimal n).length, 0⟩ k = .ok s ∧
      afterPasses ⟨ints (decimal n) ++ tail, (decimal n).length, 0⟩ (k + 1) = .ok t ∧
      PassExact (n / 32 ^ k) s t := by
  obtain ⟨junk, digit, hjunk, hs⟩ := afterPasses_eq n tail htail k
  obtain ⟨junk', -, hpass⟩ := pass_decimal (dividend n k) (dividend_lt n k) junk hjunk
  rw [value_dividend] at hpass
  refine ⟨_, _, hs, by rw [afterPasses, hs, ok_bind, hpass], ?_, ?_, rfl, rfl, ?_⟩
  · rw [List.take_left' (length_ints _), dividend_eq_decimal hk]
  · rw [List.take_left' (length_ints _)]
  · exact reads_decimal (dividend n k) (dividend_lt n k) junk hjunk

/-- The conversion of an account number. The loop ends after as many passes as the number has
base-32 digits, one for zero and never more than thirteen. Every pass is an exact division in
place: whatever consumes the digits, the loop hands on one digit for each pass and goes on with
the quotient that it left. The codeword then holds the base-32 digits of the number, padded with
zeros. -/
theorem encode_conversion_exact (n : ℕ) (hn : n < 2 ^ 63) :
    ∃ start, plainDigits (longToString n) = .ok start ∧
      (∀ passes, (∃ out, convert encodeStep putDigit passes start (longToString n).length
        (List.replicate initialCodeword.length 0, 0) = .ok out) ↔
          max 1 (Nat.digits 32 n).length ≤ passes) ∧
      max 1 (Nat.digits 32 n).length ≤ 13 ∧
      (∀ k < max 1 (Nat.digits 32 n).length, ∃ s t,
        afterPasses ⟨start, (longToString n).length, 0⟩ k = .ok s ∧
        afterPasses ⟨start, (longToString n).length, 0⟩ (k + 1) = .ok t ∧
        PassExact (n / 32 ^ k) s t ∧
        ∀ (σ : Type) (emit : σ → ℤ → Result σ) (p : ℕ) (out : σ),
          convert encodeStep emit (k + p) start (longToString n).length out =
            (List.range k).foldlM (fun o i => emit o ((n / 32 ^ i % 32 : ℕ) : ℤ)) out >>=
              convert encodeStep emit p s.digits s.newLength) ∧
      ∃ codeword, encodeDigits n = .ok codeword ∧ codeword.length = 17 ∧
        ∀ j < 13, codeword[j]? = some ((n / 32 ^ j % 32 : ℕ) : ℤ) := by
  have hzeros : DecimalCells (List.replicate (base10Length - (decimal n).length) 0) := by
    intro x hx
    rw [List.eq_of_mem_replicate hx]
    decide
  rw [← length_lowDigits, length_longToString_natCast]
  refine ⟨_, plainDigits_natCast n hn, fun passes => ?_,
    length_lowDigits_le (long_lt hn),
    fun k hk => ?_, _, encodeDigits_natCast n hn, by simp, ?_⟩
  · constructor
    · rintro ⟨out, hout⟩
      simpa using lowDigits_length_le_of_convert encodeStep_exact le_rfl (by decide) putDigit passes
        (decimal n) _ _ out (decimal_lt n) hout
    · intro hle
      rw [convert_eq encodeStep_exact le_rfl (by decide) putDigit passes (decimal n) _ _
        (decimal_lt n) (by simpa using hle), value_decimal, putDigit_lowDigits n (long_lt hn)]
      exact ⟨_, rfl⟩
  · obtain ⟨s, t, hs, ht, hexact⟩ := passExact_afterPasses n _ hzeros hk
    exact ⟨s, t, hs, ht, hexact, fun _ emit => convert_afterPasses emit n _ hzeros k s hk hs⟩
  · intro j hj
    rw [List.getElem?_append_left (by simpa using hj), List.getElem?_eq_getElem (by simpa using hj)]
    simp only [stored, List.getElem_ofFn, dataSymbols]
    rw [toInt_ofNat (Nat.mod_lt _ (by decide))]

/-- The number 1024 has three digits in base 32. -/
theorem encode_conversion_exact_thousand : ∃ codeword, encodeDigits 1024 = .ok codeword ∧
    codeword[2]? = some 1 := by
  obtain ⟨_, -, -, -, -, codeword, hcodeword, -, hdigit⟩ := encode_conversion_exact 1024 (by decide)
  exact ⟨codeword, hcodeword, hdigit 2 (by decide)⟩

end Owlchain.Crypto
