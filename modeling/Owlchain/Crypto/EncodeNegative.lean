import Owlchain.Crypto.Encode

/-! `encode` on negative numbers. The sign of the numeral becomes a digit -3, so the
first pass carries a negative running value that writes nothing. If the digits run out
before that value leaves the range of an `int`, it is stored in the codeword as it is, and
the checksum then reads a table at a negative index. If it does leave the range, it comes
back as a number that is not negative, at the ninth or the tenth digit, and from there on
the conversion is that of another number, one that still fits into thirteen symbols. -/

namespace Owlchain.Crypto

open Owlchain.Library Loop Radix Owlchain.Crypto.Symbol

/-! ### The sign as a digit -/

theorem longToString_neg (m : ℕ) (hm : 0 < m) :
    longToString (-m) = '-' :: (decimal m).map Nat.digitChar := by
  have hneg : -(m : ℤ) < 0 := by omega
  have hne : -(m : ℤ) ≠ 0 := by omega
  simp only [longToString, hneg, hne, if_true, if_false, Int.natAbs_neg,
    Int.natAbs_natCast, decimal, lowDigits, hm.ne']

theorem plainDigits_neg (m : ℕ) (hm : 0 < m) (hlen : (decimal m).length < base10Length) :
    plainDigits (longToString (-m)) =
      .ok (-3 :: (ints (decimal m) ++
        List.replicate (base10Length - ((decimal m).length + 1)) 0)) := by
  rw [longToString_neg m hm, plainDigits_eq _ (by simpa using hlen), List.map_cons,
    map_charDigit _ (decimal_lt m), List.length_cons, List.length_map]
  rfl

/-- The running value after the sign and the digits `ds`, as long as it fits. -/
def signed (ds : List ℕ) : ℤ := value 10 ds - 3 * 10 ^ ds.length

theorem signed_concat (ds : List ℕ) (d : ℕ) : signed (ds ++ [d]) = signed ds * 10 + d := by
  simp only [signed, value_concat, List.length_append, List.length_singleton, pow_succ]
  push_cast
  ring

theorem signed_take_succ (ds : List ℕ) {k : ℕ} (hk : k < ds.length) :
    signed (ds.take (k + 1)) = signed (ds.take k) * 10 + (ds[k] : ℕ) := by
  rw [← signed_concat, List.take_concat_get' ds k hk]

theorem value_lt_pow {ds : List ℕ} (hds : ∀ d ∈ ds, d < 10) : value 10 ds < 10 ^ ds.length := by
  have h :=
    Nat.ofDigits_lt_base_pow_length (b := 10) (l := ds.reverse) (by omega) (by simpa using hds)
  rwa [List.length_reverse] at h

theorem signed_bounds {ds : List ℕ} (hds : ∀ d ∈ ds, d < 10) :
    -3 * 10 ^ ds.length ≤ signed ds ∧ signed ds < -2 * 10 ^ ds.length := by
  have h := value_lt_pow hds
  zify at h
  have hvalue : (0 : ℤ) ≤ value 10 ds := Int.natCast_nonneg _
  rw [signed]
  constructor <;> linarith

theorem signed_neg {ds : List ℕ} (hds : ∀ d ∈ ds, d < 10) : signed ds < 0 := by
  have hpos : (0 : ℤ) < 10 ^ ds.length := by positivity
  have h := (signed_bounds hds).2
  omega

theorem signed_take_bounds {ds : List ℕ} (hds : ∀ d ∈ ds, d < 10) {k : ℕ} (hk : k ≤ ds.length) :
    -3 * 10 ^ k ≤ signed (ds.take k) ∧ signed (ds.take k) < -2 * 10 ^ k := by
  have htake : ∀ d ∈ ds.take k, d < 10 := fun d hd => hds d (List.mem_of_mem_take hd)
  have h := signed_bounds htake
  rwa [List.length_take_of_le hk] at h

/-! ### The first pass -/

/-- A negative running value writes nothing. -/
theorem encodeStep_negative {a : List ℤ} {i : ℕ} {x d : ℤ} (hread : load a i = .ok d)
    (hlo : -2147483648 ≤ x * 10 + d) (hneg : x * 10 + d < 0) :
    encodeStep ⟨a, 0, x⟩ i = .ok ⟨a, 0, x * 10 + d⟩ := by
  have hint : int32 (x * 10 + d) = x * 10 + d := int32_eq 0 (by ring) hlo (by omega)
  rw [encodeStep, convertStep_eq 10 32 _ _ (s := ⟨a, 0, x⟩) hread hint, if_neg (by omega),
    if_neg (by simp)]

theorem reads_negative (ds : List ℕ) (hds : ∀ d ∈ ds, d < 10) (hfits : -2147483648 ≤ signed ds)
    (tail : List ℤ) :
    (List.range (ds.length + 1)).foldlM encodeStep ⟨-3 :: (ints ds ++ tail), 0, 0⟩ =
      .ok ⟨-3 :: (ints ds ++ tail), 0, signed ds⟩ := by
  induction ds using List.reverseRecOn generalizing tail with
  | nil => rfl
  | append_singleton ds d ih =>
    have hprev : ∀ x ∈ ds, x < 10 := fun x hx => hds x (by simp [hx])
    have hd : d < 10 := hds d (by simp)
    have hneg := signed_neg hds
    rw [signed_concat] at hfits hneg
    have harray : ints (ds ++ [d]) ++ tail = ints ds ++ ((d : ℤ) :: tail) := by simp
    have hread : load (-3 :: (ints ds ++ ((d : ℤ) :: tail))) ((ds.length + 1 : ℕ) : ℤ) =
        .ok (d : ℤ) := by
      rw [load_natCast (by simp)]
      simp [List.getElem_append_right]
    rw [List.length_append, List.length_singleton, List.range_succ, List.foldlM_append, harray,
      ih hprev (by omega) _, ok_bind, List.foldlM_cons,
        encodeStep_negative hread hfits hneg, ok_bind,
      signed_concat]
    rfl

/-- The step that brings the running value back to `v`. From here on the pass is one over the
digit `v`, which it takes for the first one. -/
theorem encodeStep_wraps (y : ℤ) (front rest : List ℤ) {i v : ℕ} {x d : ℤ} (hi : front.length = i)
    (hread : load (y :: (front ++ rest)) i = .ok d) (hv : int32 (x * 10 + d) = v) :
    ∃ gap, encodeStep ⟨y :: (front ++ rest), 0, x⟩ i = .ok (passState 10 32 [v] gap rest) ∧
      (divide 10 32 [v]).1.length + gap.length = i + 1 := by
  obtain ⟨quotient, remainder, heq, hq, hr⟩ := encodeStep_exact.step_eq
  have hstep := convertStep_eq (10 : ℕ) (32 : ℕ) quotient remainder
    (s := ⟨y :: (front ++ rest), 0, x⟩) hread hv
  have hdivide : divide 10 32 [v] = if 32 ≤ v then ([v / 32], v % 32) else ([], v) := by
    simp [divide, divStep]
  have hwrite : ∀ z, store (y :: (front ++ rest)) ((0 : ℕ) : ℤ) z = .ok (z :: (front ++ rest)) :=
    fun z => store_natCast (by simp) z
  simp only [hwrite, hq, hr, Nat.cast_le, Except.map] at hstep
  rw [heq, hstep]
  simp only [passState, hdivide]
  split_ifs with hle hpos
  · exact ⟨front, by simp, by simp [hi]; omega⟩
  · omega
  · exact ⟨y :: front, by simp, by simp [hi]⟩

theorem pass_wraps (p r : List ℕ) (d : ℕ) (hp : ∀ x ∈ p, x < 10) (hr : ∀ x ∈ r, x < 10)
    (hfits : -2147483648 ≤ signed p) {v : ℕ} (hv : int32 (signed p * 10 + d) = v) (tail : List ℤ) :
    ∃ gap, (List.range ((p ++ d :: r).length + 1)).foldlM encodeStep
      ⟨-3 :: (ints (p ++ d :: r) ++ tail), 0, 0⟩ = .ok (passState 10 32 (v :: r) gap tail) := by
  have hlength : (p ++ d :: r).length + 1 = p.length + 1 + 1 + r.length := by simp; omega
  have hsplit : ints (p ++ d :: r) ++ tail = ints p ++ ((d : ℤ) :: (ints r ++ tail)) := by simp
  have hfront : -3 :: (ints p ++ ((d : ℤ) :: (ints r ++ tail))) =
      -3 :: ((ints p ++ [(d : ℤ)]) ++ (ints r ++ tail)) := by simp
  have hread : load (-3 :: ((ints p ++ [(d : ℤ)]) ++ (ints r ++ tail))) ((p.length + 1 : ℕ) : ℤ) =
      .ok (d : ℤ) := by
    rw [load_natCast (by simp)]
    simp [List.getElem_append_right]
  obtain ⟨gap, hwrap, hgap⟩ := encodeStep_wraps (-3) (ints p ++ [(d : ℤ)]) (ints r ++ tail)
    (by simp) hread hv
  obtain ⟨gap', hrest, -, -⟩ := read_passState encodeStep_exact r
    (fun x hx => by have := hr x hx; omega) tail [v] gap hgap
  refine ⟨gap', ?_⟩
  rw [hlength, List.range_add, List.foldlM_append, List.range_succ, List.foldlM_append, hsplit,
    reads_negative p hp hfits, ok_bind, List.foldlM_cons, hfront, hwrap, ok_bind, List.foldlM_nil]
  change List.foldlM encodeStep _ ((List.range r.length).map _) = _
  rw [List.foldlM_map]
  exact hrest

/-- The digit at index `k` brings the value back, `turns` times around the range. -/
theorem wrap_at (ds : List ℕ) (turns : ℤ) {k : ℕ} {x : ℤ} (hk : k < ds.length) (h8 : 8 ≤ k)
    (hfits : -2147483648 ≤ signed (ds.take k)) (hx : signed (ds.take (k + 1)) = x)
    (hlo : 0 ≤ x + turns * 4294967296) (hhi : x + turns * 4294967296 < 2147483648) :
    ∃ (p r : List ℕ) (d v : ℕ), ds = p ++ d :: r ∧ -2147483648 ≤ signed p ∧
      int32 (signed p * 10 + d) = v ∧ v < 2147483648 ∧ r.length + 9 ≤ ds.length := by
  refine ⟨ds.take k, ds.drop (k + 1), ds[k], (x + turns * 4294967296).toNat, ?_, hfits,
    ?_, by omega, by rw [List.length_drop]; omega⟩
  · rw [← List.drop_eq_getElem_cons hk, List.take_append_drop]
  · rw [← signed_take_succ ds hk, hx]
    exact int32_eq turns (Int.toNat_of_nonneg hlo) (by omega) (by omega)

/-- The ninth or the tenth digit brings the value back. -/
theorem exists_wrap (ds : List ℕ) (hds : ∀ d ∈ ds, d < 10) (h : signed ds < -2147483648) :
    ∃ (p r : List ℕ) (d v : ℕ), ds = p ++ d :: r ∧ -2147483648 ≤ signed p ∧
      int32 (signed p * 10 + d) = v ∧ v < 2147483648 ∧ r.length + 9 ≤ ds.length := by
  have h9 : 8 < ds.length := by
    by_contra hle
    have hpow : (10 : ℤ) ^ ds.length ≤ 10 ^ 8 := pow_le_pow_right₀ (by omega) (by omega)
    have hbounds := signed_bounds hds
    omega
  have hat8 := signed_take_bounds hds (k := 8) (by omega)
  have hat9 := signed_take_bounds hds (k := 9) h9
  by_cases hlow : signed (ds.take 9) < -2147483648
  · exact wrap_at ds 1 (x := signed (ds.take 9)) h9 le_rfl (by omega) rfl (by omega) (by omega)
  · have h10 : 9 < ds.length := by
      by_contra hle
      rw [List.take_of_length_le (by omega)] at hlow
      exact hlow h
    have hat10 := signed_take_bounds hds (k := 10) h10
    have hnext : signed (ds.take 10) = _ := signed_take_succ ds h10
    exact wrap_at ds 5 (x := signed (ds.take 10)) h10 (by omega) (by omega) rfl
      (by omega) (by omega)

/-! ### Both ways the loop can end -/

/-- A value that never leaves the range ends up in the codeword. -/
theorem convert_negative (ds : List ℕ) (hds : ∀ d ∈ ds, d < 10) (hfits : -2147483648 ≤ signed ds)
    (tail : List ℤ) :
    convert encodeStep putDigit 18 (-3 :: (ints ds ++ tail)) (ds.length + 1)
        (List.replicate initialCodeword.length 0, 0) =
          .ok (signed ds :: List.replicate 16 0, 1) := by
  rw [convert, reads_negative ds hds hfits, ok_bind]
  rfl

/-- A value that leaves the range makes the loop convert some other number. -/
theorem convert_wraps (ds : List ℕ) (hds : ∀ d ∈ ds, d < 10) (h : signed ds < -2147483648)
    (hlen : ds.length ≤ 19) (tail : List ℤ) :
    ∃ n < 32 ^ 13, convert encodeStep putDigit 18 (-3 :: (ints ds ++ tail)) (ds.length + 1)
        (List.replicate initialCodeword.length 0, 0) =
      .ok (stored (dataSymbols n) ++ List.replicate 4 0, (lowDigits 32 n).length) := by
  obtain ⟨p, r, d, v, rfl, hfits, hv, hlt, hr⟩ := exists_wrap ds hds h
  have hrest : ∀ x ∈ r, x < 10 := fun x hx => hds x (by simp [hx])
  obtain ⟨gap, hpass⟩ := pass_wraps p r d (fun x hx => hds x (by simp [hx])) hrest hfits hv tail
  rw [passState, List.append_assoc] at hpass
  have hn : value 10 (v :: r) < 32 ^ 13 := by
    have hvalue := value_lt_pow hrest
    have hpow : 10 ^ r.length ≤ 10 ^ 10 := Nat.pow_le_pow_right (by omega) (by omega)
    rw [value_cons]
    calc v * 10 ^ r.length + value 10 r < v * 10 ^ r.length + 10 ^ r.length := by omega
      _ = (v + 1) * 10 ^ r.length := by ring
      _ ≤ 2147483648 * 10 ^ 10 := Nat.mul_le_mul hlt hpow
      _ < 32 ^ 13 := by norm_num
  obtain ⟨hdiv, -⟩ := value_divide (b := 10) (by omega : 0 < 32) (v :: r)
  have hquotient : ∀ x ∈ (divide 10 32 (v :: r)).1, x < 67108874 :=
    divide_digit_lt (m := 2147483648) (by omega) (by omega) (by
      intro x hx
      rcases List.mem_cons.mp hx with rfl | hx
      · exact hlt
      · have := hrest x hx
        omega)
  have hlow : (lowDigits 32 (value 10 (v :: r) / 32)).length ≤ 13 :=
    length_lowDigits_le ((Nat.div_le_self _ _).trans_lt hn)
  refine ⟨value 10 (v :: r), hn, ?_⟩
  rw [convert_of_pass encodeStep_exact putDigit hpass, putDigit_lowDigits _ hn]
  intro _ out
  rw [convert_eq encodeStep_exact (m := 67108874) (by omega)
    (by omega) putDigit 17 _ _ out hquotient
    (by rw [hdiv]; omega), hdiv]

/-! ### Safe inputs -/

/-- `encode` finishes, and what its loop has stored are base-32 digits, at most thirteen. -/
def EncodeSafe (plain : ℤ) : Prop :=
  ∃ plainString10 codeword codewordLength cypherString,
    plainDigits (longToString plain) = .ok plainString10 ∧
    convert encodeStep putDigit 18 plainString10 (longToString plain).length
      (List.replicate initialCodeword.length 0, 0) = .ok (codeword, codewordLength) ∧
    codewordLength ≤ 13 ∧ (∀ digit ∈ codeword, 0 ≤ digit ∧ digit ≤ 31) ∧
    encode plain = .ok cypherString

theorem encodeSafe_of_convert {plain : ℤ} {plainString10 : List ℤ} {n : ℕ} (hn : n < 32 ^ 13)
    (hplain : plainDigits (longToString plain) = .ok plainString10)
    (hconvert : convert encodeStep putDigit 18 plainString10 (longToString plain).length
      (List.replicate initialCodeword.length 0, 0) =
        .ok (stored (dataSymbols n) ++ List.replicate 4 0, (lowDigits 32 n).length)) :
    EncodeSafe plain := by
  have hdigits : encodeDigits plain = .ok (stored (dataSymbols n) ++ List.replicate 4 0) := by
    simp only [encodeDigits, hplain, ok_bind, hconvert]
    rfl
  refine ⟨_, _, _, _, hplain, hconvert, length_lowDigits_le hn, ?_,
    encode_of_encodeDigits hdigits⟩
  intro digit hdigit
  rcases List.mem_append.mp hdigit with hmem | hmem
  · obtain ⟨j, rfl⟩ := List.mem_ofFn.mp hmem
    have hlt : (dataSymbols n j).toInt < 32 := Int.ofNat_lt.mpr (Fin.isLt _)
    have hnonneg : 0 ≤ (dataSymbols n j).toInt := Int.natCast_nonneg _
    omega
  · rw [List.eq_of_mem_replicate hmem]
    omega

theorem encodeSafe_natCast (n : ℕ) (hn : n < 2 ^ 63) : EncodeSafe n := by
  refine encodeSafe_of_convert (long_lt hn) (plainDigits_natCast n hn) ?_
  rw [length_longToString_natCast, convert_natCast n hn]

/-- A negative number is safe exactly if the running value leaves the range of an `int`. -/
theorem encodeSafe_neg_iff (m : ℕ) (hm : 0 < m) (hle : m ≤ 2 ^ 63) :
    EncodeSafe (-m) ↔ signed (decimal m) < -2147483648 := by
  have hlen : (decimal m).length ≤ 19 := length_decimal_le (by omega) (hle.trans_lt (by norm_num))
  have hplain := plainDigits_neg m hm (by rw [base10Length]; omega)
  have hlength : (longToString (-m)).length = (decimal m).length + 1 := by
    rw [longToString_neg m hm, List.length_cons, List.length_map]
  constructor
  · rintro ⟨plainString10, codeword, codewordLength, cypherString, h10, hconvert, -, hdigits, -⟩
    by_contra hfits
    rw [hplain, Except.ok.injEq] at h10
    subst h10
    rw [hlength, convert_negative _ (decimal_lt m) (not_lt.mp hfits), Except.ok.injEq,
      Prod.mk.injEq] at hconvert
    have hnonneg :=
      (hdigits (signed (decimal m)) (by rw [← hconvert.1]; exact List.mem_cons_self)).1
    have hneg := signed_neg (decimal_lt m)
    omega
  · intro h
    obtain ⟨n, hn, hconvert⟩ := convert_wraps (decimal m) (decimal_lt m) h hlen
      (List.replicate (base10Length - ((decimal m).length + 1)) 0)
    exact encodeSafe_of_convert hn hplain (by rw [hlength, hconvert])

theorem signed_decimal_iff (m : ℕ) :
    signed (decimal m) < -2147483648 ↔ 1000000000 ≤ m ∨ (100000000 ≤ m ∧ m < 852516352) := by
  have hvalue : signed (decimal m) = m - 3 * 10 ^ (decimal m).length := by
    rw [signed, value_decimal]
  have hupper : (m : ℤ) < 10 ^ (decimal m).length := by
    have h := value_lt_pow (decimal_lt m)
    rw [value_decimal] at h
    exact_mod_cast h
  rw [hvalue]
  by_cases h8 : m < 10 ^ 8
  · have hlen : (10 : ℤ) ^ (decimal m).length ≤ 10 ^ 8 :=
      pow_le_pow_right₀ (by omega) (length_decimal_le (by omega) h8)
    omega
  · have hlen8 : 9 ≤ (decimal m).length := by
      by_contra hlt
      have : (10 : ℤ) ^ (decimal m).length ≤ 10 ^ 8 := pow_le_pow_right₀ (by omega) (by omega)
      omega
    by_cases h9 : m < 10 ^ 9
    · have hlen : (decimal m).length = 9 := le_antisymm (length_decimal_le (by omega) h9) hlen8
      rw [hlen]
      omega
    · have hlen9 : 10 ≤ (decimal m).length := by
        by_contra hlt
        have : (10 : ℤ) ^ (decimal m).length ≤ 10 ^ 9 := pow_le_pow_right₀ (by omega) (by omega)
        omega
      have hpow : (10 : ℤ) ^ 10 ≤ 10 ^ (decimal m).length := pow_le_pow_right₀ (by omega) hlen9
      omega

/-- The numbers on which `encode` is safe. -/
theorem encode_safe_iff (plain : ℤ) (hlo : -2 ^ 63 ≤ plain) (hhi : plain < 2 ^ 63) :
    EncodeSafe plain ↔ 0 ≤ plain ∨ plain ≤ -1000000000 ∨
      (-852516352 < plain ∧ plain ≤ -100000000) := by
  obtain ⟨n, rfl | rfl⟩ := Int.eq_nat_or_neg plain
  · exact iff_of_true (encodeSafe_natCast n (by omega)) (.inl (Int.natCast_nonneg n))
  · rcases Nat.eq_zero_or_pos n with rfl | hpos
    · exact iff_of_true (encodeSafe_natCast 0 (by omega)) (.inl (by simp))
    · rw [encodeSafe_neg_iff n hpos (by omega), signed_decimal_iff n]
      omega

/-- The least `long`. -/
theorem encode_safe_long_min : EncodeSafe (-2 ^ 63) :=
  (encode_safe_iff (-2 ^ 63) (by omega) (by omega)).mpr (.inr (.inl (by omega)))

/-- For -1 the stored digit is -29, and the checksum fails on it. -/
theorem not_encode_safe_neg_one : ¬ EncodeSafe (-1) ∧ encode (-1) = .error .range := by
  refine ⟨?_, by decide⟩
  rintro ⟨_, _, _, cypherString, -, -, -, -, hencode⟩
  rw [show encode (-1) = .error .range by decide] at hencode
  cases hencode

end Owlchain.Crypto
