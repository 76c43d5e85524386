import Owlchain.Crypto.Checksum
import Owlchain.Crypto.Conversion

/-! `encode` on account numbers. The decimal numeral is loaded digit by digit, the
conversion leaves the base-32 digits of the number in the first thirteen cells of
the codeword, the feedback loop fills the other four, and the codeword is written
out in the order of the codeword map. No access leaves its array. -/

namespace Owlchain.Crypto

open Owlchain.Library Loop Radix Owlchain.Crypto.Symbol

/-! ### Decimal input -/

theorem longToString_natCast (n : ℕ) :
    longToString n = (lowDigits 10 n).reverse.map Nat.digitChar := by
  unfold longToString lowDigits
  have hneg : ¬ (n : ℤ) < 0 := by omega
  rw [if_neg hneg]
  by_cases h0 : n = 0
  · simp [h0]
  · simp [h0]

theorem charDigit_digitChar (d : ℕ) (hd : d < 10) : charDigit (Nat.digitChar d) = d := by
  revert d; decide

/-- The characters are stored as digits one by one, whatever they are. -/
theorem plainDigits_eq (s : Text) (hlen : s.length ≤ base10Length) :
    plainDigits s = .ok (s.map charDigit ++ List.replicate (base10Length - s.length) 0) := by
  unfold plainDigits
  apply fill_eq (s.map charDigit) (List.length_map charDigit) hlen
  intro a i hi
  rw [load_natCast (by simpa using hi), ok_bind, List.getElem_map]

theorem map_charDigit (ds : List ℕ) (hds : ∀ d ∈ ds, d < 10) :
    (ds.map Nat.digitChar).map charDigit = ints ds := by
  rw [List.map_map, ints]
  exact List.map_congr_left (fun d hd => charDigit_digitChar d (hds d hd))

/-! ### Base-32 digits -/

/-- The thirteen base-32 digits of a number, least significant first. -/
def dataSymbols (n : ℕ) : Fin 13 → Symbol := fun j => ofNat (n / 32 ^ (j : ℕ) % 32)

theorem putDigit_foldlM (ds : List ℕ) (hlen : ds.length ≤ 17) :
    ds.foldlM (fun o (d : ℕ) => putDigit o d) (List.replicate 17 0, 0) =
      .ok (ints ds ++ List.replicate (17 - ds.length) 0, ds.length) := by
  induction ds using List.reverseRecOn with
  | nil => rfl
  | append_singleton ds d ih =>
    have hlt : ds.length < 17 := by simpa using hlen
    have hzeros : List.replicate (17 - ds.length) (0 : ℤ) =
        0 :: List.replicate (17 - (ds.length + 1)) 0 := by
      rw [show 17 - ds.length = 17 - (ds.length + 1) + 1 by omega]; rfl
    have hstore := store_behind (ints ds) 0 (List.replicate (17 - (ds.length + 1)) 0) (d : ℤ)
    rw [length_ints] at hstore
    rw [List.foldlM_append, ih hlt.le, ok_bind, List.foldlM_cons, putDigit, hzeros, hstore,
      ints_append, ints_cons, ints_nil, List.length_append, List.length_singleton,
      List.append_assoc, List.singleton_append]
    rfl

theorem length_lowDigits_le {n : ℕ} (hn : n < 32 ^ 13) : (lowDigits 32 n).length ≤ 13 :=
  lowDigits_length_le (by omega) (by omega) hn

/-- Every `long` that is not negative fits into thirteen symbols. -/
theorem long_lt {n : ℕ} (hn : n < 2 ^ 63) : n < 32 ^ 13 := hn.trans (by norm_num)

/-- The zero-padded digit list is the stored data. -/
theorem padded_lowDigits (n : ℕ) (hn : n < 32 ^ 13) :
    ints (lowDigits 32 n) ++ List.replicate (17 - (lowDigits 32 n).length) 0 =
      stored (dataSymbols n) ++ List.replicate 4 0 := by
  have hlen := length_lowDigits_le hn
  apply List.ext_getElem
  · simp; omega
  · intro i h₁ h₂
    have hi : i < 17 := by simpa using h₂
    have hdigit : n / 32 ^ i % 32 = (lowDigits 32 n).getD i 0 :=
      (lowDigits_getD (by decide) n i).symm
    have hleft : (ints (lowDigits 32 n) ++ List.replicate (17 - (lowDigits 32 n).length) 0)[i] =
        ((n / 32 ^ i % 32 : ℕ) : ℤ) := by
      rw [hdigit]
      by_cases hin : i < (lowDigits 32 n).length
      · rw [List.getElem_append_left (by simpa using hin)]
        rw [List.getD_eq_getElem _ _ hin]
        simp [ints]
      · rw [List.getElem_append_right (by simp; omega)]
        rw [List.getD_eq_default _ _ (not_lt.mp hin)]
        simp
    rw [hleft]
    by_cases h13 : i < 13
    · rw [List.getElem_append_left (by simpa using h13)]
      simp only [stored, List.getElem_ofFn, dataSymbols]
      rw [toInt_ofNat (Nat.mod_lt _ (by decide))]
    · rw [List.getElem_append_right (by simp; omega), hdigit,
        List.getD_eq_default _ _ (by omega), List.getElem_replicate]
      rfl

/-- The digits that the loop emits for `n`, as `codeword` and `codeword_length`. -/
theorem putDigit_lowDigits (n : ℕ) (hn : n < 32 ^ 13) :
    (lowDigits 32 n).foldlM (fun o (d : ℕ) => putDigit o d)
      (List.replicate initialCodeword.length 0, 0) =
      .ok (stored (dataSymbols n) ++ List.replicate 4 0, (lowDigits 32 n).length) := by
  have hlen := length_lowDigits_le hn
  have hput := putDigit_foldlM (lowDigits 32 n) (by omega)
  rw [padded_lowDigits n hn] at hput
  exact hput

/-- The decimal digits of an account number, most significant first. -/
def decimal (n : ℕ) : List ℕ := (lowDigits 10 n).reverse

theorem decimal_lt (n : ℕ) : ∀ d ∈ decimal n, d < 10 := by
  intro d hd
  exact lowDigits_lt (by decide) n d (List.mem_reverse.mp hd)

@[simp] theorem value_decimal (n : ℕ) : value 10 (decimal n) = n := by
  rw [decimal, value, List.reverse_reverse, ofDigits_lowDigits]

theorem length_decimal_le {n k : ℕ} (hk : 0 < k) (hn : n < 10 ^ k) : (decimal n).length ≤ k := by
  rw [decimal, List.length_reverse]
  exact lowDigits_length_le (by decide) hk hn

theorem convert_natCast (n : ℕ) (hn : n < 2 ^ 63) (tail : List ℤ) :
    convert encodeStep putDigit 18 (ints (decimal n) ++ tail) (decimal n).length
        (List.replicate initialCodeword.length 0, 0) =
      .ok (stored (dataSymbols n) ++ List.replicate 4 0, (lowDigits 32 n).length) := by
  have h32 := length_lowDigits_le (long_lt hn)
  rw [convert_eq encodeStep_exact le_rfl (by decide) putDigit 18 (decimal n) tail _ (decimal_lt n)
    (by rw [value_decimal]; omega), value_decimal, putDigit_lowDigits n (long_lt hn)]

theorem plainDigits_natCast (n : ℕ) (hn : n < 2 ^ 63) :
    plainDigits (longToString n) =
      .ok (ints (decimal n) ++ List.replicate (base10Length - (decimal n).length) 0) := by
  have hlen : (decimal n).length ≤ base10Length :=
    length_decimal_le (by decide) (hn.trans (by decide))
  rw [longToString_natCast, ← decimal, plainDigits_eq _ (by simpa using hlen),
    map_charDigit _ (decimal_lt n), List.length_map]

theorem length_longToString_natCast (n : ℕ) : (longToString n).length = (decimal n).length := by
  rw [longToString_natCast, List.length_map, decimal]

theorem encodeDigits_natCast (n : ℕ) (hn : n < 2 ^ 63) :
    encodeDigits n = .ok (stored (dataSymbols n) ++ List.replicate 4 0) := by
  rw [encodeDigits]
  simp only [plainDigits_natCast n hn, ok_bind, length_longToString_natCast, convert_natCast n hn]
  rfl

/-! ### The written address -/

/-- The character of a symbol. -/
def letter (a : Symbol) : Char := alpahbet.getD (Fin.val a) '2'

theorem load_alpahbet (a : Symbol) : load alpahbet a.toInt = .ok (letter a) := by
  revert a; decide

/-- The codeword position written at place `i`. -/
def order (i : ℕ) : Fin 17 := ⟨(codeworkMap.getD i 0).toNat % 17, Nat.mod_lt _ (by decide)⟩

theorem load_codeworkMap (i : ℕ) (hi : i < 17) : load codeworkMap i = .ok (order i : ℤ) := by
  revert i; decide

/-- What one round of the output loop writes. -/
def written (w : Fin 17 → Symbol) (i : ℕ) : Text :=
  if (i + 1) % 4 = 0 ∧ i < 13 then [letter (w (order i)), '-'] else [letter (w (order i))]

def address (w : Fin 17 → Symbol) : Text := (List.range 17).flatMap (written w)

theorem cypherStep_stored (w : Fin 17 → Symbol) (out : Text) (i : ℕ) (hi : i < 17) :
    cypherStep (stored w) out i = .ok (out ++ written w i) := by
  have hload := load_stored w [] (order i) (order i).isLt
  rw [List.append_nil] at hload
  simp only [cypherStep, load_codeworkMap i hi, ok_bind, hload, load_alpahbet, written]
  split_ifs <;> simp <;> rfl

theorem cypherString_stored (w : Fin 17 → Symbol) : cypherString (stored w) = .ok (address w) := by
  obtain ⟨out, hout, h⟩ := foldlM_range (fun i out => out = (List.range i).flatMap (written w))
    (cypherStep (stored w)) 17 [] (by
      rintro i hi _ rfl
      exact ⟨_, cypherStep_stored w _ i hi, by simp [List.range_succ]⟩) rfl
  rw [cypherString, hout, h]
  rfl

/-- The codeword of an account number. -/
def codewordOf (n : ℕ) : Fin 17 → Symbol := Fin.append (dataSymbols n) (parity (dataSymbols n))

/-- `encode` completes and writes the data that the conversion leaves. -/
theorem encode_of_encodeDigits {plain : ℤ} {n : ℕ}
    (h : encodeDigits plain = .ok (stored (dataSymbols n) ++ List.replicate 4 0)) :
    encode plain = .ok (address (codewordOf n)) := by
  have htake : (stored (dataSymbols n) ++ List.replicate 4 0).take base32Length =
      stored (dataSymbols n) := by
    rw [List.take_append_of_le_length (by simp [base32Length]),
      List.take_of_length_le (by simp [base32Length])]
  rw [encode, h, ok_bind, feedback_stored, ok_bind, htake, Register.toList_ofSymbols,
    ← stored_append]
  exact cypherString_stored (codewordOf n)

/-- `encode` writes the codeword of the number. -/
theorem encode_natCast (n : ℕ) (hn : n < 2 ^ 63) : encode n = .ok (address (codewordOf n)) :=
  encode_of_encodeDigits (encodeDigits_natCast n hn)

end Owlchain.Crypto
