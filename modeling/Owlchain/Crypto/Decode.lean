import Owlchain.Crypto.Letters

/-! `decode` on every string. The base conversion always ends and yields the decimal
numeral of the thirteen data digits, so the outcome depends on the letters alone: more
than seventeen are refused, exactly seventeen are always accepted, and fewer are
accepted when the codeword they leave half filled passes the check. -/

namespace Owlchain.Crypto

open Owlchain.Library Loop Radix Owlchain.Crypto.Symbol
open PowerCheck (Passes)

/-! ### The base conversion -/

/-- The data digits of a codeword, least significant first. -/
def dataDigits (d : Fin 13 → Symbol) : List ℕ := List.ofFn fun j => Fin.val (d j)

@[simp] theorem length_dataDigits (d : Fin 13 → Symbol) : (dataDigits d).length = 13 := by
  simp [dataDigits]

/-- The number that thirteen data symbols denote. -/
def dataValue (d : Fin 13 → Symbol) : ℕ := Nat.ofDigits 32 (dataDigits d)

theorem dataDigits_lt (d : Fin 13 → Symbol) : ∀ x ∈ dataDigits d, x < 32 := by
  intro x hx
  obtain ⟨j, rfl⟩ := List.mem_ofFn.mp hx
  exact Fin.isLt (d j)

theorem dataValue_lt (d : Fin 13 → Symbol) : dataValue d < 32 ^ 13 := by
  have h := Nat.ofDigits_lt_base_pow_length (by decide : 1 < 32) (dataDigits_lt d)
  rwa [length_dataDigits] at h

theorem putChar_foldlM (ds : List ℕ) (out : Text) :
    ds.foldlM (fun o (d : ℕ) => putChar o d) out =
      .ok (out ++ ds.map fun d : ℕ => digitChar d) := by
  induction ds generalizing out with
  | nil => simp; rfl
  | cons d ds ih =>
    rw [List.foldlM_cons]
    change ds.foldlM (fun o (d : ℕ) => putChar o d) (out ++ [digitChar d]) = _
    rw [ih]
    simp

theorem cypherString32_stored (d : Fin 13 → Symbol) (rest : List ℤ) :
    cypherString32 (stored d ++ rest) = .ok (ints (dataDigits d).reverse) := by
  have hfill := fill_eq (ints (dataDigits d).reverse) (k := 13) (by simp) le_rfl
    (fun a i => do
      let c ← load (stored d ++ rest) (13 - i - 1 : ℕ)
      store a i c) (by
    intro a i hi
    have hi13 : i < 13 := by simpa using hi
    have hget : (ints (dataDigits d).reverse)[i] = (d ⟨13 - i - 1, by omega⟩).toInt := by
      simp only [ints, List.getElem_map, List.getElem_reverse, dataDigits, List.getElem_ofFn,
        List.length_ofFn, Nat.sub_right_comm]
      rfl
    rw [load_stored d rest (13 - i - 1) (by omega), ok_bind]
    exact congrArg (store a i) hget.symm)
  rw [Nat.sub_self, List.replicate_zero, List.append_nil] at hfill
  exact hfill

/-- The loop ends within twenty passes with the decimal digits of the data, least
significant first. -/
theorem decodeDigits_stored (d : Fin 13 → Symbol) (rest : List ℤ) :
    decodeDigits (stored d ++ rest) =
      .ok ((lowDigits 10 (dataValue d)).map fun x : ℕ => digitChar x) := by
  have hvalue : value 32 (dataDigits d).reverse = dataValue d := by
    rw [value, List.reverse_reverse, dataValue]
  have hlength : (lowDigits 10 (dataValue d)).length ≤ 20 :=
    lowDigits_length_le (by decide) (by decide) ((dataValue_lt d).trans (by decide))
  have hconvert :=
    convert_eq decodeStep_exact le_rfl (by decide) putChar 20 (dataDigits d).reverse []
    ([] : Text) (by simpa using dataDigits_lt d) (by rw [hvalue]; exact hlength)
  rw [List.length_reverse, length_dataDigits, hvalue, putChar_foldlM, List.append_nil,
    List.nil_append] at hconvert
  rw [decodeDigits, cypherString32_stored, ok_bind]
  exact hconvert

theorem charDigit_digitChar_natCast (x : ℕ) (hx : x < 10) : charDigit (digitChar x) = x := by
  revert x; decide

theorem bigInt_concat (s : Text) (c : Char) : bigInt (s ++ [c]) = bigInt s * 10 + charDigit c := by
  simp [bigInt, List.foldl_append]

/-- `BigInt` reads back the decimal digits. -/
theorem bigInt_reverse (ds : List ℕ) (hds : ∀ x ∈ ds, x < 10) :
    bigInt (ds.map fun x : ℕ => digitChar x).reverse = (Nat.ofDigits 10 ds : ℕ) := by
  induction ds with
  | nil => rfl
  | cons x ds ih =>
    rw [List.map_cons, List.reverse_cons, bigInt_concat, ih (fun y hy => hds y (by simp [hy])),
      charDigit_digitChar_natCast x (hds x (by simp)), Nat.ofDigits_cons]
    push_cast
    ring

/-! ### Outcomes -/

/-- The data part of a codeword. -/
def dataPart (u : Fin 17 → Symbol) : Fin 13 → Symbol := fun j => u (Fin.castAdd 4 j)

theorem stored_split (u : Fin 17 → Symbol) :
    stored u = stored (dataPart u) ++ stored fun k : Fin 4 => u (Fin.natAdd 13 k) := by
  rw [← stored_append]
  congr 1
  exact (Fin.append_castAdd_natAdd (m := 13) (n := 4)).symm

theorem decode_of_accepted {s : Text} {u : Fin 17 → Symbol} (hlen : (letters s).length ≤ 17)
    (hu : rebuild (letters s) = stored u) (h : (letters s).length = 17 ∨ Passes locator 4 u) :
    decode s = .ok (toLong (dataValue (dataPart u))) := by
  have haccept : acceptable (stored u) (letters s).length = .ok true := by
    unfold acceptable
    by_cases h17 : (letters s).length = 17
    · rw [h17]
      rfl
    · have hvalid := (isCodewordValid_iff u).mpr (h.resolve_left h17)
      rw [if_pos h17, hvalid]
      rfl
  have hdigits := decodeDigits_stored (dataPart u) (stored fun k : Fin 4 => u (Fin.natAdd 13 k))
  rw [← stored_split] at hdigits
  have hbig := bigInt_reverse (lowDigits 10 (dataValue (dataPart u))) (lowDigits_lt (by decide) _)
  rw [ofDigits_lowDigits] at hbig
  rw [decode, symbolLoop_eq, if_pos hlen, ok_bind, hu, haccept, ok_bind]
  simp only [enforce, if_true, ok_bind, hdigits, hbig]
  rfl

theorem decode_of_long {s : Text} (hlen : 17 < (letters s).length) :
    decode s = .error .enforce := by
  rw [decode, symbolLoop_eq, if_neg (by omega), error_bind]

theorem decode_of_rejected {s : Text} {u : Fin 17 → Symbol} (hlen : (letters s).length < 17)
    (hu : rebuild (letters s) = stored u) (h : ¬ Passes locator 4 u) :
    decode s = .error .enforce := by
  have hreject : acceptable (stored u) (letters s).length = .ok false := by
    rw [acceptable, if_pos hlen.ne, isCodewordValid_eq_false h, ok_bind]
    simp only [beq_eq_false_iff_ne.mpr hlen.ne]
    rfl
  rw [decode, symbolLoop_eq, if_pos hlen.le, ok_bind, hu, hreject, ok_bind]
  rfl

end Owlchain.Crypto
