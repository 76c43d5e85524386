import Owlchain.Crypto.Decode

/-! `decode` on arbitrary text. It ends in one of two ways, with a number or with the
exception of `enforce`, and which of them it is depends on the letters of the text only. -/

namespace Owlchain.Crypto

open Owlchain.Library Loop Radix Owlchain.Crypto.Symbol
open PowerCheck (Passes)

/-- The symbol loop leaves a codeword of symbols. -/
theorem symbolLoop_stored {s : Text} {codeword : List ℤ} {codewordLength : ℕ}
    (h : symbolLoop s = .ok (codeword, codewordLength)) :
    ∃ u : Fin 17 → Symbol, codeword = stored u := by
  obtain ⟨u, hu⟩ := exists_rebuild_eq (letters s) (fun c hc => mem_of_mem_letters hc)
  rw [symbolLoop_eq] at h
  split_ifs at h with hlen
  cases h
  exact ⟨u, hu⟩

theorem digitChar_natCast (d : ℕ) (hd : d < 10) : digitChar d = Nat.digitChar d := by
  revert d; decide

/-- The characters of the conversion, reversed, are the decimal numeral of the data. -/
theorem decodeDigits_reverse (d : Fin 13 → Symbol) (rest : List ℤ) :
    ∃ out, decodeDigits (stored d ++ rest) = .ok out ∧
      out.reverse = longToString (dataValue d) := by
  refine ⟨_, decodeDigits_stored d rest, ?_⟩
  have hchars : (lowDigits 10 (dataValue d)).map (fun x : ℕ => digitChar x) =
      (lowDigits 10 (dataValue d)).map Nat.digitChar :=
    List.map_congr_left (fun x hx => digitChar_natCast x (lowDigits_lt (by omega) _ x hx))
  rw [hchars, longToString_natCast, List.map_reverse]

/-- A codeword that is accepted goes through the base conversion. -/
theorem decode_converts {s : Text} {u : Fin 17 → Symbol} (hlen : (letters s).length ≤ 17)
    (hu : rebuild (letters s) = stored u) (h : (letters s).length = 17 ∨ Passes locator 4 u) :
    ∃ out, symbolLoop s = .ok (stored u, (letters s).length) ∧ decodeDigits (stored u) = .ok out ∧
      out.reverse = longToString (dataValue (dataPart u)) ∧
      decode s = .ok (toLong (dataValue (dataPart u))) := by
  obtain ⟨out, hout, hnumeral⟩ :=
    decodeDigits_reverse (dataPart u) (stored fun k : Fin 4 => u (Fin.natAdd 13 k))
  rw [← stored_split] at hout
  exact ⟨out, by rw [symbolLoop_eq, if_pos hlen, hu], hout, hnumeral, decode_of_accepted hlen hu h⟩

theorem decode_enforce_or_converts (s : Text) :
    decode s = .error .enforce ∨ ∃ (u : Fin 17 → Symbol) (codewordLength : ℕ) (out : Text),
      symbolLoop s = .ok (stored u, codewordLength) ∧ decodeDigits (stored u) = .ok out ∧
      out.reverse = longToString (dataValue (dataPart u)) ∧
      decode s = .ok (toLong (dataValue (dataPart u))) := by
  obtain ⟨u, hu⟩ := exists_rebuild_eq (letters s) (fun c hc => mem_of_mem_letters hc)
  rcases lt_trichotomy (letters s).length 17 with hlt | heq | hgt
  · by_cases hpass : Passes locator 4 u
    · exact .inr ⟨u, _, decode_converts hlt.le hu (.inr hpass)⟩
    · exact .inl (decode_of_rejected hlt hu hpass)
  · exact .inr ⟨u, _, decode_converts heq.le hu (.inl heq)⟩
  · exact .inl (decode_of_long hgt)

theorem decode_enforce_or_ok (s : Text) : decode s = .error .enforce ∨ ∃ v, decode s = .ok v := by
  obtain h | ⟨_, _, _, -, -, -, h⟩ := decode_enforce_or_converts s
  · exact .inl h
  · exact .inr ⟨_, h⟩

/-- On every text `decode` ends, by `enforce` or with a number. In the second case it hands the
codeword of the symbol loop to the base conversion, whose characters, reversed, are the decimal
numeral of the data, and returns that number as a `long`. What the symbol loop leaves are always
symbols, and for any thirteen of them the conversion ends with the numeral of their value. -/
theorem decode_total (s : Text) :
    (decode s = .error .enforce ∨ ∃ (u : Fin 17 → Symbol) (codewordLength : ℕ) (out : Text),
      symbolLoop s = .ok (stored u, codewordLength) ∧ decodeDigits (stored u) = .ok out ∧
      out.reverse = longToString (∑ i : Fin 13, Fin.val (dataPart u i) * 32 ^ (i : ℕ) : ℕ) ∧
      decode s = .ok (toLong (∑ i : Fin 13, Fin.val (dataPart u i) * 32 ^ (i : ℕ) : ℕ))) ∧
    (∀ codeword codewordLength, symbolLoop s = .ok (codeword, codewordLength) →
      ∃ u : Fin 17 → Symbol, codeword = stored u) ∧
    ∀ (d : Fin 13 → Symbol) (rest : List ℤ), ∃ out, decodeDigits (stored d ++ rest) = .ok out ∧
      out.reverse = longToString (∑ i : Fin 13, Fin.val (d i) * 32 ^ (i : ℕ) : ℕ) := by
  have hvalue : ∀ d : Fin 13 → Symbol, dataValue d = ∑ i : Fin 13, Fin.val (d i) * 32 ^ (i : ℕ) :=
    fun d => ofDigits_ofFn _
  simp only [← hvalue]
  exact ⟨decode_enforce_or_converts s, fun codeword n h => symbolLoop_stored h,
    decodeDigits_reverse⟩

/-- Texts with the same letters are decoded alike. -/
theorem decode_eq_of_letters (s t : Text) (h : s.filter (· ∈ alpahbet) = t.filter (· ∈ alpahbet)) :
    decode s = decode t := by
  have hletters : letters s = letters t := h
  have hloop : symbolLoop s = symbolLoop t := by rw [symbolLoop_eq, symbolLoop_eq, hletters]
  rw [decode, decode, hloop]

/-- Other groups, lower case and a blank between them. -/
theorem decode_eq_of_letters_spaced :
    decode "2223-2222-KB8Y-22222".toList = decode "x22 2322-22KB-01-8Y-222-22".toList :=
  decode_eq_of_letters _ _ (by decide)

end Owlchain.Crypto
