import Owlchain.Crypto.Decode

/-! Which strings `decode` accepts. The guard was meant to demand seventeen letters
and a passing codeword. As written it takes every word of seventeen letters, and a
shorter one when the codeword it leaves half filled passes; that is the case exactly
for four letters or more that the letter of zero completes to a valid address. -/

namespace Owlchain.Crypto

open Owlchain.Library Owlchain.Crypto.Symbol
open PowerCheck (Passes)

/-- Seventeen letters whose codeword passes the check. -/
def ChecksumValid (w : Text) : Prop := w.length = 17 ∧ isCodewordValid (rebuild w) = .ok true

instance : DecidablePred ChecksumValid := fun w =>
  inferInstanceAs (Decidable (w.length = 17 ∧ isCodewordValid (rebuild w) = .ok true))

/-- The number that the thirteen data digits of a codeword denote. -/
def denoted (codeword : List ℤ) : ℤ := ∑ i ∈ Finset.range 13, codeword.getD i 0 * 32 ^ i

theorem denoted_stored (u : Fin 17 → Symbol) : denoted (stored u) = dataValue (dataPart u) := by
  have hget : ∀ j : Fin 13, (stored u).getD j 0 = (Fin.val (dataPart u j) : ℤ) := by
    intro j
    have h := getElem?_stored u (Fin.castAdd 4 j)
    rw [Fin.val_castAdd] at h
    rw [List.getD_eq_getElem?_getD, h]
    rfl
  rw [denoted, Finset.sum_range, dataValue, dataDigits, Radix.ofDigits_ofFn]
  push_cast
  exact Finset.sum_congr rfl (fun j _ => by rw [hget])

/-! ### Half-filled codewords -/

/-- Positions of later places keep their initial value. -/
theorem rebuild_getElem?_of_le (w : Text) (i : ℕ) (hw : w.length ≤ i) (hi : i < 17) :
    (rebuild w)[(order i : ℕ)]? = initialCodeword[(order i : ℕ)]? := by
  induction w using List.reverseRecOn with
  | nil => rfl
  | append_singleton w c ih =>
    rw [List.length_append, List.length_singleton] at hw
    have hne : (order w.length : ℕ) ≠ order i := by
      intro h
      have := order_injective (by omega) hi (Fin.ext h)
      omega
    rw [rebuild_concat, List.getElem?_set_ne hne, ih (by omega)]

theorem initialCodeword_order (i : ℕ) (h4 : 4 ≤ i) (hi : i < 17) :
    initialCodeword[(order i : ℕ)]? = some 0 := by
  have h : ∀ i < 17, 4 ≤ i → initialCodeword[(order i : ℕ)]? = some 0 := by decide
  exact h i hi h4

/-- From the fourth letter on, padding with the letter of zero stores what is there. -/
theorem rebuild_padded (w : Text) (h4 : 4 ≤ w.length) (k : ℕ) (hk : w.length + k ≤ 17) :
    rebuild (w ++ List.replicate k '2') = rebuild w := by
  induction k with
  | zero => simp
  | succ k ih =>
    have hlen : (w ++ List.replicate k '2').length = w.length + k := by simp
    have hcell :=
      rebuild_getElem?_of_le (w ++ List.replicate k '2') (w.length + k) hlen.le (by omega)
    rw [initialCodeword_order _ (by omega) (by omega), ih (by omega)] at hcell
    rw [List.replicate_succ', ← List.append_assoc, rebuild_concat, hlen, ih (by omega),
      show indexOf alpahbet '2' = 0 from rfl]
    obtain ⟨hlt, hget⟩ := List.getElem?_eq_some_iff.mp hcell
    have hset := List.set_getElem_self hlt
    rwa [hget] at hset

/-- With fewer than four letters the initial one is still in place, and at most three
other symbols differ from zero. -/
theorem not_passes_of_lt_four {w : Text} {u : Fin 17 → Symbol} (hlen : w.length < 4)
    (hu : rebuild w = stored u) : ¬ Passes locator 4 u := by
  have hcell : ∀ i, w.length ≤ i → i < 17 →
      some (u (order i)).toInt = initialCodeword[(order i : ℕ)]? := by
    intro i hi h17
    rw [← rebuild_getElem?_of_le w i hi h17, hu, getElem?_stored]
  have hone : u (order 3) ≠ 0 := by
    intro h0
    have h3 := hcell 3 (by omega) (by omega)
    rw [h0] at h3
    exact absurd h3 (by decide)
  intro hpass
  have hsub : (Finset.univ.filter fun p => u p ≠ 0) ⊆ (Finset.range 4).image order := by
    intro p hp
    obtain ⟨i, hi, rfl⟩ := order_surjective p
    rw [Finset.mem_filter] at hp
    by_contra hnot
    have h4 : 4 ≤ i := by
      by_contra hlt
      exact hnot (Finset.mem_image_of_mem _ (Finset.mem_range.mpr (by omega)))
    have h0 := hcell i (by omega) hi
    rw [initialCodeword_order i h4 hi, Option.some.injEq, toInt_eq_zero] at h0
    exact hp.2 h0
  have hnorm : hammingNorm u ≤ 4 :=
    (Finset.card_le_card hsub).trans (Finset.card_image_le.trans (by simp))
  have hzero := PowerCheck.eq_zero_of_passes locator_injective locator_ne_zero hpass hnorm
  exact hone (by rw [hzero]; rfl)

/-- The short words that pass are those that zeros complete to a valid address. -/
theorem passes_short_iff {w : Text} {u : Fin 17 → Symbol} (hlen : w.length < 17)
    (hu : rebuild w = stored u) :
    Passes locator 4 u ↔ 4 ≤ w.length ∧
      ChecksumValid (w ++ List.replicate (17 - w.length) '2') := by
  by_cases h4 : 4 ≤ w.length
  · have hpad := rebuild_padded w h4 (17 - w.length) (by omega)
    have hfull : (w ++ List.replicate (17 - w.length) '2').length = 17 := by simp; omega
    rw [ChecksumValid, hpad, hu, isCodewordValid_iff]
    simp [h4, hfull]
  · simp only [h4, false_and, iff_false]
    exact not_passes_of_lt_four (by omega) hu

/-! ### The guard -/

/-- What the guard of `decode` is for: a value comes back for words of seventeen
letters that pass the check and for no others. -/
structure AcceptsExactly (s : Text) : Prop where
  sound : ∀ v, decode s = .ok v → ChecksumValid (letters s)
  complete : ChecksumValid (letters s) → denoted (rebuild (letters s)) < 2 ^ 63 →
    ∃ v, decode s = .ok v
  rejects : ¬ ChecksumValid (letters s) → decode s = .error .enforce

theorem checksumValid_iff {w : Text} {u : Fin 17 → Symbol} (hlen : w.length = 17)
    (hu : rebuild w = stored u) : ChecksumValid w ↔ Passes locator 4 u := by
  rw [ChecksumValid, hu, isCodewordValid_iff]
  simp [hlen]

theorem acceptsExactly_of_error {s : Text} (hnot : ¬ ChecksumValid (letters s))
    (hdecode : decode s = .error .enforce) : AcceptsExactly s where
  sound v hv := by rw [hdecode] at hv; cases hv
  complete hvalid := absurd hvalid hnot
  rejects _ := hdecode

/-- The guard does its work exactly on words that are too long, on valid addresses, and
on short words that zeros do not complete to a valid address. -/
theorem acceptsExactly_iff (s : Text) : AcceptsExactly s ↔
    17 < (letters s).length ∨ ChecksumValid (letters s) ∨
      (letters s).length < 17 ∧ ((letters s).length < 4 ∨
        ¬ ChecksumValid (letters s ++ List.replicate (17 - (letters s).length) '2')) := by
  obtain ⟨u, hu⟩ := exists_rebuild_eq (letters s) (fun c hc => mem_of_mem_letters hc)
  rcases lt_trichotomy (letters s).length 17 with hlt | heq | hgt
  · have hnot : ¬ ChecksumValid (letters s) := fun h => hlt.ne h.1
    have hpass := passes_short_iff hlt hu
    constructor
    · intro h
      refine .inr (.inr ⟨hlt, ?_⟩)
      by_contra hcon
      rw [not_or, not_lt, not_not, ← hpass] at hcon
      exact hnot (h.sound _ (decode_of_accepted hlt.le hu (.inr hcon)))
    · rintro (h | h | ⟨-, h⟩)
      · omega
      · exact absurd h hnot
      · have hdecode := decode_of_rejected hlt hu (by rw [hpass, not_and_or, not_le]; exact h)
        exact acceptsExactly_of_error hnot hdecode
  · have hdecode := decode_of_accepted heq.le hu (.inl heq)
    constructor
    · intro h
      exact .inr (.inl (h.sound _ hdecode))
    · rintro (h | h | ⟨h, -⟩)
      · omega
      · exact ⟨fun _ _ => h, fun _ _ => ⟨_, hdecode⟩, fun hc => absurd h hc⟩
      · omega
  · have hnot : ¬ ChecksumValid (letters s) := fun h => hgt.ne' h.1
    exact ⟨fun _ => .inl hgt, fun _ => acceptsExactly_of_error hnot (decode_of_long hgt)⟩

/-- The address of account 0 with its last symbol mistyped decodes to another account. -/
theorem not_acceptsExactly_mistyped : ¬ AcceptsExactly "2222-2222-2222-22223".toList := by
  intro h
  have hvalid := h.sound 36028797018963968 (by decide)
  exact absurd hvalid (by decide)

end Owlchain.Crypto
