import Owlchain.Crypto.Address
import Owlchain.Crypto.DecodeTotal

/-! Addresses with a prefix. The text is cut at its first dash, so a prefix without a
dash is found again whatever letters it has, and the dashes of the address itself do not
matter. A text with no dash at all is cut at position -1, which is not a rejection but an
error of the slice. -/

namespace Owlchain.Crypto

open Owlchain.Library Loop

/-! ### The cut -/

theorem decodeWithPrefix_append (pre : Text) {head : Text} (h : '-' ∉ head) (tail : Text) :
    decodeWithPrefix pre (head ++ '-' :: tail) =
      if pre = head then decode tail else .error .enforce := by
  have hhead : sliceInt (head ++ '-' :: tail) 0 (head.length : ℤ) = .ok head := by
    have := sliceInt_natCast (head ++ '-' :: tail) (Nat.zero_le head.length) (by simp)
    simpa using this
  have htail : sliceInt (head ++ '-' :: tail) ((head.length : ℤ) + 1)
      ((head ++ '-' :: tail).length : ℤ) = .ok tail := by
    have hle : head.length + 1 ≤ (head ++ '-' :: tail).length := by simp
    have := sliceInt_natCast (head ++ '-' :: tail) hle le_rfl
    rw [List.take_length, List.drop_append, List.drop_of_length_le (by simp)] at this
    simpa using this
  simp only [decodeWithPrefix, indexOf_append_cons h, hhead, htail, ok_bind, enforce]
  split_ifs with heq
  · rfl
  · rfl

/-- Without a dash the first slice is out of range. -/
theorem decodeWithPrefix_of_notMem (pre : Text) {s : Text} (h : '-' ∉ s) :
    decodeWithPrefix pre s = .error .range := by
  have hslice : sliceInt s 0 (-1) = .error .range := sliceInt_of_lt s (.inl (by decide))
  simp only [decodeWithPrefix, indexOf_eq_neg_one h, hslice, error_bind]

/-! ### Round trip -/

theorem encodeWithPrefix_natCast (p : Text) {n : ℕ} (hn : n < 2 ^ 63) :
    encodeWithPrefix p n = .ok (p ++ '-' :: address (codewordOf n)) := by
  rw [encodeWithPrefix, encode_natCast n hn, ok_bind, List.append_assoc]
  rfl

theorem decodeWithPrefix_encode (q : Text) {p : Text} (hp : '-' ∉ p) {n : ℕ} (hn : n < 2 ^ 63) :
    decodeWithPrefix q (p ++ '-' :: address (codewordOf n)) =
      if p = q then .ok (n : ℤ) else .error .enforce := by
  rw [decodeWithPrefix_append q hp, decode_address hn]
  exact if_congr eq_comm rfl rfl

/-- A prefix separates its addresses from those of every other prefix. -/
theorem prefix_separates (p q : Text) (hp : '-' ∉ p) (hq : '-' ∉ q) (x y : ℤ)
    (hx0 : 0 ≤ x) (hx1 : x ≤ 2 ^ 63 - 1) (hy0 : 0 ≤ y) (hy1 : y ≤ 2 ^ 63 - 1) :
    (∃ s, encodeWithPrefix p x = .ok s ∧
      decodeWithPrefix q s = if p = q then .ok x else .error .enforce) ∧
    (encodeWithPrefix p x = encodeWithPrefix q y → p = q ∧ x = y) := by
  obtain ⟨n, rfl⟩ := Int.eq_ofNat_of_zero_le hx0
  obtain ⟨m, rfl⟩ := Int.eq_ofNat_of_zero_le hy0
  have hn : n < 2 ^ 63 := by omega
  have hm : m < 2 ^ 63 := by omega
  refine ⟨⟨_, encodeWithPrefix_natCast p hn, decodeWithPrefix_encode q hp hn⟩, fun h => ?_⟩
  rw [encodeWithPrefix_natCast p hn, encodeWithPrefix_natCast q hm, Except.ok.injEq] at h
  -- decoding both with the second prefix tells the two pairs apart
  have hdecode := decodeWithPrefix_encode q hp hn
  rw [h, decodeWithPrefix_encode q hq hm, if_pos rfl] at hdecode
  split_ifs at hdecode with hpq
  exact ⟨hpq, (Except.ok.inj hdecode).symm⟩

/-- Two currencies with the same account number. -/
theorem prefix_separates_bos_trx : ∃ s, encodeWithPrefix "BOS".toList 7 = .ok s ∧
    decodeWithPrefix "TRX".toList s = .error .enforce := by
  obtain ⟨s, hs, hdecode⟩ := (prefix_separates "BOS".toList "TRX".toList (by decide) (by decide) 7 7
    (by decide) (by decide) (by decide) (by decide)).1
  exact ⟨s, hs, hdecode⟩

/-! ### Rejection -/

/-- What a caller may expect of `decodeWithPrefix`: a number comes from an address behind the
prefix, and everything else is refused by `enforce`. -/
structure RejectsCleanly (p s : Text) : Prop where
  sound : ∀ v, decodeWithPrefix p s = .ok v → '-' ∉ p ∧ ∃ t, s = p ++ '-' :: t ∧ decode t = .ok v
  clean : (¬ ∃ t v, '-' ∉ p ∧ s = p ++ '-' :: t ∧ decode t = .ok v) →
    decodeWithPrefix p s = .error .enforce

theorem rejectsCleanly_append (p : Text) {head : Text} (h : '-' ∉ head) (tail : Text) :
    RejectsCleanly p (head ++ '-' :: tail) := by
  refine ⟨fun v hv => ?_, fun hother => ?_⟩
  · rw [decodeWithPrefix_append p h] at hv
    split_ifs at hv with hp
    subst hp
    exact ⟨h, tail, rfl, hv⟩
  · rw [decodeWithPrefix_append p h]
    split_ifs with hp
    · rcases decode_enforce_or_ok tail with hrefused | ⟨v, hv⟩
      · exact hrefused
      · subst hp
        exact absurd ⟨tail, v, h, rfl, hv⟩ hother
    · rfl

/-- The rejection is clean exactly for the texts that have a dash. -/
theorem rejectsCleanly_iff (p s : Text) : RejectsCleanly p s ↔ '-' ∈ s := by
  constructor
  · intro h
    by_contra hdash
    have hclean := h.clean (by
      rintro ⟨t, v, -, rfl, -⟩
      exact hdash (by simp))
    rw [decodeWithPrefix_of_notMem p hdash] at hclean
    cases hclean
  · intro hdash
    obtain ⟨head, tail, rfl, h⟩ := List.eq_append_cons_of_mem hdash
    exact rejectsCleanly_append p h tail

/-- The empty text is a range error. -/
theorem not_rejectsCleanly_empty :
    decodeWithPrefix "BOS".toList [] = .error .range ∧ ¬ RejectsCleanly "BOS".toList [] := by
  refine ⟨rfl, fun h => ?_⟩
  have hclean := h.clean (by
    rintro ⟨t, v, -, hs, -⟩
    cases hs)
  cases hclean

end Owlchain.Crypto
