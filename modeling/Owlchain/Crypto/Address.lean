import Mathlib.Tactic.IntervalCases
import Owlchain.Crypto.Acceptance

/-! Addresses and account numbers. On the non-negative `long` values encoding and
decoding are inverse, and every written address passes its own check. In the other
direction a valid address is the address of the number it decodes to exactly when its
data fit in a `long`: thirteen digits span 65 bits, and `toLong` saturates. -/

namespace Owlchain.Crypto

open Owlchain.Library Owlchain.Crypto.Symbol
open PowerCheck (Passes)

/-! ### Data digits -/

theorem dataDigits_dataSymbols (n : ℕ) :
    dataDigits (dataSymbols n) = List.ofFn fun j : Fin 13 => n / 32 ^ (j : ℕ) % 32 := by
  unfold dataDigits dataSymbols
  congr 1
  funext j
  exact Nat.mod_eq_of_lt (Nat.mod_lt _ (by decide))

theorem dataValue_dataSymbols {n : ℕ} (hn : n < 32 ^ 13) : dataValue (dataSymbols n) = n := by
  rw [dataValue, dataDigits_dataSymbols, Radix.ofDigits_ofFn_div, Nat.mod_eq_of_lt hn]

theorem dataDigits_injective : Function.Injective dataDigits := by
  intro d e h
  funext j
  exact Fin.ext (congrFun (List.ofFn_injective h) j)

theorem dataValue_injective : Function.Injective dataValue := by
  intro d e h
  apply dataDigits_injective
  exact Nat.ofDigits_inj_of_len_eq (by decide : 1 < 32) (by simp) (dataDigits_lt d)
    (dataDigits_lt e) h

/-- Data symbols are the digits of the number they denote. -/
theorem dataSymbols_dataValue (d : Fin 13 → Symbol) : dataSymbols (dataValue d) = d :=
  dataValue_injective (dataValue_dataSymbols (dataValue_lt d))

theorem dataPart_codewordOf (n : ℕ) : dataPart (codewordOf n) = dataSymbols n := by
  funext j
  exact Fin.append_left (dataSymbols n) (parity (dataSymbols n)) j

/-- A passing word is the codeword of its data. -/
theorem eq_codewordOf {u : Fin 17 → Symbol} (h : Passes locator 4 u) :
    u = codewordOf (dataValue (dataPart u)) := by
  have hsplit : Fin.append (dataPart u) (fun k : Fin 4 => u (Fin.natAdd 13 k)) = u :=
    Fin.append_castAdd_natAdd (m := 13) (n := 4)
  rw [codewordOf, dataSymbols_dataValue]
  rw [← hsplit, passes_append_iff] at h
  rw [← h]
  exact hsplit.symm

/-! ### Round trip -/

theorem address_eq (u : Fin 17 → Symbol) : address u =
    [letter (u 3), letter (u 2), letter (u 1), letter (u 0), '-',
      letter (u 7), letter (u 6), letter (u 5), letter (u 4), '-',
      letter (u 13), letter (u 14), letter (u 15), letter (u 16), '-',
      letter (u 12), letter (u 8), letter (u 9), letter (u 10), letter (u 11)] := rfl

/-- An address has twenty characters, three of them dashes. -/
theorem address_layout (u : Fin 17 → Symbol) : (address u).length = 20 ∧
    ∀ i < 20, if i = 4 ∨ i = 9 ∨ i = 14 then (address u)[i]? = some '-'
      else ∃ c ∈ alpahbet, (address u)[i]? = some c := by
  refine ⟨rfl, fun i hi => ?_⟩
  rw [address_eq]
  interval_cases i <;> simp [letter_mem]

theorem decode_codewordOf {n : ℕ} (hn : n < 32 ^ 13) :
    decode (address (codewordOf n)) = .ok (toLong n) := by
  have hletters := letters_address (codewordOf n)
  have hlen : (letters (address (codewordOf n))).length = 17 := by rw [hletters, length_lettersOf]
  have hdecode := decode_of_accepted hlen.le (by rw [hletters, rebuild_lettersOf]) (.inl hlen)
  rwa [dataPart_codewordOf, dataValue_dataSymbols hn] at hdecode

theorem decode_address {n : ℕ} (hn : n < 2 ^ 63) : decode (address (codewordOf n)) = .ok n := by
  rw [decode_codewordOf (long_lt hn), toLong, if_pos]
  unfold longMax
  omega

/-- Every non-negative `long` is encoded without an access out of range, in the fixed
layout, and decodes to itself. -/
theorem decode_encode (plain : ℤ) (h0 : 0 ≤ plain) (h1 : plain ≤ 2 ^ 63 - 1) :
    ∃ s, encode plain = .ok s ∧ s.length = 20 ∧
      (∀ i < 20, if i = 4 ∨ i = 9 ∨ i = 14 then s[i]? = some '-'
        else ∃ c ∈ alpahbet, s[i]? = some c) ∧
      decode s = .ok plain := by
  obtain ⟨n, rfl⟩ := Int.eq_ofNat_of_zero_le h0
  have hn : n < 2 ^ 63 := by omega
  obtain ⟨hlength, hlayout⟩ := address_layout (codewordOf n)
  exact ⟨_, encode_natCast n hn, hlength, hlayout, decode_address hn⟩

theorem decode_encode_billion : ∃ s, encode 1000000000 = .ok s ∧ decode s = .ok 1000000000 := by
  obtain ⟨s, hs, -, -, hdecode⟩ := decode_encode 1000000000 (by decide) (by decide)
  exact ⟨s, hs, hdecode⟩

theorem isCodewordValid_codewordOf (n : ℕ) : isCodewordValid (stored (codewordOf n)) = .ok true :=
  (isCodewordValid_iff _).mpr (passes_parity (dataSymbols n))

/-- The checker accepts a word exactly when its check symbols are those of the feedback
loop; so it accepts the codeword that the symbol loop of `decode` rebuilds from a written
address. -/
theorem isCodewordValid_iff_feedback :
    (∀ (d : Fin 13 → Symbol) (q : Fin 4 → Symbol) (rest : List ℤ),
      isCodewordValid (stored d ++ stored q) = .ok true ↔
        feedback (stored d ++ rest) = .ok (.ofSymbols q)) ∧
    (∀ plain : ℤ, 0 ≤ plain → plain ≤ 2 ^ 63 - 1 →
      ∃ s codeword, encode plain = .ok s ∧ symbolLoop s = .ok (codeword, 17) ∧
        isCodewordValid codeword = .ok true) := by
  refine ⟨isCodewordValid_append_iff, ?_⟩
  intro plain h0 h1
  obtain ⟨n, rfl⟩ := Int.eq_ofNat_of_zero_le h0
  refine ⟨_, stored (codewordOf n), encode_natCast n (by omega), ?_, isCodewordValid_codewordOf n⟩
  rw [symbolLoop_eq, letters_address, length_lettersOf, if_pos le_rfl, rebuild_lettersOf]

theorem isCodewordValid_encode_one :
    ∃ s codeword, encode 1 = .ok s ∧ symbolLoop s = .ok (codeword, 17) ∧
      isCodewordValid codeword = .ok true :=
  isCodewordValid_iff_feedback.2 1 (by decide) (by decide)

/-! ### Canonical addresses -/

/-- A valid address stands for one number only: the number it decodes to is written with
the same letters, and data that do not fit in a `long` are refused. -/
structure Canonical (s : Text) : Prop where
  same_letters : ∀ v, decode s = .ok v → ∃ t, encode v = .ok t ∧ letters t = letters s
  refuses : longMax < denoted (rebuild (letters s)) → decode s = .error .enforce

/-- What `decode` returns for a valid address. -/
theorem decode_checksumValid {s : Text} (h : ChecksumValid (letters s)) :
    ∃ n < 32 ^ 13, denoted (rebuild (letters s)) = (n : ℕ) ∧
      letters s = lettersOf (codewordOf n) ∧ decode s = .ok (toLong n) := by
  obtain ⟨u, hu⟩ := exists_rebuild_eq (letters s) (fun c hc => mem_of_mem_letters hc)
  have hcode := eq_codewordOf ((checksumValid_iff h.1 hu).mp h)
  refine ⟨dataValue (dataPart u), dataValue_lt _, by rw [hu, denoted_stored], ?_,
    decode_of_accepted h.1.le hu (.inl h.1)⟩
  rw [← hcode]
  exact eq_lettersOf (fun c hc => mem_of_mem_letters hc) h.1 hu

theorem encode_toLong {n : ℕ} (hn : (n : ℤ) ≤ longMax) :
    ∃ t, encode (toLong n) = .ok t ∧ letters t = lettersOf (codewordOf n) := by
  rw [toLong, if_pos hn]
  unfold longMax at hn
  exact ⟨_, encode_natCast n (by omega), letters_address _⟩

theorem checksumValid_address (n : ℕ) : ChecksumValid (letters (address (codewordOf n))) := by
  rw [ChecksumValid, letters_address, rebuild_lettersOf]
  exact ⟨length_lettersOf _, isCodewordValid_codewordOf n⟩

theorem lettersOf_codewordOf_injective {m n : ℕ} (hm : m < 32 ^ 13) (hn : n < 32 ^ 13)
    (h : lettersOf (codewordOf m) = lettersOf (codewordOf n)) : m = n := by
  have hdenoted : ∀ k < 32 ^ 13, denoted (rebuild (lettersOf (codewordOf k))) = (k : ℕ) := by
    intro k hk
    rw [rebuild_lettersOf, denoted_stored, dataPart_codewordOf, dataValue_dataSymbols hk]
  exact Int.ofNat_inj.mp (by rw [← hdenoted m hm, ← hdenoted n hn, h])

/-- Another number that is read as the same `long`. -/
theorem exists_ne_toLong_eq {n : ℕ} (hle : 2 ^ 63 - 1 ≤ n) :
    ∃ m < 32 ^ 13, m ≠ n ∧ toLong m = toLong n := by
  unfold toLong longMax
  by_cases hmax : n = 2 ^ 63 - 1
  · exact ⟨2 ^ 63, by norm_num, by omega, by rw [hmax]; norm_num⟩
  · refine ⟨2 ^ 63 - 1, by norm_num, Ne.symm hmax, ?_⟩
    rw [if_neg (by omega : ¬ (n : ℤ) ≤ 2 ^ 63 - 1)]
    norm_num

/-- A valid address is the only one for its number exactly when its data are below the largest
`long`, at which `toLong` gathers all the larger ones. -/
theorem decode_inj_iff {s : Text} (hs : ChecksumValid (letters s)) :
    (∀ t, ChecksumValid (letters t) → decode t = decode s → letters t = letters s) ↔
      denoted (rebuild (letters s)) < longMax := by
  obtain ⟨n, hbound, hn, hletters, hdecode⟩ := decode_checksumValid hs
  rw [hn, hletters, hdecode]
  unfold longMax
  constructor
  · intro honly
    by_contra hle
    obtain ⟨m, hm, hmn, htoLong⟩ := exists_ne_toLong_eq (n := n) (by omega)
    have hsame := honly _ (checksumValid_address m) (by rw [decode_codewordOf hm, htoLong])
    rw [letters_address] at hsame
    exact hmn (lettersOf_codewordOf_injective hm hbound hsame)
  · intro hlt t ht hsame
    obtain ⟨m, -, -, hletters', hdecode'⟩ := decode_checksumValid ht
    rw [hdecode', Except.ok.injEq] at hsame
    unfold toLong longMax at hsame
    have hmn : m = n := by split_ifs at hsame <;> omega
    rw [hletters', hmn]

/-- A valid address is canonical exactly when its data fit in a `long`. Of two whose data fit
only one decodes to a number, and below the largest `long` no other valid address at all does. -/
theorem canonical_iff (s : Text) (hs : ChecksumValid (letters s)) :
    (Canonical s ↔ denoted (rebuild (letters s)) ≤ longMax) ∧
    (denoted (rebuild (letters s)) ≤ longMax → ∀ t v, ChecksumValid (letters t) →
      denoted (rebuild (letters t)) ≤ longMax → decode s = .ok v → decode t = .ok v →
      letters s = letters t) ∧
    ((∀ t, ChecksumValid (letters t) → decode t = decode s → letters t = letters s) ↔
      denoted (rebuild (letters s)) < longMax) := by
  obtain ⟨n, -, hn, hletters, hdecode⟩ := decode_checksumValid hs
  refine ⟨⟨fun h => ?_, fun hle => ?_⟩, fun hfits t v ht hfits' hv hv' => ?_, decode_inj_iff hs⟩
  · by_contra hlt
    have herror := h.refuses (not_le.mp hlt)
    rw [hdecode] at herror
    cases herror
  · refine ⟨fun v hv => ?_, fun hlt => absurd hle (not_le.mpr hlt)⟩
    rw [hdecode, Except.ok.injEq] at hv
    rw [← hv, hletters]
    exact encode_toLong (hn ▸ hle)
  · obtain ⟨m, -, hm, hletters', hdecode'⟩ := decode_checksumValid ht
    rw [hdecode, Except.ok.injEq, toLong, if_pos (hn ▸ hfits)] at hv
    rw [hdecode', Except.ok.injEq, toLong, if_pos (hm ▸ hfits')] at hv'
    have hnm : n = m := by omega
    rw [hletters, hletters', hnm]

/-- Account number one, written with and without dashes. -/
theorem canonical_address_one : Canonical "2223-2222-KB8Y-22222".toList ∧
    letters "2223-2222-KB8Y-22222".toList = letters "22232222KB8Y22222".toList :=
  ⟨(canonical_iff _ (by decide)).1.mpr (by decide),
    (canonical_iff _ (by decide)).2.1 (by decide) _ 1 (by decide) (by decide) (by decide)
      (by decide)⟩

/-- The valid word of `2 ^ 63` is not refused: it decodes to the largest `long`, whose own
address has other letters. -/
theorem not_canonical_saturated :
    let s := "2222-2222-YVYK-A2222".toList
    ChecksumValid (letters s) ∧ decode s = .ok (2 ^ 63 - 1) ∧
      encode (2 ^ 63 - 1) = .ok "ZZZZ-ZZZZ-A7Y2-9ZZZZ".toList ∧ ¬ Canonical s := by
  have hdecode : decode "2222-2222-YVYK-A2222".toList = .ok (2 ^ 63 - 1) := by decide
  refine ⟨by decide, hdecode, by decide, fun h => ?_⟩
  have herror := h.refuses (by decide)
  rw [hdecode] at herror
  cases herror

end Owlchain.Crypto
