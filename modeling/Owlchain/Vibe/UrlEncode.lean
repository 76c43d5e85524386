import Owlchain.Vibe.MatchGraph

/-! URL encoding. `urlEncode` writes every byte that is not allowed as a percent sign and two
hexadecimal digits, `urlDecode` reads it back, and `isURLEncoded` says which texts can be
read. Form encoding also exchanges blanks and plus signs. Decoding is not idempotent: a text
that was decoded is only left alone by a second decoding if it has no percent sign. -/

namespace Owlchain.Vibe

open Owlchain.Library Loop

def percent : UInt8 := '%'.toUInt8

def plus : UInt8 := '+'.toUInt8

def blank : UInt8 := ' '.toUInt8

/-- The characters that are written as they are. -/
def isUnreserved (c : UInt8) : Bool :=
  c == '-'.toUInt8 || c == '.'.toUInt8 || ('0'.toUInt8 ≤ c && c ≤ '9'.toUInt8) ||
    ('A'.toUInt8 ≤ c && c ≤ 'Z'.toUInt8) ||
    c == '_'.toUInt8 || ('a'.toUInt8 ≤ c && c ≤ 'z'.toUInt8) || c == '~'.toUInt8

/-- A digit of `%02X`. -/
def upperHex (n : ℕ) : UInt8 := if n < 10 then UInt8.ofNat (48 + n) else UInt8.ofNat (55 + n)

/-- One turn of the loop of `filterURLEncode`. -/
def encodeByte (allowed : Bytes) (formEncoding : Bool) (c : UInt8) : Bytes :=
  if c = blank ∧ formEncoding then [plus]
  else if isUnreserved c then [c]
  else if c ∈ allowed then [c]
  else [percent, upperHex (c.toNat / 16), upperHex (c.toNat % 16)]

def filterURLEncode (str allowed : Bytes) (formEncoding : Bool) : Bytes :=
  str.flatMap (encodeByte allowed formEncoding)

/-- A text without anything to encode is returned as it is. -/
def urlEncode (str allowed : Bytes) : Bytes :=
  if str.all isUnreserved then str else filterURLEncode str allowed false

def formEncode (str allowed : Bytes) : Bytes := filterURLEncode str allowed true

/-- The value of a hexadecimal digit. -/
def hexValue (c : UInt8) : Option ℕ :=
  if '0'.toUInt8 ≤ c ∧ c ≤ '9'.toUInt8 then some (c.toNat - 48)
  else if 'A'.toUInt8 ≤ c ∧ c ≤ 'F'.toUInt8 then some (c.toNat - 55)
  else if 'a'.toUInt8 ≤ c ∧ c ≤ 'f'.toUInt8 then some (c.toNat - 87)
  else none

/-- `isCorrectHexNum`, for one character. -/
def isCorrectHexNum (c : UInt8) : Bool :=
  ('0'.toUInt8 ≤ c && c ≤ '9'.toUInt8) || ('A'.toUInt8 ≤ c && c ≤ 'F'.toUInt8) ||
    ('a'.toUInt8 ≤ c && c ≤ 'f'.toUInt8)

def isURLEncoded (reserved : Bytes) : Bytes → Bool
  | [] => true
  | c :: str =>
    if isUnreserved c then isURLEncoded reserved str
    else if c = percent then
      match str with
      | h :: l :: rest => isCorrectHexNum h && isCorrectHexNum l && isURLEncoded reserved rest
      | _ => false
    else if c ∈ reserved then false
    else isURLEncoded reserved str

/-- `parse!int(hex, 16)` reads both characters or leaves one of them over, which is an error. -/
def filterURLDecode (formEncoding : Bool) : Bytes → Result Bytes
  | [] => .ok []
  | c :: str =>
    if c = percent then
      match str with
      | h :: l :: rest =>
        match hexValue h, hexValue l with
        | some a, some b => (filterURLDecode formEncoding rest).map (UInt8.ofNat (16 * a + b) :: ·)
        | _, _ => .error .enforce
      | _ => .error .enforce
    else if c = plus ∧ formEncoding then (filterURLDecode formEncoding str).map (blank :: ·)
    else (filterURLDecode formEncoding str).map (c :: ·)

/-- A text without a percent sign is returned as it is. -/
def urlDecode (str : Bytes) : Result Bytes :=
  if percent ∈ str then filterURLDecode false str else .ok str

def formDecode (str : Bytes) : Result Bytes :=
  if percent ∈ str ∨ plus ∈ str then filterURLDecode true str else .ok str

/-! ### The plain paths -/

theorem filterURLDecode_of_ne {formEncoding : Bool} {c : UInt8} (hc : c ≠ percent)
    (hplus : ¬ (c = plus ∧ formEncoding)) (str : Bytes) :
    filterURLDecode formEncoding (c :: str) =
      (filterURLDecode formEncoding str).map (c :: ·) := by
  rw [filterURLDecode.eq_def]
  simp only [if_neg hc, if_neg hplus]

theorem filterURLDecode_plain {formEncoding : Bool} {str : Bytes} (hpercent : percent ∉ str)
    (hplus : formEncoding = true → plus ∉ str) : filterURLDecode formEncoding str = .ok str := by
  induction str with
  | nil => rfl
  | cons c str ih =>
    rw [List.mem_cons, not_or] at hpercent
    have hc : ¬ (c = plus ∧ formEncoding) :=
      fun h => hplus h.2 (by rw [h.1]; exact List.mem_cons_self)
    rw [filterURLDecode_of_ne (Ne.symm hpercent.1) hc,
      ih hpercent.2 fun h hmem => hplus h (List.mem_cons_of_mem c hmem)]
    rfl

/-- The shortcut of `urlDecode` changes nothing. -/
theorem urlDecode_eq (str : Bytes) : urlDecode str = filterURLDecode false str := by
  rw [urlDecode]
  split_ifs with h
  · rfl
  · exact (filterURLDecode_plain h (by simp)).symm

theorem formDecode_eq (str : Bytes) : formDecode str = filterURLDecode true str := by
  rw [formDecode]
  split_ifs with h
  · rfl
  · rw [not_or] at h
    exact (filterURLDecode_plain h.1 fun _ => h.2).symm

theorem encodeByte_unreserved {allowed : Bytes} {c : UInt8} (h : isUnreserved c = true) :
    encodeByte allowed false c = [c] := by
  rw [encodeByte, if_neg (by simp), if_pos h]

/-- The shortcut of `urlEncode` changes nothing. -/
theorem urlEncode_eq (str allowed : Bytes) :
    urlEncode str allowed = filterURLEncode str allowed false := by
  rw [urlEncode]
  split_ifs with h
  · rw [filterURLEncode, List.flatMap_congr fun c hc =>
      encodeByte_unreserved (List.all_eq_true.mp h c hc),
      List.flatMap_singleton']
  · rfl

/-! ### Round trips -/

theorem hexValue_upperHex : ∀ n < 16, hexValue (upperHex n) = some n := by decide

/-- Decoding undoes the encoding of one byte. -/
theorem filterURLDecode_encodeByte {allowed : Bytes} (hallowed : percent ∉ allowed)
    {formEncoding : Bool} (hplus : formEncoding = true → plus ∉ allowed) (c : UInt8)
    (rest : Bytes) :
    filterURLDecode formEncoding (encodeByte allowed formEncoding c ++ rest) =
      (filterURLDecode formEncoding rest).map (c :: ·) := by
  have hpercent : isUnreserved percent = false := by decide
  have hunreserved : isUnreserved plus = false := by decide
  have hplain : c ≠ percent → ¬ (c = plus ∧ formEncoding) →
      filterURLDecode formEncoding ([c] ++ rest) =
        (filterURLDecode formEncoding rest).map (c :: ·) :=
    fun h₁ h₂ => filterURLDecode_of_ne h₁ h₂ rest
  rw [encodeByte]
  split_ifs with hblank hun hmem
  · obtain ⟨rfl, rfl⟩ := hblank
    rw [List.singleton_append, filterURLDecode.eq_def]
    simp [show plus ≠ percent by decide]
  · refine hplain ?_ ?_
    · rintro rfl
      rw [hpercent] at hun
      cases hun
    · rintro ⟨rfl, -⟩
      rw [hunreserved] at hun
      cases hun
  · refine hplain (fun h => hallowed (h ▸ hmem)) ?_
    rintro ⟨rfl, hf⟩
    exact hplus hf hmem
  · have hlt := c.toNat_lt
    have hvalue : UInt8.ofNat (16 * (c.toNat / 16) + c.toNat % 16) = c := by
      rw [Nat.div_add_mod, UInt8.ofNat_toNat]
    simp only [List.cons_append, List.nil_append]
    rw [filterURLDecode.eq_def]
    simp only [if_true, hexValue_upperHex _ (by omega : c.toNat / 16 < 16),
      hexValue_upperHex _ (Nat.mod_lt _ (by decide)), hvalue]

theorem filterURLDecode_append {allowed : Bytes} (hallowed : percent ∉ allowed)
    {formEncoding : Bool} (hplus : formEncoding = true → plus ∉ allowed) (str rest : Bytes) :
    filterURLDecode formEncoding (filterURLEncode str allowed formEncoding ++ rest) =
      (filterURLDecode formEncoding rest).map (str ++ ·) := by
  induction str with
  | nil => cases h : filterURLDecode formEncoding rest <;> simp [filterURLEncode, h, Except.map]
  | cons c str ih =>
    rw [filterURLEncode, List.flatMap_cons, List.append_assoc,
      filterURLDecode_encodeByte hallowed hplus]
    rw [show str.flatMap (encodeByte allowed formEncoding) =
      filterURLEncode str allowed formEncoding from rfl, ih]
    cases filterURLDecode formEncoding rest <;> rfl

theorem filterURLDecode_filterURLEncode {allowed : Bytes} (hallowed : percent ∉ allowed)
    {formEncoding : Bool} (hplus : formEncoding = true → plus ∉ allowed) (str : Bytes) :
    filterURLDecode formEncoding (filterURLEncode str allowed formEncoding) = .ok str := by
  have := filterURLDecode_append hallowed hplus str []
  rw [List.append_nil] at this
  rw [this, filterURLDecode, Except.map, List.append_nil]

/-! ### Which texts can be decoded -/

theorem hexValue_isSome (c : UInt8) : (hexValue c).isSome = isCorrectHexNum c := by
  rw [hexValue, isCorrectHexNum]
  split_ifs <;> simp_all

theorem isURLEncoded_of_ne {c : UInt8} (hc : c ≠ percent) (str : Bytes) :
    isURLEncoded [] (c :: str) = isURLEncoded [] str := by
  rw [isURLEncoded.eq_def]
  simp [hc]

theorem isURLEncoded_percent (h l : UInt8) (rest : Bytes) :
    isURLEncoded [] (percent :: h :: l :: rest) =
      (isCorrectHexNum h && isCorrectHexNum l && isURLEncoded [] rest) := by
  rw [isURLEncoded.eq_def]
  simp [show isUnreserved percent = false by decide]

theorem map_eq_ok_iff {α β : Type} {f : α → β} {x : Result α} :
    (∃ b, x.map f = .ok b) ↔ ∃ a, x = .ok a := by
  cases x <;> simp [Except.map]

/-- `isURLEncoded` accepts exactly the texts that can be decoded. -/
theorem isURLEncoded_iff (str : Bytes) :
    isURLEncoded [] str = true ↔ ∃ out, urlDecode str = .ok out := by
  rw [urlDecode_eq]
  fun_induction filterURLDecode false str with
  | case1 => simp [isURLEncoded]
  | case2 h l rest a b hl hh ih =>
    rw [isURLEncoded_percent, ← hexValue_isSome, ← hexValue_isSome, hh, hl, map_eq_ok_iff, ← ih]
    simp
  | case3 h l rest hnot =>
    rw [isURLEncoded_percent, ← hexValue_isSome, ← hexValue_isSome]
    cases hh : hexValue h with
    | none => simp
    | some a =>
      cases hl : hexValue l with
      | none => simp
      | some b => exact (hnot a b hh hl).elim
  | case4 str hnot =>
    rw [isURLEncoded.eq_def]
    simp [show isUnreserved percent = false by decide]
  | case5 c str hc hplus => exact nomatch hplus.2
  | case6 c str hc hplus ih => rw [isURLEncoded_of_ne hc, map_eq_ok_iff, ih]

/-- A percent sign makes the decoded text shorter. -/
theorem length_of_filterURLDecode (str : Bytes) : ∀ out, filterURLDecode false str = .ok out →
    out.length ≤ str.length ∧ (percent ∈ str → out.length < str.length) := by
  fun_induction filterURLDecode false str with
  | case1 =>
    intro out h
    obtain rfl := Except.ok.inj h
    simp
  | case2 h l rest a b hl hh ih =>
    intro out hout
    cases hrest : filterURLDecode false rest with
    | error e => rw [hrest] at hout; cases hout
    | ok out' =>
      rw [hrest] at hout
      obtain rfl := Except.ok.inj hout
      have := (ih out' hrest).1
      simp only [List.length_cons]
      omega
  | case3 h l rest hnot => exact fun out h => nomatch h
  | case4 str hnot => exact fun out h => nomatch h
  | case5 c str hc hplus => exact nomatch hplus.2
  | case6 c str hc hplus ih =>
    intro out hout
    cases hrest : filterURLDecode false str with
    | error e => rw [hrest] at hout; cases hout
    | ok out' =>
      rw [hrest] at hout
      obtain rfl := Except.ok.inj hout
      obtain ⟨hle, hlt⟩ := ih out' hrest
      refine ⟨by simpa using hle, fun hmem => ?_⟩
      rcases List.mem_cons.mp hmem with heq | hmem
      · exact absurd heq.symm hc
      · simpa using hlt hmem

/-- Decoding leaves a text alone exactly if it has no percent sign. -/
theorem urlDecode_eq_self_iff (str : Bytes) : urlDecode str = .ok str ↔ percent ∉ str := by
  constructor
  · intro h hmem
    rw [urlDecode_eq] at h
    exact Nat.lt_irrefl _ ((length_of_filterURLDecode str str h).2 hmem)
  · intro h
    rw [urlDecode, if_neg h]

theorem urlDecode_urlEncode {allowed : Bytes} (hallowed : percent ∉ allowed) (str : Bytes) :
    urlDecode (urlEncode str allowed) = .ok str := by
  rw [urlEncode_eq, urlDecode_eq]
  exact filterURLDecode_filterURLEncode hallowed (by simp) str

theorem formDecode_formEncode {allowed : Bytes} (hallowed : percent ∉ allowed)
    (hplus : plus ∉ allowed) (str : Bytes) :
    formDecode (formEncode str allowed) = .ok str := by
  rw [formEncode, formDecode_eq]
  exact filterURLDecode_filterURLEncode hallowed (fun _ => hplus) str

/-- Encoding and decoding are inverse to each other exactly if no character that the decoder
interprets may be written as it is. -/
theorem url_codecs_inverse_iff (allowed : Bytes) :
    ((∀ str, urlDecode (urlEncode str allowed) = .ok str) ↔ percent ∉ allowed) ∧
      ((∀ str, formDecode (formEncode str allowed) = .ok str) ↔
        percent ∉ allowed ∧ plus ∉ allowed) := by
  have hpercent : ∀ form, percent ∈ allowed →
      filterURLEncode [percent] allowed form = [percent] := by
    intro form hmem
    rw [filterURLEncode, List.flatMap_singleton, encodeByte,
      if_neg (fun h => absurd h.1 (by decide)), if_neg (by decide), if_pos hmem]
  refine ⟨⟨fun h hmem => ?_, urlDecode_urlEncode⟩,
    ⟨fun h => ⟨fun hmem => ?_, fun hmem => ?_⟩, fun h => formDecode_formEncode h.1 h.2⟩⟩
  · have := h [percent]
    rw [urlEncode_eq, hpercent false hmem] at this
    cases this
  · have := h [percent]
    rw [formEncode, hpercent true hmem] at this
    cases this
  · have := h [plus]
    rw [formEncode, filterURLEncode, List.flatMap_singleton, encodeByte,
      if_neg (fun h => absurd h.1 (by decide)), if_neg (by decide), if_pos hmem] at this
    cases this

end Owlchain.Vibe
