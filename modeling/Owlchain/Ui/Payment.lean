import Mathlib.Data.List.Infix
import Mathlib.Tactic.IntervalCases
import Owlchain.Crypto.Runtime
import Owlchain.Library.Search
import Owlchain.Library.Transition

/-! Coin payments: the amount that `calculateBalance` reads from the text of a contract,
and the branch of `runTrustContract` that pays it. The amount is cut one character before
the mark `HWC`, so it is read as written only if a blank stands there. The branch compares
and subtracts a signed amount as an unsigned number; that a negative amount is refused
rests on the balance staying far below 2 ^ 31. -/

namespace Owlchain.Ui

open Owlchain.Crypto Owlchain.Library Search

/-! ### Reading the amount -/

/-- How `calculateBalance` can fail. -/
inductive Failure where
  /-- the `RangeError` of a slice -/
  | range
  /-- the `ConvException` of `to!int` -/
  | conv
  deriving DecidableEq

/-- `contents[lo .. hi]`. -/
def substring (contents : Text) (lo hi : ℤ) : Except Failure Text :=
  (sliceInt contents lo hi).mapError fun _ => .range

def decimalValue (s : Text) : ℕ := s.foldl (fun v c => v * 10 + (c.toNat - 48)) 0

/-- The number of a non-empty sequence of decimal digits. -/
def digitsValue (s : Text) : Option ℕ :=
  if s ≠ [] ∧ s.all Char.isDigit then some (decimalValue s) else none

/-- The sign and what stands behind it. -/
def splitSign : Text → ℤ × Text
  | [] => (1, [])
  | c :: t => if c = '-' then (-1, t) else if c = '+' then (1, t) else (1, c :: t)

/-- `to!int`: an optional sign and digits, of a number that fits in 32 bits. -/
def toInt (s : Text) : Option ℤ :=
  (digitsValue (splitSign s).2).bind fun n =>
    let v := (splitSign s).1 * n
    if -2147483648 ≤ v ∧ v ≤ 2147483647 then some v else none

/-- The search loops of `calculateBalance`: the first of the indexes at which the mark stands. -/
def scan (contents mark : Text) : List ℕ → Except Failure (Option ℕ)
  | [] => .ok none
  | i :: l => do
    let s ← substring contents i (i + mark.length)
    if s = mark then return some i else scan contents mark l

def sendCoinMark : Text := "sendCoin = ".toList

def coinMark : Text := "HWC".toList

def calculateBalance (contents : Text) : Except Failure ℤ := do
  if 10 < contents.length then
    match ← scan contents sendCoinMark (List.range' 0 (contents.length - 10)) with
    | none => return 0
    | some i =>
      match ← scan contents coinMark (List.range' (i + 11) (contents.length - 2 - (i + 11))) with
      | none => return 0
      | some j =>
        let s ← substring contents (i + 11) (j - 1)
        match toInt s with
        | some balance => return balance
        | none => .error .conv
  else return 0

/-! ### The two scans -/

theorem substring_natCast (contents : Text) (lo hi : ℕ) (hle : lo ≤ hi)
    (hlen : hi ≤ contents.length) :
    substring contents lo hi = .ok ((contents.take hi).drop lo) := by
  rw [substring, sliceInt_natCast contents hle hlen]
  rfl

theorem scan_eq (contents mark : Text) (l : List ℕ)
    (hl : ∀ i ∈ l, i + mark.length ≤ contents.length) :
    scan contents mark l = .ok (l.find? fun i => At mark contents i) := by
  induction l with
  | nil => rfl
  | cons i l ih =>
    have hslice : substring contents i (i + mark.length) =
        .ok ((contents.drop i).take mark.length) := by
      have := substring_natCast contents i (i + mark.length) (Nat.le_add_right i _) (hl i (by simp))
      rwa [List.drop_take, Nat.add_sub_cancel_left] at this
    have hrest := ih (fun k hk => hl k (by simp [hk]))
    rw [scan, hslice, Loop.ok_bind, List.find?_cons]
    by_cases hat : At mark contents i
    · rw [if_pos (at_iff_take.mp hat), decide_eq_true hat]
      rfl
    · rw [if_neg (fun h => hat (at_iff_take.mpr h)), decide_eq_false hat, hrest]

/-- A scan of all positions from `a` on at which the mark fits. -/
theorem scan_first (contents mark : Text) (hmark : mark ≠ []) (a n : ℕ)
    (hn : n = contents.length + 1 - (a + mark.length)) :
    (scan contents mark (List.range' a n) = .ok none ∧ ∀ k, ¬ FirstFrom mark contents a k) ∨
    ∃ k, scan contents mark (List.range' a n) = .ok (some k) ∧ FirstFrom mark contents a k := by
  have hfit : ∀ i ∈ List.range' a n, i + mark.length ≤ contents.length := by
    intro i hi
    have := List.mem_range'_1.mp hi
    omega
  have hall : contents.length < a + n + mark.length := by omega
  rw [scan_eq contents mark _ hfit]
  cases hfind : (List.range' a n).find? fun i => At mark contents i with
  | none => exact .inl ⟨rfl, fun k => find?_eq_none hmark hall hfind⟩
  | some k => exact .inr ⟨k, rfl, (find?_eq_some_iff hmark hall).mp hfind⟩

/-- The first mark, and the first coin mark behind it. -/
structure Markers (contents : Text) (i j : ℕ) : Prop where
  send : FirstFrom sendCoinMark contents 0 i
  coin : FirstFrom coinMark contents (i + 11) j

theorem Markers.unique {contents : Text} {i j i' j' : ℕ} (h : Markers contents i j)
    (h' : Markers contents i' j') : i = i' ∧ j = j' := by
  obtain rfl := h.send.unique h'.send
  exact ⟨rfl, h.coin.unique h'.coin⟩

/-- The text between the marks. -/
def between (contents : Text) (i j : ℕ) : Text := (contents.take j).drop (i + 11)

/-- What becomes of the text between the marks. -/
def readAmount (t : Text) : Except Failure ℤ :=
  if t = [] then .error .range
  else match toInt t.dropLast with
    | some n => .ok n
    | none => .error .conv

theorem substring_between {contents : Text} {i j : ℕ} (h : Markers contents i j) :
    substring contents (i + 11) (j - 1) =
      if between contents i j = [] then .error .range else .ok (between contents i j).dropLast := by
  have hj := h.coin.from_le
  have hlen : j + 3 ≤ contents.length := h.coin.here.length_le (by decide)
  have hlength : (between contents i j).length = j - (i + 11) := by
    rw [between, List.length_drop, List.length_take_of_le (by omega)]
  split_ifs with hnil
  · -- the marks are adjacent, and the upper bound is below the lower one
    rw [hnil, List.length_nil] at hlength
    rw [substring, sliceInt_of_lt contents (.inl (by omega))]
    rfl
  · have hlt : i + 11 < j := by
      have := List.length_pos_iff.mpr hnil
      omega
    have hslice := substring_natCast contents (i + 11) (j - 1) (by omega) (by omega)
    rw [Nat.cast_sub (by omega)] at hslice
    rw [List.dropLast_eq_take, hlength, between, List.drop_take, List.take_take]
    rw [List.drop_take] at hslice
    push_cast at hslice
    rw [hslice]
    congr 2
    omega

theorem calculateBalance_cases (contents : Text) :
    ((∀ i j, ¬ Markers contents i j) ∧ calculateBalance contents = .ok 0) ∨
    ∃ i j, Markers contents i j ∧
      calculateBalance contents = readAmount (between contents i j) := by
  unfold calculateBalance
  by_cases hshort : 10 < contents.length
  · rw [if_pos hshort]
    obtain ⟨hscan, hnone⟩ | ⟨i, hscan, hi⟩ := scan_first contents sendCoinMark (by decide) 0
      (contents.length - 10) (by rw [show sendCoinMark.length = 11 from rfl]; omega)
    · exact .inl ⟨fun i j h => hnone i h.send, by rw [hscan]; rfl⟩
    · obtain ⟨hscan', hnone⟩ | ⟨j, hscan', hj⟩ := scan_first contents coinMark (by decide) (i + 11)
        (contents.length - 2 - (i + 11)) (by rw [show coinMark.length = 3 from rfl]; omega)
      · refine .inl ⟨fun i' j h => ?_, by simp only [hscan, hscan', Loop.ok_bind]; rfl⟩
        obtain rfl := hi.unique h.send
        exact hnone j h.coin
      · refine .inr ⟨i, j, ⟨hi, hj⟩, ?_⟩
        simp only [hscan, hscan', Loop.ok_bind, substring_between ⟨hi, hj⟩, readAmount]
        split_ifs with hnil
        · rfl
        · rfl
  · refine .inl ⟨fun i j h => ?_, by rw [if_neg hshort]; rfl⟩
    have hlen : i + 11 ≤ contents.length := h.send.here.length_le (by decide)
    omega

/-! ### Numerals -/

theorem decimalValue_concat (s : Text) (c : Char) :
    decimalValue (s ++ [c]) = decimalValue s * 10 + (c.toNat - 48) := by
  rw [decimalValue, List.foldl_append]
  rfl

theorem toNat_of_isDigit {c : Char} (hc : c.isDigit) : 48 ≤ c.toNat := by
  rw [Char.isDigit, Bool.and_eq_true, decide_eq_true_eq] at hc
  exact hc.1

/-- A numeral of zero has no other digit. -/
theorem eq_zeros_of_decimalValue {s : Text} (hs : ∀ c ∈ s, c.isDigit) (h : decimalValue s = 0) :
    s = List.replicate s.length '0' := by
  induction s using List.reverseRecOn with
  | nil => rfl
  | append_singleton s c ih =>
    have hc := toNat_of_isDigit (hs c (by simp))
    rw [decimalValue_concat] at h
    have hzero : c = '0' := Char.toNat_inj.mp (by change c.toNat = 48; omega)
    rw [List.length_append, List.length_singleton, List.replicate_succ', hzero,
      ← ih (fun x hx => hs x (by simp [hx])) (by omega)]

theorem decimalValue_zeros (k : ℕ) : decimalValue (List.replicate k '0') = 0 := by
  induction k with
  | zero => rfl
  | succ k ih => rw [List.replicate_succ', decimalValue_concat, ih]; rfl

theorem digitsValue_eq_some {s : Text} {n : ℕ} :
    digitsValue s = some n ↔ (s ≠ [] ∧ ∀ c ∈ s, c.isDigit) ∧ decimalValue s = n := by
  rw [← List.all_eq_true, digitsValue]
  split_ifs with h
  · rw [Option.some.injEq]
    exact (and_iff_right h).symm
  · exact iff_of_false (by simp) (fun hn => h hn.1)

theorem splitSign_concat {u : Text} (hu : u ≠ []) (c : Char) :
    splitSign (u ++ [c]) = ((splitSign u).1, (splitSign u).2 ++ [c]) := by
  cases u with
  | nil => exact absurd rfl hu
  | cons d t =>
    simp only [List.cons_append, splitSign]
    split_ifs <;> rfl

theorem splitSign_sign (s : Text) : (splitSign s).1 = 1 ∨ (splitSign s).1 = -1 := by
  cases s with
  | nil => exact .inl rfl
  | cons c t =>
    simp only [splitSign]
    split_ifs <;> simp

theorem eq_sign_append (s : Text) : ∃ sign ∈ [[], ['+'], ['-']], s = sign ++ (splitSign s).2 := by
  cases s with
  | nil => exact ⟨[], by simp, rfl⟩
  | cons c t =>
    simp only [splitSign]
    split_ifs with hminus hplus
    · exact ⟨['-'], by simp, by simp [hminus]⟩
    · exact ⟨['+'], by simp, by simp [hplus]⟩
    · exact ⟨[], by simp, rfl⟩

/-- What `to!int` accepts. -/
theorem toInt_eq_some {s : Text} {v : ℤ} :
    toInt s = some v ↔ ((splitSign s).2 ≠ [] ∧ ∀ c ∈ (splitSign s).2, c.isDigit) ∧
      v = (splitSign s).1 * decimalValue (splitSign s).2 ∧ -2147483648 ≤ v ∧ v ≤ 2147483647 := by
  rw [toInt, Option.bind_eq_some_iff]
  constructor
  · rintro ⟨n, hn, hv⟩
    obtain ⟨hdigits, rfl⟩ := digitsValue_eq_some.mp hn
    simp only [Option.ite_none_right_eq_some, Option.some.injEq] at hv
    obtain ⟨hrange, rfl⟩ := hv
    exact ⟨hdigits, rfl, hrange⟩
  · rintro ⟨hdigits, rfl, hrange⟩
    exact ⟨_, digitsValue_eq_some.mpr ⟨hdigits, rfl⟩, if_pos hrange⟩

/-- A numeral ends with a digit. -/
theorem isDigit_of_toInt {u : Text} {c : Char} {v : ℤ} (h : toInt (u ++ [c]) = some v) :
    c.isDigit := by
  obtain ⟨⟨hne, hdigits⟩, -⟩ := toInt_eq_some.mp h
  cases u with
  | nil =>
    simp only [List.nil_append, splitSign] at hne hdigits
    split_ifs at hne hdigits with hminus hplus
    · exact absurd rfl hne
    · exact absurd rfl hne
    · exact hdigits c (by simp)
  | cons d t =>
    rw [splitSign_concat (by simp)] at hdigits
    exact hdigits c (by simp)

/-- An optional sign and two zeros or more. -/
def Zeros (t : Text) : Prop :=
  ∃ sign ∈ [[], ['+'], ['-']], ∃ k, t = sign ++ List.replicate (k + 2) '0'

theorem toInt_zeros {sign : Text} (hsign : sign ∈ [[], ['+'], ['-']]) (k : ℕ) :
    toInt (sign ++ List.replicate (k + 1) '0') = some 0 := by
  have hbody : (splitSign (sign ++ List.replicate (k + 1) '0')).2 = List.replicate (k + 1) '0' := by
    simp only [List.mem_cons, List.not_mem_nil, or_false] at hsign
    rcases hsign with rfl | rfl | rfl <;> simp [splitSign, List.replicate_succ]
  rw [toInt_eq_some, hbody, decimalValue_zeros]
  refine ⟨⟨by simp, fun c hc => ?_⟩, by simp, by omega, by omega⟩
  rw [List.eq_of_mem_replicate hc]
  rfl

/-- Dropping the last character of a numeral leaves its number only if that number is zero. -/
theorem toInt_concat_eq_iff {u : Text} {c : Char} :
    toInt u = toInt (u ++ [c]) ↔ (toInt (u ++ [c]) = none ∧ toInt u = none) ∨ Zeros (u ++ [c]) := by
  constructor
  · intro h
    cases hu : toInt u with
    | none => exact .inl ⟨h ▸ hu, rfl⟩
    | some v =>
      have hne : u ≠ [] := by
        rintro rfl
        cases hu
      obtain ⟨⟨hbody, hdigits⟩, hv, -⟩ := toInt_eq_some.mp hu
      obtain ⟨-, hv', -⟩ := toInt_eq_some.mp (h ▸ hu)
      have hc := toNat_of_isDigit (isDigit_of_toInt (h ▸ hu))
      rw [splitSign_concat hne, decimalValue_concat] at hv'
      have hsame : decimalValue (splitSign u).2 =
          decimalValue (splitSign u).2 * 10 + (c.toNat - 48) := by
        rcases splitSign_sign u with hsign | hsign <;> rw [hsign] at hv hv' <;> omega
      have hzero : c = '0' := Char.toNat_inj.mp (by change c.toNat = 48; omega)
      obtain ⟨sign, hmem, htext⟩ := eq_sign_append u
      obtain ⟨k, hk⟩ := Nat.exists_eq_succ_of_ne_zero (List.length_pos_iff.mpr hbody).ne'
      refine .inr ⟨sign, hmem, k, ?_⟩
      rw [hzero, List.replicate_succ', ← List.append_assoc]
      congr 1
      rw [htext, eq_zeros_of_decimalValue hdigits (by omega), hk]
  · rintro (⟨hnone, hu⟩ | ⟨sign, hsign, k, hk⟩)
    · rw [hnone, hu]
    · rw [List.replicate_succ', ← List.append_assoc] at hk
      obtain ⟨rfl, hc⟩ := List.append_inj' hk rfl
      rw [hk, List.append_assoc, ← List.replicate_succ', toInt_zeros hsign, toInt_zeros hsign]

/-! ### The amount as written -/

/-- The text is the numeral of `n`, followed by at most one blank. -/
def Amount (t : Text) (n : ℤ) : Prop := toInt t = some n ∨ ∃ u, t = u ++ [' '] ∧ toInt u = some n

/-- What `calculateBalance` is meant to do. -/
structure AmountCorrect (contents : Text) : Prop where
  missing : (∀ i j, ¬ Markers contents i j) → calculateBalance contents = .ok 0
  amount : ∀ i j n, Markers contents i j → Amount (between contents i j) n →
    calculateBalance contents = .ok n
  otherwise : ∀ i j, Markers contents i j → (∀ n, ¬ Amount (between contents i j) n) →
    calculateBalance contents = .error .conv

/-- The texts between the marks that are read as they should be: they end with a blank, or
neither they nor what is left without the last character is a numeral, or they are zeros. -/
def Readable (t : Text) : Prop :=
  t.getLast? = some ' ' ∨ (t ≠ [] ∧ toInt t = none ∧ toInt t.dropLast = none) ∨ Zeros t

/-- The number of a conversion, or its exception. -/
def converted : Option ℤ → Except Failure ℤ
  | some n => .ok n
  | none => .error .conv

/-- A result agrees with a conversion if it has its number or its exception. -/
theorem eq_converted_iff (o : Option ℤ) (x : Except Failure ℤ) :
    ((∀ n, o = some n → x = .ok n) ∧ ((∀ n, o ≠ some n) → x = .error .conv)) ↔ x = converted o := by
  cases o with
  | none => simp [converted]
  | some m => simp [converted]

theorem converted_inj {o o' : Option ℤ} : converted o = converted o' ↔ o = o' := by
  cases o <;> cases o' <;> simp [converted]

theorem readAmount_concat (u : Text) (c : Char) : readAmount (u ++ [c]) = converted (toInt u) := by
  rw [readAmount, if_neg (by simp), List.dropLast_concat]
  rfl

theorem amount_blank {u : Text} {n : ℤ} : Amount (u ++ [' ']) n ↔ toInt u = some n := by
  constructor
  · rintro (h | ⟨u', hu, h⟩)
    · exact absurd (isDigit_of_toInt h) (by decide)
    · rwa [List.append_cancel_right hu]
  · exact fun h => .inr ⟨u, rfl, h⟩

theorem amount_of_ne {u : Text} {c : Char} (hc : c ≠ ' ') {n : ℤ} :
    Amount (u ++ [c]) n ↔ toInt (u ++ [c]) = some n := by
  refine ⟨fun h => h.resolve_right ?_, .inl⟩
  rintro ⟨u', hu, -⟩
  exact hc (List.singleton_inj.mp (List.append_inj' hu rfl).2)

theorem not_amount_nil (n : ℤ) : ¬ Amount [] n := by
  rintro (h | ⟨u, hu, -⟩)
  · cases h
  · simp at hu

theorem not_readable_nil : ¬ Readable [] := by
  rintro (h | ⟨h, -⟩ | ⟨sign, -, k, h⟩)
  · cases h
  · exact h rfl
  · simp [List.replicate_succ] at h

theorem readAmount_iff (t : Text) :
    ((∀ n, Amount t n → readAmount t = .ok n) ∧
      ((∀ n, ¬ Amount t n) → readAmount t = .error .conv)) ↔ Readable t := by
  cases t using List.reverseRecOn with
  | nil =>
    -- adjacent marks: a range error instead of a conversion error
    refine iff_of_false (fun h => ?_) not_readable_nil
    have hconv := h.2 not_amount_nil
    cases hconv
  | append_singleton u c =>
    rw [readAmount_concat]
    by_cases hc : c = ' '
    · subst hc
      simp only [amount_blank, eq_converted_iff]
      exact iff_of_true trivial (.inl (by simp))
    · simp only [amount_of_ne hc, eq_converted_iff, converted_inj, toInt_concat_eq_iff, Readable,
        List.getLast?_concat, Option.some.injEq, hc, false_or, List.dropLast_concat]
      simp

/-- The amount is read as written exactly when the text between the marks is readable. -/
theorem amountCorrect_iff (contents : Text) :
    AmountCorrect contents ↔ ∀ i j, Markers contents i j → Readable (between contents i j) := by
  rcases calculateBalance_cases contents with ⟨hnone, hzero⟩ | ⟨i, j, hmarkers, hread⟩
  · refine iff_of_true ⟨fun _ => hzero, fun i j _ h => ?_, fun i j h => ?_⟩ (fun i j h => ?_)
    all_goals exact absurd h (hnone i j)
  · have hall : (∀ i j, Markers contents i j → Readable (between contents i j)) ↔
        Readable (between contents i j) := by
      refine ⟨fun h => h i j hmarkers, fun h i' j' h' => ?_⟩
      obtain ⟨rfl, rfl⟩ := hmarkers.unique h'
      exact h
    rw [hall, ← readAmount_iff, ← hread]
    constructor
    · intro h
      exact ⟨fun n => h.amount i j n hmarkers, h.otherwise i j hmarkers⟩
    · rintro ⟨hamount, hother⟩
      refine ⟨fun h => absurd hmarkers (h i j), fun i' j' n h' hn => ?_, fun i' j' h' hn => ?_⟩
      · obtain ⟨rfl, rfl⟩ := hmarkers.unique h'
        exact hamount n hn
      · obtain ⟨rfl, rfl⟩ := hmarkers.unique h'
        exact hother hn

/-- Without a blank the last digit is lost, and without a digit the slice is out of range. -/
theorem not_amountCorrect_unspaced :
    calculateBalance "sendCoin = 15HWC".toList = .ok 1 ∧ ¬ AmountCorrect "sendCoin = 15HWC".toList ∧
      calculateBalance "sendCoin = HWC".toList = .error .range := by
  refine ⟨rfl, fun h => ?_, rfl⟩
  have hmarkers : Markers "sendCoin = 15HWC".toList 0 13 := by
    refine ⟨⟨le_rfl, by decide, fun j _ hj => by omega⟩,
      ⟨by omega, by decide, fun j hfrom hj => ?_⟩⟩
    interval_cases j <;> decide
  have hfifteen := h.amount 0 13 15 hmarkers (.inl rfl)
  cases hfifteen

/-! ### Paying -/

structure ErrorState where
  code : Text
  status : Text
  strMsg : Text
  deriving DecidableEq

structure SendCoin where
  code : Text
  status : Text
  txID : Text
  balance : ℤ
  deriving DecidableEq

inductive PaymentReply where
  | refused (e : ErrorState)
  | sent (s : SendCoin)
  deriving DecidableEq

structure TcWallet where
  totalBalance : UInt32 := 100000
  deriving DecidableEq

/-- An `int` where a `uint` is expected. -/
def asUInt (n : ℤ) : UInt32 := UInt32.ofNat (n % 4294967296).toNat

/-- The branch of `runTrustContract` behind `if (1)`. -/
def sendCoin (tcwallet : TcWallet) (contractAddress contents : Text) :
    Except Failure (TcWallet × PaymentReply) := do
  if tcwallet.totalBalance < asUInt (← calculateBalance contents) then
    return (tcwallet, .refused ⟨"99".toList, "Error(97)".toList, "Not enough balance.".toList⟩)
  else
    let totalBalance := tcwallet.totalBalance - asUInt (← calculateBalance contents)
    return (⟨totalBalance⟩,
      .sent ⟨"00".toList, "Transaction Success".toList, contractAddress, int32 totalBalance.toNat⟩)

/-- A request with its two arguments. -/
def TcWallet.step (tcwallet : TcWallet) (q : Text × Text) : Option TcWallet :=
  match sendCoin tcwallet q.1 q.2 with
  | .ok (tcwallet, _) => some tcwallet
  | .error _ => none

theorem calculateBalance_range {contents : Text} {n : ℤ} (h : calculateBalance contents = .ok n) :
    -2147483648 ≤ n ∧ n ≤ 2147483647 := by
  rcases calculateBalance_cases contents with ⟨-, hzero⟩ | ⟨i, j, -, hread⟩
  · rw [hzero, Except.ok.injEq] at h
    omega
  · rw [hread, readAmount] at h
    split_ifs at h with hnil
    have hn : toInt (between contents i j).dropLast = some n := converted_inj.mp h
    exact (toInt_eq_some.mp hn).2.2

theorem toNat_asUInt (n : ℤ) : ((asUInt n).toNat : ℤ) = n % 4294967296 := by
  have hlt : (n % 4294967296).toNat < 2 ^ 32 := by omega
  rw [asUInt, UInt32.toNat_ofNat', Nat.mod_eq_of_lt hlt]
  omega

/-- What a reply says about the wallet before and after a payment of `n`. -/
def PaymentReply.Honest (before after : TcWallet) (n : ℤ) : PaymentReply → Prop
  | .refused e => e.strMsg = "Not enough balance.".toList ∧ after = before
  | .sent s => 0 ≤ n ∧ n ≤ before.totalBalance.toNat ∧
      (after.totalBalance.toNat : ℤ) = before.totalBalance.toNat - n ∧
      s.balance = after.totalBalance.toNat

/-- A payment in a wallet that holds no more than the initial balance. -/
theorem sendCoin_honest {w : TcWallet} (hw : w.totalBalance.toNat ≤ 100000)
    (contractAddress : Text) {contents : Text} {n : ℤ} (hn : calculateBalance contents = .ok n) :
    ∃ w' reply, sendCoin w contractAddress contents = .ok (w', reply) ∧
      w'.totalBalance.toNat ≤ w.totalBalance.toNat ∧ reply.Honest w w' n := by
  have hrange := calculateBalance_range hn
  have hamount := toNat_asUInt n
  unfold sendCoin
  simp only [hn, Loop.ok_bind]
  by_cases hlt : w.totalBalance < asUInt n
  · rw [if_pos hlt]
    exact ⟨_, _, rfl, le_rfl, rfl, rfl⟩
  · -- an amount that passes the check is not negative, for the balance is below 2 ^ 31
    have hle : asUInt n ≤ w.totalBalance := UInt32.not_lt.mp hlt
    have hle' := UInt32.le_iff_toNat_le.mp hle
    have hsub := UInt32.toNat_sub_of_le _ _ hle
    rw [if_neg hlt]
    generalize w.totalBalance - asUInt n = rest at hsub
    have hreport : int32 rest.toNat = rest.toNat := int32_natCast (by omega)
    have hrest : (rest.toNat : ℤ) = w.totalBalance.toNat - n := by omega
    refine ⟨⟨rest⟩, _, rfl, ?_, by omega, by omega, hrest, ?_⟩
    · dsimp only
      omega
    · dsimp only
      exact hreport

theorem TcWallet.step_eq {w : TcWallet} (hw : w.totalBalance.toNat ≤ 100000)
    {q : Text × Text} {n : ℤ} (hn : calculateBalance q.2 = .ok n) :
    ∃ w', w.step q = some w' ∧ w'.totalBalance.toNat ≤ w.totalBalance.toNat := by
  obtain ⟨w', reply, hsend, hle, -⟩ := sendCoin_honest hw q.1 hn
  exact ⟨w', by rw [TcWallet.step, hsend], hle⟩

theorem TcWallet.run_le : ∀ (requests : List (Text × Text)) {w : TcWallet},
    w.totalBalance.toNat ≤ 100000 → (∀ q ∈ requests, ∃ n, calculateBalance q.2 = .ok n) →
    ∃ w', Transition.run TcWallet.step w requests = some w' ∧
      w'.totalBalance.toNat ≤ w.totalBalance.toNat
  | [], w, _, _ => ⟨w, rfl, le_rfl⟩
  | q :: requests, w, hw, hok => by
    obtain ⟨n, hn⟩ := hok q (by simp)
    obtain ⟨m, hm, hle⟩ := TcWallet.step_eq hw hn
    obtain ⟨w', hrun, hle'⟩ :=
      TcWallet.run_le requests (hle.trans hw) (fun p hp => hok p (by simp [hp]))
    exact ⟨w', Transition.run_cons_eq_some.mpr ⟨m, hm, hrun⟩, hle'.trans hle⟩

/-- After any payments whose amounts can be read, the balance is at most the initial one; it
only falls from there, and every further reply tells the truth about it. -/
theorem payments_honest (requests : List (Text × Text))
    (hok : ∀ q ∈ requests, ∃ n, calculateBalance q.2 = .ok n) :
    ∃ w, Transition.run TcWallet.step {} requests = some w ∧ w.totalBalance.toNat ≤ 100000 ∧
      (∀ later, (∀ q ∈ later, ∃ n, calculateBalance q.2 = .ok n) →
        ∃ w', Transition.run TcWallet.step w later = some w' ∧
          w'.totalBalance.toNat ≤ w.totalBalance.toNat) ∧
      ∀ contractAddress contents n, calculateBalance contents = .ok n →
        ∃ w' reply, sendCoin w contractAddress contents = .ok (w', reply) ∧
          reply.Honest w w' n := by
  obtain ⟨w, hrun, hle⟩ := TcWallet.run_le requests (w := {}) le_rfl hok
  have hw : w.totalBalance.toNat ≤ 100000 := hle
  refine ⟨w, hrun, hw, fun later => TcWallet.run_le later hw,
    fun contractAddress contents n hn => ?_⟩
  obtain ⟨w', reply, hsend, -, hhonest⟩ := sendCoin_honest hw contractAddress hn
  exact ⟨w', reply, hsend, hhonest⟩

/-- A payment, and one of a negative amount, which is refused. -/
theorem payments_honest_negative : ∃ w, Transition.run TcWallet.step {}
    [("TRX".toList, "sendCoin = 300 HWC".toList), ("TRX".toList, "sendCoin = -5 HWC".toList)] =
      some w ∧
      w.totalBalance.toNat ≤ 100000 := by
  obtain ⟨w, hrun, hle, -⟩ := payments_honest
    [("TRX".toList, "sendCoin = 300 HWC".toList), ("TRX".toList, "sendCoin = -5 HWC".toList)] (by
      intro q hq
      simp only [List.mem_cons, List.not_mem_nil, or_false] at hq
      rcases hq with rfl | rfl
      · exact ⟨300, rfl⟩
      · exact ⟨-5, rfl⟩)
  exact ⟨w, hrun, hle⟩

end Owlchain.Ui
