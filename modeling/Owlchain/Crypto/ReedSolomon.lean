import Owlchain.Crypto.Runtime

/-! The address code: `encode` and `decode` between account numbers and addresses
of 17 symbols, thirteen base-32 digits followed by four check symbols in a
scrambled order. Every array access is checked, so a result says that no index
left its array. The two radix conversions share one loop; each keeps its own
arithmetic. -/

namespace Owlchain.Crypto

def initialCodeword : List ℤ := [1, 0, 0, 0, 0, 0, 0, 0, 0, 0, 0, 0, 0, 0, 0, 0, 0]

def gexp : List ℤ := [1, 2, 4, 8, 16, 5, 10, 20, 13, 26, 17, 7,
  14, 28, 29, 31, 27, 19, 3, 6, 12, 24, 21, 15, 30, 25, 23, 11, 22, 9, 18, 1]

def glog : List ℤ := [0, 0, 1, 18, 2, 5, 19, 11, 3, 29, 6, 27,
  20, 8, 12, 23, 4, 10, 30, 17, 7, 22, 28, 26, 21, 25, 9, 16, 13, 14, 24, 15]

def codeworkMap : List ℤ := [3, 2, 1, 0, 7, 6, 5, 4, 13, 14, 15, 16, 12, 8, 9, 10, 11]

def alpahbet : Text := "23456789ABCDEFGHJKLMNPQRSTUVWXYZ".toList

def base32Length : ℕ := 13

def base10Length : ℕ := 20

/-! ### Check symbols -/

def gmult (a b : ℤ) : Result ℤ := do
  if a = 0 ∨ b = 0 then
    return 0
  let la ← load glog a
  let lb ← load glog b
  load gexp (Int.tmod (la + lb) 31)

/-- The body of the inner loop of `is_codeword_valid`: exponents 13 to 26 are
skipped, and exponents 27 to 30 belong to the check symbols. -/
def syndromeStep (codeword : List ℤ) (i : ℕ) (t : ℤ) (j : ℕ) : Result ℤ := do
  if 12 < j ∧ j < 27 then
    return t
  let pos := if 26 < j then j - 14 else j
  let c ← load codeword pos
  let e ← load gexp ((i * j) % 31 : ℕ)
  let m ← gmult c e
  return Int.xor t m

def isCodewordValid (codeword : List ℤ) : Result Bool := do
  let sum ← [1, 2, 3, 4].foldlM (fun sum (i : ℕ) => do
    let t ← (List.range 31).foldlM (syndromeStep codeword i) 0
    return Int.lor sum t) 0
  return sum == 0

/-- The array `p` of the feedback loop in `encode`. -/
structure Register where
  p0 : ℤ
  p1 : ℤ
  p2 : ℤ
  p3 : ℤ
  deriving DecidableEq, Repr

def Register.toList (p : Register) : List ℤ := [p.p0, p.p1, p.p2, p.p3]

def feedbackStep (codeword : List ℤ) (p : Register) (i : ℕ) : Result Register := do
  let c ← load codeword i
  let fb := Int.xor c p.p3
  let m3 ← gmult 30 fb
  let m2 ← gmult 6 fb
  let m1 ← gmult 9 fb
  let m0 ← gmult 17 fb
  return ⟨m0, Int.xor p.p0 m1, Int.xor p.p1 m2, Int.xor p.p2 m3⟩

def feedback (codeword : List ℤ) : Result Register :=
  (List.range base32Length).reverse.foldlM (feedbackStep codeword) ⟨0, 0, 0, 0⟩

/-! ### Radix conversion in place -/

/-- The variables of one pass: the digit array, the length of the quotient written
over its front, and the running remainder. -/
structure Pass where
  digits : List ℤ
  newLength : ℕ
  digit : ℤ
  deriving DecidableEq, Repr

def convertStep (radix limit : ℤ) (quotient remainder : ℤ → ℤ) (s : Pass) (i : ℕ) :
    Result Pass := do
  let d ← load s.digits i
  let digit := int32 (s.digit * radix + d)
  if limit ≤ digit then
    let digits ← store s.digits s.newLength (quotient digit)
    return ⟨digits, s.newLength + 1, remainder digit⟩
  else if 0 < s.newLength then
    let digits ← store s.digits s.newLength 0
    return ⟨digits, s.newLength + 1, digit⟩
  else
    return ⟨s.digits, s.newLength, digit⟩

/-- Base 10 to base 32: the quotient is `digit_32 >> 5`, the remainder `digit_32 & 31`. -/
def encodeStep : Pass → ℕ → Result Pass := convertStep 10 32 (· >>> 5) (Int.land · 31)

/-- Base 32 to base 10: the quotient is `digit_10 / 10`, the remainder `digit_10 % 10`. -/
def decodeStep : Pass → ℕ → Result Pass := convertStep 32 10 (Int.tdiv · 10) (Int.tmod · 10)

/-- The `do … while (length > 0)` loop around a pass. The first argument bounds the
number of passes; `emit` consumes the remainder that a pass leaves. -/
def convert {σ : Type} (step : Pass → ℕ → Result Pass) (emit : σ → ℤ → Result σ) :
    ℕ → List ℤ → ℕ → σ → Result σ
  | 0, _, _, _ => .error .unfinished
  | passes + 1, digits, length, out => do
    let s ← (List.range length).foldlM step ⟨digits, 0, 0⟩
    let out ← emit out s.digit
    if 0 < s.newLength then convert step emit passes s.digits s.newLength out
    else return out

/-- `codeword[codeword_length] = digit_32; codeword_length += 1`. -/
def putDigit (out : List ℤ × ℕ) (digit : ℤ) : Result (List ℤ × ℕ) := do
  let codeword ← store out.1 out.2 digit
  return (codeword, out.2 + 1)

/-- `plain_string_builder.put(cast(char)(digit_10 + cast(int) '0'))`. -/
def putChar (out : Text) (digit : ℤ) : Result Text := return out ++ [digitChar digit]

/-! ### Encoding -/

def plainDigits (plainString : Text) : Result (List ℤ) :=
  (List.range plainString.length).foldlM (fun a (i : ℕ) => do
    let c ← load plainString i
    store a i (charDigit c)) (List.replicate base10Length 0)

/-- A pass stores one digit in `codeword`, so the eighteenth would be out of range. -/
def encodeDigits (plain : ℤ) : Result (List ℤ) := do
  let plainString := longToString plain
  let plainString10 ← plainDigits plainString
  let out ← convert encodeStep putDigit 18 plainString10 plainString.length
    (List.replicate initialCodeword.length 0, 0)
  return out.1

def cypherStep (codeword : List ℤ) (out : Text) (i : ℕ) : Result Text := do
  let codeworkIndex ← load codeworkMap i
  let alphabetIndex ← load codeword codeworkIndex
  let c ← load alpahbet alphabetIndex
  if (i + 1) % 4 = 0 ∧ i < 13 then return out ++ [c] ++ ['-']
  else return out ++ [c]

def cypherString (codeword : List ℤ) : Result Text :=
  (List.range 17).foldlM (cypherStep codeword) []

def encode (plain : ℤ) : Result Text := do
  let codeword ← encodeDigits plain
  let p ← feedback codeword
  cypherString (codeword.take base32Length ++ p.toList)

def encodeWithPrefix (pre : Text) (plain : ℤ) : Result Text := do
  let cypher ← encode plain
  return pre ++ ['-'] ++ cypher

/-! ### Decoding -/

/-- The symbol loop of `decode` over `(codeword, codeword_length)`. -/
def symbolStep (s : List ℤ × ℕ) (c : Char) : Result (List ℤ × ℕ) := do
  let position := indexOf alpahbet c
  if position ≤ -1 ∨ position > alpahbet.length then
    return s
  enforce (s.2 ≤ 16)
  let codeworkIndex ← load codeworkMap s.2
  let codeword ← store s.1 codeworkIndex position
  return (codeword, s.2 + 1)

def symbolLoop (cypherString : Text) : Result (List ℤ × ℕ) :=
  cypherString.foldlM symbolStep (initialCodeword, 0)

/-- The data digits of a codeword, most significant first. -/
def cypherString32 (codeword : List ℤ) : Result (List ℤ) :=
  (List.range base32Length).foldlM (fun a (i : ℕ) => do
    let c ← load codeword (base32Length - i - 1 : ℕ)
    store a i c) (List.replicate base32Length 0)

/-- The base conversion of `decode`; its characters come out least significant first.
Thirteen base-32 digits are below 10 ^ 20, so twenty passes are enough. -/
def decodeDigits (codeword : List ℤ) : Result Text := do
  let digits ← cypherString32 codeword
  convert decodeStep putChar 20 digits base32Length []

/-- `(codeword_length != 17 && is_codeword_valid(codeword)) || codeword_length == 17`. -/
def acceptable (codeword : List ℤ) (codewordLength : ℕ) : Result Bool := do
  let left ← if codewordLength ≠ 17 then isCodewordValid codeword else pure false
  return left || codewordLength == 17

def decode (cypherString : Text) : Result ℤ := do
  let s ← symbolLoop cypherString
  let accepted ← acceptable s.1 s.2
  enforce (accepted = true)
  let plainString ← decodeDigits s.1
  return toLong (bigInt plainString.reverse)

def decodeWithPrefix (pre cypherString : Text) : Result ℤ := do
  let dashPos := indexOf cypherString '-'
  let head ← sliceInt cypherString 0 dashPos
  enforce (pre = head)
  let tail ← sliceInt cypherString (dashPos + 1) cypherString.length
  decode tail

end Owlchain.Crypto
