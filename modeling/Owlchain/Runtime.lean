import Mathlib.Data.Int.Bitwise
import Mathlib.Data.List.Basic
import Owlchain.Library.Loop

/-! What the D runtime does when a program reads or writes an array, and how a call can end
without a result. A position of type `size_t` is a natural number and one of type `int` an
integer; a negative one becomes a `size_t` beyond any length. -/

namespace Owlchain

/-- How a call can end without a result. -/
inductive Fault where
  /-- the exception thrown by a failed `enforce` -/
  | enforce
  /-- the `RangeError` raised by an index or a slice outside its array -/
  | range
  /-- the `AssertError` raised by a failed `assert` -/
  | assert
  /-- an integer division by zero -/
  | division
  /-- a loop that was cut off before its test became false -/
  | unfinished
  deriving DecidableEq, Repr

abbrev Result := Except Fault

instance {α : Type*} [DecidableEq α] : DecidableEq (Result α)
  | .ok a, .ok b => decidable_of_iff (a = b) (by simp)
  | .error e, .error f => decidable_of_iff (e = f) (by simp)
  | .ok _, .error _ => .isFalse (by simp)
  | .error _, .ok _ => .isFalse (by simp)

abbrev Bytes := List UInt8

variable {α : Type*}

/-! ### Positions of type `size_t` -/

/-- `a[i]`. -/
def at? (a : List α) (i : ℕ) : Result α :=
  match a[i]? with
  | some v => .ok v
  | none => .error .range

/-- `a[i] = v`. -/
def assign (a : List α) (i : ℕ) (v : α) : Result (List α) :=
  if i < a.length then .ok (a.set i v) else .error .range

/-- `a[lo .. hi]`. -/
def slice (a : List α) (lo hi : ℕ) : Result (List α) :=
  if lo ≤ hi ∧ hi ≤ a.length then .ok ((a.take hi).drop lo) else .error .range

/-- `a[lo .. hi] = src[]`; the lengths have to agree. -/
def assignSlice (a : List α) (lo hi : ℕ) (src : List α) : Result (List α) :=
  if lo ≤ hi ∧ hi ≤ a.length ∧ src.length = hi - lo then .ok (a.take lo ++ src ++ a.drop hi)
  else .error .range

theorem at?_eq_ok {a : List α} {i : ℕ} {v : α} (h : a[i]? = some v) : at? a i = .ok v := by
  rw [at?, h]

theorem assign_eq_ok_iff {a out : List α} {i : ℕ} {v : α} :
    assign a i v = .ok out ↔ i < a.length ∧ a.set i v = out := by
  rw [assign]
  split_ifs with h <;> simp [h]

theorem slice_eq_ok_iff {a out : List α} {lo hi : ℕ} :
    slice a lo hi = .ok out ↔ (lo ≤ hi ∧ hi ≤ a.length) ∧ (a.take hi).drop lo = out := by
  rw [slice]
  split_ifs with h <;> simp [h]

/-- The cells after a slice has been assigned. -/
theorem assignSlice_eq (a src : List α) (lo hi : ℕ) (hle : lo ≤ hi) (hhi : hi ≤ a.length)
    (hsrc : src.length = hi - lo) :
    ∃ out, assignSlice a lo hi src = .ok out ∧ out.length = a.length ∧
      ∀ i, out[i]? = if lo ≤ i ∧ i < hi then src[i - lo]? else a[i]? := by
  refine ⟨_, if_pos ⟨hle, hhi, hsrc⟩, ?_, fun i => ?_⟩
  · simp only [List.length_append, List.length_take, List.length_drop]
    omega
  · split_ifs with hi
    · rw [List.append_assoc, List.getElem?_append_right (by simp; omega),
        List.getElem?_append_left (by simp; omega), List.length_take, Nat.min_eq_left (by omega)]
    · by_cases hlo : i < lo
      · rw [List.append_assoc, List.getElem?_append_left (by simp; omega),
          List.getElem?_take_of_lt hlo]
      · rw [List.getElem?_append_right (by simp; omega), List.getElem?_drop]
        congr 1
        simp
        omega

/-! ### Positions of type `int` -/

/-- `a[i]`. -/
def load (a : List α) : ℤ → Result α
  | .ofNat i => at? a i
  | .negSucc _ => .error .range

/-- `a[i] = v`. -/
def store (a : List α) : ℤ → α → Result (List α)
  | .ofNat i, v => assign a i v
  | .negSucc _, _ => .error .range

/-- `a[lo .. hi]`. -/
def sliceInt (a : List α) (lo hi : ℤ) : Result (List α) :=
  if 0 ≤ lo ∧ 0 ≤ hi then slice a lo.toNat hi.toNat else .error .range

theorem load_natCast {a : List α} {i : ℕ} (h : i < a.length) : load a (i : ℤ) = .ok a[i] :=
  at?_eq_ok (List.getElem?_eq_getElem h)

theorem store_natCast {a : List α} {i : ℕ} (h : i < a.length) (v : α) :
    store a (i : ℤ) v = .ok (a.set i v) := if_pos h

theorem sliceInt_natCast (a : List α) {lo hi : ℕ} (hle : lo ≤ hi) (hhi : hi ≤ a.length) :
    sliceInt a lo hi = .ok ((a.take hi).drop lo) := by
  rw [sliceInt, if_pos (by omega), Int.toNat_natCast, Int.toNat_natCast, slice, if_pos ⟨hle, hhi⟩]

theorem sliceInt_of_lt (a : List α) {lo hi : ℤ} (h : hi < lo ∨ hi < 0) :
    sliceInt a lo hi = .error .range := by
  rw [sliceInt]
  split_ifs with hpos
  · rw [slice, if_neg (by omega)]
  · rfl

end Owlchain
