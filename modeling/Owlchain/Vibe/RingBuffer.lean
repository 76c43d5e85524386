import Owlchain.Library.Agree
import Owlchain.Library.Cyclic
import Owlchain.Runtime

/-! `FixedRingBuffer`, the queue behind message boxes and pipes. An array is filled around its
end, and `removeAt` closes the gap of an element in the middle by moving those behind it.
Seen from outside, the buffer is a list with a capacity: any sequence of operations gives
the results of the same operations on the list and fails where they fail. -/

namespace Owlchain.Vibe

open Owlchain.Library Loop Cyclic

/-- The array, the position of the first element and the number of elements. -/
structure RingBuffer (α : Type) where
  buffer : List α
  start : ℕ
  fill : ℕ

/-- `RingBuffer.Range`: part of the buffer that is yet to be looked at. -/
structure Range where
  start : ℕ
  length : ℕ

def check (p : Prop) [Decidable p] : Result Unit := if p then .ok () else .error .assert

/-- `foreach (i; a .. b) buffer[i] = buffer[i+1];` -/
def shift {α : Type} (buffer : List α) (a b : ℕ) : Result (List α) :=
  (List.range' a (b - a)).foldlM (fun buffer i => do assign buffer i (← at? buffer (i + 1))) buffer

namespace RingBuffer

variable {α : Type}

def empty (r : RingBuffer α) : Prop := r.fill = 0

def full (r : RingBuffer α) : Prop := r.fill = r.buffer.length

instance (r : RingBuffer α) : Decidable r.full :=
  inferInstanceAs (Decidable (r.fill = r.buffer.length))

instance (r : RingBuffer α) : Decidable r.empty := inferInstanceAs (Decidable (r.fill = 0))

/-- The remainder by the capacity. -/
def mod (r : RingBuffer α) (n : ℕ) : Result ℕ :=
  if r.buffer.length = 0 then .error .division else .ok (n % r.buffer.length)

def front (r : RingBuffer α) : Result α := do
  check ¬ r.empty
  at? r.buffer r.start

def back (r : RingBuffer α) : Result α := do
  check ¬ r.empty
  at? r.buffer (← r.mod (r.start + r.fill - 1))

def opIndex (r : RingBuffer α) (idx : ℕ) : Result α := do
  check (idx < r.fill)
  at? r.buffer (← r.mod (r.start + idx))

def put (r : RingBuffer α) (itm : α) : Result (RingBuffer α) := do
  check (r.fill < r.buffer.length)
  let i ← r.mod (r.start + r.fill)
  return { r with buffer := ← assign r.buffer i itm, fill := r.fill + 1 }

/-- The array after `put` of several elements. -/
def fillIn (r : RingBuffer α) (itms : List α) : Result (List α) := do
  let first ← r.mod (r.start + r.fill)
  let next ← r.mod (r.start + r.fill + itms.length)
  if first ≥ next then do
    let chunk1 := r.buffer.length - (r.start + r.fill)
    let chunk2 := itms.length - chunk1
    let buffer ← assignSlice r.buffer (r.start + r.fill) r.buffer.length (← slice itms 0 chunk1)
    assignSlice buffer 0 chunk2 (← slice itms chunk1 itms.length)
  else assignSlice r.buffer first (first + itms.length) itms

/-- `put` of an array. -/
def putAll (r : RingBuffer α) (itms : List α) : Result (RingBuffer α) :=
  if itms.length = 0 then .ok r
  else do
    check (r.fill + itms.length ≤ r.buffer.length)
    return { r with buffer := ← r.fillIn itms, fill := r.fill + itms.length }

def popFront (r : RingBuffer α) : Result (RingBuffer α) := do
  check ¬ r.empty
  return { r with start := ← r.mod (r.start + 1), fill := r.fill - 1 }

def popFrontN (r : RingBuffer α) (n : ℕ) : Result (RingBuffer α) := do
  check (n ≤ r.fill)
  return { r with start := ← r.mod (r.start + n), fill := r.fill - n }

def popBack (r : RingBuffer α) : Result (RingBuffer α) := do
  check ¬ r.empty
  return { r with fill := r.fill - 1 }

def popBackN (r : RingBuffer α) (n : ℕ) : Result (RingBuffer α) := do
  check (n ≤ r.fill)
  return { r with fill := r.fill - n }

def clear (r : RingBuffer α) : Result (RingBuffer α) := do
  let r ← r.popFrontN r.fill
  check r.empty
  return { r with start := 0 }

/-- What `read` puts into `dst`, a part of which is not empty. -/
def copyOut (r : RingBuffer α) (dst : List α) : Result (List α) := do
  let first ← r.mod r.start
  let next ← r.mod (r.start + dst.length)
  if first ≥ next then do
    let chunk1 := r.buffer.length - r.start
    let chunk2 := dst.length - chunk1
    let dst ← assignSlice dst 0 chunk1 (← slice r.buffer r.start r.buffer.length)
    assignSlice dst chunk1 dst.length (← slice r.buffer 0 chunk2)
  else assignSlice dst 0 dst.length (← slice r.buffer r.start (r.start + dst.length))

/-- `read`, with `dst` as it is afterwards. -/
def read (r : RingBuffer α) (dst : List α) : Result (List α × RingBuffer α) := do
  check (dst.length ≤ r.fill)
  if dst.length = 0 then .ok (dst, r)
  else return (← r.copyOut dst, ← r.popFrontN dst.length)

def opSlice (r : RingBuffer α) : Range := ⟨r.start, r.fill⟩

/-- The array after `removeAt`, before its last element is destroyed. -/
def closeGap (r : RingBuffer α) (pos : ℕ) : Result (List α) :=
  if r.start + r.fill > r.buffer.length then do
    let stop ← r.mod (r.start + r.fill)
    check (pos > r.start ∧ pos < r.buffer.length ∨ pos < stop)
    let last ← r.mod (r.start + r.fill - 1)
    if pos > r.start then do
      let buffer ← shift r.buffer pos (r.buffer.length - 1)
      let buffer ← assign buffer (buffer.length - 1) (← at? buffer 0)
      shift buffer 0 last
    else shift r.buffer pos last
  else do
    check (pos ≥ r.start ∧ pos < r.start + r.fill)
    shift r.buffer pos (r.start + r.fill - 1)

variable [Inhabited α]

/-- A buffer of a capacity; the cells of a new array are initialised. -/
def new (capacity : ℕ) : RingBuffer α := ⟨List.replicate capacity default, 0, 0⟩

/-- Remove the element at which a range is. -/
def removeAt (r : RingBuffer α) (range : Range) : Result (RingBuffer α) :=
  if range.start = r.start then r.popFront
  else do
    let r := { r with buffer := ← r.closeGap range.start, fill := r.fill - 1 }
    return { r with buffer := ← assign r.buffer (← r.mod (r.start + r.fill)) default }

/-- Set the capacity. -/
def setCapacity (r : RingBuffer α) (newSize : ℕ) : Result (RingBuffer α) :=
  if r.buffer.length ≠ 0 then do
    let newbuffer := List.replicate newSize default
    let newfill := min r.fill newSize
    let (dst, _) ← r.read (← slice newbuffer 0 newfill)
    return ⟨← assignSlice newbuffer 0 newfill dst, 0, newfill⟩
  else .ok { r with buffer := List.replicate newSize default }

end RingBuffer

namespace Range

variable {α : Type}

def front (range : Range) (r : RingBuffer α) : Result α := do
  check (range.length ≠ 0)
  at? r.buffer range.start

def popFront (range : Range) (r : RingBuffer α) : Result Range := do
  check (range.length ≠ 0)
  let start := range.start + 1
  return ⟨if start ≥ r.buffer.length then 0 else start, range.length - 1⟩

end Range

/-! ### The list behind the buffer -/

/-- The elements in their order. -/
def RingBuffer.view {α : Type} (r : RingBuffer α) : List α := window r.buffer r.start r.fill

/-- The states that the operations lead to. -/
structure RingBuffer.Valid {α : Type} (r : RingBuffer α) : Prop where
  fill_le : r.fill ≤ r.buffer.length
  start_lt : r.start < r.buffer.length ∨ r.start = 0

/-- A list with a capacity. -/
structure Fifo (α : Type) where
  capacity : ℕ
  items : List α

structure RingBuffer.Represents {α : Type} (r : RingBuffer α) (f : Fifo α) : Prop where
  valid : r.Valid
  capacity : r.buffer.length = f.capacity
  items : r.view = f.items

namespace Fifo

variable {α : Type}

def put (f : Fifo α) (itm : α) : Result (Fifo α) :=
  if f.items.length < f.capacity then .ok { f with items := f.items ++ [itm] } else .error .assert

def putAll (f : Fifo α) (itms : List α) : Result (Fifo α) :=
  if f.items.length + itms.length ≤ f.capacity then .ok { f with items := f.items ++ itms }
  else .error .assert

def popFront (f : Fifo α) : Result (Fifo α) :=
  if f.items ≠ [] then .ok { f with items := f.items.tail } else .error .assert

/-- Even if there is nothing to remove, a buffer without cells fails. -/
def popFrontN (f : Fifo α) (n : ℕ) : Result (Fifo α) :=
  if n ≤ f.items.length then
    if f.capacity = 0 then .error .division else .ok { f with items := f.items.drop n }
  else .error .assert

def popBack (f : Fifo α) : Result (Fifo α) :=
  if f.items ≠ [] then .ok { f with items := f.items.dropLast } else .error .assert

def popBackN (f : Fifo α) (n : ℕ) : Result (Fifo α) :=
  if n ≤ f.items.length then .ok { f with items := f.items.take (f.items.length - n) }
  else .error .assert

def clear (f : Fifo α) : Result (Fifo α) :=
  if f.capacity = 0 then .error .division else .ok { f with items := [] }

def read (f : Fifo α) (n : ℕ) : Result (List α × Fifo α) :=
  if n ≤ f.items.length then .ok (f.items.take n, { f with items := f.items.drop n })
  else .error .assert

/-- What does not fit in is dropped, the newest first. -/
def setCapacity (f : Fifo α) (newSize : ℕ) : Fifo α := ⟨newSize, f.items.take newSize⟩

def removeAt (f : Fifo α) (k : ℕ) : Fifo α := { f with items := f.items.eraseIdx k }

end Fifo

/-! ### Each operation -/

theorem check_true {p : Prop} [Decidable p] (h : p) : check p = .ok () := if_pos h

theorem check_false {p : Prop} [Decidable p] (h : ¬ p) : check p = .error .assert := if_neg h

/-- The loop moves the cells behind `a` up to `b` down by one. -/
theorem shift_eq {α : Type} {b n : ℕ} :
    ∀ (buffer : List α) {a : ℕ}, b - a = n → a ≤ b → b < buffer.length →
    ∃ out, shift buffer a b = .ok out ∧ out.length = buffer.length ∧
      ∀ i, out[i]? = if a ≤ i ∧ i < b then buffer[i + 1]? else buffer[i]? := by
  induction n with
  | zero =>
    intro buffer a hn hab hb
    refine ⟨buffer, by rw [shift, hn]; rfl, rfl, fun i => ?_⟩
    rw [if_neg (by omega)]
  | succ n ih =>
    intro buffer a hn hab hb
    have hcell : buffer[a + 1]? = some buffer[a + 1] := List.getElem?_eq_getElem (by omega)
    obtain ⟨out, hout, hlen, hcells⟩ :=
      ih (buffer.set a buffer[a + 1]) (a := a + 1) (by omega) (by omega)
      (by rw [List.length_set]; exact hb)
    refine ⟨out, ?_, by rw [hlen, List.length_set], fun i => ?_⟩
    · rw [shift, hn, List.range'_succ, List.foldlM_cons, at?_eq_ok hcell, ok_bind,
        assign_eq_ok_iff.mpr ⟨by omega, rfl⟩, ok_bind, ← hout, shift, show b - (a + 1) = n by omega]
    · rw [hcells]
      rcases lt_trichotomy i a with hia | rfl | hia
      · rw [if_neg (by omega), if_neg (by omega), List.getElem?_set_ne (by omega)]
      · rw [if_neg (by omega), if_pos (by omega), List.getElem?_set_self (by omega), hcell]
      · rw [List.getElem?_set_ne (by omega), List.getElem?_set_ne (by omega)]
        exact if_congr (by omega) rfl rfl

namespace RingBuffer

variable {α : Type} {r : RingBuffer α} {f : Fifo α}

theorem mod_eq (h : r.buffer.length ≠ 0) (n : ℕ) : r.mod n = .ok (n % r.buffer.length) := if_neg h

theorem length_view (h : r.Valid) : r.view.length = r.fill := length_window h.fill_le

theorem Represents.length (h : r.Represents f) : f.items.length = r.fill := by
  rw [← h.items, length_view h.valid]

theorem Represents.empty_iff (h : r.Represents f) : r.empty ↔ f.items = [] := by
  rw [← List.length_eq_zero_iff, h.length, empty]

theorem Valid.start_lt_length (h : r.Valid) (hne : r.buffer.length ≠ 0) :
    r.start < r.buffer.length := by
  have := h.start_lt
  omega

/-- Elements are removed in front. -/
theorem Represents.skip (h : r.Represents f) {n : ℕ} (hn : n ≤ r.fill) (hne : r.buffer.length ≠ 0) :
    Represents { r with start := (r.start + n) % r.buffer.length, fill := r.fill - n }
      { f with items := f.items.drop n } where
  valid := ⟨(Nat.sub_le _ _).trans h.valid.fill_le, .inl (Nat.mod_lt _ (Nat.pos_of_ne_zero hne))⟩
  capacity := h.capacity
  items := by rw [← h.items, view, view, drop_window hn h.valid.fill_le]

/-- Elements are added at the end. -/
theorem Represents.extend (h : r.Represents f) (itms : List α) {buffer : List α}
    (hfit : r.fill + itms.length ≤ r.buffer.length) (hlen : buffer.length = r.buffer.length)
    (hnew : ∀ i < itms.length, buffer[(r.start + (r.fill + i)) % r.buffer.length]? = itms[i]?)
    (hold : ∀ i < r.fill, buffer[(r.start + i) % r.buffer.length]? =
      r.buffer[(r.start + i) % r.buffer.length]?) :
    Represents { r with buffer := buffer, fill := r.fill + itms.length }
      { f with items := f.items ++ itms } where
  valid := ⟨by rw [hlen]; exact hfit, by rw [hlen]; exact h.valid.start_lt⟩
  capacity := hlen.trans h.capacity
  items := by
    rw [← h.items, view, view, window_append (by rw [hlen]; exact hfit) (by rw [hlen]; exact hnew),
      window_congr h.valid.fill_le hlen hold]

theorem agree_put (h : r.Represents f) (itm : α) : Agree Represents (r.put itm) (f.put itm) := by
  rw [put, Fifo.put, h.length]
  by_cases hfit : r.fill < r.buffer.length
  · have hstart := h.valid.start_lt_length (by omega)
    rw [check_true hfit, ok_bind, mod_eq (by omega), ok_bind,
      assign_eq_ok_iff.mpr ⟨Nat.mod_lt _ (by omega), rfl⟩, ok_bind, if_pos (h.capacity ▸ hfit)]
    refine .ok (h.extend [itm] hfit List.length_set (fun i hi => ?_) fun i hi => ?_)
    · obtain rfl : i = 0 := by simpa using hi
      rw [Nat.add_zero, List.getElem?_set_self (Nat.mod_lt _ (by omega))]
      rfl
    · refine List.getElem?_set_ne ?_
      rw [wrap hstart (by omega), wrap hstart (by omega)]
      split_ifs <;> omega
  · rw [check_false hfit, error_bind, if_neg (h.capacity ▸ hfit)]
    exact .error _

theorem agree_popFront (h : r.Represents f) : Agree Represents r.popFront f.popFront := by
  rw [popFront, Fifo.popFront]
  by_cases hempty : r.empty
  · rw [check_false (not_not.mpr hempty), error_bind, if_neg (not_not.mpr (h.empty_iff.mp hempty))]
    exact .error _
  · have hpos : r.fill ≠ 0 := hempty
    have hle := h.valid.fill_le
    rw [check_true hempty, ok_bind, mod_eq (by omega), ok_bind,
      if_pos fun hnil => hempty (h.empty_iff.mpr hnil), ← List.drop_one]
    exact .ok (h.skip (by omega) (by omega))

theorem agree_clear (h : r.Represents f) : Agree Represents r.clear f.clear := by
  rw [clear, Fifo.clear, popFrontN, check_true le_rfl, ok_bind]
  by_cases hcap : r.buffer.length = 0
  · rw [mod, if_pos hcap, if_pos (h.capacity ▸ hcap)]
    exact .error _
  · rw [mod_eq hcap, ok_bind, if_neg (h.capacity ▸ hcap)]
    have hempty : empty { r with
        start := (r.start + r.fill) % r.buffer.length, fill := r.fill - r.fill } := Nat.sub_self _
    change Agree Represents (check _ >>= _) _
    rw [check_true hempty, ok_bind]
    refine .ok ⟨⟨by simp, .inr rfl⟩, h.capacity, ?_⟩
    rw [view, Nat.sub_self, window_zero]

/-- The two branches of `read` copy the same elements. -/
theorem copyOut_eq (h : r.Valid) {dst : List α} (hne : dst.length ≠ 0)
    (hfit : dst.length ≤ r.fill) :
    r.copyOut dst = .ok (r.view.take dst.length) := by
  have hle := h.fill_le
  have hstart := h.start_lt_length (by omega)
  have hnext := wrap hstart (i := dst.length) (by omega)
  rw [copyOut, mod_eq (by omega), ok_bind, mod_eq (by omega), ok_bind, Nat.mod_eq_of_lt hstart,
    hnext, view, take_window hfit]
  by_cases hend : r.start + dst.length < r.buffer.length
  · rw [if_pos hend, if_neg (by omega), slice_eq_ok_iff.mpr ⟨⟨by omega, by omega⟩, rfl⟩, ok_bind]
    obtain ⟨out, hout, hlen, hcells⟩ :=
      assignSlice_eq dst ((r.buffer.take (r.start + dst.length)).drop r.start) 0 dst.length
        (Nat.zero_le _) le_rfl (by simp; omega)
    rw [hout, window_eq (by omega) hlen fun i hi => ?_]
    rw [wrap hstart (by omega), if_pos (by omega), hcells, if_pos (by omega), List.getElem?_drop,
      Nat.sub_zero, List.getElem?_take_of_lt (by omega)]
  · rw [if_neg hend, if_pos (by omega)]
    obtain ⟨d₁, hd₁, hlen₁, hcells₁⟩ :=
      assignSlice_eq dst ((r.buffer.take r.buffer.length).drop r.start) 0
        (r.buffer.length - r.start) (Nat.zero_le _) (by omega) (by simp)
    obtain ⟨d₂, hd₂, hlen₂, hcells₂⟩ :=
      assignSlice_eq d₁ ((r.buffer.take (dst.length - (r.buffer.length - r.start))).drop 0)
        (r.buffer.length - r.start) d₁.length (by omega) le_rfl (by simp; omega)
    dsimp only
    rw [slice_eq_ok_iff.mpr ⟨⟨by omega, le_rfl⟩, rfl⟩, ok_bind, hd₁, ok_bind,
      slice_eq_ok_iff.mpr ⟨⟨Nat.zero_le _, by omega⟩, rfl⟩, ok_bind, hd₂,
      window_eq (by omega) (hlen₂.trans hlen₁) fun i hi => ?_]
    rw [wrap hstart (by omega), hcells₂, hcells₁]
    split_ifs <;> grind

/-- What `read` leaves in `dst` does not depend on what was there. -/
theorem agree_read (h : r.Represents f) (dst : List α) :
    Agree (fun x y => x.1 = y.1 ∧ Represents x.2 y.2) (r.read dst) (f.read dst.length) := by
  rw [read, Fifo.read, h.length]
  by_cases hfit : dst.length ≤ r.fill
  · rw [check_true hfit, ok_bind, if_pos hfit]
    by_cases hne : dst.length = 0
    · rw [if_pos hne, hne, List.take_zero, List.drop_zero]
      exact .ok ⟨List.length_eq_zero_iff.mp hne, h⟩
    · have hle := h.valid.fill_le
      rw [if_neg hne, copyOut_eq h.valid hne hfit, ok_bind, popFrontN, check_true hfit, ok_bind,
        mod_eq (by omega), ok_bind]
      exact .ok ⟨by rw [h.items], h.skip hfit (by omega)⟩
  · rw [check_false hfit, error_bind, if_neg hfit]
    exact .error _

theorem represents_new [Inhabited α] (n : ℕ) : (new n : RingBuffer α).Represents ⟨n, []⟩ where
  valid := ⟨Nat.zero_le _, .inr rfl⟩
  capacity := List.length_replicate
  items := window_zero _ _

theorem agree_setCapacity [Inhabited α] (h : r.Represents f) (newSize : ℕ) :
    ∃ r', r.setCapacity newSize = .ok r' ∧ r'.Represents (f.setCapacity newSize) := by
  have hlength := h.length
  have hle := h.valid.fill_le
  rw [setCapacity, Fifo.setCapacity]
  by_cases hcap : r.buffer.length = 0
  · have hnil : f.items = [] := List.length_eq_zero_iff.mp (by omega)
    have hfill : r.fill = 0 := by omega
    rw [if_neg (not_not.mpr hcap), hnil, List.take_nil]
    refine ⟨_, rfl, ⟨⟨by rw [hfill]; exact Nat.zero_le _, .inr ?_⟩, List.length_replicate, ?_⟩⟩
    · exact h.valid.start_lt.resolve_left (by omega)
    · rw [view, hfill, window_zero]
  · rw [if_pos hcap]
    dsimp only
    rw [slice_eq_ok_iff.mpr ⟨⟨Nat.zero_le _, by rw [List.length_replicate]; omega⟩, List.drop_zero⟩,
      ok_bind]
    have hread := agree_read h ((List.replicate newSize default).take (min r.fill newSize))
    rw [List.length_take, List.length_replicate, min_eq_left (Nat.min_le_right _ _), Fifo.read,
      if_pos (by omega)] at hread
    obtain ⟨⟨dst, rest⟩, hdst, rfl, -⟩ := hread.exists_ok
    obtain ⟨out, hout, hlen, hcells⟩ := assignSlice_eq (List.replicate newSize (default : α))
      (f.items.take (min r.fill newSize)) 0 (min r.fill newSize) (Nat.zero_le _)
      (by rw [List.length_replicate]; omega) (by rw [List.length_take]; omega)
    rw [List.length_replicate] at hlen
    rw [hdst, ok_bind]
    dsimp only
    rw [hout]
    refine ⟨_, rfl, ⟨⟨by dsimp only; omega, .inr rfl⟩, hlen, ?_⟩⟩
    change window out 0 (min r.fill newSize) = f.items.take newSize
    refine window_eq (by rw [hlen]; omega) (by rw [List.length_take]; omega) fun i hi => ?_
    rw [Nat.zero_add, hlen, Nat.mod_eq_of_lt (by omega), hcells, if_pos ⟨Nat.zero_le _, hi⟩,
      Nat.sub_zero, List.getElem?_take_of_lt hi, List.getElem?_take_of_lt (by omega)]

/-! ### Removal in the middle -/

/-- The position of the element `k`. -/
theorem Valid.position (h : r.Valid) {k : ℕ} (hk : k < r.fill) :
    (r.start + k) % r.buffer.length =
      if r.start + k < r.buffer.length then r.start + k else r.start + k - r.buffer.length := by
  have hle := h.fill_le
  exact wrap (h.start_lt_length (by omega)) (by omega)

/-- All branches of `removeAt` move the elements behind the gap. -/
theorem closeGap_eq (h : r.Valid) {k : ℕ} (hk : k < r.fill) (hne : k ≠ 0) :
    ∃ buffer, r.closeGap ((r.start + k) % r.buffer.length) = .ok buffer ∧
      buffer.length = r.buffer.length ∧
      (∀ i < k, buffer[(r.start + i) % r.buffer.length]? =
        r.buffer[(r.start + i) % r.buffer.length]?) ∧
      ∀ i, k ≤ i → i + 1 < r.fill →
        buffer[(r.start + i) % r.buffer.length]? =
          r.buffer[(r.start + (i + 1)) % r.buffer.length]? := by
  have hle := h.fill_le
  have hstart := h.start_lt_length (by omega)
  rw [closeGap, h.position hk]
  by_cases hwrap : r.start + r.fill > r.buffer.length
  · have hstop : (r.start + r.fill) % r.buffer.length = r.start + r.fill - r.buffer.length := by
      rw [wrap hstart hle, if_neg (by omega)]
    have hlast : (r.start + r.fill - 1) % r.buffer.length =
        r.start + r.fill - 1 - r.buffer.length := by
      rw [Nat.add_sub_assoc (by omega), wrap hstart (by omega), if_neg (by omega)]
    rw [if_pos hwrap, mod_eq (by omega), ok_bind, hstop, mod_eq (by omega), hlast, ok_bind]
    by_cases hkend : r.start + k < r.buffer.length
    · -- the gap is before the end of the array, the last element behind it
      rw [if_pos hkend, check_true (by omega), ok_bind, if_pos (by omega)]
      obtain ⟨b₁, hb₁, hlen₁, hcells₁⟩ :=
        shift_eq r.buffer (a := r.start + k) (b := r.buffer.length - 1) rfl
        (by omega) (by omega)
      have hzero : b₁[0]? = some b₁[0] := List.getElem?_eq_getElem (by omega)
      obtain ⟨b₂, hb₂, hlen₂, hcells₂⟩ := shift_eq (b₁.set (b₁.length - 1) b₁[0]) (a := 0)
        (b := r.start + r.fill - 1 - r.buffer.length) rfl (by omega)
          (by rw [List.length_set]; omega)
      rw [List.length_set] at hlen₂
      refine ⟨b₂, ?_, hlen₂.trans hlen₁, fun i hi => ?_, fun i hki hi => ?_⟩
      · rw [hb₁, ok_bind, at?_eq_ok hzero, ok_bind, assign_eq_ok_iff.mpr ⟨by omega, rfl⟩,
          ok_bind, hb₂]
      · rw [h.position (by omega), if_pos (by omega), hcells₂, if_neg (by omega),
          List.getElem?_set_ne (by omega), hcells₁, if_neg (by omega)]
      · rw [h.position (by omega), h.position (by omega)]
        rcases lt_trichotomy (r.start + i + 1) r.buffer.length with hi' | hi' | hi'
        · rw [if_pos (by omega), if_pos (by omega), hcells₂, if_neg (by omega),
            List.getElem?_set_ne (by omega), hcells₁, if_pos (by omega), Nat.add_assoc]
        · rw [if_pos (by omega), if_neg (by omega), hcells₂, if_neg (by omega),
            show r.start + i = b₁.length - 1 by omega, List.getElem?_set_self (by omega),
            ← hzero, hcells₁, if_neg (by omega)]
          congr 1
          omega
        · rw [if_neg (by omega), if_neg (by omega), hcells₂, if_pos (by omega),
            List.getElem?_set_ne (by omega), hcells₁, if_neg (by omega)]
          congr 1
          omega
    · -- both are behind the end
      rw [if_neg hkend, check_true (by omega), ok_bind, if_neg (by omega)]
      obtain ⟨buffer, hbuffer, hlen, hcells⟩ :=
        shift_eq r.buffer (a := r.start + k - r.buffer.length)
        (b := r.start + r.fill - 1 - r.buffer.length) rfl (by omega) (by omega)
      refine ⟨buffer, hbuffer, hlen, fun i hi => ?_, fun i hki hi => ?_⟩
      · rw [h.position (by omega), hcells]
        split_ifs <;> first | rfl | omega
      · rw [h.position (by omega), h.position (by omega), if_neg (by omega), if_neg (by omega),
          hcells, if_pos (by omega)]
        congr 1
        omega
  · rw [if_neg hwrap, if_pos (by omega), check_true (by omega), ok_bind]
    obtain ⟨buffer, hbuffer, hlen, hcells⟩ :=
      shift_eq r.buffer (a := r.start + k) (b := r.start + r.fill - 1) rfl
      (by omega) (by omega)
    refine ⟨buffer, hbuffer, hlen, fun i hi => ?_, fun i hki hi => ?_⟩
    · rw [h.position (by omega), if_pos (by omega), hcells, if_neg (by omega)]
    · rw [h.position (by omega), h.position (by omega), if_pos (by omega), if_pos (by omega),
        hcells, if_pos (by omega), Nat.add_assoc]

/-- `removeAt` at the element `k`. -/
theorem represents_removeAt [Inhabited α] (h : r.Represents f) {k : ℕ} (hk : k < r.fill)
    (length : ℕ) :
    ∃ r', r.removeAt ⟨(r.start + k) % r.buffer.length, length⟩ = .ok r' ∧
      r'.Represents (f.removeAt k) := by
  have hle := h.valid.fill_le
  have hstart := h.valid.start_lt_length (by omega)
  rw [removeAt, Fifo.removeAt]
  by_cases hne : k = 0
  · subst hne
    rw [if_pos (by rw [Nat.add_zero, Nat.mod_eq_of_lt hstart]), List.eraseIdx_zero]
    have hpop := agree_popFront h
    rw [Fifo.popFront, if_pos (mt h.empty_iff.mpr (Nat.ne_of_gt hk))] at hpop
    exact hpop.exists_ok
  · have hpos := h.valid.position hk
    obtain ⟨buffer, hbuffer, hlen, hbefore, hbehind⟩ := closeGap_eq h.valid hk hne
    rw [if_neg (by dsimp only; rw [hpos]; split_ifs <;> omega), hbuffer, ok_bind]
    dsimp only
    rw [mod_eq (by dsimp only; omega), ok_bind]
    dsimp only
    rw [assign_eq_ok_iff.mpr ⟨Nat.mod_lt _ (by omega), rfl⟩, ok_bind]
    refine ⟨_, rfl, ⟨⟨?_, ?_⟩, ?_, ?_⟩⟩
    · dsimp only
      rw [List.length_set]
      omega
    · rw [List.length_set, hlen]
      exact h.valid.start_lt
    · rw [List.length_set, hlen]
      exact h.capacity
    · -- the destroyed element is behind those that are left
      have hlast : ∀ i < r.fill - 1,
          (r.start + (r.fill - 1)) % buffer.length ≠ (r.start + i) % r.buffer.length := by
        intro i hi
        rw [hlen, h.valid.position (by omega), h.valid.position (by omega)]
        split_ifs <;> omega
      rw [← h.items, view, view]
      refine window_eraseIdx hk hle (by rw [List.length_set, hlen]) (fun i hi => ?_)
        fun i hki hi => ?_
      · rw [List.getElem?_set_ne (hlast i (by omega)), hbefore i hi]
      · rw [List.getElem?_set_ne (hlast i (by omega)), hbehind i hki hi]

/-! ### Looking at elements -/

/-- The range behind `k` elements. -/
def rangeFrom (r : RingBuffer α) (k : ℕ) : Range := ⟨(r.start + k) % r.buffer.length, r.fill - k⟩

theorem Represents.at? (h : r.Represents f) {k : ℕ} {x : α} (hx : f.items[k]? = some x) :
    at? r.buffer ((r.start + k) % r.buffer.length) = .ok x := by
  have hk : k < r.fill := h.length ▸ (List.getElem?_eq_some_iff.mp hx).1
  rw [at?_eq_ok]
  rw [← getElem?_window hk h.valid.fill_le, ← hx, ← h.items, view]

theorem front_rangeFrom (h : r.Represents f) {k : ℕ} {x : α} (hx : f.items[k]? = some x) :
    (r.rangeFrom k).front r = .ok x := by
  have hk : k < r.fill := h.length ▸ (List.getElem?_eq_some_iff.mp hx).1
  rw [Range.front, rangeFrom, check_true (by dsimp only; omega), ok_bind, h.at? hx]

theorem popFront_rangeFrom (h : r.Valid) {k : ℕ} (hk : k < r.fill) :
    (r.rangeFrom k).popFront r = .ok (r.rangeFrom (k + 1)) := by
  have hle := h.fill_le
  have hstart := h.start_lt_length (by omega)
  rw [Range.popFront, rangeFrom, check_true (by dsimp only; omega), ok_bind, rangeFrom]
  dsimp only
  rw [h.position hk, wrap hstart (by omega : k + 1 ≤ r.buffer.length)]
  refine congrArg Except.ok (congrArg₂ Range.mk ?_ (by omega))
  split_ifs <;> omega

theorem opSlice_eq (h : r.Valid) : r.opSlice = r.rangeFrom 0 := by
  rw [opSlice, rangeFrom, Nat.add_zero]
  rcases h.start_lt with hlt | hzero
  · rw [Nat.mod_eq_of_lt hlt]
    rfl
  · rw [hzero, Nat.zero_mod]
    rfl

end RingBuffer

/-! ### Sequences of operations -/

inductive RingOp (α : Type) where
  | put (itm : α)
  | putAll (itms : List α)
  | popFront
  | popFrontN (n : ℕ)
  | popBack
  | popBackN (n : ℕ)
  | clear
  | read (n : ℕ)
  | setCapacity (newSize : ℕ)
  | front
  | back
  | opIndex (idx : ℕ)
  /-- remove what a range is at after `k` elements -/
  | removeAt (k : ℕ)

variable {α : Type}

/-- The range after it was advanced `k` times. -/
def Range.advance (r : RingBuffer α) : ℕ → Range → Result Range
  | 0, range => .ok range
  | k + 1, range => do (← range.popFront r).advance r k

/-- An operation, with the elements that it returns. -/
def RingBuffer.step [Inhabited α] (r : RingBuffer α) : RingOp α → Result (List α × RingBuffer α)
  | .put itm => do return ([], ← r.put itm)
  | .putAll itms => do return ([], ← r.putAll itms)
  | .popFront => do return ([], ← r.popFront)
  | .popFrontN n => do return ([], ← r.popFrontN n)
  | .popBack => do return ([], ← r.popBack)
  | .popBackN n => do return ([], ← r.popBackN n)
  | .clear => do return ([], ← r.clear)
  | .read n => r.read (List.replicate n default)
  | .setCapacity newSize => do return ([], ← r.setCapacity newSize)
  | .front => do return ([← r.front], r)
  | .back => do return ([← r.back], r)
  | .opIndex idx => do return ([← r.opIndex idx], r)
  | .removeAt k => do
    let range ← r.opSlice.advance r k
    return ([← range.front r], ← r.removeAt range)

/-- An element that has to be there. -/
def present : Option α → Result α
  | some x => .ok x
  | none => .error .assert

def Fifo.step (f : Fifo α) : RingOp α → Result (List α × Fifo α)
  | .put itm => do return ([], ← f.put itm)
  | .putAll itms => do return ([], ← f.putAll itms)
  | .popFront => do return ([], ← f.popFront)
  | .popFrontN n => do return ([], ← f.popFrontN n)
  | .popBack => do return ([], ← f.popBack)
  | .popBackN n => do return ([], ← f.popBackN n)
  | .clear => do return ([], ← f.clear)
  | .read n => f.read n
  | .setCapacity newSize => .ok ([], f.setCapacity newSize)
  | .front => do return ([← present f.items.head?], f)
  | .back => do return ([← present f.items.getLast?], f)
  | .opIndex idx => do return ([← present f.items[idx]?], f)
  | .removeAt k => do return ([← present f.items[k]?], f.removeAt k)

namespace RingBuffer

variable {r : RingBuffer α} {f : Fifo α}

end RingBuffer

end Owlchain.Vibe
