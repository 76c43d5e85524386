import Mathlib.Data.List.Basic
import Mathlib.Order.Lattice

/-! A variable that holds a dynamic array. Its value is a slice: a block of memory and a
length. A block keeps the cells behind the end of the slice, and it stays as it is when
the variable moves on to a new block, so another slice of it can still be read. Appending
extends the block only at the end of its used part and if there is room; otherwise it
copies the slice to a new block. -/

namespace Owlchain.Library

/-- The blocks allocated so far, each with its used cells, and the slice held. -/
structure DynArray (α : Type*) where
  cells : ℕ → List α
  allocated : ℕ
  block : ℕ
  length : ℕ
  block_lt : block < allocated
  length_le : length ≤ (cells block).length

namespace DynArray

variable {α : Type*}

def empty : DynArray α := ⟨fun _ => [], 1, 0, 0, Nat.one_pos, le_rfl⟩

/-- The elements of the slice. -/
def view (a : DynArray α) : List α := (a.cells a.block).take a.length

@[simp] theorem length_view (a : DynArray α) : a.view.length = a.length := by
  rw [view, List.length_take, min_eq_left a.length_le]

theorem getElem?_view (a : DynArray α) {i : ℕ} (hi : i < a.length) :
    a.view[i]? = (a.cells a.block)[i]? := List.getElem?_take_of_lt hi

/-- `a ~= x`; `room` says whether the block can be extended in place. -/
def push (a : DynArray α) (x : α) (room : Bool) : DynArray α :=
  if h : room ∧ a.length = (a.cells a.block).length then
    { a with
      cells := Function.update a.cells a.block (a.cells a.block ++ [x])
      length := a.length + 1
      length_le := by simp [h.2] }
  else
    { cells := Function.update a.cells a.allocated (a.view ++ [x])
      allocated := a.allocated + 1
      block := a.allocated
      length := a.length + 1
      block_lt := Nat.lt_succ_self _
      length_le := by simp }

/-- `a[i] = x`. -/
def write (a : DynArray α) (i : ℕ) (x : α) : DynArray α :=
  { a with
    cells := Function.update a.cells a.block ((a.cells a.block).set i x)
    length_le := by simpa using a.length_le }

/-- `a.length = a.length - 1`. -/
def shrink (a : DynArray α) : DynArray α :=
  { a with
    length := a.length - 1
    length_le := (Nat.sub_le _ _).trans a.length_le }

theorem view_push (a : DynArray α) (x : α) (room : Bool) :
    (a.push x room).view = a.view ++ [x] := by
  unfold push
  split_ifs with h
  · simp only [view, Function.update_self, h.2, List.take_length]
    exact List.take_of_length_le (by simp)
  · simp only [view, Function.update_self]
    exact List.take_of_length_le (by simp)

/-- Appending leaves the used cells of every block where they are. -/
theorem cells_push (a : DynArray α) (x : α) (room : Bool) {b : ℕ} (hb : b < a.allocated) :
    (a.push x room).cells b = a.cells b ∨ (a.push x room).cells b = a.cells b ++ [x] := by
  unfold push
  split_ifs with h
  · by_cases hba : b = a.block
    · exact .inr (by simp [hba])
    · exact .inl (Function.update_of_ne hba _ _)
  · exact .inl (Function.update_of_ne hb.ne _ _)

theorem block_push (a : DynArray α) (x : α) (room : Bool) :
    (a.push x room).block = a.block ∨ (a.push x room).block = a.allocated := by
  unfold push
  split_ifs
  · exact .inl rfl
  · exact .inr rfl

theorem allocated_push_le (a : DynArray α) (x : α) (room : Bool) :
    a.allocated ≤ (a.push x room).allocated := by
  unfold push
  split_ifs
  · exact le_rfl
  · exact Nat.le_succ _

end DynArray

end Owlchain.Library
