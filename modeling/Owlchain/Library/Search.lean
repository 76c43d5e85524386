import Mathlib.Data.List.Basic

/-! Occurrences of a pattern in a list, and the pieces between the occurrences of one
element. A left-to-right scan over the positions at which the pattern fits finds its first
occurrence at or after the start of the scan. -/

namespace Owlchain.Library.Search

variable {α : Type*}

/-- The pattern stands at position `k`. -/
def At (pat s : List α) (k : ℕ) : Prop := pat <+: s.drop k

instance [DecidableEq α] (pat s : List α) (k : ℕ) : Decidable (At pat s k) :=
  inferInstanceAs (Decidable (pat <+: s.drop k))

/-- The first occurrence at or after position `a`. -/
structure FirstFrom (pat s : List α) (a k : ℕ) : Prop where
  from_le : a ≤ k
  here : At pat s k
  before : ∀ j, a ≤ j → j < k → ¬ At pat s j

variable {pat s : List α} {a k : ℕ}

theorem at_iff_take : At pat s k ↔ (s.drop k).take pat.length = pat := by
  rw [At, List.prefix_iff_eq_take, eq_comm]

theorem At.length_le (h : At pat s k) (hpat : pat ≠ []) : k + pat.length ≤ s.length := by
  have hle : pat.length ≤ s.length - k := by simpa using List.IsPrefix.length_le h
  have hpos : 0 < pat.length := List.length_pos_iff.mpr hpat
  omega

theorem FirstFrom.unique {k' : ℕ} (h : FirstFrom pat s a k) (h' : FirstFrom pat s a k') :
    k = k' := by
  rcases Nat.lt_trichotomy k k' with hlt | heq | hgt
  · exact absurd h.here (h'.before k h.from_le hlt)
  · exact heq
  · exact absurd h'.here (h.before k' h'.from_le hgt)

section Scan
variable [DecidableEq α] {n : ℕ}

/-- A scan up to the last position at which the pattern fits. -/
theorem find?_eq_some_iff (hpat : pat ≠ []) (hn : s.length < a + n + pat.length) :
    (List.range' a n).find? (fun i => At pat s i) = some k ↔ FirstFrom pat s a k := by
  rw [List.find?_range'_eq_some]
  simp only [decide_eq_true_eq, Bool.not_eq_true', decide_eq_false_iff_not, List.mem_range'_1]
  constructor
  · rintro ⟨hhere, ⟨hfrom, -⟩, hbefore⟩
    exact ⟨hfrom, hhere, hbefore⟩
  · rintro ⟨hfrom, hhere, hbefore⟩
    have := hhere.length_le hpat
    exact ⟨hhere, ⟨hfrom, by omega⟩, hbefore⟩

theorem find?_eq_none (hpat : pat ≠ []) (hn : s.length < a + n + pat.length)
    (h : (List.range' a n).find? (fun i => At pat s i) = none) : ¬ FirstFrom pat s a k := by
  intro hfirst
  rw [(find?_eq_some_iff hpat hn).mpr hfirst] at h
  cases h

end Scan

section Pieces
variable [BEq α] [LawfulBEq α]

/-- A piece of a list that was split has elements of the list, but not the separator. -/
theorem mem_piece {x c : α} {piece : List α} (hpiece : piece ∈ s.splitOn x) (hc : c ∈ piece) :
    c ∈ s ∧ c ≠ x := by
  induction s generalizing piece with
  | nil =>
    rw [List.splitOn_nil, List.mem_singleton] at hpiece
    rw [hpiece] at hc
    cases hc
  | cons y s ih =>
    rw [List.splitOn_cons_eq_if_modifyHead] at hpiece
    split_ifs at hpiece with hy
    · rcases List.mem_cons.mp hpiece with rfl | hrest
      · cases hc
      · exact ⟨List.mem_cons_of_mem y (ih hrest hc).1, (ih hrest hc).2⟩
    · -- the first piece goes on with `y`
      cases hsplit : s.splitOn x with
      | nil => exact absurd hsplit (List.splitOn_ne_nil x s)
      | cons first rest =>
        rw [hsplit, List.modifyHead_cons, List.mem_cons] at hpiece
        rcases hpiece with rfl | hrest
        · rcases List.mem_cons.mp hc with rfl | hc
          · exact ⟨List.mem_cons_self, fun h => hy (beq_iff_eq.mpr h)⟩
          · have := ih (by rw [hsplit]; exact List.mem_cons_self) hc
            exact ⟨List.mem_cons_of_mem y this.1, this.2⟩
        · have := ih (by rw [hsplit]; exact List.mem_cons_of_mem first hrest) hc
          exact ⟨List.mem_cons_of_mem y this.1, this.2⟩

end Pieces

/-- Filtering the pieces of a list that were joined with an element that is kept. -/
theorem filter_intercalate (p : α → Bool) {x : α} (hx : p x) (pieces : List (List α)) :
    ([x].intercalate pieces).filter p = [x].intercalate (pieces.map (List.filter p)) := by
  induction pieces with
  | nil => rfl
  | cons piece pieces ih =>
    cases pieces with
    | nil => simp
    | cons next pieces =>
      rw [List.map_cons, List.map_cons, List.intercalate_cons_cons, List.intercalate_cons_cons,
        List.filter_append, List.filter_append, ih, List.filter_singleton, hx, cond_true,
          List.map_cons]

end Owlchain.Library.Search
