import Mathlib.Data.List.Rotate

/-! Part of an array in a cyclic order: `window l s n` has the `n` cells from position `s` on,
where the first cell follows the last. -/

namespace Owlchain.Library.Cyclic

variable {α : Type*} {l l' xs : List α} {s i k n : ℕ}

def window (l : List α) (s n : ℕ) : List α := (l.rotate s).take n

theorem length_window (hn : n ≤ l.length) : (window l s n).length = n := by
  rw [window, List.length_take, List.length_rotate, min_eq_left hn]

theorem getElem?_window (hi : i < n) (hn : n ≤ l.length) :
    (window l s n)[i]? = l[(s + i) % l.length]? := by
  rw [window, List.getElem?_take_of_lt hi, List.getElem?_rotate (hi.trans_le hn), Nat.add_comm]

/-- A position is taken around the end at most once. -/
theorem wrap {len : ℕ} (hs : s < len) (hi : i ≤ len) :
    (s + i) % len = if s + i < len then s + i else s + i - len := by
  split_ifs with h
  · exact Nat.mod_eq_of_lt h
  · rw [Nat.mod_eq_sub_mod (by omega), Nat.mod_eq_of_lt (by omega)]

theorem window_eq (hn : n ≤ l.length) (hlen : xs.length = n)
    (h : ∀ i < n, l[(s + i) % l.length]? = xs[i]?) :
    window l s n = xs := by
  refine List.ext_getElem? fun i => ?_
  by_cases hi : i < n
  · rw [getElem?_window hi hn, h i hi]
  · rw [List.getElem?_eq_none (by rw [length_window hn]; omega), List.getElem?_eq_none (by omega)]

theorem window_congr (hn : n ≤ l.length) (hlen : l'.length = l.length)
    (h : ∀ i < n, l'[(s + i) % l.length]? = l[(s + i) % l.length]?) :
    window l' s n = window l s n := by
  refine window_eq (by rw [hlen]; exact hn) (length_window hn) fun i hi => ?_
  rw [hlen, h i hi, getElem?_window hi hn]

@[simp] theorem window_zero (l : List α) (s : ℕ) : window l s 0 = [] := List.take_zero

theorem take_window (hk : k ≤ n) : (window l s n).take k = window l s k := by
  rw [window, List.take_take, min_eq_left hk, window]

theorem drop_window (hk : k ≤ n) (hn : n ≤ l.length) :
    (window l s n).drop k = window l ((s + k) % l.length) (n - k) := by
  refine (window_eq (by omega) (by rw [List.length_drop, length_window hn]) fun i hi => ?_).symm
  rw [List.getElem?_drop, getElem?_window (by omega) hn, Nat.mod_add_mod, Nat.add_assoc]

/-- The window and the cells behind it. -/
theorem window_append (hn : n + xs.length ≤ l.length)
    (h : ∀ i < xs.length, l[(s + (n + i)) % l.length]? = xs[i]?) :
    window l s (n + xs.length) = window l s n ++ xs := by
  have hlen := length_window (s := s) (n := n) (l := l) (by omega)
  refine window_eq hn (by rw [List.length_append, hlen]) fun i hi => ?_
  by_cases hin : i < n
  · rw [List.getElem?_append_left (by omega), getElem?_window hin (by omega)]
  · obtain ⟨j, rfl⟩ := Nat.exists_eq_add_of_le (Nat.le_of_not_lt hin)
    rw [List.getElem?_append_right (by omega), h j (by omega), hlen, Nat.add_sub_cancel_left]

/-- Cells of a window that has lost its cell `k`. -/
theorem window_eraseIdx (hk : k < n) (hn : n ≤ l.length) (hlen : l'.length = l.length)
    (hbefore : ∀ i < k, l'[(s + i) % l.length]? = l[(s + i) % l.length]?)
    (hbehind : ∀ i, k ≤ i → i + 1 < n → l'[(s + i) % l.length]? = l[(s + (i + 1)) % l.length]?) :
    window l' s (n - 1) = (window l s n).eraseIdx k := by
  refine window_eq (by omega) ?_ fun i hi => ?_
  · rw [List.length_eraseIdx, length_window hn, if_pos hk]
  · rw [hlen, List.getElem?_eraseIdx]
    split_ifs with hik
    · rw [hbefore i hik, getElem?_window (by omega) hn]
    · rw [hbehind i (by omega) (by omega), getElem?_window (by omega) hn]

end Owlchain.Library.Cyclic
