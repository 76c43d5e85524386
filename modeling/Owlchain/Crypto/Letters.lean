import Owlchain.Crypto.Encode

/-! The symbol loop of `decode`. Only the letters of a string matter; the loop stores
the `i`-th letter at the position that the codeword map gives to place `i` and throws
at the eighteenth letter. A codeword and its seventeen letters determine each other. -/

namespace Owlchain.Crypto

open Owlchain.Library Loop Owlchain.Crypto.Symbol

/-- The characters of a string that belong to the alphabet, in order. -/
def letters (s : Text) : Text := s.filter (· ∈ alpahbet)

theorem mem_of_mem_letters {s : Text} {c : Char} (h : c ∈ letters s) : c ∈ alpahbet := by
  simpa using (List.mem_filter.mp h).2

/-! ### The alphabet -/

theorem letter_mem (a : Symbol) : letter a ∈ alpahbet := by revert a; decide

theorem indexOf_letter (a : Symbol) : indexOf alpahbet (letter a) = a.toInt := by revert a; decide

theorem exists_letter {c : Char} (hc : c ∈ alpahbet) : ∃ a : Symbol, c = letter a := by
  obtain ⟨i, hi, rfl⟩ := List.getElem_of_mem hc
  have h32 : alpahbet.length = 32 := by decide
  exact ⟨(⟨i, h32 ▸ hi⟩ : Fin 32), (List.getD_eq_getElem alpahbet '2' hi).symm⟩

theorem order_injective {i j : ℕ} (hi : i < 17) (hj : j < 17) (h : order i = order j) : i = j := by
  have hall : ∀ i < 17, ∀ j < 17, order i = order j → i = j := by decide
  exact hall i hi j hj h

theorem order_surjective (p : Fin 17) : ∃ i < 17, order i = p := by revert p; decide

/-! ### Storing letters -/

/-- Store a letter at the position of the next place. -/
def place (s : List ℤ × ℕ) (c : Char) : List ℤ × ℕ :=
  (s.1.set (order s.2) (indexOf alpahbet c), s.2 + 1)

/-- The codeword that `decode` builds from a sequence of letters. -/
def rebuild (w : Text) : List ℤ := (w.foldl place (initialCodeword, 0)).1

theorem foldl_place (w : Text) : w.foldl place (initialCodeword, 0) = (rebuild w, w.length) := by
  have hlength : (w.foldl place (initialCodeword, 0)).2 = w.length := by
    induction w using List.reverseRecOn with
    | nil => rfl
    | append_singleton w c ih =>
      rw [List.foldl_append, List.length_append, ← ih]
      rfl
  exact Prod.ext rfl hlength

theorem rebuild_concat (w : Text) (c : Char) :
    rebuild (w ++ [c]) = (rebuild w).set (order w.length) (indexOf alpahbet c) := by
  rw [rebuild, List.foldl_append, foldl_place]
  rfl

@[simp] theorem length_rebuild (w : Text) : (rebuild w).length = 17 := by
  induction w using List.reverseRecOn with
  | nil => rfl
  | append_singleton w c ih => rw [rebuild_concat, List.length_set, ih]

theorem symbolStep_skip (s : List ℤ × ℕ) {c : Char} (hc : c ∉ alpahbet) :
    symbolStep s c = .ok s := by
  simp only [symbolStep, indexOf_eq_neg_one hc, le_refl, true_or, if_true]
  rfl

theorem symbolStep_letter (w : Text) {c : Char} (hc : c ∈ alpahbet) :
    symbolStep (rebuild w, w.length) c =
      if w.length ≤ 16 then .ok (rebuild (w ++ [c]), w.length + 1) else .error .enforce := by
  obtain ⟨a, rfl⟩ := exists_letter hc
  have hlt : a.toInt < 32 := Int.ofNat_lt.mpr (Fin.isLt a)
  have hnonneg : 0 ≤ a.toInt := Int.natCast_nonneg _
  have hposition : ¬ (a.toInt ≤ -1 ∨ a.toInt > (alpahbet.length : ℤ)) := by
    rw [show alpahbet.length = 32 from rfl]; omega
  simp only [symbolStep, indexOf_letter, if_neg hposition, enforce]
  split_ifs with hle
  · rw [ok_bind, load_codeworkMap _ (by omega), ok_bind,
      store_natCast (by rw [length_rebuild]; exact (order w.length).isLt), ok_bind, rebuild_concat,
      indexOf_letter]
    rfl
  · rfl

/-- The symbol loop, started after the letters `w`. -/
theorem symbolStep_foldlM (s w : Text) (hw : w.length ≤ 17) :
    s.foldlM symbolStep (rebuild w, w.length) =
      if w.length + (letters s).length ≤ 17
      then .ok (rebuild (w ++ letters s), w.length + (letters s).length) else .error .enforce := by
  induction s generalizing w with
  | nil => simp [letters, hw]; rfl
  | cons c s ih =>
    rw [List.foldlM_cons]
    by_cases hc : c ∈ alpahbet
    · have hletters : letters (c :: s) = c :: letters s := by simp [letters, hc]
      rw [symbolStep_letter w hc, hletters, List.length_cons]
      by_cases hle : w.length ≤ 16
      · rw [if_pos hle, ok_bind]
        have hrest := ih (w ++ [c]) (by simp; omega)
        simp only [List.length_append, List.length_singleton, List.append_assoc,
          List.singleton_append] at hrest
        rw [hrest, Nat.add_assoc, Nat.add_comm 1]
      · rw [if_neg hle, if_neg (by omega)]
        rfl
    · have hletters : letters (c :: s) = letters s := by simp [letters, hc]
      rw [symbolStep_skip _ hc, ok_bind, ih w hw, hletters]

theorem symbolLoop_eq (s : Text) :
    symbolLoop s = if (letters s).length ≤ 17 then .ok (rebuild (letters s), (letters s).length)
      else .error .enforce := by
  have h := symbolStep_foldlM s [] (by simp)
  simp only [List.length_nil, Nat.zero_add, List.nil_append] at h
  exact h

/-! ### Codewords and letters -/

theorem set_stored {n : ℕ} (u : Fin n → Symbol) (p : Fin n) (a : Symbol) :
    (stored u).set p a.toInt = stored (Function.update u p a) := by
  apply List.ext_getElem
  · simp
  · intro i h₁ h₂
    rw [List.getElem_set]
    simp only [stored, List.getElem_ofFn]
    by_cases hi : (p : ℕ) = i
    · subst hi; simp
    · rw [if_neg hi, Function.update_of_ne]
      intro h
      exact hi (congrArg Fin.val h).symm

/-- A sequence of letters rebuilds a word of symbols. -/
theorem exists_rebuild_eq (w : Text) (hw : ∀ c ∈ w, c ∈ alpahbet) :
    ∃ u : Fin 17 → Symbol, rebuild w = stored u := by
  induction w using List.reverseRecOn with
  | nil => exact ⟨Function.update 0 0 (ofNat 1), by decide⟩
  | append_singleton w c ih =>
    obtain ⟨u, hu⟩ := ih (fun x hx => hw x (by simp [hx]))
    obtain ⟨a, rfl⟩ := exists_letter (hw c (by simp))
    exact ⟨_, by rw [rebuild_concat, hu, indexOf_letter, set_stored]⟩

/-- Place `i` of a letter sequence is stored at its own position. -/
theorem rebuild_getElem? (w : Text) (hlen : w.length ≤ 17) (i : ℕ) (hi : i < w.length) :
    (rebuild w)[(order i : ℕ)]? = some (indexOf alpahbet w[i]) := by
  induction w using List.reverseRecOn with
  | nil => simp at hi
  | append_singleton w c ih =>
    rw [List.length_append, List.length_singleton] at hlen hi
    rw [rebuild_concat]
    by_cases hlast : i = w.length
    · subst hlast
      rw [List.getElem?_set_self (by rw [length_rebuild]; exact (order w.length).isLt)]
      simp
    · have hne : (order w.length : ℕ) ≠ order i := by
        intro h
        exact hlast (order_injective (by omega) (by omega) (Fin.ext h)).symm
      rw [List.getElem?_set_ne hne, ih (by omega) (by omega), List.getElem_append_left]

/-- The seventeen letters of a codeword, in the order of the codeword map. -/
def lettersOf (u : Fin 17 → Symbol) : Text := (List.range 17).map fun i => letter (u (order i))

@[simp] theorem length_lettersOf (u : Fin 17 → Symbol) : (lettersOf u).length = 17 := by
  simp [lettersOf]

theorem getElem?_stored {n : ℕ} (u : Fin n → Symbol) (p : Fin n) :
    (stored u)[(p : ℕ)]? = some (u p).toInt := by
  simp [stored]

theorem rebuild_lettersOf (u : Fin 17 → Symbol) : rebuild (lettersOf u) = stored u := by
  apply List.ext_getElem?
  intro k
  by_cases hk : k < 17
  · obtain ⟨i, hi, hp⟩ := order_surjective ⟨k, hk⟩
    have hkp : k = (order i : ℕ) := by rw [hp]
    rw [hkp, rebuild_getElem? _ (by simp) i (by simpa using hi), getElem?_stored]
    simp [lettersOf, indexOf_letter]
  · rw [List.getElem?_eq_none (by simp; omega), List.getElem?_eq_none (by simp; omega)]

theorem eq_lettersOf {w : Text} (hw : ∀ c ∈ w, c ∈ alpahbet) (hlen : w.length = 17)
    {u : Fin 17 → Symbol} (hu : rebuild w = stored u) : w = lettersOf u := by
  apply List.ext_getElem
  · simp [hlen]
  · intro i hi _
    have hget := rebuild_getElem? w hlen.le i hi
    rw [hu, getElem?_stored, Option.some.injEq] at hget
    obtain ⟨a, ha⟩ := exists_letter (hw _ (List.getElem_mem hi))
    rw [ha, indexOf_letter] at hget
    simp [lettersOf, ha, toInt_injective hget]

theorem letters_address (u : Fin 17 → Symbol) : letters (address u) = lettersOf u := by
  have hwritten : ∀ i, letters (written u i) = [letter (u (order i))] := by
    intro i
    have hdash : '-' ∉ alpahbet := by decide
    unfold written letters
    split_ifs <;> simp [letter_mem, hdash]
  simp only [letters, address, lettersOf, List.filter_flatMap] at *
  simp only [hwritten]
  exact List.flatMap_pure_eq_map _ _

end Owlchain.Crypto
