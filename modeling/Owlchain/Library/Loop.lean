import Mathlib.Data.List.Basic

/-! Counting loops that may stop with an error. A loop is a `foldlM` in `Except`
over the list of its index values. One rule carries an invariant through an
index range, and one runs a loop in step with a pure fold; each also says that
the loop does not stop early. -/

namespace Owlchain.Library.Loop

universe u
variable {ε α τ : Type*} {β σ : Type u}

@[simp] theorem ok_bind (b : β) (f : β → Except ε σ) : (Except.ok b >>= f) = f b := rfl

@[simp] theorem error_bind (e : ε) (f : β → Except ε σ) : (Except.error e >>= f) = .error e := rfl

/-- A loop in step with a pure fold: if every iteration succeeds and keeps the
relation between the two accumulators, so does the whole loop. -/
theorem foldlM_simulates (R : σ → τ → Prop) (f : σ → α → Except ε σ) (g : τ → α → τ) :
    ∀ (l : List α) (s : σ) (t : τ),
      (∀ x ∈ l, ∀ s t, R s t → ∃ s', f s x = .ok s' ∧ R s' (g t x)) → R s t →
      ∃ s', l.foldlM f s = .ok s' ∧ R s' (l.foldl g t)
  | [], s, _, _, h => ⟨s, rfl, h⟩
  | x :: l, s, t, hstep, h => by
    obtain ⟨s₁, hs₁, h₁⟩ := hstep x (by simp) s t h
    obtain ⟨s₂, hs₂, h₂⟩ := foldlM_simulates R f g l s₁ (g t x)
      (fun y hy => hstep y (by simp [hy])) h₁
    exact ⟨s₂, by rw [List.foldlM_cons, hs₁, ok_bind, hs₂], h₂⟩

/-- `for (i = 0; i < n; i++)` with an invariant indexed by the next index. -/
theorem foldlM_range (I : ℕ → σ → Prop) (f : σ → ℕ → Except ε σ) (n : ℕ) (s : σ)
    (hstep : ∀ i < n, ∀ s, I i s → ∃ s', f s i = .ok s' ∧ I (i + 1) s') (h : I 0 s) :
    ∃ s', (List.range n).foldlM f s = .ok s' ∧ I n s' := by
  induction n with
  | zero => exact ⟨s, rfl, h⟩
  | succ n ih =>
    obtain ⟨s₁, hs₁, h₁⟩ := ih (fun i hi => hstep i (by omega))
    obtain ⟨s₂, hs₂, h₂⟩ := hstep n (by omega) s₁ h₁
    refine ⟨s₂, ?_, h₂⟩
    rw [List.range_succ, List.foldlM_append, hs₁, ok_bind, List.foldlM_cons, hs₂, ok_bind]
    rfl

end Owlchain.Library.Loop
