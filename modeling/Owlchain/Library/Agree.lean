import Owlchain.Library.Loop

/-! Two computations that may fail, side by side. They agree if they end with the same error or
with results in a given relation. Binds and loops of computations that agree agree, so a
refinement of single operations is one of every sequence of them. -/

namespace Owlchain.Library.Loop

universe u
variable {ε α : Type*} {σ τ σ' τ' : Type u} {R : σ → τ → Prop} {S : σ' → τ' → Prop}

inductive Agree (R : σ → τ → Prop) : Except ε σ → Except ε τ → Prop
  | ok {s : σ} {t : τ} (h : R s t) : Agree R (.ok s) (.ok t)
  | error (e : ε) : Agree R (.error e) (.error e)

theorem Agree.bind {x : Except ε σ} {y : Except ε τ} {f : σ → Except ε σ'} {g : τ → Except ε τ'}
    (h : Agree R x y) (hfg : ∀ s t, R s t → Agree S (f s) (g t)) : Agree S (x >>= f) (y >>= g) := by
  cases h with
  | ok h => exact hfg _ _ h
  | error e => exact .error e

theorem Agree.foldlM {f : σ → α → Except ε σ} {g : τ → α → Except ε τ}
    (hstep : ∀ a s t, R s t → Agree R (f s a) (g t a)) :
    ∀ (l : List α) {s : σ} {t : τ}, R s t → Agree R (l.foldlM f s) (l.foldlM g t)
  | [], _, _, h => .ok h
  | a :: l, s, t, h => by
    rw [List.foldlM_cons, List.foldlM_cons]
    exact (hstep a s t h).bind fun s t h => Agree.foldlM hstep l h

theorem Agree.exists_ok {x : Except ε σ} {t : τ} (h : Agree R x (.ok t)) :
    ∃ s, x = .ok s ∧ R s t := by
  cases h with
  | ok h => exact ⟨_, rfl, h⟩

end Owlchain.Library.Loop
