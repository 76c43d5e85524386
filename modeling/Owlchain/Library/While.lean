import Mathlib.Data.List.Basic
import Mathlib.Order.WellFounded

/-! Loops that run until a test fails. A pass of the loop is a partial function that is
undefined when the loop is left; the loop itself is cut off after a given number of passes.
If a measure goes down in every pass, every sufficiently large bound gives the same final
state, so nothing depends on the bound. -/

namespace Owlchain.Library.While

variable {σ : Type*}

/-- The state in which the loop is left, or `none` if it is cut off before. -/
def loop (pass : σ → Option σ) : ℕ → σ → Option σ
  | 0, _ => none
  | passes + 1, s => match pass s with
    | none => some s
    | some s' => loop pass passes s'

theorem loop_of_done {pass : σ → Option σ} {s : σ} (h : pass s = none) {passes : ℕ}
    (hp : 0 < passes) :
    loop pass passes s = some s := by
  obtain ⟨n, rfl⟩ := Nat.exists_eq_succ_of_ne_zero hp.ne'
  rw [loop, h]

theorem loop_of_pass {pass : σ → Option σ} {s s' : σ} (h : pass s = some s') (passes : ℕ) :
    loop pass (passes + 1) s = loop pass passes s' := by
  rw [loop, h]

/-- The rule for such loops: an invariant that a pass keeps, and a measure that it lowers. -/
theorem loop_terminates {α : Type*} {r : α → α → Prop} (hr : WellFounded r) (measure : σ → α)
    (Inv : σ → Prop) (pass : σ → Option σ)
    (hpass : ∀ s s', Inv s → pass s = some s' → Inv s' ∧ r (measure s') (measure s)) (s : σ)
    (hs : Inv s) :
    ∃ t, Inv t ∧ pass t = none ∧ ∃ bound, ∀ passes, bound ≤ passes →
      loop pass passes s = some t := by
  induction hm : measure s using hr.induction generalizing s with
  | _ x ih =>
    cases hnext : pass s with
    | none => exact ⟨s, hs, hnext, 1, fun passes hp => loop_of_done hnext hp⟩
    | some s' =>
      obtain ⟨hinv, hlt⟩ := hpass s s' hs hnext
      obtain ⟨t, ht, hdone, bound, hloop⟩ := ih (measure s') (hm ▸ hlt) s' hinv rfl
      refine ⟨t, ht, hdone, bound + 1, fun passes hp => ?_⟩
      obtain ⟨n, rfl⟩ := Nat.exists_eq_succ_of_ne_zero (by omega : passes ≠ 0)
      rw [Nat.succ_eq_add_one, loop_of_pass hnext, hloop n (by omega)]

end Owlchain.Library.While
