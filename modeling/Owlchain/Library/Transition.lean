import Mathlib.Data.Option.Basic
import Mathlib.Data.List.Basic

/-! Runs of a machine that takes one input at a time. A step is a partial function: an
input may be impossible in a state. `Along` demands a condition of every input in the
state in which it is taken; the two rules carry an invariant through a run whose inputs
meet the condition, and find the runs that keep an invariant which no later step repairs. -/

namespace Owlchain.Library.Transition

universe u
variable {σ : Type u} {α : Type*}

/-- The state after a list of inputs, if each of them is possible when it comes. -/
def run (step : σ → α → Option σ) (s : σ) (l : List α) : Option σ := l.foldlM step s

@[simp] theorem run_nil (step : σ → α → Option σ) (s : σ) : run step s [] = some s := rfl

theorem run_cons (step : σ → α → Option σ) (s : σ) (a : α) (l : List α) :
    run step s (a :: l) = (step s a).bind fun m => run step m l := rfl

theorem run_cons_eq_some {step : σ → α → Option σ} {s t : σ} {a : α} {l : List α} :
    run step s (a :: l) = some t ↔ ∃ m, step s a = some m ∧ run step m l = some t := by
  rw [run_cons, Option.bind_eq_some_iff]

/-- Every input of the run meets the condition in the state in which it is taken. -/
def Along (step : σ → α → Option σ) (P : σ → α → Prop) : σ → List α → Prop
  | _, [] => True
  | s, a :: l => P s a ∧ ∀ m, step s a = some m → Along step P m l

instance decidableAlong (step : σ → α → Option σ) (P : σ → α → Prop) [∀ s a, Decidable (P s a)] :
    ∀ s l, Decidable (Along step P s l)
  | _, [] => .isTrue trivial
  | s, a :: l => match h : step s a with
    | none => decidable_of_iff (P s a) (by simp [Along, h])
    | some m =>
      have := decidableAlong step P m l
      decidable_of_iff (P s a ∧ Along step P m l) (by simp [Along, h])

variable {step : σ → α → Option σ} {P : σ → α → Prop}

theorem run_invariant (Inv : σ → Prop)
    (hstep : ∀ s a t, step s a = some t → P s a → Inv s → Inv t) :
    ∀ (l : List α) {s t : σ}, run step s l = some t → Along step P s l → Inv s → Inv t
  | [], s, t, hrun, _, h => by
    rw [run_nil, Option.some.injEq] at hrun
    exact hrun ▸ h
  | a :: l, s, t, hrun, halong, h => by
    obtain ⟨m, hm, hrest⟩ := run_cons_eq_some.mp hrun
    exact run_invariant Inv hstep l hrest (halong.2 m hm) (hstep s a m hm halong.1 h)

/-- A condition on the inputs alone. -/
theorem along_iff_forall {Q : α → Prop} : ∀ (l : List α) {s t : σ}, run step s l = some t →
    (Along step (fun _ a => Q a) s l ↔ ∀ a ∈ l, Q a)
  | [], _, _, _ => by simp [Along]
  | a :: l, s, t, hrun => by
    obtain ⟨m, hm, hrest⟩ := run_cons_eq_some.mp hrun
    simp [Along, hm, along_iff_forall l hrest]

theorem along_true : ∀ (l : List α) (s : σ), Along step (fun _ _ => True) s l
  | [], _ => trivial
  | _ :: l, _ => ⟨trivial, fun m _ => along_true l m⟩

/-- The rule without a condition on the inputs. -/
theorem run_always (Inv : σ → Prop) (hstep : ∀ s a t, step s a = some t → Inv s → Inv t)
    (l : List α) {s t : σ} (hrun : run step s l = some t) (h : Inv s) : Inv t :=
  run_invariant Inv (fun s a t hst _ => hstep s a t hst) l hrun (along_true l s) h

/-- If a step keeps the invariant exactly when its input meets the condition, and never
restores it, then a run ends in the invariant exactly when all of its inputs meet the
condition. `Base` holds of every state of the run. -/
theorem run_iff (Base Inv : σ → Prop) (hbase : ∀ s a t, step s a = some t → Base s → Base t)
    (hstep : ∀ s a t, step s a = some t → Base s → (Inv t ↔ Inv s ∧ P s a)) :
    ∀ (l : List α) {s t : σ}, run step s l = some t → Base s → (Inv t ↔ Inv s ∧ Along step P s l)
  | [], s, t, hrun, _ => by
    rw [run_nil, Option.some.injEq] at hrun
    simp [hrun, Along]
  | a :: l, s, t, hrun, hb => by
    obtain ⟨m, hm, hrest⟩ := run_cons_eq_some.mp hrun
    rw [run_iff Base Inv hbase hstep l hrest (hbase s a m hm hb), hstep s a m hm hb,
      Along, and_assoc]
    simp [hm]

end Owlchain.Library.Transition
