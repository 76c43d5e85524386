import Mathlib.Data.List.Basic
import Mathlib.Data.List.Flatten

/-! Automata run from a list of states. Where `δ` gives several successors the run goes on
from all of them, in order and with repetitions, so a run from a joined list is the joined
list of the runs. A deterministic graph whose nodes stand for lists of states follows such
a run with a single node. -/

namespace Owlchain.Library.Subset

variable {χ q : Type*} (δ : q → χ → List q)

/-- The states after a text. -/
def after (l : List q) (text : List χ) : List q :=
  text.foldl (fun l c => l.flatMap fun s => δ s c) l

@[simp] theorem after_nil (l : List q) : after δ l [] = l := rfl

theorem after_cons (l : List q) (c : χ) (text : List χ) :
    after δ l (c :: text) = after δ (l.flatMap fun s => δ s c) text := rfl

theorem after_concat (l : List q) (text : List χ) (c : χ) :
    after δ l (text ++ [c]) = (after δ l text).flatMap fun s => δ s c := by
  rw [after, List.foldl_append]
  rfl

@[simp] theorem after_empty (text : List χ) : after δ [] text = [] := by
  induction text with
  | nil => rfl
  | cons c text ih => rw [after_cons, List.flatMap_nil, ih]

theorem after_flatMap {ι : Type*} (is : List ι) (f : ι → List q) (text : List χ) :
    after δ (is.flatMap f) text = is.flatMap fun i => after δ (f i) text := by
  induction text generalizing f with
  | nil => rfl
  | cons c text ih => simp only [after_cons, List.flatMap_assoc, ih]

end Owlchain.Library.Subset
