import Mathlib.Data.List.Basic
import Mathlib.Logic.Function.Basic

/-!
Partial functions: a step of a `do` block, decidable conditions, and a table in which one entry is set or removed.
-/
namespace CodeExercise
open Option Function
universe u v

section
variable {α β : Type u}

lemma some_bind (a : α) (f : α → Option β) : (some a >>= f) = f a := rfl
lemma if_ff (a b : α) : (if false = true then a else b) = b := rfl

end

/-- The instance of a proposition that unfolds to `p`. -/
abbrev decideAs (p : Prop) [decidable : Decidable p] : Decidable p := decidable

instance decidableExistsSome {α : Type u} (x : Option α) (P : α → Prop) [DecidablePred P] : Decidable (∃ a, x = some a ∧ P a) :=
  decideAs (∃ a ∈ x, P a)

instance decidableExistsPair {α : Type u} {β : Type v} [DecidableEq β] (x : Option (α × β)) (b : β) (P : α → Prop)
    [DecidablePred P] : Decidable (∃ a, x = some (a,b) ∧ P a) :=
  decidable_of_iff (∃ r, x = some r ∧ r.2 = b ∧ P r.1)
    ⟨fun ⟨r,found,same,holds⟩ => ⟨r.1,same ▸ found,holds⟩,fun ⟨a,found,holds⟩ => ⟨(a,b),found,rfl,holds⟩⟩

section
variable {α : Type u} {β : Type v} [DecidableEq α] {f : α → Option β} {x : α} {P : α → β → Prop}

lemma forall_update_some (here : P x b) (others : ∀ y c, y ≠ x → f y = some c → P y c) :
    ∀ y c, update f x (some b) y = some c → P y c := by
  intro y c found
  by_cases same : y = x
  · subst same
    rw [update_self] at found
    exact some.inj found ▸ here
  · exact others y c same (by rwa [update_of_ne same] at found)

lemma update_eq_some (other : y ≠ x) (found : f y = some c) : update f x v y = some c :=
  (update_of_ne other _ _).trans found

end
end CodeExercise
