import Mathlib.Data.List.Perm.Basic

/-!
Condition variables of threads whose critical sections are single steps. A thread that
waits is woken by a signal, or without one, and then has to get the mutex again before it
goes on. What is known of a thread is what it does next.
-/
namespace CodeExercise.Condvars
open Option
universe u

structure Condvar (α : Type u) where
  waiting : List α
  woken : List α
  deriving DecidableEq

variable {α : Type u}

def Condvar.init : Condvar α := ⟨[],[]⟩
def Condvar.wait (c : Condvar α) (a : α) : Condvar α := { c with waiting := a::c.waiting }

/-- The waiting thread `i` is woken, by a signal or spuriously. -/
def Condvar.wake (c : Condvar α) (i : Nat) : Option (Condvar α) :=
  c.waiting[i]?.map (fun a => ⟨c.waiting.eraseIdx i,a::c.woken⟩)

/-- A signal wakes a thread of the scheduler's choice; it is lost when none waits. -/
def Condvar.signal (c : Condvar α) (i : Nat) : Option (Condvar α) :=
  if c.waiting.isEmpty then some c else c.wake i

/-- The woken thread `i` gets the mutex. -/
def Condvar.resume (c : Condvar α) (i : Nat) : Option (α × Condvar α) :=
  c.woken[i]?.map (fun a => (a,{ c with woken := c.woken.eraseIdx i }))

variable {c d : Condvar α} {i : Nat} {a : α}

lemma perm_eraseIdx (there : l[i]? = some a) : (a::l.eraseIdx i).Perm l := by
  obtain ⟨inside,rfl⟩ := List.getElem?_eq_some_iff.mp there
  exact List.getElem_cons_eraseIdx_perm inside

lemma wake_cases (woken : c.wake i = some d) :
    ∃ a, c.waiting ≠ [] ∧ d.woken = a::c.woken ∧ (a::d.waiting).Perm c.waiting := by
  obtain ⟨a,there,rfl⟩ := map_eq_some_iff.mp woken
  exact ⟨a,List.ne_nil_of_mem (List.mem_of_getElem? there),rfl,perm_eraseIdx there⟩

lemma signal_cases (signalled : c.signal i = some d) :
    c.waiting = [] ∧ d = c ∨ ∃ a, c.waiting ≠ [] ∧ d.woken = a::c.woken ∧ (a::d.waiting).Perm c.waiting := by
  unfold Condvar.signal at signalled
  split at signalled
  · next empty => exact .inl ⟨List.isEmpty_iff.mp empty,(some.inj signalled).symm⟩
  · exact .inr (wake_cases signalled)

lemma resume_cases (resumed : c.resume i = some (a,d)) : d.waiting = c.waiting ∧ (a::d.woken).Perm c.woken := by
  obtain ⟨b,there,same⟩ := map_eq_some_iff.mp resumed
  obtain ⟨rfl,rfl⟩ := Prod.mk.inj same
  exact ⟨rfl,perm_eraseIdx there⟩

end CodeExercise.Condvars
