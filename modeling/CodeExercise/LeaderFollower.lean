import CodeExercise.Runs
import Mathlib.Data.List.Nodup

/-!
The leader of `leader_follower/lf.cpp`, in steps from the place where a thread gets the mutex to the place
where it gives it up. The thread at the front of the queue leads, and wakes its successor before it works. A
wake-up comes to nothing when the successor does not wait yet, but then it finds itself at the front.
-/
namespace CodeExercise.LeaderFollower
open Runs Function List

inductive Pc where
  /-- Not pushed by `main` yet. -/
  | absent
  /-- At the head of the loop, or to be started there. -/
  | arriving
  | blocked
  /-- Out of `_cv.wait`, before the mutex. -/
  | woken
  | working
  deriving DecidableEq

structure State where
  threadQueue : List Nat
  threads : Nat → Pc
  /-- The assertion failed, or `front` was called on an empty queue. -/
  failed : Bool

inductive Label where
  /-- `main` pushes a thread, which it starts then. -/
  | push (t : Nat)
  | lock (t : Nat)
  /-- The thread wakes up without a notification. -/
  | wake (t : Nat)
  | back (t : Nat)

/-- `wakeUp` of the new leader, if there is one and it waits. -/
def wakeUp (threads : Nat → Pc) : List Nat → Nat → Pc
  | [] => threads
  | leader::_ => if threads leader = .blocked then update threads leader .woken else threads

/-- The loop of `start` from the mutex on. -/
def lead (s : State) (t : Nat) : State :=
  match s.threadQueue with
  | [] => { s with failed := true }
  | leader::rest =>
    if leader = t then { s with threadQueue := rest, threads := wakeUp (update s.threads t .working) rest }
    else { s with threads := update s.threads t .blocked }

def next (s : State) : Label → Option State
  | .push t => if s.threads t = .absent then
      some { s with threadQueue := s.threadQueue++[t], threads := update s.threads t .arriving } else none
  | .lock t => if s.threads t = .arriving ∨ s.threads t = .woken then some (lead s t) else none
  | .wake t => if s.threads t = .blocked then some { s with threads := update s.threads t .woken } else none
  | .back t => if s.threads t = .working then
      some { s with threadQueue := s.threadQueue++[t], threads := update s.threads t .arriving } else none

def State.init : State := ⟨[],fun _ => .absent,false⟩

def Pc.queued : Pc → Bool
  | .absent | .working => false
  | _ => true

structure Inv (s : State) : Prop where
  once : s.threadQueue.Nodup
  queued : ∀ t, t ∈ s.threadQueue ↔ (s.threads t).queued = true
  front : ∀ t, s.threadQueue.head? = some t → s.threads t ≠ .blocked
  safe : s.failed = false

variable {s : State} {t : Nat} {pc : Pc}

lemma Inv.move (inv : Inv s) (here : (s.threads t).queued = true) (stays : pc.queued = true)
    (free : s.threadQueue.head? = some t → pc ≠ .blocked) : Inv { s with threads := update s.threads t pc } := by
  obtain ⟨once,queued,front,safe⟩ := inv
  constructor <;> grind [update_apply]

lemma Inv.join (inv : Inv s) (out : (s.threads t).queued = false) (joins : pc.queued = true) (free : pc ≠ .blocked) :
    Inv { s with threadQueue := s.threadQueue++[t], threads := update s.threads t pc } := by
  obtain ⟨once,queued,front,safe⟩ := inv
  cases queue : s.threadQueue <;> constructor <;> grind [update_apply]

lemma Inv.lead (inv : Inv s) (here : (s.threads t).queued = true) : Inv (lead s t) := by
  unfold LeaderFollower.lead
  cases queue : s.threadQueue with
  | nil => simpa [queue] using (inv.queued t).mpr here
  | cons leader rest =>
    by_cases same : leader = t
    · obtain ⟨once,queued,front,safe⟩ := inv
      simp only [same,if_true]
      -- the new leader, if there is one, is woken where it waits
      cases rest <;> simp only [wakeUp] <;> constructor <;> grind [update_apply,Pc.queued]
    · simp only [same,if_false]
      exact queue ▸ inv.move here rfl (by simp [queue,same])

lemma Inv.step (inv : Inv s) {label : Label} (moved : next s label = some s') : Inv s' := by
  cases label with
  | push t | back t =>
    obtain ⟨place,⟨⟩⟩ := Option.ite_none_right_eq_some.mp moved
    exact inv.join (by simp [place,Pc.queued]) rfl nofun
  | wake t =>
    obtain ⟨place,⟨⟩⟩ := Option.ite_none_right_eq_some.mp moved
    exact inv.move (by simp [place,Pc.queued]) rfl nofun
  | lock t =>
    obtain ⟨place,⟨⟩⟩ := Option.ite_none_right_eq_some.mp moved
    exact inv.lead (by rcases place with place | place <;> simp [place,Pc.queued])

/-- In every interleaving a thread is in the queue once at most, the queue is not empty where its front is
looked at, and while the mutex is free the thread at the front is not left waiting. -/
theorem leader_not_forgotten (reached : Reach (· = State.init) anyStep next s) :
    s.threadQueue.Nodup ∧ s.failed = false ∧ ∀ t, s.threadQueue.head? = some t → s.threads t ≠ .blocked := by
  have inv : Inv s := by
    refine Reach.invariant ?_ (fun s label t inv _ moved => inv.step moved) s reached
    rintro _ rfl
    exact ⟨by simp [State.init],by simp [State.init,Pc.queued],by simp [State.init],rfl⟩
  exact ⟨inv.once,inv.safe,inv.front⟩

theorem leader_not_forgotten_two : ∃ s, Reach (· = State.init) anyStep next s ∧ s.threads 1 = .woken ∧ s.failed = false := by
  obtain ⟨s,reached,woken⟩ : ∃ s, Reach (· = State.init) anyStep next s ∧ s.threads 1 = .woken :=
    exists_reach_from rfl [.push 0,.push 1,.lock 1,.lock 0] (by decide +kernel)
  exact ⟨s,reached,woken,(leader_not_forgotten reached).2.1⟩

end CodeExercise.LeaderFollower
