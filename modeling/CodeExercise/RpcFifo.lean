import CodeExercise.Condvars
import CodeExercise.Runs

/-!
The queue of `rpc/fifo.h`, used by any number of threads. A step is what a thread does while it has
the mutex. Each operation signals at most one thread, and another thread may be faster than the one
that is woken.
-/
namespace CodeExercise.RpcFifo
open Runs Condvars List Option
universe u

variable {T : Type u}

/-- A thread that waits for space has its item with it. -/
structure Fifo (T : Type u) where
  q : List T
  nonEmpty : Condvar Nat
  hasSpace : Condvar (Nat × T)
  put : List T
  taken : List T
  deriving DecidableEq

def Fifo.init : Fifo T := ⟨[],.init,.init,[],[]⟩

/-- One round of the loop of `enq`, with what it returns if it does; `i` is the thread that a signal wakes. -/
def enq (max : Nat) (s : Fifo T) (thread : Nat) (e : T) (blocking : Bool) (i : Nat) : Option (Fifo T × Option Bool) :=
  if max = 0 ∨ s.q.length < max then
    (s.nonEmpty.signal i).map (fun c => ({ s with q := s.q++[e], nonEmpty := c, put := s.put++[e] },some true))
  else if blocking then some ({ s with hasSpace := s.hasSpace.wait (thread,e) },none)
  else some (s,some false)

/-- One round of the loop of `deq`. -/
def deq (max : Nat) (s : Fifo T) (thread : Nat) (i : Nat) : Option (Fifo T) :=
  match s.q with
  | [] => some { s with nonEmpty := s.nonEmpty.wait thread }
  | e::q =>
    if max ≠ 0 ∧ q.length < max then
      (s.hasSpace.signal i).map (fun c => { s with q := q, hasSpace := c, taken := s.taken++[e] })
    else some { s with q := q, taken := s.taken++[e] }

inductive Label (T : Type u) where
  | enq (thread : Nat) (e : T) (blocking : Bool) (i : Nat)
  | deq (thread : Nat) (i : Nat)
  /-- A woken thread goes on. -/
  | enqAgain (k i : Nat)
  | deqAgain (k i : Nat)
  /-- A thread wakes up without a signal. -/
  | enqWakes (k : Nat)
  | deqWakes (k : Nat)
  deriving DecidableEq

def next (max : Nat) (s : Fifo T) : Label T → Option (Fifo T)
  | .enq thread e blocking i => (enq max s thread e blocking i).map (·.1)
  | .deq thread i => deq max s thread i
  | .enqAgain k i => (s.hasSpace.resume k).bind (fun r => (enq max { s with hasSpace := r.2 } r.1.1 r.1.2 true i).map (·.1))
  | .deqAgain k i => (s.nonEmpty.resume k).bind (fun r => deq max { s with nonEmpty := r.2 } r.1 i)
  | .enqWakes k => (s.hasSpace.wake k).map (fun c => { s with hasSpace := c })
  | .deqWakes k => (s.nonEmpty.wake k).map (fun c => { s with nonEmpty := c })

/-- There is a woken thread for every item and for every free place, up to the threads that have just gone on. -/
structure Served (max : Nat) (s : Fifo T) (deqs enqs : Nat) : Prop where
  order : s.taken++s.q = s.put
  bounded : 0 < max → s.q.length ≤ max
  items : s.nonEmpty.waiting ≠ [] → s.q.length ≤ s.nonEmpty.woken.length+deqs
  places : s.hasSpace.waiting ≠ [] → 0 < max ∧ max ≤ s.q.length+s.hasSpace.woken.length+enqs

variable {max : Nat} {s t : Fifo T} {thread : Nat} {i : Nat}

lemma Served.mono (served : Served max s deqs enqs) (more : deqs ≤ deqs') (more' : enqs ≤ enqs') :
    Served max s deqs' enqs' := by
  refine ⟨served.order,served.bounded,?_,?_⟩
  · intro waits
    have items := served.items waits
    omega
  · intro waits
    have places := served.places waits
    omega

/-- An `enq` that returns true has put its item, one that returns false leaves all as it is, and one that does not return waits
with its item. -/
lemma enq_cases (done : enq max s thread e blocking i = some (t,ret)) :
    ((max = 0 ∨ s.q.length < max) ∧ ret = some true ∧ ∃ c, s.nonEmpty.signal i = some c ∧
      t = { s with q := s.q++[e], nonEmpty := c, put := s.put++[e] }) ∨
    ¬ (max = 0 ∨ s.q.length < max) ∧ (ret = some false ∧ t = s ∨ ret = none ∧ t = { s with hasSpace := s.hasSpace.wait (thread,e) }) := by
  unfold enq at done
  split at done
  · next space =>
    obtain ⟨c,signalled,same⟩ := map_eq_some_iff.mp done
    cases same
    exact .inl ⟨space,rfl,c,signalled,rfl⟩
  · next full =>
    split at done
    · cases done
      exact .inr ⟨full,.inr ⟨rfl,rfl⟩⟩
    · cases done
      exact .inr ⟨full,.inl ⟨rfl,rfl⟩⟩

/-- A round of `enq` makes up for the thread that has gone on: it fills a place, or there is none. -/
lemma enq_served (served : Served max s 0 1) (done : enq max s thread e blocking i = some (t,ret)) : Served max t 0 0 := by
  rcases enq_cases done with ⟨space,_,c,signalled,rfl⟩ | ⟨full,rest⟩
  · constructor
    case order => simp only [← served.order,append_assoc]
    case bounded =>
      intro positive
      simp only [length_append,length_singleton]
      omega
    case items =>
      intro waits
      simp only [length_append,length_singleton]
      rcases signal_cases signalled with ⟨none,rfl⟩ | ⟨a,waited,woken,_⟩
      · exact absurd none waits
      · have items := served.items waited
        rw [woken,length_cons]
        omega
    case places =>
      intro waits
      have places := served.places waits
      simp only [length_append,length_singleton]
      omega
  · have places : 0 < max ∧ max ≤ s.q.length := by omega
    rcases rest with ⟨_,rfl⟩ | ⟨_,rfl⟩
    · exact { served with places := fun _ => ⟨places.1,by omega⟩ }
    · exact { served with places := fun _ => ⟨places.1,by simp only [Condvar.wait]; omega⟩ }

/-- A round of `deq` makes up for the thread that has gone on: it takes an item, or there is none. -/
lemma deq_served (served : Served max s 1 0) (done : deq max s thread i = some t) : Served max t 0 0 := by
  unfold deq at done
  split at done
  · next empty =>
    cases done
    exact { served with items := fun _ => by simp [empty] }
  · next e q content =>
    have order : (s.taken++[e])++q = s.put := by
      rw [← served.order,content,append_assoc]
      rfl
    have length : s.q.length = q.length+1 := by rw [content,length_cons]
    have bounded (positive : 0 < max) : q.length ≤ max := by
      have before := served.bounded positive
      omega
    have items (waits : s.nonEmpty.waiting ≠ []) : q.length ≤ s.nonEmpty.woken.length := by
      have before := served.items waits
      omega
    split at done
    · next limited =>
      obtain ⟨c,signalled,rfl⟩ := map_eq_some_iff.mp done
      refine ⟨order,bounded,items,?_⟩
      intro waits
      rcases signal_cases signalled with ⟨none,rfl⟩ | ⟨a,waited,woken,_⟩
      · exact absurd none waits
      · have places := served.places waited
        simp only [woken,length_cons]
        omega
    · next unlimited =>
      cases done
      refine ⟨order,bounded,items,?_⟩
      intro waits
      -- a thread waits for space only if there is a limit, and the queue was not beyond it
      have places := served.places waits
      have before := served.bounded places.1
      omega

lemma next_served (served : Served max s 0 0) (moved : next max s label = some t) : Served max t 0 0 := by
  cases label with
  | enq thread e blocking i =>
    obtain ⟨r,done,rfl⟩ := map_eq_some_iff.mp moved
    exact enq_served (served.mono (Nat.le_refl _) (Nat.zero_le _)) done
  | deq thread i => exact deq_served (served.mono (Nat.zero_le _) (Nat.le_refl _)) moved
  | enqAgain k i =>
    obtain ⟨⟨a,c⟩,resumed,moved⟩ := bind_eq_some_iff.mp moved
    obtain ⟨r,done,rfl⟩ := map_eq_some_iff.mp moved
    obtain ⟨same,perm⟩ := resume_cases resumed
    have length := perm.length_eq
    refine enq_served (s := { s with hasSpace := c }) { served with places := ?_ } done
    intro waits
    have places := served.places (same ▸ waits)
    simp only [length_cons] at length ⊢
    omega
  | deqAgain k i =>
    obtain ⟨⟨a,c⟩,resumed,done⟩ := bind_eq_some_iff.mp moved
    obtain ⟨same,perm⟩ := resume_cases resumed
    have length := perm.length_eq
    refine deq_served (s := { s with nonEmpty := c }) { served with items := ?_ } done
    intro waits
    have items := served.items (same ▸ waits)
    simp only [length_cons] at length ⊢
    omega
  | enqWakes k =>
    obtain ⟨c,wakes,rfl⟩ := map_eq_some_iff.mp moved
    obtain ⟨a,waited,woken,_⟩ := wake_cases wakes
    refine { served with places := fun _ => ?_ }
    have places := served.places waited
    simp only [woken,length_cons]
    omega
  | deqWakes k =>
    obtain ⟨c,wakes,rfl⟩ := map_eq_some_iff.mp moved
    obtain ⟨a,waited,woken,_⟩ := wake_cases wakes
    refine { served with items := fun _ => ?_ }
    have items := served.items waited
    simp only [woken,length_cons]
    omega

lemma reach_served (max : Nat) : ∀ s : Fifo T, Reach (· = Fifo.init) anyStep (next max) s → Served max s 0 0 := by
  apply Reach.invariant
  · rintro s rfl
    exact ⟨rfl,fun _ => Nat.zero_le _,fun waits => absurd rfl waits,fun waits => absurd rfl waits⟩
  · exact fun s label t served _ moved => next_served served moved

/-- In every state that threads reach: the items come out in the order in which they were put in, each once; a limit is kept;
and no thread waits for an item or for space that is there unless one has been woken for it. -/
theorem fifo_no_lost_wakeup (max : Nat) {s : Fifo T} (reached : Reach (· = Fifo.init) anyStep (next max) s) :
    s.taken ++ s.q = s.put ∧ (0 < max → s.q.length ≤ max) ∧
    ¬ (s.q ≠ [] ∧ s.nonEmpty.waiting ≠ [] ∧ s.nonEmpty.woken = []) ∧
    ¬ ((max = 0 ∨ s.q.length < max) ∧ s.hasSpace.waiting ≠ [] ∧ s.hasSpace.woken = []) := by
  have served := reach_served max s reached
  refine ⟨served.order,served.bounded,?_,?_⟩
  · rintro ⟨filled,waits,none⟩
    have items := served.items waits
    rw [none] at items
    exact filled (length_eq_zero_iff.mp (Nat.le_zero.mp items))
  · rintro ⟨space,waits,none⟩
    have places := served.places waits
    rw [none,length_nil] at places
    omega

/-- Two threads wait for an item; the one that is woken for it comes too late and waits again. -/
theorem fifo_no_lost_wakeup_late : ∃ s : Fifo String, Reach (· = Fifo.init) anyStep (next 1) s ∧ s.nonEmpty.waiting = [2,1] ∧
    s.taken = ["a"] ∧ (s.taken++s.q = s.put ∧ (0 < 1 → s.q.length ≤ 1) ∧
    ¬ (s.q ≠ [] ∧ s.nonEmpty.waiting ≠ [] ∧ s.nonEmpty.woken = []) ∧
    ¬ ((1 = 0 ∨ s.q.length < 1) ∧ s.hasSpace.waiting ≠ [] ∧ s.hasSpace.woken = [])) := by
  obtain ⟨s,reached,waiting,taken⟩ : ∃ s : Fifo String, Reach (· = Fifo.init) anyStep (next 1) s ∧
      s.nonEmpty.waiting = [2,1] ∧ s.taken = ["a"] :=
    exists_reach_from rfl [.deq 1 0,.deq 2 0,.enq 3 "a" true 0,.deq 4 0,.deqAgain 0 0] (by decide +kernel)
  exact ⟨s,reached,waiting,taken,fifo_no_lost_wakeup 1 reached⟩

end CodeExercise.RpcFifo
