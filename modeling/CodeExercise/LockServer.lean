import CodeExercise.Condvars
import CodeExercise.Runs

/-!
The lock server without a cache. The threads of all lock ids wait on one condition variable, and a
release signals one of them, whichever lock it waits for (`wakeup_lost`). The table has `int` keys, so
ids that agree in the lower 32 bits share an entry.
-/
namespace CodeExercise.LockServer
open Runs Condvars List Option Function

/-- The key of `lock_clients` that a lock id is converted to. -/
def key (lid : UInt64) : UInt32 := lid.toUInt32

/-- A call of `acquire`. -/
structure Acquire where
  clt : Int32
  lid : UInt64
  deriving DecidableEq

/-- The clients that hold a lock, and the calls of `acquire` that wait for one. -/
structure Server where
  lockClients : UInt32 → Option Int32
  cond : Condvar Acquire

def Server.init : Server := ⟨fun _ => none,.init⟩

/-- One round of the loop of `acquire`. -/
def acquire (s : Server) (a : Acquire) : Server :=
  if (s.lockClients (key a.lid)).isSome then { s with cond := s.cond.wait a }
  else { s with lockClients := update s.lockClients (key a.lid) (some a.clt) }

/-- `i` is the thread that the signal wakes. -/
def release (s : Server) (clt : Int32) (lid : UInt64) (i : Nat) : Option Server :=
  if s.lockClients (key lid) = some clt then
    (s.cond.signal i).map (fun c => ⟨update s.lockClients (key lid) none,c⟩)
  else some s

inductive Label where
  | acquire (clt : Int32) (lid : UInt64)
  | release (clt : Int32) (lid : UInt64) (i : Nat)
  /-- A woken thread looks at the table again. -/
  | again (k : Nat)
  /-- A thread wakes up without a signal. -/
  | wakes (k : Nat)
  deriving DecidableEq

def next (s : Server) : Label → Option Server
  | .acquire clt lid => some (acquire s ⟨clt,lid⟩)
  | .release clt lid i => release s clt lid i
  | .again k => (s.cond.resume k).map (fun r => acquire { s with cond := r.2 } r.1)
  | .wakes k => (s.cond.wake k).map (fun c => { s with cond := c })

/-- Some call waits for the lock id. -/
def Waited (calls : List Acquire) (lid : UInt64) : Prop := ∃ a ∈ calls, a.lid = lid
deriving Decidable

/-- When a lock is given back that a call waits for, every waiting call asks for that same lock. -/
def OneLock (s : Server) : Label → Prop
  | .release clt lid _ => s.lockClients (key lid) = some clt →
      ∀ a ∈ s.cond.waiting, key a.lid = key lid → ∀ b ∈ s.cond.waiting, b.lid = a.lid
  | _ => True
instance (s : Server) : (label : Label) → Decidable (OneLock s label)
  | .release _ _ _ => decideAs (_ → _)
  | .acquire _ _ | .again _ | .wakes _ => isTrue trivial

/-- Every lock that is free and waited for has a call that was woken. -/
def Attended (s : Server) : Prop :=
  ∀ lid, s.lockClients (key lid) = none → Waited s.cond.waiting lid → Waited s.cond.woken lid

section
variable {s : Server} {lid : UInt64} {c : Condvar Acquire}

lemma Waited.mono (more : ∀ a ∈ calls, a ∈ calls') (waited : Waited calls lid) : Waited calls' lid := by
  obtain ⟨a,mem,asks⟩ := waited
  exact ⟨a,more a mem,asks⟩

lemma acquire_attended (a : Acquire)
    (attended : ∀ lid, key lid ≠ key a.lid → s.lockClients (key lid) = none → Waited s.cond.waiting lid → Waited s.cond.woken lid) :
    Attended (acquire s a) := by
  unfold acquire
  split
  · next taken =>
    intro lid free waited
    have other : key lid ≠ key a.lid := by
      intro same
      rw [← same,free] at taken
      cases taken
    obtain ⟨b,mem,asks⟩ := waited
    rcases mem_cons.mp mem with rfl | before
    · exact absurd (congrArg key asks.symm) other
    · exact attended lid other free ⟨b,before,asks⟩
  · intro lid free waited
    have other : key lid ≠ key a.lid := by
      intro same
      rw [same] at free
      simp at free
    exact attended lid other ((update_of_ne other _ _).symm.trans free) waited

lemma wake_attended (wakes : c.wake k = some d) (before : Waited c.waiting lid → Waited c.woken lid) (waited : Waited d.waiting lid) :
    Waited d.woken lid := by
  obtain ⟨a,_,woken,perm⟩ := wake_cases wakes
  have earlier : Waited c.waiting lid := waited.mono (fun b mem => perm.mem_iff.mp (mem_cons_of_mem a mem))
  rw [woken]
  exact (before earlier).mono fun b mem => mem_cons_of_mem a mem

lemma next_attended (attended : Attended s) (meets : OneLock s label) (moved : next s label = some t) : Attended t := by
  cases label with
  | acquire clt lid =>
    cases moved
    exact acquire_attended ⟨clt,lid⟩ fun lid _ => attended lid
  | again k =>
    obtain ⟨⟨a,d⟩,resumed,rfl⟩ := map_eq_some_iff.mp moved
    obtain ⟨same,perm⟩ := resume_cases resumed
    apply acquire_attended
    intro lid other free waited
    obtain ⟨b,mem,asks⟩ := attended lid free (by rwa [← same])
    rcases mem_cons.mp (perm.mem_iff.mpr mem) with rfl | left
    · exact absurd (congrArg key asks.symm) other
    · exact ⟨b,left,asks⟩
  | wakes k =>
    obtain ⟨d,wakes,rfl⟩ := map_eq_some_iff.mp moved
    intro lid free waited
    exact wake_attended wakes (attended lid free) waited
  | release clt lid i =>
    simp only [next,release] at moved
    split at moved
    · next held =>
      obtain ⟨d,signalled,rfl⟩ := map_eq_some_iff.mp moved
      intro wanted free waited
      rcases signal_cases signalled with ⟨none,rfl⟩ | ⟨a,_,woken,perm⟩
      · obtain ⟨b,mem,_⟩ := waited
        rw [none] at mem
        cases mem
      · have earlier (b : Acquire) (mem : b ∈ d.waiting) : b ∈ s.cond.waiting := perm.mem_iff.mp (mem_cons_of_mem a mem)
        rw [woken]
        by_cases released : key wanted = key lid
        · -- the call that was woken is one for this lock, as all that wait are
          obtain ⟨b,mem,rfl⟩ := waited
          have asks := meets held b (earlier b mem) released a (perm.mem_iff.mp mem_cons_self)
          exact ⟨a,mem_cons_self,asks⟩
        · have before := attended wanted ((update_of_ne released _ _).symm.trans free) (waited.mono earlier)
          exact before.mono fun b mem => mem_cons_of_mem a mem
    · cases moved
      exact attended

lemma reach_attended : ∀ s, Reach (· = Server.init) OneLock next s → Attended s := by
  apply Reach.invariant
  · rintro s rfl lid _ ⟨a,mem,_⟩
    cases mem
  · exact fun s label t attended meets moved => next_attended attended meets moved

end

/-- In every state of a run in which each lock that is given back is the only one waited for: a free lock that a call waits for
has a call that has been woken and will look at the table again. -/
theorem no_lost_wakeup {s : Server} (reached : Reach (· = Server.init) OneLock next s) (lid : UInt64)
    (free : s.lockClients (key lid) = none) (waited : Waited s.cond.waiting lid) : Waited s.cond.woken lid :=
  reach_attended s reached lid free waited

/-- Two calls wait for lock 7 when it is given back. -/
theorem no_lost_wakeup_two : ∃ s, Reach (· = Server.init) OneLock next s ∧ s.lockClients (key 7) = none ∧
    s.cond.waiting = [⟨2,7⟩] ∧ Waited s.cond.woken 7 := by
  obtain ⟨s,reached,free,waiting⟩ : ∃ s, Reach (· = Server.init) OneLock next s ∧ s.lockClients (key 7) = none ∧
      s.cond.waiting = [⟨2,7⟩] :=
    exists_reach_from rfl [.acquire 1 7,.acquire 1 8,.acquire 2 7,.acquire 3 7,.release 1 7 0] (by decide +kernel)
  exact ⟨s,reached,free,waiting,no_lost_wakeup reached 7 free (by rw [waiting]; decide)⟩

/-- One call waits for lock 7 and one for lock 8. When lock 7 is given back the second one is woken and waits again: lock 7 is
free, and nobody comes to take it. -/
theorem wakeup_lost : ∃ s, Reach (· = Server.init) anyStep next s ∧ s.lockClients (key 7) = none ∧
    Waited s.cond.waiting 7 ∧ s.cond.woken = [] :=
  exists_reach_from rfl [.acquire 1 7,.acquire 1 8,.acquire 2 7,.acquire 3 8,.release 1 7 0,.again 0] (by decide +kernel)

end CodeExercise.LockServer
