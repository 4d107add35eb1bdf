import CodeExercise.Runs
import Mathlib

/-!
The map server of `go_learn/transaction.go`. `HandleRequests` listens to one channel and calls itself for a
transaction, so a state has the channels of its calls, of which only the last is listened to. A step is the
rendezvous of the server with any goroutine that sends there.
-/
namespace CodeExercise.Transactions
open Runs Function List

inductive Request where
  | get (key : Int)
  | set (key : Int) (value : String)
  | beginTransaction (transaction : Nat)
  | endTransaction
  deriving DecidableEq

/-- An accepted request, the channel it was sent on and what a `get` returned. -/
structure Accepted where
  chan : Nat
  request : Request
  ret : String
  deriving DecidableEq

structure State where
  /-- The channels of the calls of `HandleRequests`, the innermost first. -/
  calls : List Nat
  sharedMap : Int → String
  /-- The last one first. -/
  accepted : List Accepted

/-- `m` is the channel 0. -/
def State.init : State := ⟨[0],fun _ => "",[]⟩

/-- The channel of a transaction was made for it. -/
def State.fresh (s : State) : Request → Bool
  | .beginTransaction t => t ≠ 0 && s.accepted.all (·.request ≠ .beginTransaction t)
  | _ => true

def Request.ret (m : Int → String) : Request → String
  | .get key => m key
  | _ => ""

def Request.store (m : Int → String) : Request → Int → String
  | .set key value => update m key value
  | _ => m

def Request.call (calls : List Nat) : Request → List Nat
  | .beginTransaction t => t :: calls
  | .endTransaction => calls.tail
  | _ => calls

/-- One turn of the loop of `HandleRequests`, when a goroutine sends `sent.2` on the channel `sent.1`. -/
def next (s : State) (sent : Nat × Request) : Option State :=
  if s.calls.head? = some sent.1 ∧ s.fresh sent.2 then
    some ⟨sent.2.call s.calls,sent.2.store s.sharedMap,⟨sent.1,sent.2,sent.2.ret s.sharedMap⟩ :: s.accepted⟩
  else none

/-- The channel `u` is `t`, or that of a transaction begun on such a channel. -/
inductive Nested (log : List Accepted) (t : Nat) : Nat → Prop
  | self : Nested log t t
  | inner {c u : Nat} {ret : String} (outer : Nested log t c) (begun : ⟨c,.beginTransaction u,ret⟩ ∈ log) : Nested log t u

/-- The map after the requests one after the other. -/
def execute (log : List Accepted) : Int → String := log.foldr (fun a m => a.request.store m) fun _ => ""

def Request.sets (key : Int) : Request → Option String
  | .set key' value => if key' = key then some value else none
  | _ => none

/-- A key has the value of the last `set` of it. -/
lemma execute_eq (log : List Accepted) (key : Int) : execute log key = (log.findSome? (·.request.sets key)).getD "" := by
  induction log with
  | nil => rfl
  | cons a log ih =>
    rw [findSome?_cons]
    cases request : a.request with
    | set key' value =>
      by_cases same : key' = key
      · simp [execute,request,Request.store,Request.sets,same]
      · simpa [execute,request,Request.store,Request.sets,same,update_of_ne (Ne.symm same)] using ih
    | _ => simpa [execute,request,Request.store,Request.sets] using ih

/-- After the transaction `t` began, and not after its end. -/
def Within (log : List Accepted) (t : Nat) (middle : List Accepted) : Prop :=
  (∃ c ret before, log = middle++⟨c,.beginTransaction t,ret⟩ :: before) ∧ ∀ a ∈ middle, ¬(a.chan = t ∧ a.request = .endTransaction)

variable {s : State} {log : List Accepted} {t u : Nat}

lemma Nested.mono (nested : Nested log t u) (a : Accepted) : Nested (a::log) t u := by
  induction nested with
  | self => exact .self
  | inner _ begun ih => exact .inner ih (mem_cons_of_mem a begun)

structure Inv (s : State) : Prop where
  /-- Above the call of a transaction that has not ended are calls for transactions nested in it. -/
  opened : ∀ t middle, Within s.accepted t middle →
    ∃ above callers, s.calls = above++t::callers ∧ ∀ u ∈ above, Nested s.accepted t u
  isolated : ∀ later a log, s.accepted = later++a::log → ∀ t middle, Within log t middle → Nested s.accepted t a.chan
  shared : s.sharedMap = execute s.accepted
  gets : ∀ later c key ret log, s.accepted = later++⟨c,.get key,ret⟩ :: log → ret = execute log key

lemma Inv.step (inv : Inv s) {sent : Nat × Request} (moved : next s sent = some s') : Inv s' := by
  obtain ⟨⟨top,_⟩,⟨⟩⟩ := Option.ite_none_right_eq_some.mp moved
  obtain ⟨c,request⟩ := sent
  have nested (t : Nat) (middle) (within : Within s.accepted t middle) : Nested s.accepted t c := by
    obtain ⟨above,callers,calls,nested⟩ := inv.opened t middle within
    rw [calls] at top
    cases above with
    | nil => cases top; exact .self
    | cons u above => cases top; exact nested _ mem_cons_self
  refine ⟨fun t middle within => ?_,fun later a log split t middle within => ?_,by simp [execute,inv.shared],
    fun later c key ret log split => ?_⟩
  · obtain ⟨⟨c',ret,before,split⟩,running⟩ := within
    cases middle with
    | nil =>
      cases split
      exact ⟨[],s.calls,rfl,nofun⟩
    | cons first middle =>
      obtain ⟨rfl,rest⟩ := cons.inj split
      have within : Within s.accepted t middle := ⟨⟨c',ret,before,rest⟩,fun b mem => running b (mem_cons_of_mem _ mem)⟩
      obtain ⟨above,callers,calls,still⟩ := inv.opened t middle within
      replace still := fun u mem => (still u mem).mono ⟨c,request,request.ret s.sharedMap⟩
      cases request with
      | get | set => exact ⟨above,callers,calls,still⟩
      | beginTransaction u =>
        -- the call it is made from is nested, so the new one is
        refine ⟨u::above,callers,congrArg (u::·) calls,forall_mem_cons.mpr ⟨?_,still⟩⟩
        exact .inner ((nested t middle within).mono _) mem_cons_self
      | endTransaction =>
        cases above with
        | nil =>
          rw [calls] at top
          cases top
          exact absurd ⟨rfl,rfl⟩ (running _ mem_cons_self)
        | cons _ above => exact ⟨above,callers,congrArg tail calls,fun u mem => still u (mem_cons_of_mem _ mem)⟩
  · cases later with
    | nil =>
      cases split
      exact (nested t middle within).mono _
    | cons _ later => exact (inv.isolated later a log (cons.inj split).2 t middle within).mono _
  · cases later with
    | nil =>
      cases split
      rw [← inv.shared]
      rfl
    | cons _ later => exact inv.gets later c key ret log (cons.inj split).2

/-- In every interleaving a request accepted while a transaction is open came on the channel of the
transaction or of one nested in it, and a `get` returned what the requests before it leave in the map. -/
theorem transactions_isolated (reached : Reach (· = State.init) anyStep next s) :
    (∀ later a log, s.accepted = later++a::log → ∀ t middle, Within log t middle → Nested s.accepted t a.chan) ∧
    ∀ later c key ret log, s.accepted = later++⟨c,.get key,ret⟩ :: log → ret = execute log key := by
  have inv : Inv s := by
    refine Reach.invariant ?_ (fun s label t inv _ moved => inv.step moved) s reached
    rintro _ rfl
    exact ⟨by simp [State.init,Within],by simp [State.init],rfl,by simp [State.init]⟩
  exact ⟨inv.isolated,inv.gets⟩

theorem transactions_isolated_get : ∃ s log, Reach (· = State.init) anyStep next s ∧ s.accepted = ⟨2,.get 7,"w"⟩ :: log ∧
    log = [⟨1,.beginTransaction 2,""⟩,⟨1,.set 7 "w",""⟩,⟨0,.beginTransaction 1,""⟩,⟨0,.set 7 "v",""⟩] ∧
    Nested s.accepted 1 2 ∧ "w" = execute log 7 ∧ execute log 7 = (log.findSome? (·.request.sets 7)).getD "" := by
  obtain ⟨s,reached,accepted⟩ : ∃ s, Reach (· = State.init) anyStep next s ∧ s.accepted =
      [⟨2,.get 7,"w"⟩,⟨1,.beginTransaction 2,""⟩,⟨1,.set 7 "w",""⟩,⟨0,.beginTransaction 1,""⟩,⟨0,.set 7 "v",""⟩] :=
    exists_reach_from rfl [(0,.set 7 "v"),(0,.beginTransaction 1),(1,.set 7 "w"),(1,.beginTransaction 2),(2,.get 7)] (by decide +kernel)
  obtain ⟨isolated,gets⟩ := transactions_isolated reached
  exact ⟨s,_,reached,accepted,rfl,isolated [] _ _ accepted 1 [⟨1,.beginTransaction 2,""⟩,⟨1,.set 7 "w",""⟩] ⟨⟨0,"",_,rfl⟩,by simp⟩,
    gets [] 2 7 "w" _ accepted,execute_eq _ _⟩

end CodeExercise.Transactions
