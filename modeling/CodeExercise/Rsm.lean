import CodeExercise.Runs
import Mathlib.Algebra.Order.Group.Nat
import Mathlib.Data.List.Nodup

/-!
The replicated state machine of `rsm.cc` inside one view. The primary takes one client request at a
time and calls `invoke` at one backup after the other; a call may fail at the primary while it still
runs at the backup, and the backup checks the viewstamp before and advances it after an execution that
it does without the mutex.
-/
namespace CodeExercise.Rsm
open Runs

structure Viewstamp where
  vid : Nat
  seqno : Nat
  deriving DecidableEq

/-- The statuses `OK` and `ERR` of `rsm_protocol`. -/
inductive Status where
  | ok
  | err
  deriving DecidableEq

/-- One call of `client_invoke`; `id` counts them. -/
structure Request where
  id : Nat
  procno : Int
  req : String
  deriving DecidableEq

/-- The fields of `rsm` that the handlers look at. -/
structure Replica where
  myvs : Viewstamp
  inviewchange : Bool
  deriving DecidableEq

/-- `myvs.seqno++`. -/
def Replica.advance (r : Replica) : Replica := { r with myvs := ⟨r.myvs.vid,(r.myvs.seqno+1)%2^32⟩ }

/-- The view: what `cfg->get_view(vid_commit)` and `primary` are in it. -/
structure View where
  vid : Nat
  mems : List String
  primary : String

/-- `recovery` ends: the replica is in sync in the view. -/
def Replica.recovered (v : View) : Replica := ⟨⟨v.vid,1⟩,false⟩

/-- The tests of `rsm::invoke`. -/
def Replica.takes (r : Replica) (mem : Bool) (vs : Viewstamp) : Bool :=
  !(r.inviewchange || !mem) && !(decide (vs.vid ≠ r.myvs.vid) || decide (vs.seqno ≠ r.myvs.seqno))

/-- How far an `invoke` has come at its backup. -/
inductive Stage where
  | sent
  | begun
  | executed
  | replied (ret : Status)
  deriving DecidableEq

/-- An `invoke` RPC of the primary. -/
structure Call where
  dst : String
  vs : Viewstamp
  request : Request
  stage : Stage
  deriving DecidableEq

structure Execution where
  replica : String
  vs : Viewstamp
  request : Request
  deriving DecidableEq

/-- The `client_invoke` that holds `invoke_mutex`: the members its loop has not
passed, the backups for which `safebind` gave a client, and the RPC it waits for. -/
structure Invocation where
  request : Request
  todo : List String
  bound : List String
  pending : Option Nat
  deriving DecidableEq

/-- A request that `client_invoke` answered with OK. -/
structure Ack where
  request : Request
  bound : List String
  deriving DecidableEq

structure System where
  replicas : String → Replica
  invocation : Option Invocation
  calls : Nat → Option Call
  xid : Nat
  requests : Nat
  log : List Execution
  acks : List Ack

inductive Label where
  | recover (r : String)
  | clientInvoke (r : String) (procno : Int) (req : String)
  /-- The turn of the primary itself. -/
  | self
  /-- `safebind` gives no client. -/
  | skip
  | call
  /-- `invoke` takes the mutex, executes, takes the mutex again. -/
  | begin (xid : Nat)
  | execute (xid : Nat)
  | finish (xid : Nat)
  /-- The reply reaches `client_invoke`, or the call fails there. -/
  | answer
  | timeout
  /-- The loop is over: the primary executes. -/
  | commit
  deriving DecidableEq

def System.setCall (s : System) (x : Nat) (c : Call) : System := { s with calls := Function.update s.calls x (some c) }
def System.setReplica (s : System) (name : String) (r : Replica) : System :=
  { s with replicas := Function.update s.replicas name r }

def next (v : View) (s : System) : Label → Option System
  | .recover r =>
    if (s.replicas r).inviewchange = true then some (s.setReplica r (.recovered v)) else none
  | .clientInvoke r procno req =>
    if (s.replicas r).inviewchange = true then some s
    else if v.primary ≠ r then some s
    else if s.invocation = none then
      some { s with invocation := some ⟨⟨s.requests,procno,req⟩,v.mems,[],none⟩, requests := s.requests+1 }
    else none
  | .self =>
    match s.invocation with
    | some ⟨request,m::todo,bound,none⟩ =>
      if m = v.primary then some { s with invocation := some ⟨request,todo,bound,none⟩ } else none
    | _ => none
  | .skip =>
    match s.invocation with
    | some ⟨request,m::todo,bound,none⟩ =>
      if m ≠ v.primary then some { s with invocation := some ⟨request,todo,bound,none⟩ } else none
    | _ => none
  | .call =>
    match s.invocation with
    | some ⟨request,m::todo,bound,none⟩ =>
      if m ≠ v.primary then
        some { s.setCall s.xid ⟨m,(s.replicas v.primary).myvs,request,.sent⟩ with
          invocation := some ⟨request,m::todo,bound++[m],some s.xid⟩, xid := s.xid+1 }
      else none
    | _ => none
  | .begin x =>
    match s.calls x with
    | some ⟨dst,vs,request,.sent⟩ =>
      if (s.replicas dst).takes (decide (dst ∈ v.mems)) vs then some (s.setCall x ⟨dst,vs,request,.begun⟩)
      else some (s.setCall x ⟨dst,vs,request,.replied .err⟩)
    | _ => none
  | .execute x =>
    match s.calls x with
    | some ⟨dst,vs,request,.begun⟩ =>
      some { s.setCall x ⟨dst,vs,request,.executed⟩ with log := ⟨dst,vs,request⟩::s.log }
    | _ => none
  | .finish x =>
    match s.calls x with
    | some ⟨dst,vs,request,.executed⟩ =>
      some ((s.setCall x ⟨dst,vs,request,.replied .ok⟩).setReplica dst (s.replicas dst).advance)
    | _ => none
  | .answer =>
    match s.invocation with
    | some ⟨request,_::todo,bound,some x⟩ =>
      match s.calls x with
      | some ⟨_,_,_,.replied .ok⟩ => some { s with invocation := some ⟨request,todo,bound,none⟩ }
      | some ⟨_,_,_,.replied .err⟩ => some { s with invocation := none }
      | _ => none
    | _ => none
  | .timeout =>
    match s.invocation with
    | some ⟨_,_,_,some _⟩ => some { s with invocation := none }
    | _ => none
  | .commit =>
    match s.invocation with
    | some ⟨request,[],bound,none⟩ =>
      some { s.setReplica v.primary (s.replicas v.primary).advance with
        invocation := none, log := ⟨v.primary,(s.replicas v.primary).myvs,request⟩ :: s.log,
        acks := ⟨request,bound⟩::s.acks }
    | _ => none

/-- `commit_change` has just started the view: nothing is executed in it yet. -/
structure Init (s : System) : Prop where
  replicas : ∀ r, (s.replicas r).inviewchange = true
  invocation : s.invocation = none
  calls : ∀ x, s.calls x = none
  log : s.log = []
  acks : s.acks = []

/-- A primary `p` with the backups `b` and `c`. -/
def three : View := ⟨2,["p","b","c"],"p"⟩
/-- The view has just been committed. -/
def entering : System := ⟨fun _ => ⟨⟨1,1⟩,true⟩,none,fun _ => none,0,0,[],[]⟩
lemma entering_init : Init entering := ⟨fun _ => rfl,rfl,fun _ => rfl,rfl,rfl⟩

/-- The call may still make its backup execute. -/
def Call.Active (c : Call) : Prop := c.stage = .sent ∨ c.stage = .begun ∨ c.stage = .executed
deriving Decidable

lemma takes_iff (r : Replica) (mem : Bool) (vs : Viewstamp) :
    r.takes mem vs = true ↔ r.inviewchange = false ∧ mem = true ∧ vs = r.myvs := by
  obtain ⟨⟨vid,seqno⟩,inviewchange⟩ := r
  obtain ⟨vid',seqno'⟩ := vs
  simp only [Replica.takes,Viewstamp.mk.injEq]
  cases inviewchange <;> cases mem <;> simp

inductive Step (v : View) (s : System) : Label → System → Prop
  | recover {r : String} (busy : (s.replicas r).inviewchange = true) :
      Step v s (.recover r) (s.setReplica r (.recovered v))
  | refused {r req : String} {procno : Int} : Step v s (.clientInvoke r procno req) s
  | start {req : String} {procno : Int} (ready : (s.replicas v.primary).inviewchange = false)
      (free : s.invocation = none) :
      Step v s (.clientInvoke v.primary procno req)
        { s with invocation := some ⟨⟨s.requests,procno,req⟩,v.mems,[],none⟩, requests := s.requests+1 }
  | pass {label : Label} {request : Request} {m : String} {todo bound : List String}
      (turn : s.invocation = some ⟨request,m::todo,bound,none⟩) :
      Step v s label { s with invocation := some ⟨request,todo,bound,none⟩ }
  | call {request : Request} {m : String} {todo bound : List String}
      (turn : s.invocation = some ⟨request,m::todo,bound,none⟩) (other : m ≠ v.primary) :
      Step v s .call { s.setCall s.xid ⟨m,(s.replicas v.primary).myvs,request,.sent⟩ with
        invocation := some ⟨request,m::todo,bound++[m],some s.xid⟩, xid := s.xid+1 }
  | refuse {x : Nat} {c : Call} (found : s.calls x = some c) (stage : c.stage = .sent) :
      Step v s (.begin x) (s.setCall x { c with stage := .replied .err })
  | begin {x : Nat} {c : Call} (found : s.calls x = some c) (stage : c.stage = .sent)
      (ready : (s.replicas c.dst).inviewchange = false) (same : c.vs = (s.replicas c.dst).myvs) :
      Step v s (.begin x) (s.setCall x { c with stage := .begun })
  | execute {x : Nat} {c : Call} (found : s.calls x = some c) (stage : c.stage = .begun) :
      Step v s (.execute x) { s.setCall x { c with stage := .executed } with
        log := ⟨c.dst,c.vs,c.request⟩::s.log }
  | finish {x : Nat} {c : Call} (found : s.calls x = some c) (stage : c.stage = .executed) :
      Step v s (.finish x) ((s.setCall x { c with stage := .replied .ok }).setReplica c.dst (s.replicas c.dst).advance)
  | answer {request : Request} {m : String} {todo bound : List String} {x : Nat} {c : Call}
      (turn : s.invocation = some ⟨request,m::todo,bound,some x⟩) (found : s.calls x = some c)
      (stage : c.stage = .replied .ok) :
      Step v s .answer { s with invocation := some ⟨request,todo,bound,none⟩ }
  | abort {label : Label} {i : Invocation} {x : Nat} (turn : s.invocation = some i) (waits : i.pending = some x)
      (failed : label = .timeout ∨ (label = .answer ∧ ∃ c, s.calls x = some c ∧ c.stage = .replied .err)) :
      Step v s label { s with invocation := none }
  | commit {request : Request} {bound : List String} (turn : s.invocation = some ⟨request,[],bound,none⟩) :
      Step v s .commit { s.setReplica v.primary (s.replicas v.primary).advance with
        invocation := none, log := ⟨v.primary,(s.replicas v.primary).myvs,request⟩ :: s.log,
        acks := ⟨request,bound⟩::s.acks }

lemma step_of_next (moved : next v s label = some t) :
    Step v s label t := by
  unfold next at moved
  split at moved
  · split at moved
    · next busy =>
      cases moved
      exact .recover busy
    · cases moved
  · next r procno req =>
    split at moved
    · cases moved
      exact .refused
    · next ready =>
      split at moved
      · cases moved
        exact .refused
      · next here =>
        split at moved <;> cases moved
        next free =>
          obtain rfl : v.primary = r := not_not.mp here
          exact .start (Bool.not_eq_true _ ▸ ready) free
  · split at moved
    · next turn =>
      split at moved <;> cases moved
      exact .pass turn
    · cases moved
  · split at moved
    · next turn =>
      split at moved <;> cases moved
      exact .pass turn
    · cases moved
  · split at moved
    · next turn =>
      split at moved <;> cases moved
      next other => exact .call turn other
    · cases moved
  · split at moved
    · next found =>
      split at moved
      · next takes =>
        cases moved
        obtain ⟨ready,_,same⟩ := (takes_iff _ _ _).mp takes
        exact .begin found rfl ready same
      · cases moved
        exact .refuse found rfl
    · cases moved
  · split at moved
    · next found =>
      cases moved
      exact .execute found rfl
    · cases moved
  · split at moved
    · next found =>
      cases moved
      exact .finish found rfl
    · cases moved
  · split at moved
    · next turn =>
      split at moved
      · next found =>
        cases moved
        exact .answer turn found rfl
      · next found =>
        cases moved
        exact .abort turn rfl (.inr ⟨rfl,_,found,rfl⟩)
      · cases moved
    · cases moved
  · split at moved
    · next turn =>
      cases moved
      exact .abort turn rfl (.inl rfl)
    · cases moved
  · split at moved
    · next turn =>
      cases moved
      exact .commit turn
    · cases moved

end CodeExercise.Rsm
