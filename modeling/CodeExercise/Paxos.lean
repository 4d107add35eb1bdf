import CodeExercise.Runs
import Mathlib.Data.Prod.Lex
import Mathlib.Data.String.Basic

/-!
The proposers and acceptors of `paxos.cc`. A node runs one proposal at a time:
`run` sends prepare, accept and decide requests to one node after the other, with
the mutex released while it waits. Requests and replies are kept as they are
made, so the replies are the history of what the acceptors did; a request is
executed at most once, at any time or never, and its reply may come late or never.
-/
namespace CodeExercise.Paxos
open Runs Option Function

/-- `prop_t`. -/
structure PropT where
  n : Nat
  m : String
  deriving DecidableEq

/-- `operator>` on `prop_t`. -/
def PropT.gt (a b : PropT) : Bool := decide (a.n > b.n) || (decide (a.n = b.n) && decide (a.m > b.m))
/-- `operator>=` on `prop_t`. -/
def PropT.ge (a b : PropT) : Bool := decide (a.n > b.n) || (decide (a.n = b.n) && decide (a.m ≥ b.m))

lemma PropT.toLex_injective : Function.Injective (fun a : PropT => toLex (a.n,a.m)) := by
  rintro ⟨n,m⟩ ⟨k,l⟩ same
  have both : (n,m) = (k,l) := same
  simpa using both
instance : LinearOrder PropT := LinearOrder.lift' (fun a : PropT => toLex (a.n,a.m)) PropT.toLex_injective

lemma PropT.lt_def (a b : PropT) : a < b ↔ a.n < b.n ∨ (a.n = b.n ∧ a.m < b.m) := Prod.Lex.toLex_lt_toLex
lemma PropT.le_def (a b : PropT) : a ≤ b ↔ a.n < b.n ∨ (a.n = b.n ∧ a.m ≤ b.m) := Prod.Lex.toLex_le_toLex
lemma PropT.gt_iff (a b : PropT) : a.gt b = true ↔ b < a := by
  rw [PropT.lt_def,eq_comm (a := b.n)]
  simp only [PropT.gt,Bool.or_eq_true,Bool.and_eq_true,decide_eq_true_eq,gt_iff_lt]
lemma PropT.ge_iff (a b : PropT) : a.ge b = true ↔ b ≤ a := by
  rw [PropT.le_def,eq_comm (a := b.n)]
  simp only [PropT.ge,Bool.or_eq_true,Bool.and_eq_true,decide_eq_true_eq,gt_iff_lt,ge_iff_le]

/-- The loop of `isamember`. -/
def isamember (m : String) : List String → Bool
  | [] => false
  | node::rest => if node = m then true else isamember m rest

lemma isamember_iff (m : String) (nodes : List String) : isamember m nodes = true ↔ m ∈ nodes := by
  induction nodes with
  | nil => simp [isamember]
  | cons node rest ih =>
    by_cases same : node = m
    · simp [isamember,same]
    · simp [isamember,same,ih,Ne.symm same]

/-- `proposer::majority`: the positions of `l1` that name a node of `l2`. -/
def majority (l1 l2 : List String) : Bool :=
  decide (l1.countP (isamember · l2) ≥ l1.length >>> 1 + 1)

structure Acceptor where
  me : String
  nH : PropT
  nA : PropT
  vA : String
  instanceH : Nat
  values : Nat → Option String

/-- `prepareres`: the reply of `preparereq`. -/
inductive PrepareRes where
  | oldinstance (vA : String)
  | accept (nA : PropT) (vA : String)
  | reject
  deriving DecidableEq

/-- `acceptor::preparereq`. `values[a.instance]` makes an empty entry when there
is none. -/
def Acceptor.preparereq (s : Acceptor) (inst : Nat) (n : PropT) : PrepareRes × Acceptor :=
  if inst ≤ s.instanceH then
    let v := (s.values inst).getD ""
    (.oldinstance v,{ s with values := update s.values inst (some v) })
  else if n.gt s.nH then (.accept s.nA s.vA,{ s with nH := n })
  else (.reject,s)

/-- `acceptor::acceptreq`. The instance of the request is not looked at, and
`n_h` stays. -/
def Acceptor.acceptreq (s : Acceptor) (_inst : Nat) (n : PropT) (v : String) : Bool × Acceptor :=
  if n.ge s.nH then (true,{ s with nA := n, vA := v })
  else (false,s)

/-- `acceptor::commit_wo`, and `commit`, which only takes the mutex. -/
def Acceptor.commit (s : Acceptor) (inst : Nat) (value : String) : Acceptor :=
  if inst > s.instanceH then
    { s with values := update s.values inst (some value), instanceH := inst,
             nH := ⟨0,s.me⟩, nA := ⟨0,s.me⟩, vA := "" }
  else s

/-- `acceptor::decidereq`; no result when a `VERIFY` fails. -/
def Acceptor.decidereq (s : Acceptor) (inst : Nat) (v : String) : Option Acceptor :=
  if inst = (s.instanceH+1)%2^32 then
    if s.vA = v then some (s.commit inst s.vA) else none
  else if inst ≤ s.instanceH then some s
  else none

inductive Arg where
  | prepare (inst : Nat) (n : PropT)
  | accept (inst : Nat) (n : PropT) (v : String)
  | decide (inst : Nat) (v : String)
  deriving DecidableEq

/-- `a.instance`. -/
def Arg.inst : Arg → Nat
  | .prepare inst _ => inst
  | .accept inst _ _ => inst
  | .decide inst _ => inst

inductive Res where
  | prepared (r : PrepareRes)
  | accepted (r : Bool)
  | decided
  deriving DecidableEq

/-- A call of the proposer `src` to the acceptor `dst`. -/
structure Request where
  src : String
  xid : Nat
  dst : String
  arg : Arg
  deriving DecidableEq

/-- The RPC layer hands a reply to the call it belongs to. -/
structure Reply where
  request : Request
  res : Res
  deriving DecidableEq

def Acceptor.handle (s : Acceptor) : Arg → Option (Res × Acceptor)
  | .prepare inst n => some (.prepared (s.preparereq inst n).1,(s.preparereq inst n).2)
  | .accept inst n v => some (.accepted (s.acceptreq inst n v).1,(s.acceptreq inst n v).2)
  | .decide inst v => (s.decidereq inst v).map (fun t => (.decided,t))

/-- Where `proposer::run` stands; `todo` are the nodes its loop has not passed. -/
inductive Phase where
  | idle
  | preparing (todo accepts : List String) (currnA : PropT) (v : String)
  | accepting (todo accepts : List String) (v : String)
  | deciding (todo : List String) (v : String)
  deriving DecidableEq

/-- `stable` is `phase = idle`; `waiting` while a call is out, `xid` counts calls. -/
structure Proposer where
  myN : PropT
  inst : Nat
  newv : String
  phase : Phase
  xid : Nat
  waiting : Bool
  deriving DecidableEq

/-- The number that `proposer::setn` picks, where `nH` is the acceptor's `n_h`. -/
def setn (nH myN : PropT) : Nat :=
  if (nH.n+1)%2^32 > (myN.n+1)%2^32 then (nH.n+1)%2^32 else (myN.n+1)%2^32

/-- The call that the loop of `prepare`, `accept` or `decide` makes next. -/
def Proposer.call (s : Proposer) (me : String) : Option Request :=
  match s.phase with
  | .preparing (node::_) _ _ _ => some ⟨me,s.xid,node,.prepare s.inst s.myN⟩
  | .accepting (node::_) _ v => some ⟨me,s.xid,node,.accept s.inst s.myN v⟩
  | .deciding (node::_) v => some ⟨me,s.xid,node,.decide s.inst v⟩
  | _ => none

/-- `continue` after a call that failed, or whose reply says no. -/
def Phase.skip : Phase → Phase
  | .preparing todo accepts currnA v => .preparing todo.tail accepts currnA v
  | .accepting todo accepts v => .accepting todo.tail accepts v
  | .deciding todo v => .deciding todo.tail v
  | .idle => .idle

/-- The rest of the loop body after a reply. -/
def Phase.answer (phase : Phase) (res : Res) : Phase :=
  match phase,res with
  | .preparing _ _ _ _,.prepared (.oldinstance _) => .idle
  | .preparing (node::todo) accepts currnA v,.prepared (.accept nA vA) =>
    if nA.gt currnA then .preparing todo (accepts++[node]) nA vA
    else .preparing todo (accepts++[node]) currnA v
  | .accepting (node::todo) accepts v,.accepted true => .accepting todo (accepts++[node]) v
  | phase,_ => phase.skip

/-- What `run` does after a loop. -/
def Phase.proceed (members : List String) (newv : String) : Phase → Phase
  | .preparing _ accepts _ v =>
    if majority members accepts then .accepting accepts [] (if v.length = 0 then newv else v) else .idle
  | .accepting _ accepts v => if majority members accepts then .deciding accepts v else .idle
  | _ => .idle

/-- The loop has passed all nodes. -/
def Phase.over : Phase → Bool
  | .preparing [] _ _ _ => true
  | .accepting [] _ _ => true
  | .deciding [] _ => true
  | _ => false

structure System where
  acceptors : String → Acceptor
  proposers : String → Proposer
  requests : List Request
  replies : List Reply

inductive Label where
  | run (p : String) (inst : Nat) (newv : String)
  /-- `safebind` gives no client. -/
  | skip (p : String)
  | send (p : String)
  /-- An acceptor executes a request. -/
  | deliver (r : Request)
  | answer (p : String) (reply : Reply)
  /-- The call fails at the caller; its request may still be executed. -/
  | timeout (p : String)
  | proceed (p : String)
  deriving DecidableEq

/-- `acc->commit` of a proposer that learns the value of an old instance. -/
def Proposer.learn (node : Proposer) (a : Acceptor) (res : Res) : Acceptor :=
  match node.phase,res with
  | .preparing _ _ _ _,.prepared (.oldinstance v) => a.commit node.inst v
  | _,_ => a

def System.setProposer (s : System) (p : String) (node : Proposer) : System :=
  { s with proposers := update s.proposers p node }
def System.setAcceptor (s : System) (name : String) (a : Acceptor) : System :=
  { s with acceptors := update s.acceptors name a }

def next (members : List String) (s : System) : Label → Option System
  | .run p inst newv =>
    let node := s.proposers p
    if node.phase = .idle then
      some (s.setProposer p
        { node with myN := ⟨setn (s.acceptors p).nH node.myN,node.myN.m⟩, inst := inst%2^32, newv := newv,
                    phase := .preparing members [] ⟨0,""⟩ "" })
    else none
  | .skip p =>
    let node := s.proposers p
    if node.waiting = false ∧ (node.call p).isSome then some (s.setProposer p { node with phase := node.phase.skip })
    else none
  | .send p =>
    let node := s.proposers p
    match node.waiting,node.call p with
    | false,some r => some { s.setProposer p { node with waiting := true } with requests := r::s.requests }
    | _,_ => none
  | .deliver r =>
    if r ∈ s.requests ∧ ∀ reply ∈ s.replies, reply.request ≠ r then
      match (s.acceptors r.dst).handle r.arg with
      | some (res,a) => some { s.setAcceptor r.dst a with replies := ⟨r,res⟩::s.replies }
      | none => none
    else none
  | .answer p reply =>
    let node := s.proposers p
    if node.waiting = true ∧ reply ∈ s.replies ∧ node.call p = some reply.request then
      some ((s.setAcceptor p (node.learn (s.acceptors p) reply.res)).setProposer p
        { node with phase := node.phase.answer reply.res, xid := node.xid+1, waiting := false })
    else none
  | .timeout p =>
    let node := s.proposers p
    if node.waiting = true then
      some (s.setProposer p { node with phase := node.phase.skip, xid := node.xid+1, waiting := false })
    else none
  | .proceed p =>
    let node := s.proposers p
    if node.phase.over then some (s.setProposer p { node with phase := node.phase.proceed members node.newv })
    else none

/-- What a step can do. -/
inductive Step (members : List String) (s : System) : Label → System → Prop
  | run {p newv : String} {inst : Nat} (idle : (s.proposers p).phase = .idle) :
    Step members s (.run p inst newv) (s.setProposer p
      { s.proposers p with
        myN := ⟨setn (s.acceptors p).nH (s.proposers p).myN,(s.proposers p).myN.m⟩, inst := inst%2^32, newv := newv,
        phase := .preparing members [] ⟨0,""⟩ "" })
  | skip {p : String} :
    Step members s (.skip p) (s.setProposer p { s.proposers p with phase := (s.proposers p).phase.skip })
  | send {p : String} {r : Request} (call : (s.proposers p).call p = some r) :
    Step members s (.send p)
      { s.setProposer p { s.proposers p with waiting := true } with requests := r::s.requests }
  | deliver {r : Request} {res : Res} {a : Acceptor} (sent : r ∈ s.requests)
      (handled : (s.acceptors r.dst).handle r.arg = some (res,a)) :
    Step members s (.deliver r) { s.setAcceptor r.dst a with replies := ⟨r,res⟩::s.replies }
  | answer {p : String} {reply : Reply} (received : reply ∈ s.replies)
      (call : (s.proposers p).call p = some reply.request) :
    Step members s (.answer p reply) ((s.setAcceptor p ((s.proposers p).learn (s.acceptors p) reply.res)).setProposer p
      { s.proposers p with phase := (s.proposers p).phase.answer reply.res, xid := (s.proposers p).xid+1,
                           waiting := false })
  | timeout {p : String} :
    Step members s (.timeout p) (s.setProposer p
      { s.proposers p with phase := (s.proposers p).phase.skip, xid := (s.proposers p).xid+1, waiting := false })
  | proceed {p : String} :
    Step members s (.proceed p) (s.setProposer p
      { s.proposers p with phase := (s.proposers p).phase.proceed members (s.proposers p).newv })

lemma next_step (moved : next members s label = some t) :
    Step members s label t := by
  cases label with
  | run p inst newv =>
    simp only [next,ite_none_right_eq_some,some.injEq] at moved
    exact moved.2 ▸ .run moved.1
  | skip p =>
    simp only [next,ite_none_right_eq_some,some.injEq] at moved
    exact moved.2 ▸ .skip
  | send p =>
    simp only [next] at moved
    split at moved
    · next r _ call =>
      simp only [some.injEq] at moved
      exact moved ▸ .send call
    · simp at moved
  | deliver r =>
    simp only [next,ite_none_right_eq_some] at moved
    obtain ⟨⟨sent,_⟩,moved⟩ := moved
    split at moved
    · next res a handled =>
      simp only [some.injEq] at moved
      exact moved ▸ .deliver sent handled
    · simp at moved
  | answer p reply =>
    simp only [next,ite_none_right_eq_some,some.injEq] at moved
    exact moved.2 ▸ .answer moved.1.2.1 moved.1.2.2
  | timeout p =>
    simp only [next,ite_none_right_eq_some,some.injEq] at moved
    exact moved.2 ▸ .timeout
  | proceed p =>
    simp only [next,ite_none_right_eq_some,some.injEq] at moved
    exact moved.2 ▸ .proceed

lemma Acceptor.commit_instanceH_le (s : Acceptor) (inst : Nat) (value : String) :
    s.instanceH ≤ (s.commit inst value).instanceH := by
  unfold Acceptor.commit
  split
  · next above => exact above.le
  · exact le_refl _
lemma Acceptor.handle_instanceH_le {s a : Acceptor} {arg : Arg} {res : Res} (handled : s.handle arg = some (res,a)) :
    s.instanceH ≤ a.instanceH := by
  cases arg with
  | prepare inst n =>
    simp only [Acceptor.handle,some.injEq,Prod.mk.injEq] at handled
    rw [← handled.2]
    unfold Acceptor.preparereq
    split_ifs <;> exact le_refl _
  | accept inst n v =>
    simp only [Acceptor.handle,some.injEq,Prod.mk.injEq] at handled
    rw [← handled.2]
    unfold Acceptor.acceptreq
    split_ifs <;> exact le_refl _
  | decide inst v =>
    simp only [Acceptor.handle,map_eq_some_iff,Prod.mk.injEq] at handled
    obtain ⟨b,decided,_,rfl⟩ := handled
    unfold Acceptor.decidereq at decided
    split_ifs at decided
    · exact some.inj decided ▸ s.commit_instanceH_le _ _
    · exact some.inj decided ▸ le_refl _
lemma Proposer.learn_instanceH_le (node : Proposer) (a : Acceptor) (res : Res) :
    a.instanceH ≤ (node.learn a res).instanceH := by
  unfold Proposer.learn
  split
  · exact a.commit_instanceH_le _ _
  · exact le_refl _

lemma System.setAcceptor_instanceH_le {s : System} {name : String} {a : Acceptor}
    (upTo : (s.acceptors name).instanceH ≤ a.instanceH) (b : String) :
    (s.acceptors b).instanceH ≤ ((s.setAcceptor name a).acceptors b).instanceH := by
  by_cases same : b = name
  · subst same
    simpa [System.setAcceptor] using upTo
  · simp [System.setAcceptor,update_of_ne same]

lemma Step.instanceH_le {members : List String} {s t : System} {label : Label} (step : Step members s label t)
    (a : String) : (s.acceptors a).instanceH ≤ (t.acceptors a).instanceH := by
  cases step with
  | deliver _ handled => exact System.setAcceptor_instanceH_le (Acceptor.handle_instanceH_le handled) a
  | answer _ _ => exact System.setAcceptor_instanceH_le (Proposer.learn_instanceH_le _ _ _) a
  | _ => exact le_refl _

/-- The constructors, at nodes that all decided the instances up to `h0` before. -/
structure Init (h0 : Nat) (v0 : Nat → Option String) (s : System) : Prop where
  acceptors : ∀ a, s.acceptors a = ⟨a,⟨0,a⟩,⟨0,a⟩,"",h0,v0⟩
  proposers : ∀ p, s.proposers p = ⟨⟨0,p⟩,0,"",.idle,0,false⟩
  requests : s.requests = []
  replies : s.replies = []
  undecided : ∀ i, h0 < i → v0 i = none

/-- No two acceptors record different values of an instance. -/
def Agreement (s : System) : Prop :=
  ∀ a b i v w, (s.acceptors a).values i = some v → (s.acceptors b).values i = some w → v = w

end CodeExercise.Paxos
