import CodeExercise.Rsm

/-! What an acknowledgement of `client_invoke` says. -/
namespace CodeExercise.RsmAcknowledged
open Runs Rsm Option Function
open List (mem_append mem_cons)

/-- Every other member of the view executed the request before the primary did. -/
def ReplicatedFirst (v : View) (s : System) (request : Request) : Prop :=
  ∃ later earlier vs, s.log = later++⟨v.primary,vs,request⟩::earlier ∧
    ∀ m ∈ v.mems, m ≠ v.primary → ∃ e ∈ earlier, e.replica = m ∧ e.request = request

/-- The calls of the invocation that holds the mutex. -/
structure InvocationOk (v : View) (s : System) (i : Invocation) : Prop where
  known : i.request.id < s.requests
  waits : ∀ x, i.pending = some x →
    ∃ c todo, s.calls x = some c ∧ c.request = i.request ∧ i.todo = c.dst::todo ∧ c.dst ∈ i.bound
  only : ∀ x c, s.calls x = some c → c.request = i.request → c.Active → i.pending = some x
  logged : ∀ e ∈ s.log, e.request = i.request → e.replica ≠ v.primary ∧ e.replica ∈ i.bound
  bound : ∀ m ∈ i.bound, (∃ e ∈ s.log, e.replica = m ∧ e.request = i.request) ∨
    ∃ x c, i.pending = some x ∧ s.calls x = some c ∧ c.dst = m

structure AckOk (v : View) (s : System) (a : Ack) : Prop where
  known : a.request.id < s.requests
  past : ∀ i, s.invocation = some i → i.request ≠ a.request
  settled : ∀ x c, s.calls x = some c → c.request = a.request → ¬ c.Active
  logged : ∀ e ∈ s.log, e.request = a.request → e.replica ≠ v.primary → e.replica ∈ a.bound
  first : ∃ later earlier vs, s.log = later++⟨v.primary,vs,a.request⟩::earlier ∧
    ∀ m ∈ a.bound, ∃ e ∈ earlier, e.replica = m ∧ e.request = a.request

structure Inv (v : View) (s : System) : Prop where
  calls : ∀ x c, s.calls x = some c → x < s.xid ∧ c.request.id < s.requests ∧ c.dst ≠ v.primary
  executed : ∀ x c, s.calls x = some c → c.stage = .executed ∨ c.stage = .replied .ok →
    ∃ e ∈ s.log, e.replica = c.dst ∧ e.request = c.request
  log : ∀ e ∈ s.log, e.request.id < s.requests
  invocation : ∀ i, s.invocation = some i → InvocationOk v s i
  acks : ∀ a ∈ s.acks, AckOk v s a

section Steps
variable {v : View} {s : System}

lemma inv_init (initial : Init s) : Inv v s :=
  ⟨by simp [initial.calls],by simp [initial.calls],by simp [initial.log],by simp [initial.invocation],
    by simp [initial.acks]⟩

lemma inv_replica (inv : Inv v s) : Inv v (s.setReplica r node) :=
  ⟨inv.calls,inv.executed,inv.log,
    fun i here => ⟨(inv.invocation i here).known,(inv.invocation i here).waits,(inv.invocation i here).only,
      (inv.invocation i here).logged,(inv.invocation i here).bound⟩,
    fun a mem => ⟨(inv.acks a mem).known,(inv.acks a mem).past,(inv.acks a mem).settled,
      (inv.acks a mem).logged,(inv.acks a mem).first⟩⟩

lemma inv_invocation (inv : Inv v s)
    (ok : ∀ i, invocation = some i → InvocationOk v s i)
    (past : ∀ i, invocation = some i → ∃ j, s.invocation = some j ∧ j.request = i.request) :
    Inv v { s with invocation := invocation } := by
  refine ⟨inv.calls,inv.executed,inv.log,?_,?_⟩
  · intro i here
    exact ⟨(ok i here).known,(ok i here).waits,(ok i here).only,(ok i here).logged,(ok i here).bound⟩
  · intro a mem
    have before := inv.acks a mem
    refine { before with past := ?_ }
    intro i here
    obtain ⟨j,there,same⟩ := past i here
    exact same ▸ before.past j there

lemma inv_start (inv : Inv v s) :
    Inv v { s with invocation := some ⟨⟨s.requests,procno,req⟩,v.mems,[],none⟩, requests := s.requests+1 } := by
  have new : ∀ request : Request, request.id < s.requests → request ≠ ⟨s.requests,procno,req⟩ := by
    rintro request old rfl
    exact Nat.lt_irrefl _ old
  refine ⟨?_,inv.executed,fun e mem => Nat.lt_succ_of_lt (inv.log e mem),?_,?_⟩
  · intro x c found
    obtain ⟨below,old,other⟩ := inv.calls x c found
    exact ⟨below,Nat.lt_succ_of_lt old,other⟩
  · intro i here
    cases here
    refine ⟨Nat.lt_succ_self _,by simp,?_,?_,by simp⟩
    · intro x c found same
      exact absurd same (new c.request (inv.calls x c found).2.1)
    · intro e mem same
      exact absurd same (new e.request (inv.log e mem))
  · intro a mem
    have before := inv.acks a mem
    refine { before with known := Nat.lt_succ_of_lt before.known, past := ?_ }
    intro i here
    cases here
    exact Ne.symm (new a.request before.known)

lemma inv_call (inv : Inv v s)
    (turn : s.invocation = some ⟨request,m::todo,bound,none⟩) (other : m ≠ v.primary) :
    Inv v { s.setCall s.xid ⟨m,(s.replicas v.primary).myvs,request,.sent⟩ with
      invocation := some ⟨request,m::todo,bound++[m],some s.xid⟩, xid := s.xid+1 } := by
  have ok := inv.invocation _ turn
  refine ⟨forall_update_some ⟨Nat.lt_succ_self _,ok.known,other⟩ (fun x c _ found => ?_),
    forall_update_some (by simp) (fun x c _ => inv.executed x c),inv.log,?_,?_⟩
  · exact ⟨Nat.lt_succ_of_lt (inv.calls x c found).1,(inv.calls x c found).2⟩
  · intro i here
    cases here
    refine ⟨ok.known,?_,forall_update_some (fun _ _ => rfl) (fun x c _ found same active => ?_),?_,?_⟩
    · intro x same
      cases same
      exact ⟨_,todo,update_self _ _ _,rfl,rfl,by simp⟩
    · simpa using ok.only x c found same active
    · intro e mem same
      exact ⟨(ok.logged e mem same).1,List.mem_append_left _ (ok.logged e mem same).2⟩
    · intro n inside
      rcases mem_append.mp inside with before | last
      · exact .inl ((ok.bound n before).resolve_right (by simp))
      · exact .inr ⟨_,_,rfl,update_self _ _ _,(List.mem_singleton.mp last).symm⟩
  · intro a mem
    have before := inv.acks a mem
    have past : request ≠ a.request := before.past _ turn
    refine { before with past := ?_, settled := forall_update_some (fun same => absurd same past) (fun x c _ => before.settled x c) }
    intro i here
    cases here
    exact past

/-- A call moves on at its backup; `new` are the executions it adds to the log. -/
lemma inv_stage (new : List Execution) (inv : Inv v s)
    (found : s.calls x = some c) (active : c.Active)
    (added : ∀ e ∈ new, e.replica = c.dst ∧ e.request = c.request)
    (executed : stage = .executed ∨ stage = .replied .ok →
      ∃ e ∈ new++s.log, e.replica = c.dst ∧ e.request = c.request) :
    Inv v { s.setCall x { c with stage := stage } with log := new++s.log } := by
  obtain ⟨below,old,backup⟩ := inv.calls x c found
  have more : ∀ e ∈ s.log, e ∈ new++s.log := fun e mem => List.mem_append_right _ mem
  -- a call that the invocation waits for is still there
  have moved : ∀ y d, s.calls y = some d → ∃ d', (s.setCall x { c with stage := stage }).calls y = some d' ∧
      d'.request = d.request ∧ d'.dst = d.dst := by
    intro y d at_y
    by_cases here : y = x
    · subst here
      obtain rfl : c = d := by simpa [found] using at_y
      exact ⟨_,update_self _ _ _,rfl,rfl⟩
    · exact ⟨d,update_eq_some here at_y,rfl,rfl⟩
  refine ⟨forall_update_some ⟨below,old,backup⟩ (fun y d _ => inv.calls y d),forall_update_some executed (fun y d _ at_y done => ?_),
    List.forall_mem_append.mpr ⟨fun e this => (added e this).2 ▸ old,inv.log⟩,?_,?_⟩
  · obtain ⟨e,mem,rest⟩ := inv.executed y d at_y done
    exact ⟨e,more e mem,rest⟩
  · intro i here
    have ok := inv.invocation i here
    refine ⟨ok.known,?_,forall_update_some (fun same _ => ok.only x c found same active) (fun y d _ => ok.only y d),?_,?_⟩
    · intro y waits
      obtain ⟨d,todo,at_y,same,head,inside⟩ := ok.waits y waits
      obtain ⟨d',at_y',request,dst⟩ := moved y d at_y
      exact ⟨d',todo,at_y',request.trans same,dst ▸ head,dst ▸ inside⟩
    · intro e mem same
      rcases mem_append.mp mem with this | before
      · obtain ⟨replica,request⟩ := added e this
        obtain ⟨d,_,at_x,_,_,inside⟩ := ok.waits x (ok.only x c found (request.symm.trans same) active)
        obtain rfl : c = d := by simpa [found] using at_x
        exact ⟨replica ▸ backup,replica ▸ inside⟩
      · exact ok.logged e before same
    · intro m inside
      rcases ok.bound m inside with ⟨e,mem,rest⟩ | ⟨y,d,waits,at_y,its⟩
      · exact .inl ⟨e,more e mem,rest⟩
      · obtain ⟨d',at_y',_,dst⟩ := moved y d at_y
        exact .inr ⟨y,d',waits,at_y',dst.trans its⟩
  · intro a mem
    have before := inv.acks a mem
    refine ⟨before.known,before.past,
      forall_update_some (fun same => absurd active (before.settled x c found same)) (fun y d _ => before.settled y d),
      List.forall_mem_append.mpr ⟨fun e this same => ?_,before.logged⟩,?_⟩
    · exact absurd active (before.settled x c found ((added e this).2.symm.trans same))
    · obtain ⟨later,earlier,vs,split,rest⟩ := before.first
      exact ⟨new++later,earlier,vs,by simp [split],rest⟩

lemma inv_commit (inv : Inv v s)
    (turn : s.invocation = some ⟨request,[],bound,none⟩) :
    Inv v { s.setReplica v.primary (s.replicas v.primary).advance with
      invocation := none, log := ⟨v.primary,(s.replicas v.primary).myvs,request⟩ :: s.log,
      acks := ⟨request,bound⟩::s.acks } := by
  have ok := inv.invocation _ turn
  refine ⟨inv.calls,?_,List.forall_mem_cons.mpr ⟨ok.known,inv.log⟩,by simp,?_⟩
  · intro x c found done
    obtain ⟨e,mem,rest⟩ := inv.executed x c found done
    exact ⟨e,List.mem_cons_of_mem _ mem,rest⟩
  · intro a mem
    rcases mem_cons.mp mem with rfl | old
    · refine ⟨ok.known,by simp,?_,?_,[],s.log,_,rfl,fun m inside => (ok.bound m inside).resolve_right (by simp)⟩
      · intro x c found same active
        have waits := ok.only x c found same active
        simp at waits
      · intro e inside same other
        rcases mem_cons.mp inside with rfl | before
        · exact absurd rfl other
        · exact (ok.logged e before same).2
    · have before := inv.acks a old
      refine ⟨before.known,by simp,before.settled,
        List.forall_mem_cons.mpr ⟨fun _ other => absurd rfl other,before.logged⟩,?_⟩
      · obtain ⟨later,earlier,vs,split,rest⟩ := before.first
        exact ⟨_::later,earlier,vs,by rw [split]; rfl,rest⟩

lemma inv_answer (inv : Inv v s)
    (turn : s.invocation = some ⟨request,m::todo,bound,some x⟩) (found : s.calls x = some c)
    (stage : c.stage = .replied .ok) :
    Inv v { s with invocation := some ⟨request,todo,bound,none⟩ } := by
  have ok := inv.invocation _ turn
  obtain ⟨d,_,at_x,same,_⟩ := ok.waits x rfl
  obtain rfl : c = d := by simpa [found] using at_x
  refine inv_invocation inv ?_ ?_
  · intro i here
    cases here
    refine ⟨ok.known,by simp,?_,ok.logged,?_⟩
    · intro y d at_y equal active
      obtain rfl : x = y := by simpa using ok.only y d at_y equal active
      obtain rfl : c = d := by simpa [found] using at_y
      simp [Call.Active,stage] at active
    · intro n inside
      rcases ok.bound n inside with before | ⟨y,d,waits,at_y,its⟩
      · exact .inl before
      · obtain rfl : x = y := by simpa using waits
        obtain rfl : c = d := by simpa [found] using at_y
        obtain ⟨e,mem,replica,request⟩ := inv.executed x c found (.inr stage)
        exact .inl ⟨e,mem,replica.trans its,request.trans same⟩
  · intro i here
    cases here
    exact ⟨_,turn,rfl⟩

end Steps

lemma inv_step {v : View} (s : System) (label : Label) (t : System) (inv : Inv v s) (_ : anyStep s label)
    (moved : next v s label = some t) : Inv v t := by
  cases step_of_next moved with
  | recover _ => exact inv_replica inv
  | refused => exact inv
  | start _ _ => exact inv_start inv
  | pass turn =>
    have ok := inv.invocation _ turn
    refine inv_invocation inv ?_ ?_
    · intro i here
      cases here
      refine { ok with waits := by simp }
    · intro i here
      cases here
      exact ⟨_,turn,rfl⟩
  | call turn other => exact inv_call inv turn other
  | refuse found stage | begin found stage _ _ => exact inv_stage [] inv found (.inl stage) (by simp) (by simp)
  | execute found stage =>
    exact inv_stage [⟨_,_,_⟩] inv found (.inr (.inl stage)) (by simp)
      (fun _ => ⟨_,List.mem_cons_self,rfl,rfl⟩)
  | finish found stage =>
    exact inv_replica (inv_stage [] inv found (.inr (.inr stage)) (by simp)
      (fun _ => inv.executed _ _ found (.inl stage)))
  | answer turn found stage => exact inv_answer inv turn found stage
  | abort _ _ _ => exact inv_invocation inv (by simp) (by simp)
  | commit turn => exact inv_commit inv turn

/-- For every request that `client_invoke` answered with OK, in every run: all
other members executed it before the primary exactly when `safebind` gave a
client for each of them. -/
theorem acknowledged_iff_bound {v : View} {s : System} {a : Ack} (reached : Reach Init anyStep (next v) s)
    (mem : a ∈ s.acks) :
    ReplicatedFirst v s a.request ↔ ∀ m ∈ v.mems, m ≠ v.primary → m ∈ a.bound := by
  have ok := (Reach.invariant (fun _ initial => inv_init initial) inv_step s reached).acks a mem
  constructor
  · rintro ⟨later,earlier,vs,split,all⟩ m inside other
    obtain ⟨e,before,replica,request⟩ := all m inside other
    have logged : e ∈ s.log := by simp [split,before]
    exact replica ▸ ok.logged e logged request (replica ▸ other)
  · intro all
    obtain ⟨later,earlier,vs,split,executed⟩ := ok.first
    exact ⟨later,earlier,vs,split,fun m inside other => executed m (all m inside other)⟩

/-- Both backups are called and answer. -/
def bothBound : List Label :=
  [.recover "p",.recover "b",.recover "c",.clientInvoke "p" 1 "x",.self,.call,.begin 0,.execute 0,.finish 0,.answer,
   .call,.begin 1,.execute 1,.finish 1,.answer,.commit]

theorem acknowledged_both_bound : ∃ s, run (next three) entering bothBound = some s ∧
    s.acks = [⟨⟨0,1,"x"⟩,["b","c"]⟩] ∧ ReplicatedFirst three s ⟨0,1,"x"⟩ := by
  refine ⟨_,rfl,rfl,?_⟩
  exact (acknowledged_iff_bound (v := three) (a := ⟨⟨0,1,"x"⟩,["b","c"]⟩)
    (Reach.run bothBound (.start entering_init) (meets_anyStep _ _) rfl) (by decide)).mpr (by decide)

/-- The backup `c` cannot be bound. -/
def oneUnbound : List Label :=
  [.recover "p",.recover "b",.recover "c",.clientInvoke "p" 1 "x",.self,.call,.begin 0,.execute 0,.finish 0,.answer,
   .skip,.commit]

theorem unbound_backup_misses_request : ∃ s, Reach Init anyStep (next three) s ∧
    s.log = [⟨"p",⟨2,1⟩,⟨0,1,"x"⟩⟩,⟨"b",⟨2,1⟩,⟨0,1,"x"⟩⟩] ∧ s.acks = [⟨⟨0,1,"x"⟩,["b"]⟩] ∧
    ¬ ReplicatedFirst three s ⟨0,1,"x"⟩ := by
  refine ⟨_,Reach.run oneUnbound (.start entering_init) (meets_anyStep _ _) rfl,rfl,rfl,?_⟩
  rintro ⟨later,earlier,vs,split,all⟩
  obtain ⟨e,before,replica,_⟩ := all "c" (by decide) (by decide)
  have absent : ∀ e ∈ later++⟨three.primary,vs,⟨0,1,"x"⟩⟩ :: earlier, e.replica ≠ "c" := by
    rw [← split]
    decide
  exact absent e (by simp [before]) replica

end CodeExercise.RsmAcknowledged
