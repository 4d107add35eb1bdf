import CodeExercise.Rsm

/-! One request per viewstamp. -/
namespace CodeExercise.RsmViewstamps
open Runs Rsm Option Function
open List (mem_cons)

/-- Nobody executed a request under the primary's viewstamp, and no call under it
is on its way or at work. -/
def Unused (v : View) (s : System) : Prop :=
  (∀ e ∈ s.log, e.vs ≠ (s.replicas v.primary).myvs) ∧
    ∀ x < s.xid, ∀ c ∈ s.calls x, c.vs = (s.replicas v.primary).myvs → ¬ c.Active

/-- The call that the primary waits for was answered with an error. -/
def Failed (s : System) : Prop := ∃ i ∈ s.invocation, ∃ x ∈ i.pending, ∃ c ∈ s.calls x, c.stage = .replied .err
deriving Decidable

instance (v : View) (s : System) : Decidable (Unused v s) := decideAs (_ ∧ _)

/-- A request is given up only while its viewstamp is unused; sequence numbers do
not wrap. -/
def Clean (v : View) (s : System) : Label → Prop
  | .answer => Failed s → Unused v s
  | .timeout => Unused v s
  | .finish x => ∀ c ∈ s.calls x, (s.replicas c.dst).myvs.seqno+1 < 2^32
  | .commit => (s.replicas v.primary).myvs.seqno+1 < 2^32
  | _ => True

instance (v : View) (s : System) : (label : Label) → Decidable (Clean v s label)
  | .answer => decideAs (_ → _)
  | .timeout => decideAs (Unused _ _)
  | .finish x => decideAs (∀ c ∈ s.calls x, _)
  | .commit => decideAs (_ < _)
  | .recover _ | .clientInvoke _ _ _ | .self | .skip | .call | .begin _ | .execute _ => isTrue trivial

/-- All executions under a viewstamp are of one request, and no replica executes
twice under it. -/
def OneRequest (s : System) : Prop :=
  (∀ e ∈ s.log, ∀ f ∈ s.log, e.vs = f.vs → e.request = f.request) ∧
    (s.log.map (fun e => (e.replica,e.vs))).Nodup

structure Inv (v : View) (s : System) : Prop where
  fresh : (s.replicas v.primary).inviewchange = true → s.log = [] ∧ s.invocation = none ∧ ∀ x, s.calls x = none
  known : ∀ x c, s.calls x = some c → x < s.xid
  entered : ∀ r, (s.replicas r).inviewchange = false → (s.replicas r).myvs.vid = v.vid
  active : ∀ x c, s.calls x = some c → c.Active →
    c.dst ≠ v.primary ∧ c.vs = (s.replicas v.primary).myvs ∧
      ∃ i, s.invocation = some i ∧ i.pending = some x ∧ c.request = i.request
  begun : ∀ x c, s.calls x = some c → c.stage = .begun ∨ c.stage = .executed →
    (s.replicas c.dst).inviewchange = false ∧ c.vs = (s.replicas c.dst).myvs
  stamps : ∀ e ∈ s.log, e.vs.vid = v.vid ∧ (e.vs.seqno < (s.replicas v.primary).myvs.seqno ∨
    (e.vs = (s.replicas v.primary).myvs ∧ e.replica ≠ v.primary ∧
      ∃ i, s.invocation = some i ∧ e.request = i.request))
  done : ∀ e ∈ s.log, e.replica ≠ v.primary → (s.replicas e.replica).inviewchange = false ∧
    (e.vs.seqno < (s.replicas e.replica).myvs.seqno ∨
      ∃ x c, s.calls x = some c ∧ c.stage = .executed ∧ c.dst = e.replica ∧ c.vs = e.vs)
  one : OneRequest s

section Steps
variable {v : View} {s : System}

section
variable (inv : Inv v s)
include inv

lemma Inv.only (found : s.calls x = some c) (active : c.Active)
    (other : s.calls y = some d) (too : d.Active) : x = y := by
  obtain ⟨_,_,i,here,waits,_⟩ := inv.active x c found active
  obtain ⟨_,_,j,there,also,_⟩ := inv.active y d other too
  obtain rfl : i = j := by simpa [here] using there
  simpa [waits] using also

lemma Inv.ready (here : s.invocation = some i) :
    (s.replicas v.primary).inviewchange = false := by
  by_contra busy
  have none := (inv.fresh (by simpa using busy)).2.1
  simp [here] at none

lemma Inv.idle
    (turn : s.invocation = some ⟨request,todo,bound,none⟩) : ∀ x c, s.calls x = some c → ¬ c.Active := by
  intro x c found active
  obtain ⟨_,_,i,here,waits,_⟩ := inv.active x c found active
  obtain rfl : _ = i := by simpa [turn] using here
  simp at waits

lemma Inv.agree (here : s.invocation = some i) :
    ∀ e ∈ s.log, e.vs = (s.replicas v.primary).myvs → e.request = i.request := by
  intro e mem same
  obtain ⟨_,before | ⟨_,_,j,there,its⟩⟩ := inv.stamps e mem
  · rw [same] at before
    exact absurd before (Nat.lt_irrefl _)
  · obtain rfl : i = j := by simpa [here] using there
    exact its

lemma Inv.done_setCall
    (unexecuted : ∀ d, s.calls x = some d → d.stage ≠ .executed) : ∀ e ∈ s.log, e.replica ≠ v.primary →
    (s.replicas e.replica).inviewchange = false ∧ (e.vs.seqno < (s.replicas e.replica).myvs.seqno ∨
      ∃ y d, (s.setCall x c).calls y = some d ∧ d.stage = .executed ∧ d.dst = e.replica ∧ d.vs = e.vs) := by
  intro e mem backup
  obtain ⟨ready,before | ⟨y,d,at_y,executed,rest⟩⟩ := inv.done e mem backup
  · exact ⟨ready,.inl before⟩
  · refine ⟨ready,.inr ⟨y,d,update_eq_some ?_ at_y,executed,rest⟩⟩
    rintro rfl
    exact unexecuted d at_y executed

lemma Inv.entered_setReplica (here : node.myvs.vid = v.vid) :
    ∀ q, ((s.setReplica r node).replicas q).inviewchange = false → ((s.setReplica r node).replicas q).myvs.vid = v.vid :=
  (forall_update_iff s.replicas (fun _ node => node.inviewchange = false → node.myvs.vid = v.vid)).mpr
    ⟨fun _ => here,fun q _ => inv.entered q⟩

end

/-- One more execution, which agrees with those under its viewstamp. -/
lemma one_cons (one : OneRequest s) (log : t.log = new::s.log)
    (agree : ∀ e ∈ s.log, e.vs = new.vs → e.request = new.request)
    (first : ∀ e ∈ s.log, e.replica = new.replica → e.vs ≠ new.vs) : OneRequest t := by
  rw [OneRequest,log]
  constructor
  · intro e memberE f memberF same
    rcases mem_cons.mp memberE with rfl | beforeE <;> rcases mem_cons.mp memberF with rfl | beforeF
    · rfl
    · exact (agree f beforeF same.symm).symm
    · exact agree e beforeE same
    · exact one.1 e beforeE f beforeF same
  · refine List.nodup_cons.mpr ⟨fun mem => ?_,one.2⟩
    obtain ⟨e,inside,named⟩ := List.mem_map.mp mem
    simp only [Prod.mk.injEq] at named
    exact first e inside named.1 named.2

lemma inv_init (initial : Init s) : Inv v s := by
  refine ⟨fun _ => ⟨initial.log,initial.invocation,initial.calls⟩,?_,?_,?_,?_,?_,?_,?_⟩
  · simp [initial.calls]
  · simp [initial.replicas]
  · simp [initial.calls]
  · simp [initial.calls]
  · simp [initial.log]
  · simp [initial.log]
  · simp [OneRequest,initial.log]

section
variable (inv : Inv v s)
include inv

lemma inv_invocation
    (ready : (s.replicas v.primary).inviewchange = false)
    (idle : ∀ x c, s.calls x = some c → ¬ c.Active)
    (kept : ∀ e ∈ s.log, e.vs = (s.replicas v.primary).myvs → ∀ i, s.invocation = some i → e.request = i.request →
      ∃ j, invocation = some j ∧ e.request = j.request) :
    Inv v { s with invocation := invocation, requests := requests } := by
  refine { inv with fresh := ?_, active := ?_, stamps := ?_ }
  · intro busy
    rw [show (s.replicas v.primary).inviewchange = true from busy] at ready
    simp at ready
  · intro x c found active
    exact absurd active (idle x c found)
  · intro e mem
    obtain ⟨vid,before | ⟨current,backup,i,here,same⟩⟩ := inv.stamps e mem
    · exact ⟨vid,.inl before⟩
    · exact ⟨vid,.inr ⟨current,backup,kept e mem current i here same⟩⟩

lemma inv_recover (busy : (s.replicas r).inviewchange = true) :
    Inv v (s.setReplica r (.recovered v)) := by
  by_cases same : r = v.primary
  · subst same
    obtain ⟨noLog,noInvocation,noCalls⟩ := inv.fresh busy
    refine ⟨by simp [System.setReplica,Replica.recovered],?_,inv.entered_setReplica rfl,?_,?_,?_,?_,inv.one⟩
    · simp [System.setReplica,noCalls]
    · simp [System.setReplica,noCalls]
    · simp [System.setReplica,noCalls]
    · simp [System.setReplica,noLog]
    · simp [System.setReplica,noLog]
  · have apart : v.primary ≠ r := Ne.symm same
    have others : ∀ q, (s.replicas q).inviewchange = false → q ≠ r := by
      rintro q ready rfl
      simp [busy] at ready
    refine ⟨?_,inv.known,inv.entered_setReplica rfl,?_,?_,?_,?_,inv.one⟩
    · simpa [System.setReplica,update_of_ne apart] using inv.fresh
    · simpa [System.setReplica,update_of_ne apart] using inv.active
    · intro x c found working
      obtain ⟨ready,stamp⟩ := inv.begun x c found working
      simpa [System.setReplica,update_of_ne (others _ ready)] using And.intro ready stamp
    · simpa [System.setReplica,update_of_ne apart] using inv.stamps
    · intro e mem backup
      obtain ⟨ready,rest⟩ := inv.done e mem backup
      simpa [System.setReplica,update_of_ne (others _ ready)] using And.intro ready rest

lemma inv_call
    (turn : s.invocation = some ⟨request,m::todo,bound,none⟩) (other : m ≠ v.primary) :
    Inv v { s.setCall s.xid ⟨m,(s.replicas v.primary).myvs,request,.sent⟩ with
      invocation := some ⟨request,m::todo,bound++[m],some s.xid⟩, xid := s.xid+1 } := by
  have idle := inv.idle turn
  refine ⟨fun busy => ?_,forall_update_some (Nat.lt_succ_self _) (fun x c _ found => Nat.lt_succ_of_lt (inv.known x c found)),
    inv.entered,forall_update_some (fun _ => ⟨other,rfl,_,rfl,rfl,rfl⟩) (fun x c _ found active => absurd active (idle x c found)),
    forall_update_some (by simp) (fun x c _ => inv.begun x c),?_,
    inv.done_setCall (fun d found => absurd (inv.known _ d found) (Nat.lt_irrefl _)),inv.one⟩
  · have none := (inv.fresh busy).2.1
    simp [turn] at none
  · intro e mem
    obtain ⟨vid,before | ⟨current,backup,i,here,same⟩⟩ := inv.stamps e mem
    · exact ⟨vid,.inl before⟩
    · obtain rfl : _ = i := by simpa [turn] using here
      exact ⟨vid,.inr ⟨current,backup,_,rfl,same⟩⟩

section
variable (found : s.calls x = some c)
include found

lemma inv_stage
    (sent : c.stage = .sent) (new : stage ≠ .executed)
    (ready : stage = .begun → (s.replicas c.dst).inviewchange = false ∧ c.vs = (s.replicas c.dst).myvs) :
    Inv v (s.setCall x { c with stage := stage }) := by
  refine ⟨fun busy => ?_,forall_update_some (inv.known x c found) (fun y d _ => inv.known y d),inv.entered,
    forall_update_some (fun _ => inv.active x c found (.inl sent)) (fun y d _ => inv.active y d),
    forall_update_some (fun working => working.elim ready (absurd · new)) (fun y d _ => inv.begun y d),inv.stamps,
    inv.done_setCall (fun d at_x => ?_),inv.one⟩
  · have none := (inv.fresh busy).2.2 x
    simp [found] at none
  · obtain rfl : c = d := by simpa [found] using at_x
    simp [sent]

lemma inv_execute (stage : c.stage = .begun) :
    Inv v { s.setCall x { c with stage := .executed } with log := ⟨c.dst,c.vs,c.request⟩::s.log } := by
  have active : c.Active := .inr (.inl stage)
  obtain ⟨backup,current,i,here,waits,request⟩ := inv.active x c found active
  obtain ⟨ready,stamp⟩ := inv.begun x c found (.inl stage)
  have primary := inv.ready here
  have unexecuted : ∀ d, s.calls x = some d → d.stage ≠ .executed := by
    intro d at_x
    obtain rfl : c = d := by simpa [found] using at_x
    simp [stage]
  refine ⟨by simp [System.setCall,primary],forall_update_some (inv.known x c found) (fun y d _ => inv.known y d),inv.entered,
    forall_update_some (fun _ => ⟨backup,current,i,here,waits,request⟩) (fun y d _ => inv.active y d),
    forall_update_some (fun _ => ⟨ready,stamp⟩) (fun y d _ => inv.begun y d),?_,?_,one_cons inv.one rfl ?_ ?_⟩
  · exact List.forall_mem_cons.mpr ⟨⟨current ▸ inv.entered _ primary,.inr ⟨current,backup,i,here,request⟩⟩,inv.stamps⟩
  · exact List.forall_mem_cons.mpr ⟨fun _ => ⟨ready,.inr ⟨x,_,update_self _ _ _,rfl,rfl,rfl⟩⟩,inv.done_setCall unexecuted⟩
  · exact fun e mem same => (inv.agree here e mem (same.trans current)).trans request.symm
  · intro e inside replica vs
    obtain ⟨_,late | ⟨y,d,at_y,executed,_⟩⟩ := inv.done e inside (replica ▸ backup)
    · rw [replica,vs,stamp] at late
      exact absurd late (Nat.lt_irrefl _)
    · obtain rfl := inv.only at_y (.inr (.inr executed)) found active
      exact unexecuted d at_y executed

lemma inv_finish (stage : c.stage = .executed)
    (small : (s.replicas c.dst).myvs.seqno+1 < 2^32) :
    Inv v ((s.setCall x { c with stage := .replied .ok }).setReplica c.dst (s.replicas c.dst).advance) := by
  have active : c.Active := .inr (.inr stage)
  obtain ⟨backup,current,i,here,waits,request⟩ := inv.active x c found active
  obtain ⟨ready,stamp⟩ := inv.begun x c found (.inr stage)
  have apart : v.primary ≠ c.dst := Ne.symm backup
  have wrap : ((s.replicas c.dst).myvs.seqno+1)%2^32 = (s.replicas c.dst).myvs.seqno+1 := Nat.mod_eq_of_lt small
  set t := (s.setCall x { c with stage := .replied .ok }).setReplica c.dst (s.replicas c.dst).advance with tIs
  have idle : ∀ y d, t.calls y = some d → y < s.xid ∧ ¬ d.Active := forall_update_some
    ⟨inv.known x c found,by simp [Call.Active]⟩
    (fun y d other at_y => ⟨inv.known y d at_y,fun too => other (inv.only at_y too found active)⟩)
  have primary : t.replicas v.primary = s.replicas v.primary := by
    simp [tIs,System.setReplica,update_of_ne apart,System.setCall]
  refine ⟨by simp [primary,inv.ready here],fun y d at_y => (idle y d at_y).1,inv.entered_setReplica (inv.entered _ ready),
    fun y d at_y too => absurd too (idle y d at_y).2,?_,?_,?_,inv.one⟩
  · intro y d at_y working
    rcases working with begun | executed
    · exact absurd (.inr (.inl begun)) (idle y d at_y).2
    · exact absurd (.inr (.inr executed)) (idle y d at_y).2
  · rw [primary]
    exact inv.stamps
  · intro e mem other
    obtain ⟨entered,late⟩ := inv.done e mem other
    by_cases same : e.replica = c.dst
    · simp only [tIs,System.setReplica,same,update_self,Replica.advance,wrap]
      refine ⟨ready,.inl ?_⟩
      rcases late with before | ⟨y,d,at_y,executed,_,under⟩
      · rw [same] at before
        omega
      · obtain rfl := inv.only at_y (.inr (.inr executed)) found active
        obtain rfl : c = d := by simpa [found] using at_y
        rw [← under,stamp]
        omega
    · simp only [tIs,System.setReplica,update_of_ne same]
      refine ⟨entered,.inl ?_⟩
      rcases late with before | ⟨y,d,at_y,executed,its,_⟩
      · exact before
      · obtain rfl := inv.only at_y (.inr (.inr executed)) found active
        obtain rfl : c = d := by simpa [found] using at_y
        exact absurd its.symm same

end

lemma inv_commit
    (turn : s.invocation = some ⟨request,[],bound,none⟩) (small : (s.replicas v.primary).myvs.seqno+1 < 2^32) :
    Inv v { s.setReplica v.primary (s.replicas v.primary).advance with
      invocation := none, log := ⟨v.primary,(s.replicas v.primary).myvs,request⟩ :: s.log,
      acks := ⟨request,bound⟩::s.acks } := by
  have idle := inv.idle turn
  have primary := inv.ready turn
  have wrap : ((s.replicas v.primary).myvs.seqno+1)%2^32 = (s.replicas v.primary).myvs.seqno+1 :=
    Nat.mod_eq_of_lt small
  refine ⟨by simp [System.setReplica,Replica.advance,primary],inv.known,inv.entered_setReplica (inv.entered _ primary),
    fun x c found active => absurd active (idle x c found),?_,?_,?_,one_cons inv.one rfl (inv.agree turn) ?_⟩
  · intro x c found working
    rcases working with begun | executed
    · exact absurd (.inr (.inl begun)) (idle x c found)
    · exact absurd (.inr (.inr executed)) (idle x c found)
  · intro e mem
    simp only [System.setReplica,update_self,Replica.advance,wrap]
    rcases mem_cons.mp mem with rfl | before
    · exact ⟨inv.entered _ primary,.inl (Nat.lt_succ_self _)⟩
    · obtain ⟨vid,late⟩ := inv.stamps e before
      refine ⟨vid,.inl ?_⟩
      rcases late with earlier | ⟨current,_⟩
      · omega
      · rw [current]
        omega
  · intro e mem other
    rcases mem_cons.mp mem with rfl | before
    · exact absurd rfl other
    · simp only [System.setReplica,update_of_ne other]
      exact inv.done e before other
  · intro e inside replica vs
    obtain ⟨_,before | ⟨_,backup,_⟩⟩ := inv.stamps e inside
    · rw [vs] at before
      exact absurd before (Nat.lt_irrefl _)
    · exact backup replica

end
end Steps

lemma inv_step (s : System) (label : Label) (t : System) (inv : Inv v s) (clean : Clean v s label)
    (moved : next v s label = some t) : Inv v t := by
  cases step_of_next moved with
  | recover busy => exact inv_recover inv busy
  | refused => exact inv
  | start entered free =>
    refine inv_invocation inv entered ?_ ?_
    · intro x c found active
      obtain ⟨_,_,i,here,_⟩ := inv.active x c found active
      simp [free] at here
    · intro e _ _ i here
      simp [free] at here
  | pass turn =>
    refine inv_invocation inv (inv.ready turn) (inv.idle turn) ?_
    · intro e _ _ i here same
      obtain rfl : _ = i := by simpa [turn] using here
      exact ⟨_,rfl,same⟩
  | call turn other => exact inv_call inv turn other
  | refuse found stage => exact inv_stage inv found stage (by simp) (by simp)
  | begin found stage entered same => exact inv_stage inv found stage (by simp) (fun _ => ⟨entered,same⟩)
  | execute found stage => exact inv_execute inv found stage
  | finish found stage => exact inv_finish inv found stage (clean _ found)
  | answer turn found stage =>
    refine inv_invocation inv (inv.ready turn) ?_ ?_
    · intro y d at_y active
      obtain ⟨_,_,i,here,waits,_⟩ := inv.active y d at_y active
      obtain rfl : _ = i := by simpa [turn] using here
      obtain rfl : _ = y := by simpa using waits
      obtain rfl : _ = d := by simpa [found] using at_y
      simp [Call.Active,stage] at active
    · intro e _ _ i here same
      obtain rfl : _ = i := by simpa [turn] using here
      exact ⟨_,rfl,same⟩
  | abort turn waits failed =>
    have unused : Unused v s := by
      rcases failed with rfl | ⟨rfl,c,found,stage⟩
      · exact clean
      · exact clean ⟨_,turn,_,waits,c,found,stage⟩
    refine inv_invocation inv (inv.ready turn) ?_ ?_
    · intro y d at_y active
      exact unused.2 y (inv.known y d at_y) d at_y (inv.active y d at_y active).2.1 active
    · intro e mem current
      exact absurd current (unused.1 e mem)
  | commit turn => exact inv_commit inv turn clean

/-- In every run that gives requests up only while their viewstamp is unused, all
executions under a viewstamp are of one request. -/
theorem one_request_per_viewstamp {v : View} {s : System} (reached : Reach Init (Clean v) (next v) s) : OneRequest s :=
  (Reach.invariant (fun _ initial => inv_init initial) inv_step s reached).one

/-- The backup `c` is still in the view change, so the first request is given up
before anybody executes it; the second one goes through. -/
def lateRecovery : List Label :=
  [.recover "p",.clientInvoke "p" 1 "x",.self,.call,.begin 0,.answer,.recover "b",.recover "c",
   .clientInvoke "p" 1 "y",.self,.call,.begin 1,.execute 1,.finish 1,.answer,
   .call,.begin 2,.execute 2,.finish 2,.answer,.commit]

theorem one_request_per_viewstamp_late : ∃ s, run (next three) entering lateRecovery = some s ∧
    s.log = [⟨"p",⟨2,1⟩,⟨1,1,"y"⟩⟩,⟨"c",⟨2,1⟩,⟨1,1,"y"⟩⟩,⟨"b",⟨2,1⟩,⟨1,1,"y"⟩⟩] ∧ OneRequest s := by
  have clean : Meets (next three) (Clean three) entering lateRecovery := by decide
  exact ⟨_,rfl,rfl,one_request_per_viewstamp (Reach.run lateRecovery (.start entering_init) clean rfl)⟩

/-- The call to `b` fails at the primary while `b` is about to execute; the next
request gets the same viewstamp, and `b` takes it too. -/
def reusedViewstamp : List Label :=
  [.recover "p",.recover "b",.recover "c",.clientInvoke "p" 1 "x",.self,.call,.begin 0,.timeout,
   .clientInvoke "p" 1 "y",.self,.call,.begin 1,.execute 0,.execute 1]

theorem aborted_request_reuses_viewstamp : ∃ s, Reach Init anyStep (next three) s ∧
    s.log = [⟨"b",⟨2,1⟩,⟨1,1,"y"⟩⟩,⟨"b",⟨2,1⟩,⟨0,1,"x"⟩⟩] ∧ ¬ OneRequest s := by
  refine ⟨_,Reach.run reusedViewstamp (.start entering_init) (meets_anyStep _ _) rfl,rfl,?_⟩
  intro one
  exact absurd (one.1 ⟨"b",⟨2,1⟩,⟨1,1,"y"⟩⟩ (by decide) ⟨"b",⟨2,1⟩,⟨0,1,"x"⟩⟩ (by decide) rfl) (by decide)

end CodeExercise.RsmViewstamps
