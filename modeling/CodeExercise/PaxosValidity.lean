import CodeExercise.PaxosVerify

/-! Where committed values come from. -/
namespace CodeExercise.PaxosValidity
open Runs Paxos PaxosAgreement PaxosVerify Option Function

/-- The label calls `run` for the instance with the value. -/
def proposes (i : Nat) (v : String) : Label → Bool
  | .run _ inst newv => decide (inst%2^32 = i ∧ newv = v)
  | _ => false

/-- The value was proposed in the instance. -/
def Proposed (h : List Label) (i : Nat) (v : String) : Prop := ∃ label ∈ h, proposes i v label = true
deriving Decidable

/-- In the step an acceptor commits the value in the instance. -/
def Commits (s t : System) (a : String) (i : Nat) (v : String) : Prop :=
  (s.acceptors a).instanceH < i ∧ (t.acceptors a).instanceH = i ∧ (t.acceptors a).values i = some v

/-- An acceptor accepts a value, or reports the one it accepted, only in the
instance it decides next, and is asked for old values that it has. -/
def Current (s : System) : Label → Prop
  | .deliver ⟨_,_,dst,.prepare inst n⟩ =>
    (inst ≤ (s.acceptors dst).instanceH → (s.acceptors dst).values inst ≠ none) ∧
      ((s.acceptors dst).vA ≠ "" → n.gt (s.acceptors dst).nH = true → inst ≤ (s.acceptors dst).instanceH+1)
  | .deliver ⟨_,_,dst,.accept inst n _⟩ =>
    n.ge (s.acceptors dst).nH = true → inst = (s.acceptors dst).instanceH+1
  | _ => True
instance (s : System) : (label : Label) → Decidable (Current s label)
  | .deliver ⟨_,_,_,.prepare _ _⟩ => decideAs (_ ∧ _)
  | .deliver ⟨_,_,_,.accept _ _ _⟩ => decideAs (_ → _)
  | .deliver ⟨_,_,_,.decide _ _⟩ | .run _ _ _ | .skip _ | .send _ | .answer _ _ | .timeout _ | .proceed _ => isTrue trivial

/-- No value, or one that was proposed in the instance. -/
def Sourced (h : List Label) (i : Nat) (v : String) : Prop := v = "" ∨ Proposed h i v

def PhaseValid (h : List Label) (i : Nat) (newv : String) : Phase → Prop
  | .idle => True
  | .preparing _ _ _ v => Proposed h i newv ∧ Sourced h i v
  | .accepting _ _ v => Proposed h i v
  | .deciding _ v => Proposed h i v

def ArgValid (h : List Label) : Arg → Prop
  | .prepare _ _ => True
  | .accept i _ v => Proposed h i v
  | .decide i v => Proposed h i v

def ReplyValid (h0 : Nat) (h : List Label) (reply : Reply) : Prop :=
  match reply.request.arg,reply.res with
  | .prepare i _,.prepared (.accept _ vA) => Sourced h i vA
  | .prepare i _,.prepared (.oldinstance v) => h0 < i → Proposed h i v
  | _,_ => True

structure AcceptorValid (h0 : Nat) (h : List Label) (a : Acceptor) : Prop where
  accepted : Sourced h (a.instanceH+1) a.vA
  later : h0 ≤ a.instanceH
  values : ∀ i v, h0 < i → a.values i = some v → Proposed h i v

structure Valid (h0 : Nat) (s : System) (h : List Label) : Prop where
  acceptors : ∀ a, AcceptorValid h0 h (s.acceptors a)
  proposers : ∀ p, PhaseValid h (s.proposers p).inst (s.proposers p).newv (s.proposers p).phase
  requests : ∀ r ∈ s.requests, ArgValid h r.arg
  replies : ∀ reply ∈ s.replies, ReplyValid h0 h reply

variable {members : List String} {h0 : Nat} {v0 : Nat → Option String} {h : List Label} {s : System}

section Grow

lemma Proposed.cons (proposed : Proposed h i v) : Proposed (label::h) i v := by
  obtain ⟨first,mem,same⟩ := proposed
  exact ⟨first,List.mem_cons_of_mem _ mem,same⟩
lemma Sourced.cons (sourced : Sourced h i v) : Sourced (label::h) i v := sourced.imp id Proposed.cons
lemma PhaseValid.cons (valid : PhaseValid h i newv phase) :
    PhaseValid (label::h) i newv phase := by
  cases phase with
  | idle => trivial
  | preparing todo accepts currnA v => exact ⟨valid.1.cons,valid.2.cons⟩
  | accepting todo accepts v => exact Proposed.cons valid
  | deciding todo v => exact Proposed.cons valid
lemma ArgValid.cons (valid : ArgValid h arg) : ArgValid (label::h) arg := by
  cases arg with
  | prepare i n => trivial
  | accept i n v => exact Proposed.cons valid
  | decide i v => exact Proposed.cons valid
lemma ReplyValid.cons (valid : ReplyValid h0 h reply) : ReplyValid h0 (label::h) reply := by
  unfold ReplyValid at valid ⊢
  split at valid
  · exact Sourced.cons valid
  · exact fun late => (valid late).cons
  · trivial
lemma AcceptorValid.cons (valid : AcceptorValid h0 h a) : AcceptorValid h0 (label::h) a :=
  ⟨valid.accepted.cons,valid.later,fun i v late found => (valid.values i v late found).cons⟩
lemma Valid.cons (valid : Valid h0 s h) : Valid h0 s (label::h) :=
  ⟨fun a => (valid.acceptors a).cons,fun p => (valid.proposers p).cons,fun r sent => (valid.requests r sent).cons,
    fun reply mem => (valid.replies reply mem).cons⟩

end Grow

lemma valid_init (initial : Init h0 v0 s) : Valid h0 s [] := by
  refine ⟨?_,?_,by simp [initial.requests],by simp [initial.replies]⟩
  · intro a
    rw [initial.acceptors]
    refine ⟨.inl rfl,le_refl _,?_⟩
    intro i v late found
    simp [initial.undecided i late] at found
  · intro p
    rw [initial.proposers]
    trivial

variable {p : String} {a : Acceptor} {i : Nat}

lemma Valid.setProposer (valid : Valid h0 s h)
    (phase : PhaseValid h node.inst node.newv node.phase) : Valid h0 (s.setProposer p node) h := by
  refine { valid with proposers := ?_ }
  intro q
  by_cases same : q = p
  · subst same
    simpa [System.setProposer] using phase
  · simpa [System.setProposer,update_of_ne same] using valid.proposers q

lemma Valid.setAcceptor (valid : Valid h0 s h) (acceptor : AcceptorValid h0 h a) :
    Valid h0 (s.setAcceptor name a) h := by
  refine { valid with acceptors := ?_ }
  intro b
  by_cases same : b = name
  · subst same
    simpa [System.setAcceptor] using acceptor
  · simpa [System.setAcceptor,update_of_ne same] using valid.acceptors b

lemma Valid.reply {reply : Reply} (valid : Valid h0 s h) (right : ReplyValid h0 h reply) :
    Valid h0 { s with replies := reply::s.replies } h := by
  refine { valid with replies := ?_ }
  exact List.forall_mem_cons.mpr ⟨right,valid.replies⟩

lemma phaseValid_skip (valid : PhaseValid h i newv phase) :
    PhaseValid h i newv phase.skip := by
  cases phase <;> exact valid

lemma phaseValid_proceed (valid : PhaseValid h i newv phase) :
    PhaseValid h i newv (phase.proceed members newv) := by
  cases phase with
  | preparing todo accepts currnA v =>
    simp only [Phase.proceed]
    split
    · by_cases size : v.length = 0
      · simpa only [PhaseValid,size,if_true] using valid.1
      · simp only [PhaseValid,size,if_false]
        refine valid.2.resolve_left ?_
        rintro rfl
        simp at size
    · trivial
  | accepting todo accepts v =>
    simp only [Phase.proceed]
    split
    · exact valid
    · trivial
  | _ => trivial

lemma phaseValid_answer {node : Proposer} {reply : Reply}
    (valid : PhaseValid h node.inst node.newv node.phase) (right : ReplyValid h0 h reply)
    (call : node.call p = some reply.request) :
    PhaseValid h node.inst node.newv (node.phase.answer reply.res) := by
  obtain ⟨r,res⟩ := reply
  unfold Proposer.call at call
  unfold Phase.answer
  split
  · trivial
  · next at_phase answered =>
    simp only [at_phase,some.injEq] at call valid
    simp only at answered
    subst answered
    subst call
    split
    · exact ⟨valid.1,right⟩
    · exact valid
  · next at_phase _ =>
    rwa [at_phase] at valid
  · exact phaseValid_skip valid

lemma argValid_call {node : Proposer}
    (valid : PhaseValid h node.inst node.newv node.phase) (call : node.call p = some r) : ArgValid h r.arg := by
  unfold Proposer.call at call
  split at call
  · rw [← some.inj call]
    trivial
  · next at_phase =>
    rw [← some.inj call]
    rwa [at_phase] at valid
  · next at_phase =>
    rw [← some.inj call]
    rwa [at_phase] at valid
  · simp at call

lemma acceptorValid_commit (valid : AcceptorValid h0 h a)
    (proposed : a.instanceH < i → Proposed h i v) : AcceptorValid h0 h (a.commit i v) := by
  unfold Acceptor.commit
  split
  · next above =>
    refine ⟨.inl rfl,(valid.later.trans above.le),?_⟩
    intro j w late found
    by_cases same : j = i
    · subst same
      simp only [update_self,some.injEq] at found
      exact found ▸ proposed above
    · simp only [update_of_ne same] at found
      exact valid.values j w late found
  · exact valid

lemma valid_deliver (valid : Valid h0 s h) (current : Current s (.deliver r))
    (sent : r ∈ s.requests) (handled : (s.acceptors r.dst).handle r.arg = some (res,a)) :
    Valid h0 { s.setAcceptor r.dst a with replies := ⟨r,res⟩::s.replies } h := by
  have acceptor := valid.acceptors r.dst
  have request := valid.requests r sent
  obtain ⟨src,xid,dst,arg⟩ := r
  suffices both : AcceptorValid h0 h a ∧ ReplyValid h0 h ⟨⟨src,xid,dst,arg⟩,res⟩ from
    (valid.setAcceptor both.1).reply both.2
  cases arg with
  | prepare i n =>
    simp only [Acceptor.handle,some.injEq,Prod.mk.injEq] at handled
    obtain ⟨rfl,rfl⟩ := handled
    unfold Acceptor.preparereq
    split_ifs with old higher
    · obtain ⟨v,found⟩ := ne_none_iff_exists'.mp (current.1 old)
      simp only [found,getD_some]
      rw [← found,update_eq_self]
      exact ⟨acceptor,fun late => acceptor.values i v late found⟩
    · refine ⟨⟨acceptor.accepted,acceptor.later,acceptor.values⟩,?_⟩
      rcases acceptor.accepted with none | proposed
      · exact .inl none
      · by_cases none : (s.acceptors dst).vA = ""
        · exact .inl none
        · have here : i = (s.acceptors dst).instanceH+1 := by
            have near := current.2 none higher
            omega
          exact .inr (here ▸ proposed)
    · exact ⟨acceptor,trivial⟩
  | accept i n v =>
    cases handled
    unfold Acceptor.acceptreq
    split_ifs with high
    · have here := current high
      exact ⟨⟨.inr (here ▸ request),acceptor.later,acceptor.values⟩,trivial⟩
    · exact ⟨acceptor,trivial⟩
  | decide i v =>
    simp only [Acceptor.handle,map_eq_some_iff,Prod.mk.injEq] at handled
    obtain ⟨b,decided,rfl,rfl⟩ := handled
    unfold Acceptor.decidereq at decided
    split_ifs at decided with _ same
    · rw [← some.inj decided]
      exact ⟨acceptorValid_commit acceptor (fun _ => same ▸ request),trivial⟩
    · rw [← some.inj decided]
      exact ⟨acceptor,trivial⟩

lemma acceptorValid_learn (valid : Valid h0 s h) (received : reply ∈ s.replies)
    (call : (s.proposers p).call p = some reply.request) :
    AcceptorValid h0 h ((s.proposers p).learn (s.acceptors p) reply.res) := by
  have acceptor := valid.acceptors p
  have right := valid.replies reply received
  obtain ⟨r,res⟩ := reply
  unfold Proposer.learn
  split
  · next v at_phase answered =>
    simp only at answered
    subst answered
    have named : r.arg = .prepare (s.proposers p).inst (s.proposers p).myN := by
      simp only [Proposer.call,at_phase] at call
      split at call
      all_goals simp_all
      rw [← call]
    simp only [ReplyValid,named] at right
    exact acceptorValid_commit acceptor fun above => right (acceptor.later.trans_lt above)
  · exact acceptor

lemma valid_step (valid : Valid h0 s h) (current : Current s label)
    (step : Step members s label t) : Valid h0 t (label::h) := by
  cases step with
  | @run p newv inst _ =>
    refine valid.cons.setProposer ⟨⟨_,List.mem_cons_self,?_⟩,.inl rfl⟩
    simp [proposes]
  | skip | timeout => exact valid.cons.setProposer (phaseValid_skip (valid.cons.proposers _))
  | @send p r call =>
    have waits : Valid h0 (s.setProposer p { s.proposers p with waiting := true }) h :=
      valid.setProposer (valid.proposers p)
    refine Valid.cons { waits with requests := ?_ }
    exact List.forall_mem_cons.mpr ⟨argValid_call (valid.proposers p) call,valid.requests⟩
  | deliver sent handled => exact (valid_deliver valid current sent handled).cons
  | @answer p reply received call =>
    refine ((valid.setAcceptor (acceptorValid_learn valid received call)).setProposer ?_).cons
    exact phaseValid_answer (valid.proposers p) (valid.replies reply received) call
  | proceed => exact valid.cons.setProposer (phaseValid_proceed (valid.cons.proposers _))

lemma valid_reach : ∀ s : System × List Label,
    Reach (untraced (Init h0 v0)) (fun s => Current s.1) (traced (next members)) s → Valid h0 s.1 s.2 := by
  apply Reach.invariant
  · rintro ⟨s,h⟩ ⟨initial,rfl⟩
    exact valid_init initial
  · intro s label t valid current moved
    obtain ⟨moved,trace⟩ := traced_eq_some.mp moved
    exact trace ▸ valid_step valid current (next_step moved)

/-- Every value that is committed was proposed in its instance. -/
theorem committed_proposed {s t : System × List Label} {label : Label} {a v : String} {i : Nat}
    (reached : Reach (untraced (Init h0 v0)) (fun s => Current s.1) (traced (next members)) s)
    (current : Current s.1 label) (moved : traced (next members) s label = some t) (commits : Commits s.1 t.1 a i v) :
    Proposed t.2 i v := by
  have before := valid_reach s reached
  have after := valid_reach t (.step reached current moved)
  obtain ⟨above,_,found⟩ := commits
  exact (after.acceptors a).values i v ((before.acceptors a).later.trans_lt above) found

theorem committed_proposed_one : ∃ s t, run (traced (next ["a","b","c"])) (fresh,[]) oneDecide = some s ∧
    traced (next ["a","b","c"]) s (.deliver ⟨"a",4,"a",.decide 1 "x"⟩) = some t ∧ Commits s.1 t.1 "a" 1 "x" ∧
    Proposed t.2 1 "x" := by
  have current : Meets (traced (next ["a","b","c"])) (fun s => Current s.1) (fresh,[]) oneDecide := by decide
  obtain ⟨s,ran⟩ : ∃ s, run (traced (next ["a","b","c"])) (fresh,[]) oneDecide = some s := ⟨_,rfl⟩
  obtain ⟨t,moved⟩ : ∃ t, traced (next ["a","b","c"]) s (.deliver ⟨"a",4,"a",.decide 1 "x"⟩) = some t := by
    cases ran
    exact ⟨_,rfl⟩
  have commits : Commits s.1 t.1 "a" 1 "x" := by
    cases ran
    cases moved
    exact ⟨by decide,by decide,by decide⟩
  have decided : Current s.1 (.deliver ⟨"a",4,"a",.decide 1 "x"⟩) := trivial
  refine ⟨s,t,ran,moved,commits,?_⟩
  exact committed_proposed (Reach.run oneDecide (.start ⟨fresh_init,rfl⟩) current ran) decided moved commits

/-- The acceptor `b` reports the value of the first instance in the second, for
which only `y` was proposed, and `a` commits it there. -/
theorem lost_decide_leaks : ∃ s t, Reach (untraced (Init 0 (fun _ => none))) anyStep (traced (next ["a","b","c"])) s ∧
    traced (next ["a","b","c"]) s (.deliver ⟨"a",10,"a",.decide 2 "x"⟩) = some t ∧ Commits s.1 t.1 "a" 2 "x" ∧
    ¬ Proposed t.2 2 "x" ∧ Proposed t.2 2 "y" := by
  obtain ⟨s,ran⟩ : ∃ s, run (traced (next ["a","b","c"])) (fresh,[]) lostDecide = some s := ⟨_,rfl⟩
  obtain ⟨t,moved⟩ : ∃ t, traced (next ["a","b","c"]) s (.deliver ⟨"a",10,"a",.decide 2 "x"⟩) = some t := by
    cases ran
    exact ⟨_,rfl⟩
  have commits : Commits s.1 t.1 "a" 2 "x" ∧ ¬ Proposed t.2 2 "x" ∧ Proposed t.2 2 "y" := by
    cases ran
    cases moved
    exact ⟨⟨by decide,by decide,by decide⟩,by decide,by decide⟩
  exact ⟨s,t,Reach.run lostDecide (.start ⟨fresh_init,rfl⟩) (meets_anyStep _ _) ran,moved,commits⟩

end CodeExercise.PaxosValidity
