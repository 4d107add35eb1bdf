import CodeExercise.PaxosAgreement

/-!
One instance of `paxos.cc` before any acceptor commits it, with no other instance under way. A value
that a majority acknowledges is the only one (`acknowledged_value_unique`), as long as proposed values
are not empty and no proposer has used its last number: `run` takes an empty value for none and `setn`
wraps to 0, a number that acceptors without a value report too (`acknowledged_values_differ`).
-/
namespace CodeExercise.PaxosChosen
open Runs Paxos PaxosAgreement Voting Option Function

/-- Every acceptor decides the instance next. -/
def Undecided (i : Nat) (s : System) : Prop := ∀ a, (s.acceptors a).instanceH+1 = i

/-- All acceptors decide the instance next and hold no value, and no proposer is
running. The numbers promised and used before are any. -/
structure Opens (i : Nat) (s : System) : Prop where
  range : i < 2^32
  undecided : Undecided i s
  unvoted : ∀ a, (s.acceptors a).vA = "" ∧ (s.acceptors a).nA.n = 0 ∧ (s.acceptors a).nA ≤ (s.acceptors a).nH
  proposers : ∀ p, (s.proposers p).phase = .idle ∧ (s.proposers p).myN.m = p
  requests : s.requests = []
  replies : s.replies = []

/-- Proposers run the one instance. -/
def Contest (i : Nat) (_ : System) : Label → Prop
  | .run _ inst _ => inst%2^32 = i
  | _ => True
instance (i : Nat) (s : System) : (label : Label) → Decidable (Contest i s label)
  | .run _ _ _ => decideAs (_ = _)
  | .skip _ | .send _ | .deliver _ | .answer _ _ | .timeout _ | .proceed _ => isTrue trivial

/-- Proposers run the one instance, with a value that is not empty, and have not
used their last number. -/
def FairContest (i : Nat) (s : System) : Label → Prop
  | .run p inst newv => inst%2^32 = i ∧ newv ≠ "" ∧ (s.proposers p).myN.n+1 < 2^32
  | _ => True
instance (i : Nat) (s : System) : (label : Label) → Decidable (FairContest i s label)
  | .run _ _ _ => decideAs (_ ∧ _)
  | .skip _ | .send _ | .deliver _ | .answer _ _ | .timeout _ | .proceed _ => isTrue trivial

/-- Acceptors that `majority` counts as a majority of the members answered yes to
an accept request of the instance. -/
def Acknowledged (members : List String) (s : System) (i : Nat) (n : PropT) (v : String) : Prop :=
  ∃ l, majority members l = true ∧ ∀ a ∈ l, voted s.replies i a n v

def forget (a : Acceptor) : Acceptor := { a with values := fun _ => none }
def forgetAll (s : System) : System := { s with acceptors := fun a => forget (s.acceptors a) }

lemma forgetAll_setAcceptor (s : System) (name : String) (a : Acceptor) :
    forgetAll (s.setAcceptor name a) = (forgetAll s).setAcceptor name (forget a) := by
  have acceptors : (fun b => forget (update s.acceptors name a b)) =
      update (fun b => forget (s.acceptors b)) name (forget a) := by
    funext b
    by_cases same : b = name
    · subst same
      simp
    · simp [update_of_ne same]
  simp only [forgetAll,System.setAcceptor,acceptors]

variable {a : Acceptor} {s t : System} {label : Label}

/-- At the instance that is decided next an acceptor does not read the values. -/
lemma handle_forget (range : i < 2^32) (before : a.instanceH+1 = i)
    (after : b.instanceH+1 = i) (named : arg.inst = i) (handled : a.handle arg = some (res,b)) :
    (forget a).handle arg = some (res,forget b) := by
  cases arg with
  | prepare inst n =>
    have fresh : ¬ inst ≤ a.instanceH := by
      simp only [Arg.inst] at named
      omega
    have same : (forget a).preparereq inst n = ((a.preparereq inst n).1,forget (a.preparereq inst n).2) := by
      unfold Acceptor.preparereq
      rw [if_neg fresh,if_neg (show ¬ inst ≤ (forget a).instanceH from fresh)]
      by_cases higher : n.gt a.nH = true
      · rw [if_pos higher,if_pos (show n.gt (forget a).nH = true from higher)]
        rfl
      · rw [if_neg higher,if_neg (show ¬ n.gt (forget a).nH = true from higher)]
    simp only [Acceptor.handle,some.injEq,Prod.mk.injEq] at handled ⊢
    rw [same,← handled.1,← handled.2]
    exact ⟨rfl,rfl⟩
  | accept inst n v =>
    have same : (forget a).acceptreq inst n v = ((a.acceptreq inst n v).1,forget (a.acceptreq inst n v).2) := by
      unfold Acceptor.acceptreq
      by_cases high : n.ge a.nH = true
      · rw [if_pos high,if_pos (show n.ge (forget a).nH = true from high)]
        rfl
      · rw [if_neg high,if_neg (show ¬ n.ge (forget a).nH = true from high)]
    simp only [Acceptor.handle,some.injEq,Prod.mk.injEq] at handled ⊢
    rw [same,← handled.1,← handled.2]
    exact ⟨rfl,rfl⟩
  | decide inst v =>
    -- A decide request would commit the instance.
    simp only [Acceptor.handle,map_eq_some_iff,Prod.mk.injEq] at handled
    obtain ⟨c,decided,_,rfl⟩ := handled
    simp only [Arg.inst] at named
    have here : inst = (a.instanceH+1)%2^32 := by
      rw [before,Nat.mod_eq_of_lt range,named]
    have above : inst > a.instanceH := by omega
    simp only [Acceptor.decidereq,if_pos here] at decided
    split_ifs at decided
    rw [← some.inj decided,Acceptor.commit,if_pos above] at after
    simp only at after
    omega

lemma learn_eq {node : Proposer} (before : a.instanceH+1 = i)
    (after : (node.learn a res).instanceH+1 = i) (named : node.phase ≠ .idle → node.inst = i) : node.learn a res = a := by
  unfold Proposer.learn at after ⊢
  split at after
  · next at_phase =>
    have here : node.inst = i := named (by simp [at_phase])
    have above : node.inst > a.instanceH := by omega
    simp only [Acceptor.commit,if_pos above] at after
    omega
  · rfl

/-- Everything under way is about the one instance. -/
structure Focused (i : Nat) (s : System) : Prop where
  proposers : ∀ p, (s.proposers p).phase ≠ .idle → (s.proposers p).inst = i
  requests : ∀ r ∈ s.requests, r.arg.inst = i

lemma Focused.setProposer (focused : Focused i s)
    (named : node.phase ≠ .idle → node.inst = i) : Focused i (s.setProposer p node) := by
  refine ⟨?_,focused.requests⟩
  intro q busy
  by_cases same : q = p
  · subst same
    simp only [System.setProposer,update_self] at busy ⊢
    exact named busy
  · simp only [System.setProposer,update_of_ne same] at busy ⊢
    exact focused.proposers q busy

lemma call_focused (call : (s.proposers p).call p = some r) :
    (s.proposers p).phase ≠ .idle ∧ r.arg.inst = (s.proposers p).inst := by
  unfold Proposer.call at call
  split at call
  · next at_phase => exact ⟨by simp [at_phase],by rw [← some.inj call]; rfl⟩
  · next at_phase => exact ⟨by simp [at_phase],by rw [← some.inj call]; rfl⟩
  · next at_phase => exact ⟨by simp [at_phase],by rw [← some.inj call]; rfl⟩
  · simp at call

lemma skip_busy {phase : Phase} (busy : phase.skip ≠ .idle) : phase ≠ .idle := by
  rintro rfl
  exact busy rfl
lemma proceed_busy {phase : Phase}
    (busy : phase.proceed members newv ≠ .idle) : phase ≠ .idle := by
  rintro rfl
  exact busy rfl

lemma focused_step (focused : Focused i s)
    (fair : FairContest i s label) (step : Step members s label t) : Focused i t := by
  cases step with
  | run _ => exact focused.setProposer (fun _ => fair.1)
  | skip | timeout => exact focused.setProposer (fun busy => focused.proposers _ (skip_busy busy))
  | @send p _ call =>
    obtain ⟨busy,named⟩ := call_focused call
    have here := focused.proposers p busy
    have waits : Focused i (s.setProposer p { s.proposers p with waiting := true }) := focused.setProposer (fun _ => here)
    refine ⟨waits.proposers,?_⟩
    exact List.forall_mem_cons.mpr ⟨named.trans here,focused.requests⟩
  | deliver _ _ => exact ⟨focused.proposers,focused.requests⟩
  | answer _ call =>
    have here := focused.proposers _ (call_focused call).1
    exact Focused.setProposer ⟨focused.proposers,focused.requests⟩ fun _ => here
  | proceed => exact focused.setProposer (fun busy => focused.proposers _ (proceed_busy busy))

/-- The invariant of agreement, for the votes of the one instance. -/
structure Contested (members : List String) (i : Nat) (s : System) : Prop where
  range : i < 2^32
  focused : Focused i s
  inv : Inv members (i-1) (fun _ => none) (forgetAll s)

variable {members : List String} {i : Nat}

lemma contested_init (opens : Opens i s) : Contested members i s := by
  refine ⟨opens.range,⟨fun p busy => absurd (opens.proposers p).1 busy,by simp [opens.requests]⟩,
    ?_,?_,?_,by simp [forgetAll,opens.requests],by simp [forgetAll,opens.replies],by simp [forgetAll,opens.requests]⟩
  · intro a
    obtain ⟨empty,zero,order⟩ := opens.unvoted a
    simp only [forgetAll,opens.replies]
    exact ⟨by simp [voted],by simp [promised],order,.inl ⟨zero,empty⟩⟩
  · intro a
    have here := opens.undecided a
    simp only [forgetAll,opens.replies]
    refine ⟨?_,by simp [forget],by simp [forget],?_⟩
    · simp only [forget]
      omega
    · intro j late upTo
      simp only [forget] at upTo
      omega
  · intro p
    obtain ⟨idle,named⟩ := opens.proposers p
    refine ⟨named,fun busy => absurd idle busy,?_⟩
    simp only [forgetAll,idle]
    trivial

lemma careful_deliver (undecided : Undecided i s) (focused : Focused i s)
    (sent : r ∈ s.requests) : Careful (forgetAll s) (.deliver r) := by
  have named := focused.requests _ sent
  obtain ⟨src,xid,dst,arg⟩ := r
  have here := undecided dst
  cases arg with
  | prepare inst n | accept inst n v =>
    simp only [Careful,forgetAll,forget,Arg.inst] at named ⊢
    omega
  | decide inst v => trivial

lemma contested_step (contested : Contested members i s) (before : Undecided i s)
    (after : Undecided i t) (fair : FairContest i s label) (step : Step members s label t) :
    Contested members i t := by
  refine ⟨contested.range,focused_step contested.focused fair step,?_⟩
  have inv := contested.inv
  cases step with
  | run _ => exact inv_run inv fair.2.1 (lt_setn fair.2.2)
  | skip => exact inv_skip inv
  | send call => exact inv_send inv call
  | @deliver r res a sent handled =>
    have later := after r.dst
    simp only [System.setAcceptor,update_self] at later
    have careful := careful_deliver before contested.focused sent
    have executed := inv_deliver inv careful sent
      (handle_forget contested.range (before r.dst) later (contested.focused.requests r sent) handled)
    rwa [← forgetAll_setAcceptor] at executed
  | @answer p reply received call =>
    have later := after p
    simp only [System.setProposer,System.setAcceptor,update_self] at later
    rw [learn_eq (before p) later (contested.focused.proposers p),System.setAcceptor,update_eq_self]
    exact inv_answered inv received call
  | timeout => exact inv_skip inv
  | proceed => exact inv_proceed inv

lemma contested_reach : ∀ s, Reach (Opens i) (FairContest i) (next members) s →
    (∀ a, i ≤ (s.acceptors a).instanceH+1) ∧ (Undecided i s → Contested members i s) := by
  apply Reach.invariant
  · intro s opens
    exact ⟨fun a => (opens.undecided a).ge,fun _ => contested_init opens⟩
  · intro s label t ih fair moved
    have step := next_step moved
    refine ⟨fun a => (ih.1 a).trans (Nat.succ_le_succ (step.instanceH_le a)),?_⟩
    intro after
    -- Instances only grow, so what is undecided now was undecided before.
    have before : Undecided i s := by
      intro a
      have lower := ih.1 a
      have upper := step.instanceH_le a
      have here := after a
      omega
    exact contested_step (ih.2 before) before after fair step

/-- Before an instance is committed, majorities acknowledge one value only. -/
theorem acknowledged_value_unique {s : System} {n n' : PropT} {v v' : String}
    (reached : Reach (Opens i) (FairContest i) (next members) s) (undecided : Undecided i s)
    (left : Acknowledged members s i n v) (right : Acknowledged members s i n' v') : v = v' := by
  have contested := (contested_reach s reached).2 undecided
  have safe := safe_of_inv contested.inv i
  have chosen : ∀ {n v}, Acknowledged members s i n v → Chosen (quorum members) (voted s.replies i) n v := by
    rintro n v ⟨l,isMajority,cast⟩
    exact ⟨_,⟨l,isMajority,rfl⟩,cast⟩
  exact safe.chosen_unique (quorum_meets members) (chosen left) (chosen right)

/-- No decide request is executed and no old value is learned. -/
def Quiet (_ : System) : Label → Prop
  | .deliver ⟨_,_,_,.decide _ _⟩ => False
  | .answer _ ⟨_,.prepared (.oldinstance _)⟩ => False
  | _ => True
instance (s : System) : (label : Label) → Decidable (Quiet s label)
  | .deliver ⟨_,_,_,.decide _ _⟩ | .answer _ ⟨_,.prepared (.oldinstance _)⟩ => isFalse id
  | .deliver ⟨_,_,_,.prepare _ _⟩ | .deliver ⟨_,_,_,.accept _ _ _⟩ | .answer _ ⟨_,.prepared (.accept _ _)⟩
  | .answer _ ⟨_,.prepared .reject⟩ | .answer _ ⟨_,.accepted _⟩ | .answer _ ⟨_,.decided⟩
  | .run _ _ _ | .skip _ | .send _ | .timeout _ | .proceed _ => isTrue trivial

lemma System.setAcceptor_undecided (undecided : Undecided i s)
    (here : a.instanceH+1 = i) : Undecided i (s.setAcceptor name a) := by
  intro b
  by_cases same : b = name
  · subst same
    simpa [System.setAcceptor] using here
  · simpa [System.setAcceptor,update_of_ne same] using undecided b

lemma undecided_step (undecided : Undecided i s) (quiet : Quiet s label)
    (step : Step members s label t) : Undecided i t := by
  cases step with
  | @deliver r res a _ handled =>
    refine System.setAcceptor_undecided undecided ?_
    obtain ⟨src,xid,dst,arg⟩ := r
    have here := undecided dst
    cases arg with
    | prepare inst n =>
      simp only [Acceptor.handle,some.injEq,Prod.mk.injEq] at handled
      rw [← handled.2]
      unfold Acceptor.preparereq
      split_ifs <;> exact here
    | accept inst n v =>
      simp only [Acceptor.handle,some.injEq,Prod.mk.injEq] at handled
      rw [← handled.2]
      unfold Acceptor.acceptreq
      split_ifs <;> exact here
    | decide inst v => exact quiet.elim
  | @answer p reply _ _ =>
    refine System.setAcceptor_undecided undecided ?_
    obtain ⟨r,res⟩ := reply
    unfold Proposer.learn
    split
    · next answered =>
      simp only at answered
      subst answered
      exact quiet.elim
    · exact undecided p
  | _ => exact undecided

lemma undecided_reach : ∀ s, Reach (Undecided i) Quiet (next members) s → Undecided i s := by
  apply Reach.invariant
  · intro s start
    exact start
  · intro s label t before quiet moved
    exact undecided_step before quiet (next_step moved)

lemma acknowledged_pair {a b : Request}
    (isMajority : majority members [a.dst,b.dst] = true)
    (left : ⟨a,.accepted true⟩ ∈ s.replies ∧ a.arg = .accept i n v)
    (right : ⟨b,.accepted true⟩ ∈ s.replies ∧ b.arg = .accept i n v) : Acknowledged members s i n v := by
  refine ⟨_,isMajority,?_⟩
  intro c mem
  simp only [List.mem_cons,List.not_mem_nil,or_false] at mem
  rcases mem with rfl | rfl
  · exact ⟨a,left.1,rfl,left.2⟩
  · exact ⟨b,right.1,rfl,right.2⟩

lemma fresh_opens : Opens 1 fresh :=
  ⟨by decide,fun _ => rfl,fun _ => ⟨rfl,rfl,le_refl _⟩,fun _ => ⟨rfl,rfl⟩,rfl,rfl⟩

/-- The node `b` finds the value of `a` at one acceptor and repeats it. -/
def twoProposers : List Label :=
  [.run "a" 1 "x"] ++ exchange "a" 0 "a" (.prepare 1 ⟨1,"a"⟩) (.prepared (.accept ⟨0,"a"⟩ "")) ++
  exchange "a" 1 "b" (.prepare 1 ⟨1,"a"⟩) (.prepared (.accept ⟨0,"b"⟩ "")) ++ [.skip "a",.proceed "a"] ++
  exchange "a" 2 "a" (.accept 1 ⟨1,"a"⟩ "x") (.accepted true) ++
  exchange "a" 3 "b" (.accept 1 ⟨1,"a"⟩ "x") (.accepted true) ++
  [.run "b" 1 "y"] ++ exchange "b" 0 "a" (.prepare 1 ⟨2,"b"⟩) (.prepared (.accept ⟨1,"a"⟩ "x")) ++ [.skip "b"] ++
  exchange "b" 1 "c" (.prepare 1 ⟨2,"b"⟩) (.prepared (.accept ⟨0,"c"⟩ "")) ++ [.proceed "b"] ++
  exchange "b" 2 "a" (.accept 1 ⟨2,"b"⟩ "x") (.accepted true) ++
  exchange "b" 3 "c" (.accept 1 ⟨2,"b"⟩ "x") (.accepted true)

theorem acknowledged_value_unique_two : ∃ s v w, run (next ["a","b","c"]) fresh twoProposers = some s ∧
    Acknowledged ["a","b","c"] s 1 ⟨1,"a"⟩ v ∧ Acknowledged ["a","b","c"] s 1 ⟨2,"b"⟩ w ∧ v = w := by
  have fair : Meets (next ["a","b","c"]) (FairContest 1) fresh twoProposers := by decide
  have quiet : Meets (next ["a","b","c"]) Quiet fresh twoProposers := by decide
  obtain ⟨s,ran⟩ : ∃ s, run (next ["a","b","c"]) fresh twoProposers = some s := ⟨_,rfl⟩
  have undecided : Undecided 1 s := undecided_reach s (Reach.run twoProposers (.start fresh_opens.undecided) quiet ran)
  have first : Acknowledged ["a","b","c"] s 1 ⟨1,"a"⟩ "x" := by
    refine acknowledged_pair (a := ⟨"a",2,"a",.accept 1 ⟨1,"a"⟩ "x"⟩) (b := ⟨"a",3,"b",.accept 1 ⟨1,"a"⟩ "x"⟩)
      (by decide) ?_ ?_
    · exact (some.inj ran) ▸ (by decide)
    · exact (some.inj ran) ▸ (by decide)
  have second : Acknowledged ["a","b","c"] s 1 ⟨2,"b"⟩ "x" := by
    refine acknowledged_pair (a := ⟨"b",2,"a",.accept 1 ⟨2,"b"⟩ "x"⟩) (b := ⟨"b",3,"c",.accept 1 ⟨2,"b"⟩ "x"⟩)
      (by decide) ?_ ?_
    · exact (some.inj ran) ▸ (by decide)
    · exact (some.inj ran) ▸ (by decide)
  refine ⟨s,"x","x",ran,first,second,?_⟩
  exact acknowledged_value_unique (Reach.run twoProposers (.start fresh_opens) fair ran) undecided first second

/-- An empty value counts as none, so `b` may propose its own. -/
def emptyValue : List Label :=
  [.run "a" 1 ""] ++ exchange "a" 0 "a" (.prepare 1 ⟨1,"a"⟩) (.prepared (.accept ⟨0,"a"⟩ "")) ++
  exchange "a" 1 "b" (.prepare 1 ⟨1,"a"⟩) (.prepared (.accept ⟨0,"b"⟩ "")) ++ [.skip "a",.proceed "a"] ++
  exchange "a" 2 "a" (.accept 1 ⟨1,"a"⟩ "") (.accepted true) ++
  exchange "a" 3 "b" (.accept 1 ⟨1,"a"⟩ "") (.accepted true) ++
  [.run "b" 1 "y"] ++ exchange "b" 0 "a" (.prepare 1 ⟨2,"b"⟩) (.prepared (.accept ⟨1,"a"⟩ "")) ++
  exchange "b" 1 "b" (.prepare 1 ⟨2,"b"⟩) (.prepared (.accept ⟨1,"a"⟩ "")) ++ [.skip "b",.proceed "b"] ++
  exchange "b" 2 "a" (.accept 1 ⟨2,"b"⟩ "y") (.accepted true) ++
  exchange "b" 3 "b" (.accept 1 ⟨2,"b"⟩ "y") (.accepted true)

/-- The node `c` has used and promised the last number. -/
def worn : System :=
  { fresh with
    acceptors := fun a => if a = "c" then { fresh.acceptors a with nH := ⟨2^32-1,"c"⟩ } else fresh.acceptors a
    proposers := fun p => if p = "c" then { fresh.proposers p with myN := ⟨2^32-1,"c"⟩ } else fresh.proposers p }

lemma worn_opens : Opens 1 worn := by
  refine ⟨by decide,?_,?_,?_,rfl,rfl⟩
  · intro a
    by_cases same : a = "c" <;> simp [worn,fresh,same]
  · intro a
    by_cases same : a = "c" <;> simp [worn,fresh,same,PropT.le_def]
  · intro p
    by_cases same : p = "c" <;> simp [worn,fresh,same]

/-- The number of `c` wraps to 0. The node `d` has no value and reports it with
the number 0 and its own name, which is higher. -/
def wrapped : List Label :=
  [.run "c" 1 "x"] ++ exchange "c" 0 "a" (.prepare 1 ⟨0,"c"⟩) (.prepared (.accept ⟨0,"a"⟩ "")) ++
  exchange "c" 1 "b" (.prepare 1 ⟨0,"c"⟩) (.prepared (.accept ⟨0,"b"⟩ "")) ++ [.skip "c",.proceed "c"] ++
  exchange "c" 2 "a" (.accept 1 ⟨0,"c"⟩ "x") (.accepted true) ++
  exchange "c" 3 "b" (.accept 1 ⟨0,"c"⟩ "x") (.accepted true) ++
  [.run "d" 1 "y"] ++ exchange "d" 0 "a" (.prepare 1 ⟨1,"d"⟩) (.prepared (.accept ⟨0,"c"⟩ "x")) ++ [.skip "d"] ++
  exchange "d" 1 "d" (.prepare 1 ⟨1,"d"⟩) (.prepared (.accept ⟨0,"d"⟩ "")) ++ [.proceed "d"] ++
  exchange "d" 2 "a" (.accept 1 ⟨1,"d"⟩ "y") (.accepted true) ++
  exchange "d" 3 "d" (.accept 1 ⟨1,"d"⟩ "y") (.accepted true)

/-- Majorities acknowledge two values, after an empty value and after a number
that wraps. -/
theorem acknowledged_values_differ :
    (∃ s, Reach (Opens 1) (Contest 1) (next ["a","b","c"]) s ∧ Undecided 1 s ∧
      Acknowledged ["a","b","c"] s 1 ⟨1,"a"⟩ "" ∧ Acknowledged ["a","b","c"] s 1 ⟨2,"b"⟩ "y") ∧
    ∃ s, Reach (Opens 1) (Contest 1) (next ["a","b","d"]) s ∧ Undecided 1 s ∧
      Acknowledged ["a","b","d"] s 1 ⟨0,"c"⟩ "x" ∧ Acknowledged ["a","b","d"] s 1 ⟨1,"d"⟩ "y" := by
  constructor
  · have contest : Meets (next ["a","b","c"]) (Contest 1) fresh emptyValue := by decide
    have quiet : Meets (next ["a","b","c"]) Quiet fresh emptyValue := by decide
    refine ⟨_,Reach.run emptyValue (.start fresh_opens) contest rfl,
      undecided_reach _ (Reach.run emptyValue (.start fresh_opens.undecided) quiet rfl),?_,?_⟩
    · exact acknowledged_pair (a := ⟨"a",2,"a",.accept 1 ⟨1,"a"⟩ ""⟩) (b := ⟨"a",3,"b",.accept 1 ⟨1,"a"⟩ ""⟩)
        (by decide) (by decide) (by decide)
    · exact acknowledged_pair (a := ⟨"b",2,"a",.accept 1 ⟨2,"b"⟩ "y"⟩) (b := ⟨"b",3,"b",.accept 1 ⟨2,"b"⟩ "y"⟩)
        (by decide) (by decide) (by decide)
  · have contest : Meets (next ["a","b","d"]) (Contest 1) worn wrapped := by decide +kernel
    have quiet : Meets (next ["a","b","d"]) Quiet worn wrapped := by decide +kernel
    refine ⟨_,Reach.run wrapped (.start worn_opens) contest rfl,
      undecided_reach _ (Reach.run wrapped (.start worn_opens.undecided) quiet rfl),?_,?_⟩
    · exact acknowledged_pair (a := ⟨"c",2,"a",.accept 1 ⟨0,"c"⟩ "x"⟩) (b := ⟨"c",3,"b",.accept 1 ⟨0,"c"⟩ "x"⟩)
        (by decide) (by decide +kernel) (by decide +kernel)
    · exact acknowledged_pair (a := ⟨"d",2,"a",.accept 1 ⟨1,"d"⟩ "y"⟩) (b := ⟨"d",3,"d",.accept 1 ⟨1,"d"⟩ "y"⟩)
        (by decide) (by decide +kernel) (by decide +kernel)

end CodeExercise.PaxosChosen
