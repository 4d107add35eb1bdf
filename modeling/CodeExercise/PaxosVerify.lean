import CodeExercise.PaxosAgreement

/-!
The `VERIFY` calls of `decidereq`. In a careful run an acceptor that gets a decide request has passed
the instance, or it decides it next and holds the value still (`decides_verified`). An acceptor that
misses a decide request keeps answering for later instances, and the next decide request aborts it
(`lost_decide_aborts`).
-/
namespace CodeExercise.PaxosVerify
open Runs Paxos PaxosAgreement Voting Option Function

/-- No `VERIFY` of `decidereq` fails when a decide request under way arrives. -/
def Verified (s : System) : Prop :=
  ∀ r ∈ s.requests, (∀ reply ∈ s.replies, reply.request ≠ r) → ∀ i v, r.arg = .decide i v →
    ((s.acceptors r.dst).decidereq i v).isSome

section
variable (members : List String) (h0 : Nat)

/-- An acceptor that hears of a decision voted for it. -/
def Hears (h : List Reply) (i : Nat) (a v : String) : Prop :=
  ∃ n, Chosen (quorum members) (voted h i) n v ∧ voted h i a n v

structure Announced (s : System) : Prop where
  inst : ∀ p, (s.proposers p).inst < 2^32
  deciding : ∀ p todo v, (s.proposers p).phase = .deciding todo v → ∀ a ∈ todo,
    Hears members s.replies (s.proposers p).inst a v
  small : ∀ r ∈ s.requests, r.arg.inst < 2^32
  decides : ∀ r ∈ s.requests, ∀ i v, r.arg = .decide i v → Hears members s.replies i r.dst v
  range : ∀ a, (s.acceptors a).instanceH < 2^32 ∨ (s.acceptors a).instanceH = h0
  late : ∀ a i n, promised s.replies a i n → h0 < i

end

variable {members : List String} {h0 : Nat} {v0 : Nat → Option String}

variable {i : Nat} {a : Acceptor} {v p : String} {s : System} {r : Request}

lemma Hears.grow {a : String} (hears : Hears members h i a v)
    (more : ∀ reply ∈ h, reply ∈ t) : Hears members t i a v := by
  have votes : ∀ a n v, voted h i a n v → voted t i a n v := by
    rintro a n v ⟨r,mem,rest⟩
    exact ⟨r,more _ mem,rest⟩
  obtain ⟨n,chosen,cast⟩ := hears
  exact ⟨n,chosen.grow votes,votes a n v cast⟩

lemma announced_init (initial : Init h0 v0 s) : Announced members h0 s := by
  refine ⟨?_,?_,by simp [initial.requests],by simp [initial.requests],?_,by simp [initial.replies,promised]⟩
  · intro p
    simp [initial.proposers]
  · intro p todo v at_phase
    simp [initial.proposers] at at_phase
  · intro a
    simp [initial.acceptors]

section
variable (announced : Announced members h0 s)
include announced

lemma Announced.setProposer
    (inst : node.inst < 2^32)
    (deciding : ∀ todo v, node.phase = .deciding todo v → ∀ a ∈ todo, Hears members s.replies node.inst a v) :
    Announced members h0 (s.setProposer p node) := by
  refine { announced with inst := ?_, deciding := ?_ }
  · intro q
    by_cases same : q = p
    · subst same
      simpa [System.setProposer] using inst
    · simpa [System.setProposer,update_of_ne same] using announced.inst q
  · intro q todo v at_phase
    by_cases same : q = p
    · subst same
      simp only [System.setProposer,update_self] at at_phase ⊢
      exact deciding todo v at_phase
    · simp only [System.setProposer,update_of_ne same] at at_phase ⊢
      exact announced.deciding q todo v at_phase

lemma Announced.setAcceptor
    (range : a.instanceH < 2^32 ∨ a.instanceH = h0) : Announced members h0 (s.setAcceptor name a) := by
  refine { announced with range := ?_ }
  intro b
  by_cases same : b = name
  · subst same
    simpa [System.setAcceptor] using range
  · simpa [System.setAcceptor,update_of_ne same] using announced.range b

lemma Announced.reply
    (late : ∀ nA vA i n, res = .prepared (.accept nA vA) → r.arg = .prepare i n → h0 < i) :
    Announced members h0 { s with replies := ⟨r,res⟩::s.replies } := by
  have more : ∀ reply ∈ s.replies, reply ∈ (⟨r,res⟩::s.replies : List Reply) :=
    fun _ mem => List.mem_cons_of_mem _ mem
  refine ⟨announced.inst,?_,announced.small,?_,announced.range,?_⟩
  · intro p todo v at_phase a mem
    exact (announced.deciding p todo v at_phase a mem).grow more
  · intro u sent i v named
    exact (announced.decides u sent i v named).grow more
  · intro a i n made
    rcases promised_cons made with before | ⟨⟨nA,vA,answered⟩,_,named⟩
    · exact announced.late a i n before
    · exact late nA vA i n answered named

end

lemma skip_deciding {phase : Phase} (at_phase : phase.skip = .deciding todo v) :
    ∃ before, phase = .deciding before v ∧ ∀ a ∈ todo, a ∈ before := by
  cases phase with
  | deciding before w =>
    cases at_phase
    exact ⟨before,rfl,fun _ mem => List.mem_of_mem_tail mem⟩
  | _ => simp [Phase.skip] at at_phase
lemma answer_deciding {phase : Phase}
    (at_phase : phase.answer res = .deciding todo v) : phase.skip = .deciding todo v := by
  unfold Phase.answer at at_phase
  split at at_phase
  · simp at at_phase
  · split at at_phase <;> simp at at_phase
  · simp at at_phase
  · exact at_phase

lemma Announced.skip (announced : Announced members h0 s)
    (at_phase : (s.proposers p).phase.skip = .deciding todo v) :
    ∀ a ∈ todo, Hears members s.replies (s.proposers p).inst a v := by
  obtain ⟨before,was,less⟩ := skip_deciding at_phase
  intro a mem
  exact announced.deciding p before v was a (less a mem)

lemma announced_send (announced : Announced members h0 s)
    (call : (s.proposers p).call p = some r) : Announced members h0
      { s.setProposer p { s.proposers p with waiting := true } with requests := r::s.requests } := by
  have waits : Announced members h0 (s.setProposer p { s.proposers p with waiting := true }) :=
    announced.setProposer (announced.inst p) (announced.deciding p)
  have made : r.arg.inst < 2^32 ∧ ∀ i v, r.arg = .decide i v → Hears members s.replies i r.dst v := by
    have inst := announced.inst p
    unfold Proposer.call at call
    split at call
    · rw [← some.inj call]
      exact ⟨inst,by simp⟩
    · rw [← some.inj call]
      exact ⟨inst,by simp⟩
    · next node todo v at_phase =>
      rw [← some.inj call]
      refine ⟨inst,?_⟩
      intro i w named
      cases named
      exact announced.deciding p _ v at_phase node List.mem_cons_self
    · simp at call
  refine { waits with small := ?_, decides := ?_ }
  · exact List.forall_mem_cons.mpr ⟨made.1,announced.small⟩
  · exact List.forall_mem_cons.mpr ⟨made.2,announced.decides⟩

lemma commit_range (range : a.instanceH < 2^32 ∨ a.instanceH = h0)
    (small : i < 2^32) : (a.commit i v).instanceH < 2^32 ∨ (a.commit i v).instanceH = h0 := by
  unfold Acceptor.commit
  split
  · exact .inl small
  · exact range

lemma announced_deliver (inv : Inv members h0 v0 s)
    (announced : Announced members h0 s) (sent : r ∈ s.requests)
    (handled : (s.acceptors r.dst).handle r.arg = some (res,a)) :
    Announced members h0 { s.setAcceptor r.dst a with replies := ⟨r,res⟩::s.replies } := by
  have range := announced.range r.dst
  have small := announced.small r sent
  have later := (inv.values r.dst).later
  cases named : r.arg with
  | prepare i n =>
    simp only [named,Acceptor.handle,Acceptor.preparereq,some.injEq,Prod.mk.injEq] at handled
    obtain ⟨rfl,rfl⟩ := handled
    refine Announced.reply (announced.setAcceptor ?_) ?_
    · split_ifs <;> exact range
    · intro nA vA j m answered same
      simp only [named,Arg.prepare.injEq] at same
      split_ifs at answered with old
      · simp at answered
      · omega
      · simp at answered
  | accept i n v =>
    simp only [named,Acceptor.handle,Acceptor.acceptreq,some.injEq,Prod.mk.injEq] at handled
    obtain ⟨rfl,rfl⟩ := handled
    refine Announced.reply (announced.setAcceptor ?_) (by simp)
    split_ifs <;> exact range
  | decide i v =>
    simp only [named,Acceptor.handle,map_eq_some_iff,Prod.mk.injEq] at handled
    obtain ⟨b,decided,rfl,rfl⟩ := handled
    refine Announced.reply (announced.setAcceptor ?_) (by simp)
    simp only [named,Arg.inst] at small
    unfold Acceptor.decidereq at decided
    split_ifs at decided
    · exact some.inj decided ▸ commit_range range small
    · exact some.inj decided ▸ range

lemma announced_answer {reply : Reply} (announced : Announced members h0 s) :
    Announced members h0 ((s.setAcceptor p ((s.proposers p).learn (s.acceptors p) reply.res)).setProposer p
      { s.proposers p with phase := (s.proposers p).phase.answer reply.res, xid := (s.proposers p).xid+1,
                           waiting := false }) := by
  refine Announced.setProposer (announced.setAcceptor ?_) (announced.inst p) ?_
  · unfold Proposer.learn
    split
    · exact commit_range (announced.range p) (announced.inst p)
    · exact announced.range p
  · intro todo v at_phase
    exact announced.skip (answer_deciding at_phase)

section
variable (inv : Inv members h0 v0 s)
include inv

section
variable (announced : Announced members h0 s)
include announced

lemma announced_proceed :
    Announced members h0 (s.setProposer p
      { s.proposers p with phase := (s.proposers p).phase.proceed members (s.proposers p).newv }) := by
  refine announced.setProposer (announced.inst p) ?_
  intro todo v at_phase
  have ok := (inv.proposers p).phase
  cases was : (s.proposers p).phase with
  | accepting rest accepts w =>
    rw [was] at ok
    simp only [was,Phase.proceed] at at_phase
    split at at_phase
    · next isMajority =>
      simp only [Phase.deciding.injEq] at at_phase
      obtain ⟨rfl,rfl⟩ := at_phase
      intro a mem
      exact ⟨_,⟨_,⟨accepts,isMajority,rfl⟩,ok.2.2⟩,ok.2.2 a mem⟩
    · simp at at_phase
  | preparing rest accepts currnA w =>
    simp only [was,Phase.proceed] at at_phase
    split at at_phase <;> simp at at_phase
  | _ => simp [was,Phase.proceed] at at_phase

lemma announced_step
    (step : Step members s label t) : Announced members h0 t := by
  cases step with
  | run _ => exact announced.setProposer (Nat.mod_lt _ (by decide)) (by simp)
  | skip | timeout => exact announced.setProposer (announced.inst _) (fun _ _ => announced.skip)
  | send call => exact announced_send announced call
  | deliver sent handled => exact announced_deliver inv announced sent handled
  | answer _ _ => exact announced_answer announced
  | proceed => exact announced_proceed inv announced

lemma voted_late {a : String}
    (cast : voted s.replies i a n v) : h0 < i := by
  obtain ⟨r,mem,_,named⟩ := cast
  have ok := inv.requests r (inv.replies _ mem).1
  simp only [RequestOk,named] at ok
  exact announced.late _ i n ok.1

end

lemma vA_eq {a : String}
    (chosen : Chosen (quorum members) (voted s.replies i) n v) (cast : voted s.replies i a n v)
    (here : i = (s.acceptors a).instanceH+1) (upTo : n ≤ (s.acceptors a).nA) : (s.acceptors a).vA = v := by
  have safe := safe_of_inv inv i
  rcases (inv.acceptors a).last with ⟨zero,_⟩ | ⟨last,_⟩
  · have positive := voted_positive inv cast
    rw [PropT.le_def] at upTo
    omega
  · rw [← here] at last
    exact safe.proposed_eq (quorum_meets members) chosen _ _ (safe.cast a _ _ last) upTo

lemma verified_of_inv (announced : Announced members h0 s) : Verified s := by
  intro r sent _ i v named
  obtain ⟨n,chosen,cast⟩ := announced.decides r sent i v named
  have small : i < 2^32 := by simpa only [named,Arg.inst] using announced.small r sent
  have late := voted_late inv announced cast
  unfold Acceptor.decidereq
  rcases (inv.acceptors r.dst).votes i n v cast with passed | ⟨here,upTo⟩
  · -- The instance has been passed; its number is not the wrapped one of the next.
    have other : i ≠ ((s.acceptors r.dst).instanceH+1)%2^32 := by
      rcases announced.range r.dst with range | start
      · omega
      · omega
    rw [if_neg other,if_pos passed]
    rfl
  · have next : i = ((s.acceptors r.dst).instanceH+1)%2^32 := by
      rw [← here,Nat.mod_eq_of_lt small]
    rw [if_pos next,if_pos (vA_eq inv chosen cast here upTo)]
    rfl

end

/-- In every careful run no decide request fails a `VERIFY`. -/
theorem decides_verified {s : System} (reached : Reach (Init h0 v0) Careful (next members) s) : Verified s := by
  have both : Inv members h0 v0 s ∧ Announced members h0 s := by
    revert s
    apply Reach.invariant
    · intro s initial
      exact ⟨inv_init initial,announced_init initial⟩
    · intro s label t ih careful moved
      exact ⟨inv_step s label t ih.1 careful moved,announced_step ih.1 ih.2 (next_step moved)⟩
  exact verified_of_inv both.1 both.2

/-- The run of `a` up to its first decide request. -/
def oneDecide : List Label :=
  [.run "a" 1 "x"] ++ exchange "a" 0 "a" (.prepare 1 ⟨1,"a"⟩) (.prepared (.accept ⟨0,"a"⟩ "")) ++
  exchange "a" 1 "b" (.prepare 1 ⟨1,"a"⟩) (.prepared (.accept ⟨0,"b"⟩ "")) ++ [.skip "a",.proceed "a"] ++
  exchange "a" 2 "a" (.accept 1 ⟨1,"a"⟩ "x") (.accepted true) ++
  exchange "a" 3 "b" (.accept 1 ⟨1,"a"⟩ "x") (.accepted true) ++ [.proceed "a",.send "a"]

theorem decides_verified_one : ∃ s, run (next ["a","b","c"]) fresh oneDecide = some s ∧
    ⟨"a",4,"a",.decide 1 "x"⟩ ∈ s.requests ∧ Verified s := by
  have careful : Meets (next ["a","b","c"]) Careful fresh oneDecide := by decide
  exact ⟨_,rfl,by decide,decides_verified (Reach.run oneDecide (.start fresh_init) careful rfl)⟩

/-- The decide request to `b` is lost, and `a` runs the next instance up to its
first decide request. -/
def lostDecide : List Label :=
  oneDecide ++ [.deliver ⟨"a",4,"a",.decide 1 "x"⟩,.answer "a" ⟨⟨"a",4,"a",.decide 1 "x"⟩,.decided⟩] ++
  [.send "a",.timeout "a",.proceed "a"] ++
  [.run "a" 2 "y"] ++ exchange "a" 6 "a" (.prepare 2 ⟨2,"a"⟩) (.prepared (.accept ⟨0,"a"⟩ "")) ++
  exchange "a" 7 "b" (.prepare 2 ⟨2,"a"⟩) (.prepared (.accept ⟨1,"a"⟩ "x")) ++ [.skip "a",.proceed "a"] ++
  exchange "a" 8 "a" (.accept 2 ⟨2,"a"⟩ "x") (.accepted true) ++
  exchange "a" 9 "b" (.accept 2 ⟨2,"a"⟩ "x") (.accepted true) ++ [.proceed "a",.send "a"]

/-- The second decision is announced to `a` and then to `b`. -/
def lateDecide : List Label :=
  lostDecide ++ [.deliver ⟨"a",10,"a",.decide 2 "x"⟩,.answer "a" ⟨⟨"a",10,"a",.decide 2 "x"⟩,.decided⟩,.send "a"]

/-- The acceptor `b` is behind when it is told of the second decision. -/
theorem lost_decide_aborts : ∃ s, Reach (Init 0 (fun _ => none)) anyStep (next ["a","b","c"]) s ∧
    ⟨"a",11,"b",.decide 2 "x"⟩ ∈ s.requests ∧ (s.acceptors "b").instanceH = 0 ∧ ¬ Verified s := by
  refine ⟨_,Reach.run lateDecide (.start fresh_init) (meets_anyStep _ _) rfl,by decide,by decide,?_⟩
  intro verified
  exact absurd (verified ⟨"a",11,"b",.decide 2 "x"⟩ (by decide) (by decide) 2 "x" rfl) (by decide)

end CodeExercise.PaxosVerify
