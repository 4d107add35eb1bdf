import CodeExercise.Paxos
import CodeExercise.Voting

/-!
Agreement of the acceptors of `paxos.cc`. The replies of a run are read as votes in ballots (`voted`).
`acceptreq` does not look at the instance and a commit resets `n_h`, so a late accept request is
counted as a vote by an acceptor that has decided already (`late_accept_disagrees`).
-/
namespace CodeExercise.PaxosAgreement
open Runs Paxos Voting Option Function
open List (mem_cons mem_cons_of_mem mem_cons_self)

/-- An accept request reaches an acceptor at the instance it decides next, a
prepare request not before, a proposer learns old values in order; proposed
values are not empty and proposal numbers do not wrap. -/
def Careful (s : System) : Label → Prop
  | .run p _ newv => newv ≠ "" ∧ (s.acceptors p).nH.n+1 < 2^32 ∧ (s.proposers p).myN.n+1 < 2^32
  | .deliver ⟨_,_,dst,.prepare inst _⟩ => inst ≤ (s.acceptors dst).instanceH+1
  | .deliver ⟨_,_,dst,.accept inst _ _⟩ => inst = (s.acceptors dst).instanceH+1
  | .answer p ⟨_,.prepared (.oldinstance _)⟩ => (s.proposers p).inst ≤ (s.acceptors p).instanceH+1
  | _ => True

instance (s : System) : (label : Label) → Decidable (Careful s label)
  | .run _ _ _ => decideAs (_ ∧ _)
  | .deliver ⟨_,_,_,.prepare _ _⟩ | .answer _ ⟨_,.prepared (.oldinstance _)⟩ => decideAs (_ ≤ _)
  | .deliver ⟨_,_,_,.accept _ _ _⟩ => decideAs (_ = _)
  | .deliver ⟨_,_,_,.decide _ _⟩ | .answer _ ⟨_,.prepared (.accept _ _)⟩ | .answer _ ⟨_,.prepared .reject⟩ | .answer _ ⟨_,.accepted _⟩
  | .answer _ ⟨_,.decided⟩ | .skip _ | .send _ | .timeout _ | .proceed _ => isTrue trivial

lemma countP_lt_length {members p q : List String} (apart : ∀ a ∈ members, ¬ (a ∈ p ∧ a ∈ q)) :
    members.countP (isamember · p) + members.countP (isamember · q) ≤ members.length := by
  induction members with
  | nil => simp
  | cons a rest ih =>
    have tail := ih (fun b mem => apart b (mem_cons_of_mem a mem))
    have head := apart a mem_cons_self
    simp only [List.countP_cons,isamember_iff,List.length_cons]
    split <;> split <;> simp_all <;> omega

lemma majority_meets {members p q : List String} (left : majority members p = true)
    (right : majority members q = true) : ∃ a ∈ members, a ∈ p ∧ a ∈ q := by
  by_contra none
  have apart := countP_lt_length (fun a mem both => none ⟨a,mem,both⟩)
  simp only [majority,Nat.shiftRight_one,decide_eq_true_eq] at left right
  omega

/-- Two majorities of a list have a member of it in common, and a majority is more
than half of its positions. -/
theorem majorities_intersect (l1 : List String) :
    (∀ a b, majority l1 a = true → majority l1 b = true → ∃ m ∈ l1, m ∈ a ∧ m ∈ b) ∧
      ∀ l2, majority l1 l2 = true ↔ l1.length < 2*l1.countP (· ∈ l2) := by
  refine ⟨fun a b left right => majority_meets left right,fun l2 => ?_⟩
  have named : l1.countP (isamember · l2) = l1.countP (· ∈ l2) :=
    List.countP_congr (fun m _ => by simp [isamember_iff])
  rw [majority,named,Nat.shiftRight_one,decide_eq_true_eq]
  omega

theorem majorities_intersect_repeated : ∃ m ∈ ["a","a","b"], m ∈ ["a"] ∧ m ∈ ["b","a"] :=
  (majorities_intersect ["a","a","b"]).1 ["a"] ["b","a"] (by decide) (by decide)

/-- The acceptors of a majority of the members. -/
def quorum (members : List String) (q : Set String) : Prop := ∃ l, majority members l = true ∧ q = {a | a ∈ l}

lemma quorum_meets (members : List String) (p q : Set String) (left : quorum members p) (right : quorum members q) :
    ∃ a, a ∈ p ∧ a ∈ q := by
  obtain ⟨l,isMajority,rfl⟩ := left
  obtain ⟨k,other,rfl⟩ := right
  obtain ⟨a,_,inL,inK⟩ := majority_meets isMajority other
  exact ⟨a,inL,inK⟩

/-- An acceptor promised a proposal number in an instance. -/
def promised (h : List Reply) (a : String) (i : Nat) (n : PropT) : Prop :=
  ∃ r nA vA, ⟨r,.prepared (.accept nA vA)⟩ ∈ h ∧ r.dst = a ∧ r.arg = .prepare i n

/-- An acceptor accepted a value in an instance. -/
def voted (h : List Reply) (i : Nat) (a : String) (n : PropT) (v : String) : Prop :=
  ∃ r, ⟨r,.accepted true⟩ ∈ h ∧ r.dst = a ∧ r.arg = .accept i n v

/-- What an acceptor reports with its promise; number 0 stands for no vote. -/
def report (nA : PropT) (vA : String) : Option (PropT × String) := if nA.n = 0 then none else some (nA,vA)

/-- Later replies keep the promises of the earlier ones. -/
structure Grows (h t : List Reply) : Prop where
  more : ∀ reply ∈ h, reply ∈ t
  kept : ∀ i a c w, voted t i a c w → voted h i a c w ∨ ∀ n, promised h a i n → n ≤ c

lemma Grows.refl (h : List Reply) : Grows h h := ⟨fun _ mem => mem,fun _ _ _ _ cast => .inl cast⟩

section Grows

section
variable (grows : Grows h t)
include grows

lemma Grows.voted (cast : voted h i a n v) : voted t i a n v := by
  obtain ⟨r,mem,rest⟩ := cast
  exact ⟨r,grows.more _ mem,rest⟩
lemma Grows.promised (made : promised h a i n) : promised t a i n := by
  obtain ⟨r,nA,vA,mem,rest⟩ := made
  exact ⟨r,nA,vA,grows.more _ mem,rest⟩
lemma Grows.chosen {quorum : Set String → Prop}
    (chosen : Chosen quorum (PaxosAgreement.voted h i) n v) : Chosen quorum (PaxosAgreement.voted t i) n v :=
  Chosen.grow chosen (fun _ _ _ => grows.voted)
lemma Grows.highest
    (made : ∀ a ∈ q, PaxosAgreement.promised h a i n) (highest : Highest (PaxosAgreement.voted h i) n q best) :
    Highest (PaxosAgreement.voted t i) n q best :=
  Highest.grow highest (fun _ _ _ => grows.voted)
    (fun a mem c w cast => (grows.kept i a c w cast).imp id (fun bound => bound n (made a mem)))

end
end Grows

section Invariant
variable (members : List String) (h0 : Nat) (v0 : Nat → Option String)

/-- A value is the one decided before the run, or a majority voted for it. -/
def Known (h : List Reply) (i : Nat) (v : String) : Prop :=
  (i ≤ h0 → v = (v0 i).getD "") ∧ (h0 < i → ∃ n, Chosen (quorum members) (voted h i) n v)

structure AcceptorOk (h : List Reply) (name : String) (a : Acceptor) : Prop where
  votes : ∀ i n v, voted h i name n v → i ≤ a.instanceH ∨ (i = a.instanceH+1 ∧ n ≤ a.nA)
  promises : ∀ i n, promised h name i n → i ≤ a.instanceH ∨ (i = a.instanceH+1 ∧ n ≤ a.nH)
  order : a.nA ≤ a.nH
  last : (a.nA.n = 0 ∧ a.vA = "") ∨ (voted h (a.instanceH+1) name a.nA a.vA ∧ a.vA ≠ "")

structure ValuesOk (h : List Reply) (a : Acceptor) : Prop where
  later : h0 ≤ a.instanceH
  known : ∀ i v, a.values i = some v → Known members h0 v0 h i v
  old : ∀ i, i ≤ h0 → (a.values i).getD "" = (v0 i).getD ""
  full : ∀ i, h0 < i → i ≤ a.instanceH → (a.values i).isSome

/-- A majority promised the number, and the value repeats its highest vote. -/
def Supported (h : List Reply) (i : Nat) (n : PropT) (v : String) : Prop :=
  v ≠ "" ∧ ∃ l, majority members l = true ∧ (∀ a ∈ l, promised h a i n) ∧ Backed (voted h i) n v {a | a ∈ l}

/-- What the variables of `run` say about the replies so far. -/
def PhaseOk (h : List Reply) (i : Nat) (n : PropT) (newv : String) : Phase → Prop
  | .idle => True
  | .preparing _ accepts currnA v =>
    newv ≠ "" ∧ (currnA.n = 0 ↔ v = "") ∧ (∀ a ∈ accepts, promised h a i n) ∧
      Highest (voted h i) n {a | a ∈ accepts} (report currnA v)
  | .accepting todo accepts v =>
    Supported members h i n v ∧ (∀ a ∈ todo, promised h a i n) ∧ ∀ a ∈ accepts, voted h i a n v
  | .deciding _ v => ∃ n, Chosen (quorum members) (voted h i) n v

structure ProposerOk (h : List Reply) (p : String) (node : Proposer) : Prop where
  named : node.myN.m = p
  positive : node.phase ≠ .idle → 0 < node.myN.n
  phase : PhaseOk members h node.inst node.myN node.newv node.phase

/-- The proposer may have sent accept requests for the value. -/
def Offers (v : String) : Phase → Prop
  | .preparing _ _ _ _ => False
  | .accepting _ _ w => w = v
  | _ => True

/-- The proposal number of an accept request belongs to one run of its proposer. -/
structure Owned (node : Proposer) (r : Request) (n : PropT) (v : String) : Prop where
  named : n.m = r.src
  positive : 0 < n.n
  upTo : n.n ≤ node.myN.n
  current : n = node.myN → Offers v node.phase

def RequestOk (s : System) (r : Request) : Prop :=
  match r.arg with
  | .prepare _ _ => True
  | .accept i n v =>
    promised s.replies r.dst i n ∧ Supported members s.replies i n v ∧ Owned (s.proposers r.src) r n v
  | .decide i v => ∃ n, Chosen (quorum members) (voted s.replies i) n v

def ReplyOk (h : List Reply) (reply : Reply) : Prop :=
  match reply.request.arg,reply.res with
  | .prepare i n,.prepared (.accept nA vA) =>
    (nA.n = 0 ↔ vA = "") ∧ Highest (voted h i) n {reply.request.dst} (report nA vA)
  | .prepare i _,.prepared (.oldinstance v) => Known members h0 v0 h i v
  | _,_ => True

structure Inv (s : System) : Prop where
  acceptors : ∀ a, AcceptorOk s.replies a (s.acceptors a)
  values : ∀ a, ValuesOk members h0 v0 s.replies (s.acceptors a)
  proposers : ∀ p, ProposerOk members s.replies p (s.proposers p)
  requests : ∀ r ∈ s.requests, RequestOk members s r
  replies : ∀ reply ∈ s.replies, reply.request ∈ s.requests ∧ ReplyOk members h0 v0 s.replies reply
  unique : ∀ r ∈ s.requests, ∀ u ∈ s.requests, ∀ i n v w, r.arg = .accept i n v → u.arg = .accept i n w → v = w

end Invariant

variable {members : List String} {h0 : Nat} {v0 : Nat → Option String}

variable {s : System} {h : List Reply} {i : Nat} {n : PropT} {p v : String} {r : Request}
  {a : Acceptor}

/-- The votes of an instance are safe, so the values of the acceptors agree. -/
lemma safe_of_inv (inv : Inv members h0 v0 s) (i : Nat) :
    Safe (quorum members) (fun n v => ∃ r ∈ s.requests, r.arg = .accept i n v) (voted s.replies i) := by
  refine ⟨?_,?_,?_,?_⟩
  · refine (s.requests.toFinset.image (fun r => match r.arg with
      | .accept _ n _ => n
      | _ => ⟨0,""⟩)).finite_toSet.subset ?_
    rintro n ⟨v,r,mem,named⟩
    simp only [Finset.coe_image,Set.mem_image]
    exact ⟨r,by simpa using mem,by rw [named]⟩
  · rintro n v w ⟨r,memberR,namedR⟩ ⟨u,memberU,namedU⟩
    exact inv.unique r memberR u memberU i n v w namedR namedU
  · rintro a n v ⟨r,mem,_,named⟩
    exact ⟨r,(inv.replies _ mem).1,named⟩
  · rintro n v ⟨r,mem,named⟩
    have ok := inv.requests r mem
    simp only [RequestOk,named] at ok
    obtain ⟨_,⟨_,l,isMajority,_,backed⟩,_⟩ := ok
    exact ⟨_,⟨l,isMajority,rfl⟩,backed⟩

lemma agreement_of_inv (inv : Inv members h0 v0 s) : Agreement s := by
  intro a b i v w left right
  have knownV := (inv.values a).known i v left
  have knownW := (inv.values b).known i w right
  by_cases old : i ≤ h0
  · rw [knownV.1 old,knownW.1 old]
  · obtain ⟨n,chosenV⟩ := knownV.2 (by omega)
    obtain ⟨m,chosenW⟩ := knownW.2 (by omega)
    exact (safe_of_inv inv i).chosen_unique (quorum_meets members) chosenV chosenW

lemma inv_init (initial : Init h0 v0 s) : Inv members h0 v0 s := by
  refine ⟨?_,?_,?_,by simp [initial.requests],by simp [initial.replies],by simp [initial.requests]⟩
  · intro a
    rw [initial.acceptors,initial.replies]
    exact ⟨by simp [voted],by simp [promised],le_refl _,.inl ⟨rfl,rfl⟩⟩
  · intro a
    rw [initial.acceptors,initial.replies]
    refine ⟨le_refl _,?_,fun _ _ => rfl,?_⟩
    · intro i v found
      have found : v0 i = some v := found
      refine ⟨fun _ => by simp [found],?_⟩
      intro late
      simp [initial.undecided i late] at found
    · intro i late early
      exact absurd early (not_le.mpr late)
  · intro p
    rw [initial.proposers]
    exact ⟨rfl,by simp,trivial⟩

section Keep
variable {h t : List Reply}

variable {i : Nat}

lemma Known.grow (known : Known members h0 v0 h i v) (grows : Grows h t) :
    Known members h0 v0 t i v := by
  refine ⟨known.1,?_⟩
  intro late
  obtain ⟨n,chosen⟩ := known.2 late
  exact ⟨n,grows.chosen chosen⟩

lemma ValuesOk.grow (ok : ValuesOk members h0 v0 h a) (grows : Grows h t) :
    ValuesOk members h0 v0 t a :=
  { ok with known := fun i v found => (ok.known i v found).grow grows }

lemma Supported.grow (supported : Supported members h i n v) (grows : Grows h t) :
    Supported members t i n v := by
  obtain ⟨filled,l,isMajority,made,best,highest,same⟩ := supported
  exact ⟨filled,l,isMajority,fun a mem => grows.promised (made a mem),best,grows.highest made highest,same⟩

lemma PhaseOk.grow (ok : PhaseOk members h i n newv phase)
    (grows : Grows h t) : PhaseOk members t i n newv phase := by
  cases phase with
  | idle => trivial
  | preparing todo accepts currnA v =>
    obtain ⟨filled,empty,made,highest⟩ := ok
    exact ⟨filled,empty,fun a mem => grows.promised (made a mem),grows.highest made highest⟩
  | accepting todo accepts v =>
    obtain ⟨supported,made,cast⟩ := ok
    exact ⟨supported.grow grows,fun a mem => grows.promised (made a mem),
      fun a mem => grows.voted (cast a mem)⟩
  | deciding todo v =>
    obtain ⟨m,chosen⟩ := ok
    exact ⟨m,grows.chosen chosen⟩

lemma ProposerOk.grow (ok : ProposerOk members h p node) (grows : Grows h t) :
    ProposerOk members t p node :=
  ⟨ok.named,ok.positive,ok.phase.grow grows⟩

lemma ReplyOk.grow (ok : ReplyOk members h0 v0 h reply) (mem : reply ∈ h) (grows : Grows h t) :
    ReplyOk members h0 v0 t reply := by
  obtain ⟨r,res⟩ := reply
  unfold ReplyOk at ok ⊢
  split
  · next i n nA vA named answered =>
    simp only at named answered
    simp only [named,answered] at ok
    refine ⟨ok.1,grows.highest ?_ ok.2⟩
    rintro a rfl
    exact ⟨r,nA,vA,answered ▸ mem,rfl,named⟩
  · next i n v named answered =>
    simp only at named answered
    simp only [named,answered] at ok
    exact ok.grow grows
  · trivial

lemma RequestOk.grow {s t : System} {r : Request} (ok : RequestOk members s r) (grows : Grows s.replies t.replies)
    (owned : ∀ n v, Owned (s.proposers r.src) r n v → Owned (t.proposers r.src) r n v) : RequestOk members t r := by
  unfold RequestOk at ok ⊢
  cases named : r.arg with
  | prepare i n => trivial
  | accept i n v =>
    simp only [named] at ok ⊢
    exact ⟨grows.promised ok.1,ok.2.1.grow grows,owned n v ok.2.2⟩
  | decide i v =>
    simp only [named] at ok ⊢
    obtain ⟨n,chosen⟩ := ok
    exact ⟨n,grows.chosen chosen⟩

end Keep

lemma phaseOk_skip
    (ok : PhaseOk members h i n newv phase) : PhaseOk members h i n newv phase.skip := by
  cases phase with
  | idle => trivial
  | preparing todo accepts currnA v => exact ok
  | accepting todo accepts v => exact ⟨ok.1,fun a mem => ok.2.1 a (List.mem_of_mem_tail mem),ok.2.2⟩
  | deciding todo v => exact ok

lemma phaseOk_proceed
    (ok : PhaseOk members h i n newv phase) : PhaseOk members h i n newv (phase.proceed members newv) := by
  cases phase with
  | idle => trivial
  | preparing todo accepts currnA v =>
    obtain ⟨filled,empty,made,highest⟩ := ok
    simp only [Phase.proceed]
    split
    · next isMajority =>
      refine ⟨⟨?_,accepts,isMajority,made,_,highest,?_⟩,made,by simp⟩
      · split
        · exact filled
        · next long =>
          rintro rfl
          simp at long
      · intro m w reported
        simp only [report] at reported
        split at reported
        · simp at reported
        · next voted =>
          simp only [some.injEq,Prod.mk.injEq] at reported
          have long : v.length ≠ 0 := by
            intro zero
            exact voted (empty.mpr (String.length_eq_zero_iff.mp zero))
          rw [if_neg long]
          exact reported.2.symm
    · trivial
  | accepting todo accepts v =>
    simp only [Phase.proceed]
    split
    · next isMajority => exact ⟨n,_,⟨accepts,isMajority,rfl⟩,ok.2.2⟩
    · trivial
  | deciding todo v => trivial

lemma report_better (currnA nA : PropT) (v vA : String) :
    better (report currnA v) (report nA vA) = if nA.gt currnA then report nA vA else report currnA v := by
  unfold report
  by_cases zero : nA.n = 0
  · by_cases start : currnA.n = 0
    · simp [zero,start,better]
    · have lower : ¬ currnA < nA := by
        rw [PropT.lt_def]
        omega
      simp [zero,start,better,PropT.gt_iff,lower]
  · by_cases start : currnA.n = 0
    · have higher : currnA < nA := by
        rw [PropT.lt_def]
        omega
      simp [zero,start,better,PropT.gt_iff,higher]
    · simp [zero,start,better,PropT.gt_iff]

lemma phaseOk_answer {node : Proposer} {reply : Reply}
    (ok : PhaseOk members h node.inst node.myN node.newv node.phase) (mem : reply ∈ h)
    (right : ReplyOk members h0 v0 h reply) (call : node.call p = some reply.request) :
    PhaseOk members h node.inst node.myN node.newv (node.phase.answer reply.res) := by
  obtain ⟨r,res⟩ := reply
  unfold Proposer.call at call
  unfold Phase.answer
  split
  · trivial
  · next node' todo accepts currnA v nA vA at_phase answered =>
    simp only [at_phase,some.injEq] at call ok
    simp only at answered
    subst answered
    subst call
    obtain ⟨filled,empty,made,highest⟩ := ok
    obtain ⟨reported,new⟩ := right
    have made' : ∀ a ∈ accepts++[node'], promised h a node.inst node.myN := by
      intro a inside
      rcases List.mem_append.mp inside with before | last
      · exact made a before
      · rw [List.mem_singleton.mp last]
        exact ⟨_,nA,vA,mem,rfl,rfl⟩
    have both : {a | a ∈ accepts++[node']} = {a | a ∈ accepts} ∪ {node'} := by
      ext a
      simp [or_comm]
    have union := highest.union new
    rw [report_better,← both] at union
    split
    · next higher =>
      rw [if_pos higher] at union
      exact ⟨filled,reported,made',union⟩
    · next lower =>
      rw [if_neg lower] at union
      exact ⟨filled,empty,made',union⟩
  · next node' todo accepts v at_phase answered =>
    simp only [at_phase,some.injEq] at call ok
    simp only at answered
    subst answered
    subst call
    obtain ⟨supported,made,cast⟩ := ok
    refine ⟨supported,fun a inside => made a (mem_cons_of_mem _ inside),?_⟩
    intro a inside
    rcases List.mem_append.mp inside with before | last
    · exact cast a before
    · rw [List.mem_singleton.mp last]
      exact ⟨_,mem,rfl,rfl⟩
  · exact phaseOk_skip ok

section
variable (inv : Inv members h0 v0 s)
include inv

lemma inv_setProposer
    (ok : ProposerOk members s.replies p node)
    (owned : ∀ r ∈ s.requests, r.src = p → ∀ n v, Owned (s.proposers p) r n v → Owned node r n v) :
    Inv members h0 v0 (s.setProposer p node) := by
  refine { inv with proposers := ?_, requests := ?_ }
  · intro q
    by_cases same : q = p
    · subst same
      simpa [System.setProposer] using ok
    · simpa [System.setProposer,update_of_ne same] using inv.proposers q
  · intro r mem
    refine (inv.requests r mem).grow (Grows.refl _) ?_
    intro n v before
    by_cases same : r.src = p
    · rw [same] at before
      simpa [System.setProposer,same] using owned r mem same n v before
    · simpa [System.setProposer,update_of_ne same] using before

lemma inv_phase
    (number : node.myN = (s.proposers p).myN) (start : (s.proposers p).phase = .idle → node.phase = .idle)
    (ok : PhaseOk members s.replies node.inst node.myN node.newv node.phase)
    (moves : ∀ v, Offers v (s.proposers p).phase → Offers v node.phase) :
    Inv members h0 v0 (s.setProposer p node) := by
  have before := inv.proposers p
  refine inv_setProposer inv ⟨number ▸ before.named,?_,ok⟩ ?_
  · intro busy
    rw [number]
    exact before.positive fun idle => busy (start idle)
  · intro r _ _ n v own
    exact ⟨own.named,own.positive,number ▸ own.upTo,fun same => moves v (own.current (number ▸ same))⟩

lemma inv_run (filled : newv ≠ "")
    (higher : (s.proposers p).myN.n < setn (s.acceptors p).nH (s.proposers p).myN) :
    Inv members h0 v0 (s.setProposer p { s.proposers p with
        myN := ⟨setn (s.acceptors p).nH (s.proposers p).myN,(s.proposers p).myN.m⟩, inst := inst%2^32, newv := newv,
        phase := .preparing members [] ⟨0,""⟩ "" }) := by
  refine inv_setProposer inv ⟨(inv.proposers p).named,fun _ => Nat.zero_lt_of_lt higher,?_⟩ ?_
  · refine ⟨filled,by simp,by simp,?_⟩
    simpa [report] using Highest.empty _ _
  · intro r _ _ n v own
    refine ⟨own.named,own.positive,(own.upTo.trans higher.le),?_⟩
    intro same
    have upTo := own.upTo
    rw [same] at upTo
    exact absurd upTo (not_le.mpr higher)

end

lemma lt_setn (range : myN.n+1 < 2^32) : myN.n < setn nH myN := by
  unfold setn
  rw [Nat.mod_eq_of_lt range]
  split <;> omega

lemma offers_skip (offers : Offers v phase) : Offers v phase.skip := by
  cases phase <;> exact offers
lemma offers_proceed (offers : Offers v phase) :
    Offers v (phase.proceed members newv) := by
  cases phase with
  | idle => trivial
  | preparing todo accepts currnA w => exact offers.elim
  | accepting todo accepts w =>
    simp only [Phase.proceed]
    split <;> trivial
  | deciding todo w => trivial
lemma offers_answer (offers : Offers v phase) :
    Offers v (phase.answer res) := by
  unfold Phase.answer
  split
  · trivial
  · exact offers.elim
  · exact offers
  · exact offers_skip offers

section
variable (inv : Inv members h0 v0 s)
include inv

lemma inv_skip :
    Inv members h0 v0 (s.setProposer p
      { s.proposers p with phase := (s.proposers p).phase.skip, xid := xid, waiting := waiting }) := by
  refine inv_phase inv rfl ?_ (phaseOk_skip (inv.proposers p).phase) fun v => offers_skip
  intro idle
  simp [idle,Phase.skip]

lemma inv_proceed : Inv members h0 v0 (s.setProposer p
      { s.proposers p with phase := (s.proposers p).phase.proceed members (s.proposers p).newv }) := by
  refine inv_phase inv rfl ?_ (phaseOk_proceed (inv.proposers p).phase) fun v => offers_proceed
  intro idle
  simp [idle,Phase.proceed]

lemma call_ok (call : (s.proposers p).call p = some r) :
    RequestOk members s r ∧ ∀ i n v, r.arg = .accept i n v →
      n = (s.proposers p).myN ∧ ∀ w, Offers w (s.proposers p).phase → v = w := by
  have ok := inv.proposers p
  have fine := ok.phase
  unfold Proposer.call at call
  split at call
  · cases call
    exact ⟨trivial,by simp⟩
  · next node todo accepts v at_phase =>
    cases call
    rw [at_phase] at fine
    obtain ⟨supported,made,_⟩ := fine
    refine ⟨⟨made _ mem_cons_self,supported,ok.named,ok.positive (by simp [at_phase]),le_refl _,?_⟩,?_⟩
    · intro _
      rw [at_phase]
      rfl
    · intro i n w same
      cases same
      refine ⟨rfl,?_⟩
      rw [at_phase]
      exact fun _ offers => offers
  · next node todo v at_phase =>
    cases call
    rw [at_phase] at fine
    exact ⟨fine,by simp⟩
  · simp at call

lemma inv_send (call : (s.proposers p).call p = some r) :
    Inv members h0 v0 { s.setProposer p { s.proposers p with waiting := true } with requests := r::s.requests } := by
  have waits : Inv members h0 v0 (s.setProposer p { s.proposers p with waiting := true }) :=
    inv_phase inv rfl id (inv.proposers p).phase (fun _ => id)
  have again : ({ s.proposers p with waiting := true } : Proposer).call p = some r := call
  obtain ⟨ok,only⟩ := call_ok (p := p) waits (by simpa [System.setProposer] using again)
  have alone : ∀ u ∈ s.requests, ∀ i n v w, r.arg = .accept i n v → u.arg = .accept i n w → v = w := by
    intro u mem i n v w here there
    have other := waits.requests u mem
    simp only [RequestOk,there] at other
    obtain ⟨rfl,single⟩ := only i n v here
    have mine : u.src = p := other.2.2.named.symm.trans (waits.proposers p).named
    have offers := other.2.2.current
    rw [mine] at offers
    exact single w (offers rfl)
  refine ⟨waits.acceptors,waits.values,waits.proposers,?_,?_,?_⟩
  · intro u mem
    rcases mem_cons.mp mem with rfl | before
    · exact ok
    · exact waits.requests u before
  · intro reply mem
    exact ⟨mem_cons_of_mem _ (waits.replies reply mem).1,(waits.replies reply mem).2⟩
  · intro u memberU x memberX i n v w namedU namedX
    rcases mem_cons.mp memberU with rfl | beforeU <;> rcases mem_cons.mp memberX with rfl | beforeX
    · rw [namedU] at namedX
      simpa using namedX
    · exact alone x beforeX i n v w namedU namedX
    · exact (alone u beforeU i n w v namedX namedU).symm
    · exact inv.unique u beforeU x beforeX i n v w namedU namedX

end

lemma voted_cons {a : String} (cast : voted (new::h) i a n v) :
    voted h i a n v ∨ (new.res = .accepted true ∧ new.request.dst = a ∧ new.request.arg = .accept i n v) := by
  obtain ⟨r,mem,named⟩ := cast
  rcases mem_cons.mp mem with rfl | before
  · exact .inr ⟨rfl,named⟩
  · exact .inl ⟨r,before,named⟩
lemma promised_cons {a : String} (made : promised (new::h) a i n) :
    promised h a i n ∨ ((∃ nA vA, new.res = .prepared (.accept nA vA)) ∧ new.request.dst = a ∧
      new.request.arg = .prepare i n) := by
  obtain ⟨r,nA,vA,mem,named⟩ := made
  rcases mem_cons.mp mem with rfl | before
  · exact .inr ⟨⟨nA,vA,rfl⟩,named⟩
  · exact .inl ⟨r,nA,vA,before,named⟩

lemma grows_cons (silent : new.res ≠ .accepted true) : Grows h (new::h) := by
  refine ⟨fun _ mem => mem_cons_of_mem _ mem,?_⟩
  intro i a c w cast
  rcases voted_cons cast with before | ⟨loud,_⟩
  · exact .inl before
  · exact absurd loud silent

lemma AcceptorOk.cons (ok : AcceptorOk h name a)
    (silent : new.request.dst = name → new.res ≠ .accepted true ∧ ∀ nA vA, new.res ≠ .prepared (.accept nA vA)) :
    AcceptorOk (new::h) name a := by
  refine ⟨?_,?_,ok.order,ok.last.imp id (fun last => ⟨?_,last.2⟩)⟩
  · intro i n v cast
    rcases voted_cons cast with before | ⟨loud,here,_⟩
    · exact ok.votes i n v before
    · exact absurd loud (silent here).1
  · intro i n made
    rcases promised_cons made with before | ⟨⟨nA,vA,loud⟩,here,_⟩
    · exact ok.promises i n before
    · exact absurd loud ((silent here).2 nA vA)
  · obtain ⟨r,mem,rest⟩ := last.1
    exact ⟨r,mem_cons_of_mem _ mem,rest⟩

lemma commit_acceptorOk (ok : AcceptorOk h name a)
    (near : i ≤ a.instanceH+1) : AcceptorOk h name (a.commit i v) := by
  unfold Acceptor.commit
  split
  · next above =>
    have here : i = a.instanceH+1 := by omega
    subst here
    refine ⟨?_,?_,le_refl _,.inl ⟨rfl,rfl⟩⟩
    · intro j n w cast
      have bound := ok.votes j n w cast
      left
      simp only
      omega
    · intro j n made
      have bound := ok.promises j n made
      left
      simp only
      omega
  · exact ok

lemma commit_valuesOk (ok : ValuesOk members h0 v0 h a)
    (near : i ≤ a.instanceH+1) (known : a.instanceH < i → Known members h0 v0 h i v) :
    ValuesOk members h0 v0 h (a.commit i v) := by
  unfold Acceptor.commit
  split
  · next above =>
    have later := ok.later
    refine ⟨by simp only; omega,?_,?_,?_⟩
    · intro j w found
      by_cases same : j = i
      · subst same
        simp only [update_self,some.injEq] at found
        exact found ▸ known above
      · simp only [update_of_ne same] at found
        exact ok.known j w found
    · intro j old
      have different : j ≠ i := by omega
      simpa only [update_of_ne different] using ok.old j old
    · intro j late upTo
      by_cases same : j = i
      · simp [same]
      · simp only [update_of_ne same]
        exact ok.full j late (by simp only at upTo; omega)
  · exact ok

section
variable (inv : Inv members h0 v0 s)
include inv

lemma inv_reply
    (sent : r ∈ s.requests) (grows : Grows s.replies (⟨r,res⟩::s.replies))
    (acceptor : AcceptorOk (⟨r,res⟩::s.replies) r.dst a) (values : ValuesOk members h0 v0 s.replies a)
    (right : ReplyOk members h0 v0 (⟨r,res⟩::s.replies) ⟨r,res⟩) :
    Inv members h0 v0 { s.setAcceptor r.dst a with replies := ⟨r,res⟩::s.replies } := by
  refine ⟨?_,?_,fun p => (inv.proposers p).grow grows,?_,?_,inv.unique⟩
  · intro b
    by_cases same : b = r.dst
    · subst same
      simpa [System.setAcceptor] using acceptor
    · simp only [System.setAcceptor,update_of_ne same]
      exact (inv.acceptors b).cons fun here => absurd here.symm same
  · intro b
    by_cases same : b = r.dst
    · subst same
      simpa [System.setAcceptor] using values.grow grows
    · simpa [System.setAcceptor,update_of_ne same] using (inv.values b).grow grows
  · intro u mem
    exact (inv.requests u mem).grow grows fun _ _ own => own
  · intro reply mem
    rcases mem_cons.mp mem with rfl | before
    · exact ⟨sent,right⟩
    · exact ⟨(inv.replies reply before).1,(inv.replies reply before).2.grow before grows⟩

lemma voted_positive {a : String}
    (cast : voted s.replies i a n v) : 0 < n.n := by
  obtain ⟨r,mem,_,named⟩ := cast
  have ok := inv.requests r (inv.replies _ mem).1
  simp only [RequestOk,named] at ok
  exact ok.2.2.positive

lemma report_ok (higher : (s.acceptors name).nH < n) :
    ((s.acceptors name).nA.n = 0 ↔ (s.acceptors name).vA = "") ∧
      Highest (voted s.replies ((s.acceptors name).instanceH+1)) n {name}
        (report (s.acceptors name).nA (s.acceptors name).vA) := by
  have ok := inv.acceptors name
  have upper : ∀ c w, voted s.replies ((s.acceptors name).instanceH+1) name c w → c ≤ (s.acceptors name).nA := by
    intro c w cast
    rcases ok.votes _ c w cast with old | ⟨_,le⟩
    · omega
    · exact le
  rcases ok.last with ⟨zero,empty⟩ | ⟨last,filled⟩
  · refine ⟨by simp [zero,empty],?_⟩
    rw [report,if_pos zero]
    rintro a rfl c w cast
    have positive := voted_positive inv cast
    have le := upper c w cast
    rw [PropT.le_def] at le
    omega
  · have positive := voted_positive inv last
    refine ⟨by simp [filled]; omega,?_⟩
    rw [report,if_neg (by omega)]
    refine ⟨ok.order.trans_lt higher,⟨name,rfl,last⟩,?_⟩
    rintro a rfl c w cast _
    exact upper c w cast

section
variable (sent : r ∈ s.requests)
include sent

lemma inv_preparereq
    (named : r.arg = .prepare i n) (near : i ≤ (s.acceptors r.dst).instanceH+1) :
    Inv members h0 v0 { s.setAcceptor r.dst ((s.acceptors r.dst).preparereq i n).2 with
      replies := ⟨r,.prepared ((s.acceptors r.dst).preparereq i n).1⟩ :: s.replies } := by
  have ok := inv.acceptors r.dst
  have values := inv.values r.dst
  unfold Acceptor.preparereq
  split
  · next old =>
    have grows : Grows s.replies
        (⟨r,.prepared (.oldinstance (((s.acceptors r.dst).values i).getD ""))⟩ :: s.replies) := grows_cons (by simp)
    have known : Known members h0 v0 s.replies i (((s.acceptors r.dst).values i).getD "") := by
      cases found : (s.acceptors r.dst).values i with
      | some v => exact values.known i v found
      | none =>
        refine ⟨fun before => ?_,fun late => ?_⟩
        · rw [← values.old i before,found]
        · simpa [found] using values.full i late old
    have same : AcceptorOk (⟨r,.prepared (.oldinstance (((s.acceptors r.dst).values i).getD ""))⟩ :: s.replies) r.dst
        (s.acceptors r.dst) := ok.cons (by simp)
    refine inv_reply inv sent grows { same with } ⟨values.later,?_,?_,?_⟩ ?_
    · intro j w found
      by_cases here : j = i
      · subst here
        simp only [update_self,some.injEq] at found
        exact found ▸ known
      · simp only [update_of_ne here] at found
        exact values.known j w found
    · intro j before
      by_cases here : j = i
      · subst here
        simpa using values.old j before
      · simpa only [update_of_ne here] using values.old j before
    · intro j late upTo
      by_cases here : j = i
      · simp [here]
      · simpa only [update_of_ne here] using values.full j late upTo
    · simpa only [ReplyOk,named] using known.grow grows
  · next fresh =>
    have here : i = (s.acceptors r.dst).instanceH+1 := by omega
    split
    · next higher =>
      rw [PropT.gt_iff] at higher
      obtain ⟨empty,highest⟩ := report_ok inv higher
      have grows : Grows s.replies
          (⟨r,.prepared (.accept (s.acceptors r.dst).nA (s.acceptors r.dst).vA)⟩ :: s.replies) := grows_cons (by simp)
      refine inv_reply inv sent grows ⟨?_,?_,ok.order.trans higher.le,?_⟩
        { values with } ?_
      · intro j m w cast
        rcases voted_cons cast with before | ⟨loud,_⟩
        · exact ok.votes j m w before
        · simp at loud
      · intro j m made
        rcases promised_cons made with before | ⟨_,_,this⟩
        · exact (ok.promises j m before).imp id fun next => ⟨next.1,next.2.trans higher.le⟩
        · simp only [named,Arg.prepare.injEq] at this
          exact .inr ⟨this.1 ▸ here,this.2 ▸ le_refl _⟩
      · exact ok.last.imp id fun last => ⟨grows.voted last.1,last.2⟩
      · simp only [ReplyOk,named]
        refine ⟨empty,Highest.grow (here ▸ highest) (fun _ _ _ => grows.voted) ?_⟩
        intro a _ c w cast
        rcases voted_cons cast with before | ⟨loud,_⟩
        · exact .inl before
        · simp at loud
    · exact inv_reply inv sent (grows_cons (by simp)) (ok.cons (by simp)) values (by simp [ReplyOk,named])

/-- At its next instance an acceptor accepts only the number it promised last. -/
lemma inv_acceptreq
    (named : r.arg = .accept i n v) (here : i = (s.acceptors r.dst).instanceH+1) :
    Inv members h0 v0 { s.setAcceptor r.dst ((s.acceptors r.dst).acceptreq i n v).2 with
      replies := ⟨r,.accepted ((s.acceptors r.dst).acceptreq i n v).1⟩ :: s.replies } := by
  have ok := inv.acceptors r.dst
  have values := inv.values r.dst
  have request := inv.requests r sent
  simp only [RequestOk,named] at request
  obtain ⟨made,⟨filled,_⟩,_⟩ := request
  have bound : ∀ m, promised s.replies r.dst i m → m ≤ (s.acceptors r.dst).nH := by
    intro m made
    rcases ok.promises i m made with old | ⟨_,le⟩
    · omega
    · exact le
  unfold Acceptor.acceptreq
  split
  · next high =>
    rw [PropT.ge_iff] at high
    have grows : Grows s.replies (⟨r,.accepted true⟩ :: s.replies) := by
      refine ⟨fun _ mem => mem_cons_of_mem _ mem,?_⟩
      intro j a c w cast
      rcases voted_cons cast with before | ⟨_,rfl,this⟩
      · exact .inl before
      · simp only [named,Arg.accept.injEq] at this
        obtain ⟨rfl,rfl,_⟩ := this
        exact .inr fun m made => (bound m made).trans high
    refine inv_reply inv sent grows ⟨?_,?_,bound n made,.inr ⟨?_,filled⟩⟩
      { values with } (by simp [ReplyOk,named])
    · intro j m w cast
      rcases voted_cons cast with before | ⟨_,_,this⟩
      · exact (ok.votes j m w before).imp id fun next => ⟨next.1,next.2.trans (ok.order.trans high)⟩
      · simp only [named,Arg.accept.injEq] at this
        exact .inr ⟨this.1 ▸ here,this.2.1 ▸ le_refl _⟩
    · intro j m made
      rcases promised_cons made with before | ⟨⟨_,_,loud⟩,_⟩
      · exact ok.promises j m before
      · simp at loud
    · exact ⟨r,mem_cons_self,rfl,here ▸ named⟩
  · exact inv_reply inv sent (grows_cons (by simp)) (ok.cons (by simp)) values (by simp [ReplyOk,named])

lemma inv_decidereq
    (named : r.arg = .decide i v) (decided : (s.acceptors r.dst).decidereq i v = some a) :
    Inv members h0 v0 { s.setAcceptor r.dst a with replies := ⟨r,.decided⟩::s.replies } := by
  have ok := inv.acceptors r.dst
  have values := inv.values r.dst
  have chosen := inv.requests r sent
  simp only [RequestOk,named] at chosen
  have right : ReplyOk members h0 v0 (⟨r,.decided⟩::s.replies) ⟨r,.decided⟩ := by simp [ReplyOk,named]
  unfold Acceptor.decidereq at decided
  split at decided
  · next this =>
    have near : i ≤ (s.acceptors r.dst).instanceH+1 := this ▸ Nat.mod_le _ _
    split at decided <;> cases decided
    next same =>
      refine inv_reply inv sent (grows_cons (by simp)) ((commit_acceptorOk ok near).cons (by simp)) ?_ right
      refine commit_valuesOk values near ?_
      intro above
      have later := values.later
      exact ⟨fun old => by omega,fun _ => same ▸ chosen⟩
  · split at decided
    · cases decided
      exact inv_reply inv sent (grows_cons (by simp)) (ok.cons (by simp)) values right
    · simp at decided

end

lemma inv_deliver
    (careful : Careful s (.deliver r)) (sent : r ∈ s.requests)
    (handled : (s.acceptors r.dst).handle r.arg = some (res,a)) :
    Inv members h0 v0 { s.setAcceptor r.dst a with replies := ⟨r,res⟩::s.replies } := by
  obtain ⟨src,xid,dst,arg⟩ := r
  cases arg with
  | prepare i n =>
    cases handled
    exact inv_preparereq inv sent rfl careful
  | accept i n v =>
    cases handled
    exact inv_acceptreq inv sent rfl careful
  | decide i v =>
    simp only [Acceptor.handle,map_eq_some_iff,Prod.mk.injEq] at handled
    obtain ⟨b,decided,rfl,rfl⟩ := handled
    exact inv_decidereq inv sent rfl decided

end

section
variable (inv : Inv members h0 v0 s)
include inv

lemma inv_setAcceptor
    (acceptor : AcceptorOk s.replies p a) (values : ValuesOk members h0 v0 s.replies a) :
    Inv members h0 v0 (s.setAcceptor p a) := by
  refine { inv with acceptors := ?_, values := ?_ }
  · intro b
    by_cases same : b = p
    · subst same
      simpa [System.setAcceptor] using acceptor
    · simpa [System.setAcceptor,update_of_ne same] using inv.acceptors b
  · intro b
    by_cases same : b = p
    · subst same
      simpa [System.setAcceptor] using values
    · simpa [System.setAcceptor,update_of_ne same] using inv.values b

lemma inv_learn
    (careful : Careful s (.answer p reply)) (mem : reply ∈ s.replies)
    (call : (s.proposers p).call p = some reply.request) :
    Inv members h0 v0 (s.setAcceptor p ((s.proposers p).learn (s.acceptors p) reply.res)) := by
  obtain ⟨r,res⟩ := reply
  have right := (inv.replies _ mem).2
  unfold Proposer.learn
  split
  · next todo accepts currnA w v at_phase answered =>
    simp only at answered
    subst answered
    have named : r.arg = .prepare (s.proposers p).inst (s.proposers p).myN := by
      simp only [Proposer.call,at_phase] at call
      split at call
      all_goals simp_all
      rw [← call]
    simp only [ReplyOk,named] at right
    exact inv_setAcceptor inv (commit_acceptorOk (inv.acceptors p) careful)
      (commit_valuesOk (inv.values p) careful (fun _ => right))
  · exact inv_setAcceptor inv (inv.acceptors p) (inv.values p)

lemma inv_answered
    (received : reply ∈ s.replies) (call : (s.proposers p).call p = some reply.request) :
    Inv members h0 v0 (s.setProposer p
      { s.proposers p with phase := (s.proposers p).phase.answer reply.res, xid := (s.proposers p).xid+1,
                           waiting := false }) := by
  refine inv_phase inv rfl ?_ (phaseOk_answer (inv.proposers p).phase received (inv.replies _ received).2 call)
    (fun v => offers_answer)
  intro idle
  simp only [Proposer.call,idle] at call
  simp at call

lemma inv_answer
    (careful : Careful s (.answer p reply)) (received : reply ∈ s.replies)
    (call : (s.proposers p).call p = some reply.request) :
    Inv members h0 v0 ((s.setAcceptor p ((s.proposers p).learn (s.acceptors p) reply.res)).setProposer p
      { s.proposers p with phase := (s.proposers p).phase.answer reply.res, xid := (s.proposers p).xid+1,
                           waiting := false }) :=
  inv_answered (inv_learn inv careful received call) received call

end

lemma inv_step (s : System) (label : Label) (t : System) (inv : Inv members h0 v0 s) (careful : Careful s label)
    (moved : next members s label = some t) : Inv members h0 v0 t := by
  cases next_step moved with
  | run _ => exact inv_run inv careful.1 (lt_setn careful.2.2)
  | skip => exact inv_skip inv
  | send call => exact inv_send inv call
  | deliver sent handled => exact inv_deliver inv careful sent handled
  | answer received call => exact inv_answer inv careful received call
  | timeout => exact inv_skip inv
  | proceed => exact inv_proceed inv

/-- In every careful run no two acceptors record different values of an instance. -/
theorem acceptors_agree {s : System} (reached : Reach (Init h0 v0) Careful (next members) s) : Agreement s :=
  agreement_of_inv (Reach.invariant (fun _ initial => inv_init initial) inv_step s reached)

/-- Nodes that have decided nothing. -/
def fresh : System :=
  ⟨fun a => ⟨a,⟨0,a⟩,⟨0,a⟩,"",0,fun _ => none⟩,fun p => ⟨⟨0,p⟩,0,"",.idle,0,false⟩,[],[]⟩

lemma fresh_init : Init 0 (fun _ => none) fresh := ⟨fun _ => rfl,fun _ => rfl,rfl,rfl,fun _ _ => rfl⟩

/-- A call that is executed and answered. -/
def exchange (src : String) (xid : Nat) (dst : String) (arg : Arg) (res : Res) : List Label :=
  [.send src,.deliver ⟨src,xid,dst,arg⟩,.answer src ⟨⟨src,xid,dst,arg⟩,res⟩]

/-- One proposer, while the third node does not answer. -/
def oneProposer : List Label :=
  [.run "a" 1 "x"] ++ exchange "a" 0 "a" (.prepare 1 ⟨1,"a"⟩) (.prepared (.accept ⟨0,"a"⟩ "")) ++
  exchange "a" 1 "b" (.prepare 1 ⟨1,"a"⟩) (.prepared (.accept ⟨0,"b"⟩ "")) ++ [.send "a",.timeout "a",.proceed "a"] ++
  exchange "a" 3 "a" (.accept 1 ⟨1,"a"⟩ "x") (.accepted true) ++
  exchange "a" 4 "b" (.accept 1 ⟨1,"a"⟩ "x") (.accepted true) ++ [.proceed "a"] ++
  exchange "a" 5 "a" (.decide 1 "x") .decided ++ exchange "a" 6 "b" (.decide 1 "x") .decided

theorem acceptors_agree_one : ∃ s, run (next ["a","b","c"]) fresh oneProposer = some s ∧
    (s.acceptors "a").values 1 = some "x" ∧ (s.acceptors "b").values 1 = some "x" ∧ Agreement s := by
  have careful : Meets (next ["a","b","c"]) Careful fresh oneProposer := by decide
  exact ⟨_,rfl,by decide,by decide,acceptors_agree (Reach.run oneProposer (.start fresh_init) careful rfl)⟩

/-- In every careful run an acceptor has a value for each instance up to its highest one, and a majority accepted it under one
number. -/
theorem stored_chosen {s : System} (reached : Reach (Init h0 v0) Careful (next members) s) (a : String) (later : h0 < i) :
    (i ≤ (s.acceptors a).instanceH → ((s.acceptors a).values i).isSome) ∧ ∀ v, (s.acceptors a).values i = some v →
      ∃ n l, majority members l = true ∧ ∀ b ∈ l, voted s.replies i b n v := by
  have values := (Reach.invariant (fun _ initial => inv_init initial) inv_step s reached).values a
  refine ⟨values.full i later,fun v found => ?_⟩
  obtain ⟨n,_,⟨l,large,rfl⟩,votes⟩ := (values.known i v found).2 later
  exact ⟨n,l,large,votes⟩

theorem stored_chosen_one : ∃ s, run (next ["a","b","c"]) fresh oneProposer = some s ∧
    ∃ n l, majority ["a","b","c"] l = true ∧ ∀ b ∈ l, voted s.replies 1 b n "x" := by
  have careful : Meets (next ["a","b","c"]) Careful fresh oneProposer := by decide
  exact ⟨_,rfl,(stored_chosen (Reach.run oneProposer (.start fresh_init) careful rfl) "b" Nat.one_pos).2 "x" (by decide)⟩

/-- The node `b` decides its value while the accept requests of `a` are late. -/
def lateAccept : List Label :=
  [.run "a" 1 "x"] ++ exchange "a" 0 "a" (.prepare 1 ⟨1,"a"⟩) (.prepared (.accept ⟨0,"a"⟩ "")) ++
  exchange "a" 1 "b" (.prepare 1 ⟨1,"a"⟩) (.prepared (.accept ⟨0,"b"⟩ "")) ++
  exchange "a" 2 "c" (.prepare 1 ⟨1,"a"⟩) (.prepared (.accept ⟨0,"c"⟩ "")) ++ [.proceed "a"] ++
  [.run "b" 1 "y"] ++ exchange "b" 0 "a" (.prepare 1 ⟨2,"b"⟩) (.prepared (.accept ⟨0,"a"⟩ "")) ++
  exchange "b" 1 "b" (.prepare 1 ⟨2,"b"⟩) (.prepared (.accept ⟨0,"b"⟩ "")) ++ [.skip "b",.proceed "b"] ++
  exchange "b" 2 "a" (.accept 1 ⟨2,"b"⟩ "y") (.accepted true) ++
  exchange "b" 3 "b" (.accept 1 ⟨2,"b"⟩ "y") (.accepted true) ++ [.proceed "b"] ++
  exchange "b" 4 "a" (.decide 1 "y") .decided ++
  exchange "a" 3 "a" (.accept 1 ⟨1,"a"⟩ "x") (.accepted true) ++
  exchange "a" 4 "b" (.accept 1 ⟨1,"a"⟩ "x") (.accepted false) ++
  exchange "a" 5 "c" (.accept 1 ⟨1,"a"⟩ "x") (.accepted true) ++ [.proceed "a"] ++
  exchange "a" 6 "a" (.decide 1 "x") .decided ++ exchange "a" 7 "c" (.decide 1 "x") .decided

/-- The acceptor `a` has decided `y` and then accepts `x`, which `c` decides. -/
theorem late_accept_disagrees : ∃ s, Reach (Init 0 (fun _ => none)) anyStep (next ["a","b","c"]) s ∧
    (s.acceptors "a").values 1 = some "y" ∧ (s.acceptors "c").values 1 = some "x" ∧ ¬ Agreement s := by
  refine ⟨_,Reach.run lateAccept (.start fresh_init) (meets_anyStep _ _) rfl,by decide,by decide,?_⟩
  intro agree
  exact absurd (agree "a" "c" 1 "y" "x" (by decide) (by decide)) (by decide)

end CodeExercise.PaxosAgreement
