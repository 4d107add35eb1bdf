import CodeExercise.Paxos
import CodeExercise.Runs
import CodeExercise.TextStreams

/-!
The views of `config.cc` and the primary that `rsm.cc` computes for them. Each view is the one before
with a member added at its end or taken out. A node may skip views or start in the middle; it keeps a
primary that it finds in the new view, also when that one has left and come back in between
(`returned_primary_differs`).
-/
namespace CodeExercise.RsmPrimary
open Runs TextStreams List Function
open Option (getD_some map_eq_some_iff some)
open Paxos (isamember isamember_iff)

/-- The loop of `config::members`. -/
def membersLoop : Nat → Istream → List String → List String
  | 0,_,view => view
  | fuel+1,ist,view =>
    let m := ist.word ""
    if m.2.failed then view else membersLoop fuel m.2 (view++[m.1])

/-- `config::members`. -/
def members (value : String) : List String := membersLoop (value.toList.length+1) ⟨value.toList,false⟩ []
/-- `config::value`. -/
def value (m : List String) : String := m.foldl (fun ost name => ost ++ name ++ " ") ""

/-- The value that `config::add` proposes. -/
def add (mems : List String) (newM : String) : String := value (mems++[newM])
/-- The value that `config::remove_wo` proposes. -/
def removeWo (mems : List String) (m : String) : String := value (mems.filter (· ≠ m))

/-- The values that the instances agree on: the first one is the name of the first
node, and each later one adds a member to the view before or takes one out. -/
structure Agreed (first : String) (values : Nat → Option String) : Prop where
  named : Word first
  start : values 1 = some first
  unused : values 0 = none
  later : ∀ vid v, 1 ≤ vid → values (vid+1) = some v → ∃ before, values vid = some before ∧
    ((∃ m, Word m ∧ v = add (members before) m) ∨ ∃ m, v = removeWo (members before) m)

/-- `config::get_view`, from the values that the acceptor has. -/
def getView (values : Nat → Option String) (vid : Nat) : List String := members ((values vid).getD "")

/-- A node's `primary` and `vid_commit`, and the values of its acceptor. -/
structure Node where
  primary : String
  vidCommit : Nat
  values : Nat → Option String

/-- `rsm::set_primary`; no result when a `VERIFY` fails. -/
def setPrimary (s : Node) (vid : Nat) : Option Node :=
  let c := getView s.values vid
  let p := getView s.values (vid-1)
  if c.length > 0 then
    if isamember s.primary c then some s
    else if p.length > 0 then (p.find? (isamember · c)).map (fun primary => { s with primary := primary })
    else none
  else none

/-- `rsm::commit_change_wo`. -/
def commitChange (s : Node) (vid : Nat) : Option Node :=
  if vid ≤ s.vidCommit then some s else setPrimary { s with vidCommit := vid } vid

inductive Label where
  /-- The acceptor of a node records the value of an instance, when it decides it or
      from the log that it restores in `join`. -/
  | learn (node : String) (vid : Nat)
  /-- `commit_change` runs at a node, or `recovery` commits the view after a `join`. -/
  | commit (node : String) (vid : Nat)
  deriving DecidableEq

def next (agreed : Nat → Option String) (s : String → Node) : Label → Option (String → Node)
  | .learn node vid =>
    some (update s node { s node with values := update (s node).values vid (agreed vid) })
  | .commit node vid => (commitChange (s node) vid).map (update s node)

/-- The constructor of `rsm`: the first node is the primary. -/
def Init (first : String) (s : String → Node) : Prop := ∀ node, s node = ⟨first,0,fun _ => none⟩

/-- The members of a view that have committed it have the same primary. -/
def PrimariesAgree (agreed : Nat → Option String) (s : String → Node) : Prop :=
  ∀ vid a b, a ∈ getView agreed vid → b ∈ getView agreed vid → (s a).vidCommit = vid → (s b).vidCommit = vid →
    (s a).primary = (s b).primary

/-- The primary of a node that commits a view is in all views that the node skips, or
it is not in the new one. -/
def Steady (agreed : Nat → Option String) (s : String → Node) : Label → Prop
  | .learn _ _ => True
  | .commit node vid => (s node).primary ∈ getView agreed vid →
    ∀ u < vid, (s node).vidCommit < u → (s node).primary ∈ getView agreed u
instance (agreed : Nat → Option String) (s : String → Node) : (label : Label) → Decidable (Steady agreed s label)
  | .learn _ _ => isTrue trivial
  | .commit _ _ => decideAs (_ → _)

lemma membersLoop_space (fuel : Nat) (rest : List Char) (view : List String) :
    membersLoop fuel ⟨' '::rest,false⟩ view = membersLoop fuel ⟨rest,false⟩ view := by
  cases fuel with
  | zero => rfl
  | succ fuel => simp only [membersLoop,word_space "" isspace_blank]

lemma value_toList (ost : String) (m : List String) :
    (m.foldl (fun ost name => ost ++ name ++ " ") ost).toList = ost.toList ++ m.flatMap (fun name => name.toList ++ [' ']) := by
  induction m generalizing ost with
  | nil => simp
  | cons name m ih =>
    rw [foldl_cons,ih]
    simp

lemma membersLoop_value (named : ∀ name ∈ m, Word name)
    (enough : m.length < fuel) :
    membersLoop fuel ⟨m.flatMap (fun name => name.toList ++ [' ']),false⟩ view = view++m := by
  induction m generalizing fuel view with
  | nil =>
    obtain ⟨rest,rfl⟩ := Nat.exists_eq_add_of_lt enough
    simp [membersLoop,Istream.word]
  | cons name m ih =>
    obtain _ | fuel := fuel
    · omega
    have less : m.length < fuel := by
      simp only [length_cons] at enough
      omega
    have split : (name::m).flatMap (fun name => name.toList ++ [' ']) =
        name.toList ++ ' '::m.flatMap (fun name => name.toList ++ [' ']) := by simp
    rw [split,membersLoop]
    simp only [word_append "" (named name mem_cons_self) isspace_blank,Bool.false_eq_true,
      if_false]
    rw [membersLoop_space,ih (fun other mem => named other (mem_cons_of_mem _ mem)) less]
    simp

lemma members_value (named : ∀ name ∈ m, Word name) : members (value m) = m := by
  have text : (value m).toList = m.flatMap (fun name => name.toList ++ [' ']) := by
    simpa [value] using value_toList "" m
  have enough : m.length ≤ (m.flatMap (fun name => name.toList ++ [' '])).length := by
    clear text named
    induction m with
    | nil => simp
    | cons name m ih =>
      simp only [flatMap_cons,length_append,length_cons,length_nil]
      omega
  rw [members,text,membersLoop_value named (by omega)]
  simp

lemma members_word (named : Word name) : members name = [name] := by
  obtain ⟨fuel,size⟩ : ∃ n, name.toList.length = n+1 :=
    ⟨name.toList.length-1,by have := length_pos_iff.mpr named.1; omega⟩
  rw [members,size,membersLoop]
  simp only [word_end "" named,if_ff]
  simp [membersLoop,Istream.word]

section
variable {first : String} {agreed : Nat → Option String}

lemma getView_none (missing : values vid = none) :
    getView values vid = [] := by
  simp [getView,missing,members,membersLoop,Istream.word]

section
variable (sequence : Agreed first agreed)
include sequence

/-- All members of the agreed views have names, and the members of the next view are
those of the one before with one added or taken out. -/
lemma Agreed.getView_succ (pos : 1 ≤ vid) :
    (∀ name ∈ getView agreed vid, Word name) ∧ (agreed (vid+1) = none ∨
      (∃ m, Word m ∧ getView agreed (vid+1) = getView agreed vid ++ [m]) ∨
      ∃ m, getView agreed (vid+1) = (getView agreed vid).filter (· ≠ m)) := by
  have step : ∀ k, 1 ≤ k → (∀ name ∈ getView agreed k, Word name) → agreed (k+1) = none ∨
      (∃ m, Word m ∧ getView agreed (k+1) = getView agreed k ++ [m]) ∨
      ∃ m, getView agreed (k+1) = (getView agreed k).filter (· ≠ m) := by
    intro k pos named
    cases v : agreed (k+1) with
    | none => exact .inl rfl
    | some text =>
      right
      obtain ⟨before,known,⟨m,word,rfl⟩ | ⟨m,rfl⟩⟩ := sequence.later k text pos v
      · left
        refine ⟨m,word,?_⟩
        simp only [getView,v,known,getD_some,add] at named ⊢
        exact members_value (by simpa [or_imp,forall_and] using ⟨named,word⟩)
      · right
        refine ⟨m,?_⟩
        simp only [getView,v,known,getD_some,removeWo] at named ⊢
        exact members_value fun name mem => named name (mem_filter.mp mem).1
  have named : ∀ name ∈ getView agreed vid, Word name := by
    induction vid, pos using Nat.le_induction with
    | base => simp [getView,sequence.start,members_word sequence.named,sequence.named]
    | succ k pos ih =>
      rcases step k pos ih with missing | ⟨m,word,view⟩ | ⟨m,view⟩
      · simp [getView_none missing]
      · simpa [view,or_imp,forall_and] using ⟨ih,word⟩
      · intro name mem
        exact ih name (mem_filter.mp (view ▸ mem)).1
  exact ⟨named,step vid pos named⟩

lemma Agreed.getView_one : getView agreed 1 = [first] := by
  simp [getView,sequence.start,members_word sequence.named]

/-- The first of a view stays the first of the next one as long as it is a member. -/
lemma Agreed.head?_succ (pos : 1 ≤ vid)
    (head : (getView agreed vid).head? = some p) (stays : p ∈ getView agreed (vid+1)) :
    (getView agreed (vid+1)).head? = some p := by
  obtain ⟨rest,view⟩ : ∃ rest, getView agreed vid = p::rest := by
    cases at_vid : getView agreed vid with
    | nil => simp [at_vid] at head
    | cons q rest => exact ⟨rest,by simpa [at_vid] using head⟩
  rcases (sequence.getView_succ pos).2 with missing | ⟨m,_,after⟩ | ⟨m,after⟩
  · simp [getView_none missing] at stays
  · simp [after,view]
  · have kept : p ≠ m := by
      rw [after,mem_filter] at stays
      simpa using stays.2
    simp [after,view,kept]

lemma Agreed.head?_later {vid later : Nat} {p : String} (pos : 1 ≤ vid)
    (head : (getView agreed vid).head? = some p) (order : vid ≤ later)
    (stays : ∀ u, vid < u → u ≤ later → p ∈ getView agreed u) : (getView agreed later).head? = some p := by
  induction later, order using Nat.le_induction with
  | base => exact head
  | succ k order ih =>
    have before := ih (fun u above upto => stays u above (by omega))
    exact sequence.head?_succ (by omega) before (stays (k+1) (by omega) le_rfl)

/-- The first of a view that is in the next one is the first of the next one, unless
the next one has only the node that was added. -/
lemma Agreed.find?_succ (pos : 1 ≤ vid)
    (found : (getView agreed vid).find? (isamember · (getView agreed (vid+1))) = some p) :
    (getView agreed (vid+1)).head? = some p := by
  rcases (sequence.getView_succ pos).2 with missing | ⟨m,_,after⟩ | ⟨m,after⟩
  · have mem := find?_some found
    simp [getView_none missing,isamember_iff] at mem
  · cases view : getView agreed vid with
    | nil => simp [view] at found
    | cons q rest =>
      have stays : isamember q (getView agreed (vid+1)) = true := by simp [isamember_iff,after,view]
      rw [view,find?_cons,stays] at found
      simpa [after,view] using found
  · rw [after] at found ⊢
    rw [← head?_filter] at found
    rw [← found]
    congr 1
    apply filter_congr
    intro name mem
    rw [Bool.eq_iff_iff]
    simp [isamember_iff,mem]

end

lemma getView_learned
    (learned : ∀ vid v, values vid = some v → agreed vid = some v) (filled : 0 < (getView values vid).length) :
    getView values vid = getView agreed vid := by
  cases known : values vid with
  | none => simp [getView_none known] at filled
  | some v => simp [getView,known,learned vid v known]

/-- A node knows only agreed values, and its primary is the first of the view that it
has committed. -/
def Heads (first : String) (agreed : Nat → Option String) (n : Node) : Prop :=
  (∀ vid v, n.values vid = some v → agreed vid = some v) ∧
  (n.vidCommit = 0 ∧ n.primary = first ∨ 1 ≤ n.vidCommit ∧ (getView agreed n.vidCommit).head? = some n.primary)

lemma Heads.learn (heads : Heads first agreed n) :
    Heads first agreed { n with values := update n.values vid (agreed vid) } := by
  obtain ⟨learned,primary⟩ := heads
  refine ⟨?_,primary⟩
  intro other v known
  by_cases here : other = vid
  · subst here
    simpa using known
  · exact learned other v (by simpa [update_of_ne here] using known)

/-- A primary that a node keeps over the views it skips is the first of the new view. -/
lemma Heads.kept (sequence : Agreed first agreed) {n : Node} {vid : Nat} (heads : Heads first agreed n)
    (later : n.vidCommit < vid) (stays : ∀ u, n.vidCommit < u → u ≤ vid → n.primary ∈ getView agreed u) :
    (getView agreed vid).head? = some n.primary := by
  rcases heads.2 with ⟨fresh,primary⟩ | ⟨pos,head⟩
  · have head : (getView agreed 1).head? = some n.primary := by simp [sequence.getView_one,primary]
    exact sequence.head?_later le_rfl head (by omega) fun u above upto => stays u (by omega) upto
  · exact sequence.head?_later pos head (by omega) stays

lemma Heads.commitChange (sequence : Agreed first agreed) (heads : Heads first agreed n)
    (steady : n.primary ∈ getView agreed vid → ∀ u < vid, n.vidCommit < u → n.primary ∈ getView agreed u)
    (committed : commitChange n vid = some t) : Heads first agreed t := by
  simp only [RsmPrimary.commitChange,setPrimary] at committed
  by_cases old : vid ≤ n.vidCommit
  · rw [if_pos old,some.injEq] at committed
    exact committed ▸ heads
  · rw [if_neg old] at committed
    split at committed
    · next filled =>
      have view := getView_learned heads.1 filled
      split at committed
      · next mem =>
        -- the primary is found in the new view
        rw [isamember_iff,view] at mem
        have head : (getView agreed vid).head? = some n.primary := by
          refine heads.kept sequence (by omega) fun u above upto => ?_
          rcases Nat.lt_or_eq_of_le upto with below | rfl
          · exact steady mem u below above
          · exact mem
        cases committed
        exact ⟨heads.1,.inr ⟨by simp only; omega,head⟩⟩
      · split at committed
        · next before =>
          -- the primary is taken from the previous view
          obtain ⟨p,found,rfl⟩ := map_eq_some_iff.mp committed
          have prior := getView_learned heads.1 before
          obtain ⟨k,rfl⟩ : ∃ k, vid = k+1 := ⟨vid-1,by omega⟩
          have pos : 1 ≤ k := by
            rcases Nat.eq_zero_or_pos k with rfl | pos
            · have empty : getView n.values (0+1-1) = [] := prior.trans (getView_none sequence.unused)
              rw [empty] at before
              exact absurd before (by simp)
            · exact pos
          rw [view,prior,Nat.add_sub_cancel] at found
          exact ⟨heads.1,.inr ⟨by simp only; omega,sequence.find?_succ pos found⟩⟩
        · cases committed
    · cases committed

/-- The members of a view that have committed it have the same primary, in every run
in which no node finds its primary again after it had left. -/
theorem primaries_agree (sequence : Agreed first agreed) {s : String → Node}
    (reached : Reach (Init first) (Steady agreed) (next agreed) s) : PrimariesAgree agreed s := by
  have heads : ∀ s, Reach (Init first) (Steady agreed) (next agreed) s → ∀ node, Heads first agreed (s node) := by
    apply Reach.invariant
    · intro s init node
      rw [init node]
      exact ⟨by simp,.inl ⟨rfl,rfl⟩⟩
    · intro s label t inv steady moved node
      cases label with
      | learn other vid =>
        cases moved
        by_cases here : node = other
        · subst here
          simpa using (inv node).learn
        · simpa [update_of_ne here] using inv node
      | commit other vid =>
        obtain ⟨after,committed,rfl⟩ := map_eq_some_iff.mp moved
        by_cases here : node = other
        · subst here
          simpa using (inv node).commitChange sequence steady committed
        · simpa [update_of_ne here] using inv node
  intro vid a b mem _ ofA ofB
  have pos : vid ≠ 0 := by
    rintro rfl
    simp [getView_none sequence.unused] at mem
  have headA := ((heads s reached a).2.resolve_left (by omega)).2
  have headB := ((heads s reached b).2.resolve_left (by omega)).2
  rw [ofA] at headA
  rw [ofB,headA] at headB
  exact some.inj headB

end

/-- The first node leaves the view and comes back. -/
def returning : Nat → Option String
  | 1 => some "a"
  | 2 => some "a b "
  | 3 => some "a b c "
  | 4 => some "b c "
  | 5 => some "b c a "
  | _ => none

lemma returning_agreed : Agreed "a" returning := by
  refine ⟨by decide,rfl,rfl,?_⟩
  intro vid v pos known
  match vid with
  | 1 => exact ⟨"a",rfl,.inl ⟨"b",by decide,(some.inj known).symm.trans (by decide)⟩⟩
  | 2 => exact ⟨"a b ",rfl,.inl ⟨"c",by decide,(some.inj known).symm.trans (by decide)⟩⟩
  | 3 => exact ⟨"a b c ",rfl,.inr ⟨"a",(some.inj known).symm.trans (by decide)⟩⟩
  | 4 => exact ⟨"b c ",rfl,.inl ⟨"a",by decide,(some.inj known).symm.trans (by decide)⟩⟩
  | n+5 => simp [returning] at known

def started : String → Node := fun _ => ⟨"a",0,fun _ => none⟩

/-- Node `b` joins in the second view, and node `c` in the third. -/
def joins : List Label :=
  [.learn "b" 1,.learn "b" 2,.commit "b" 2,.learn "b" 3,.commit "b" 3,
    .learn "c" 1,.learn "c" 2,.learn "c" 3,.commit "c" 3]
/-- Both go through the two later views in order. -/
def inOrder : List Label :=
  joins ++ [.learn "b" 4,.commit "b" 4,.learn "b" 5,.commit "b" 5,
    .learn "c" 4,.commit "c" 4,.learn "c" 5,.commit "c" 5]
/-- Node `c` commits the last view only. -/
def skipping : List Label :=
  joins ++ [.learn "b" 4,.commit "b" 4,.learn "b" 5,.commit "b" 5,.learn "c" 4,.learn "c" 5,.commit "c" 5]

theorem primaries_agree_in_order : ∃ s, run (next returning) started inOrder = some s ∧
    Meets (next returning) (Steady returning) started inOrder ∧ (s "b").vidCommit = 5 ∧ (s "c").vidCommit = 5 ∧
    (s "b").primary = "b" ∧ PrimariesAgree returning s := by
  have meets : Meets (next returning) (Steady returning) started inOrder := by decide +kernel
  obtain ⟨s,ran,ofB,ofC,primary⟩ : ∃ s, run (next returning) started inOrder = some s ∧ (s "b").vidCommit = 5 ∧
      (s "c").vidCommit = 5 ∧ (s "b").primary = "b" := by decide +kernel
  have start : Reach (Init "a") (Steady returning) (next returning) started := .start (fun _ => rfl)
  exact ⟨s,ran,meets,ofB,ofC,primary,primaries_agree returning_agreed (start.run inOrder meets ran)⟩

theorem returned_primary_differs : Agreed "a" returning ∧ Init "a" started ∧
    ∃ s, run (next returning) started skipping = some s ∧ getView returning 5 = ["b","c","a"] ∧
      (s "b").vidCommit = 5 ∧ (s "c").vidCommit = 5 ∧ (s "b").primary = "b" ∧ (s "c").primary = "a" ∧
      ¬PrimariesAgree returning s := by
  obtain ⟨s,ran,ofB,ofC,primaryB,primaryC⟩ : ∃ s, run (next returning) started skipping = some s ∧ (s "b").vidCommit = 5 ∧
      (s "c").vidCommit = 5 ∧ (s "b").primary = "b" ∧ (s "c").primary = "a" := by decide +kernel
  have view : getView returning 5 = ["b","c","a"] := by decide +kernel
  refine ⟨returning_agreed,fun _ => rfl,s,ran,view,ofB,ofC,primaryB,primaryC,?_⟩
  intro agree
  have same := agree 5 "b" "c" (by simp [view]) (by simp [view]) ofB ofC
  rw [primaryB,primaryC] at same
  exact absurd same (by decide)

end CodeExercise.RsmPrimary
