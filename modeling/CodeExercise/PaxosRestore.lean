import CodeExercise.PaxosLog

/-! `acceptor::dump` and `acceptor::restore` of `paxos.cc`. -/
namespace CodeExercise.PaxosRestore
open Paxos PaxosLog TextStreams List

/-- The loop of `log::dump`. -/
def dumpLoop : Nat → Istream → String → String
  | 0,_,res => res
  | fuel+1,input,res =>
    let v := input.getline ""
    if v.2.failed then res else dumpLoop fuel v.2 (res ++ v.1 ++ "\n")

/-- `log::dump`. -/
def dump (log : String) : String := dumpLoop (log.toList.length+1) ⟨log.toList,false⟩ ""
/-- `acceptor::restore`: the file is replaced and then read. -/
def restore (s : Node) (dump : String) : Option Node := (logread dump s.acceptor).map (fun a => ⟨a,dump⟩)

/-- The text of a record without its line end. -/
def line : Record → String
  | .done inst v => "done" ++ " "++toString inst ++ " "++v
  | .propseen n => "propseen" ++ " "++toString n.n ++ " "++n.m
  | .accepted n v => "accepted" ++ " " ++ toString n.n ++ " " ++ n.m ++ " " ++ v

lemma text_line (r : Record) : r.text.toList = (line r).toList++['\n'] := by
  cases r <;> simp [Record.text,line,loginstance,logprop,logaccept]

lemma digits_line (n : Nat) : '\n' ∉ Nat.toDigits 10 n := by
  intro mem
  have digit := Nat.isDigit_of_mem_toDigits (by decide) (by decide) mem
  exact absurd digit (by decide)

lemma word_line (isWord : Word s) : Line s := by
  intro mem
  exact absurd (isWord.2 _ mem) (by decide)

lemma line_plain (plain : r.Plain) : Line (line r) := by
  cases r with
  | done inst v =>
    have number := digits_line inst
    have value : '\n' ∉ v.toList := plain.2
    simp [Line,line,number,value]
  | propseen n =>
    have number := digits_line n.n
    have name : '\n' ∉ n.m.toList := word_line plain.2
    simp [Line,line,number,name]
  | accepted n v =>
    have number := digits_line n.n
    have name : '\n' ∉ n.m.toList := word_line plain.2.1
    have value : '\n' ∉ v.toList := plain.2.2
    simp [Line,line,number,name,value]

lemma dumpLoop_text (plain : ∀ r ∈ records, r.Plain)
    (enough : records.length < fuel) :
    (dumpLoop fuel ⟨text records,false⟩ res).toList = res.toList++text records := by
  induction records generalizing fuel res with
  | nil =>
    obtain ⟨rest,rfl⟩ := Nat.exists_eq_add_of_lt enough
    simp [dumpLoop,Istream.getline]
  | cons r records ih =>
    obtain _ | fuel := fuel
    · omega
    have first := line_plain (plain r mem_cons_self)
    have less : records.length < fuel := by
      simp only [length_cons] at enough
      omega
    have split : text (r :: records) = (line r).toList ++ '\n' :: text records := by
      simp [text_line]
    rw [split,dumpLoop]
    simp only [getline_append "" first,if_ff]
    rw [ih (fun r mem => plain r (mem_cons_of_mem _ mem)) less]
    simp

lemma dump_text (plain : ∀ r ∈ records, r.Plain)
    (written : log.toList = text records) : dump log = log := by
  have enough := length_le_text records
  have same : (dump log).toList = log.toList := by
    rw [dump,written,dumpLoop_text plain (by omega)]
    simp
  exact String.toList_inj.mp same

/-- The last decided instance of a log, and the last promise and accepted pair
after it. -/
structure Tail where
  decided : Option Nat
  promised : Option PropT
  accepted : Option (PropT × String)
  deriving DecidableEq

def Tail.add (tail : Tail) : Record → Tail
  | .done inst _ => ⟨some inst,none,none⟩
  | .propseen n => { tail with promised := some n }
  | .accepted n v => { tail with accepted := some (n,v) }

def tail (records : List Record) : Tail := records.foldl Tail.add ⟨none,none,none⟩

/-- Reading a log leaves what it says nothing about, except that a decision resets
the numbers. -/
structure Onto (tail : Tail) (before after : Acceptor) : Prop where
  instanceH : after.instanceH = tail.decided.getD before.instanceH
  nH : match tail.promised,tail.decided with
    | some n,_ => after.nH = n
    | none,some _ => after.nH.n = 0
    | none,none => after.nH = before.nH
  accepted : match tail.accepted,tail.decided with
    | some (n,v),_ => after.nA = n ∧ after.vA = v
    | none,some _ => after.nA.n = 0
    | none,none => after.nA = before.nA ∧ after.vA = before.vA

lemma onto_apply {before after : Acceptor} (onto : Onto known before after) (r : Record) :
    Onto (known.add r) before (Record.apply after r) := by
  obtain ⟨instanceH,nH,accepted⟩ := onto
  cases r with
  | done inst v => exact ⟨rfl,rfl,rfl⟩
  | propseen n => exact ⟨instanceH,rfl,accepted⟩
  | accepted n v => exact ⟨instanceH,nH,rfl,rfl⟩

lemma onto_foldl {before after : Acceptor} (records : List Record) (onto : Onto known before after) :
    Onto (records.foldl Tail.add known) before (records.foldl Record.apply after) := by
  induction records generalizing known after with
  | nil => exact onto
  | cons r rest ih => exact ih (onto_apply onto r)

lemma onto_tail (before : Acceptor) (records : List Record) :
    Onto (tail records) before (records.foldl Record.apply before) :=
  onto_foldl records ⟨rfl,rfl,rfl,rfl⟩

inductive Answer where
  | promise (inst : Nat) (n : PropT)
  | accept (inst : Nat) (n : PropT) (v : String)
  deriving DecidableEq

/-- The promise or acceptance that a call answers with. -/
def answers (s : Node) : Call → List Answer
  | .preparereq inst n => match (s.preparereq inst n).1 with
    | .accept _ _ => [.promise inst n]
    | _ => []
  | .acceptreq inst n v => if (s.acceptreq inst n v).1 then [.accept inst n v] else []
  | .commit _ _ => []

def history (s : Node) : List Call → List Answer
  | [] => []
  | call::rest => answers s call ++ history (s.call call) rest

/-- No instance is taken back, and the promises and the pair that an acceptor holds
for instances that are still undecided stay. The number 0 stands for none. -/
structure Keeps (answered : List Answer) (before after : Acceptor) : Prop where
  instanceH : before.instanceH ≤ after.instanceH
  promises : ∀ i n, .promise i n ∈ answered → 0 < n.n → n ≤ before.nH → after.instanceH < i → n ≤ after.nH
  accepted : ∀ i n v, .accept i n v ∈ answered → 0 < n.n → before.nA = n → before.vA = v → after.instanceH < i →
    after.nA = n ∧ after.vA = v

/-- The log does not end below the acceptor's instance, and after its last decision
it has promises as high and the same pair as the acceptor answered with. -/
structure Covers (answered : List Answer) (before : Acceptor) (tail : Tail) : Prop where
  instanceH : ∀ i, tail.decided = some i → before.instanceH ≤ i
  promises : ∀ i n, .promise i n ∈ answered → 0 < n.n → n ≤ before.nH → tail.decided.getD before.instanceH < i →
    match tail.promised with
    | some m => n ≤ m
    | none => tail.decided = none
  accepted : ∀ i n v, .accept i n v ∈ answered → 0 < n.n → before.nA = n → before.vA = v →
    tail.decided.getD before.instanceH < i →
    match tail.accepted with
    | some (m,w) => m = n ∧ w = v
    | none => tail.decided = none

lemma keeps_iff {before after : Acceptor} {tail : Tail} (onto : Onto tail before after) :
    Keeps answered before after ↔ Covers answered before tail := by
  obtain ⟨instanceH,nH,accepted⟩ := onto
  -- What is said about one promise and about one pair, for each kind of log.
  have promise : ∀ n : PropT, 0 < n.n → n ≤ before.nH → (n ≤ after.nH ↔ match tail.promised with
      | some m => n ≤ m
      | none => tail.decided = none) := by
    intro n positive held
    cases promised : tail.promised with
    | some m => simp only [promised] at nH; rw [nH]
    | none =>
      cases decided : tail.decided with
      | some i =>
        simp only [promised,decided] at nH
        simp only [reduceCtorEq,iff_false,not_le,PropT.lt_def]
        omega
      | none =>
        simp only [promised,decided] at nH
        simp [nH,held]
  have pair : ∀ (n : PropT) v, 0 < n.n → before.nA = n → before.vA = v → (after.nA = n ∧ after.vA = v ↔
      match tail.accepted with
      | some (m,w) => m = n ∧ w = v
      | none => tail.decided = none) := by
    intro n v positive number value
    cases last : tail.accepted with
    | some report =>
      obtain ⟨m,w⟩ := report
      simp only [last] at accepted
      rw [accepted.1,accepted.2]
    | none =>
      cases decided : tail.decided with
      | some i =>
        simp only [last,decided] at accepted
        simp only [reduceCtorEq,iff_false,not_and]
        rintro rfl
        omega
      | none =>
        simp only [last,decided] at accepted
        simp [accepted,number,value]
  constructor
  · rintro ⟨keepsInstance,keepsPromises,keepsAccepted⟩
    refine ⟨?_,?_,?_⟩
    · intro i decided
      rwa [instanceH,decided] at keepsInstance
    · intro i n answer positive held late
      exact (promise n positive held).mp (keepsPromises i n answer positive held (instanceH ▸ late))
    · intro i n v answer positive number value late
      exact (pair n v positive number value).mp (keepsAccepted i n v answer positive number value (instanceH ▸ late))
  · rintro ⟨coversInstance,coversPromises,coversAccepted⟩
    refine ⟨?_,?_,?_⟩
    · rw [instanceH]
      cases decided : tail.decided with
      | some i => exact coversInstance i decided
      | none => exact le_refl _
    · intro i n answer positive held late
      exact (promise n positive held).mpr (coversPromises i n answer positive held (instanceH ▸ late))
    · intro i n v answer positive number value late
      exact (pair n v positive number value).mpr (coversAccepted i n v answer positive number value (instanceH ▸ late))

/-- Restoring from the dump of another node keeps what was answered if and only if
the records of its log cover it. -/
theorem restore_keeps_iff (s other : Node) (answered : List Answer) {records : List Record}
    (plain : ∀ r ∈ records, r.Plain) (written : other.log.toList = text records) :
    ∃ t, restore s (dump other.log) = some t ∧
      (Keeps answered s.acceptor t.acceptor ↔ Covers answered s.acceptor (tail records)) := by
  refine ⟨⟨records.foldl Record.apply s.acceptor,other.log⟩,?_,keeps_iff (onto_tail s.acceptor records)⟩
  rw [dump_text plain written,restore,logread_text plain written]
  rfl

/-- An acceptor that has promised and accepted in instance 3. -/
def promising : List Call := [.commit 2 "a b",.preparereq 3 ⟨1,"b"⟩,.acceptreq 3 ⟨1,"b"⟩ "a b c"]
def promiser : Node := promising.foldl Node.call (Node.create "a" true "a")
def answered : List Answer := history (Node.create "a" true "a") promising

/-- Another acceptor that commits the views. -/
def follower (calls : List Call) : Node := calls.foldl Node.call (Node.create "b" false "")

theorem restore_keeps_iff_ahead :
    ∃ t, restore promiser (dump (follower [.commit 1 "a",.commit 2 "a b",.commit 3 "a b c"]).log) = some t ∧
      Keeps answered promiser.acceptor t.acceptor := by
  have plain : ∀ r ∈ [Record.done 1 "a",.done 2 "a b",.done 3 "a b c"], r.Plain := by decide
  have all : answered = [.promise 3 ⟨1,"b"⟩,.accept 3 ⟨1,"b"⟩ "a b c"] := by decide
  obtain ⟨t,restored,keeps⟩ := restore_keeps_iff promiser
    (follower [.commit 1 "a",.commit 2 "a b",.commit 3 "a b c"]) answered plain (by decide +kernel)
  refine ⟨t,restored,keeps.mpr ⟨?_,?_,?_⟩⟩
  · intro i last
    cases last
    decide
  · intro i n answer _ _ (late : 3 < i)
    simp only [all,mem_cons,Answer.promise.injEq,reduceCtorEq,not_mem_nil,or_false] at answer
    omega
  · intro i n v answer _ _ _ (late : 3 < i)
    simp only [all,mem_cons,Answer.accept.injEq,reduceCtorEq,not_mem_nil,or_false,false_or] at answer
    omega

/-- The log of a node that is behind takes instance 2 back, the log of one that is
not takes the promise and the accepted pair of instance 3 back. -/
theorem restore_forgets :
    (∃ t, restore promiser (dump (follower [.commit 1 "a"]).log) = some t ∧ ¬ Keeps answered promiser.acceptor t.acceptor) ∧
    ∃ t, restore promiser (dump (follower [.commit 1 "a",.commit 2 "a b"]).log) = some t ∧ t.acceptor.instanceH = 2 ∧
      ¬ Keeps answered promiser.acceptor t.acceptor := by
  constructor
  · obtain ⟨t,restored,lower⟩ : ∃ t, restore promiser (dump (follower [.commit 1 "a"]).log) = some t ∧
        t.acceptor.instanceH = 1 := by decide +kernel
    refine ⟨t,restored,?_⟩
    intro keeps
    have upTo : 2 ≤ t.acceptor.instanceH := keeps.instanceH
    omega
  · obtain ⟨t,restored,last,number⟩ : ∃ t, restore promiser (dump (follower [.commit 1 "a",.commit 2 "a b"]).log) = some t ∧
        t.acceptor.instanceH = 2 ∧ t.acceptor.nH.n = 0 := by decide +kernel
    refine ⟨t,restored,last,?_⟩
    intro keeps
    have held := keeps.promises 3 ⟨1,"b"⟩ (by decide) (by decide) (by decide) (by omega)
    rw [PropT.le_def] at held
    simp only at held
    omega

end CodeExercise.PaxosRestore
