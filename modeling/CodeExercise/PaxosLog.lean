import CodeExercise.Paxos
import CodeExercise.TextStreams

/-!
The log of `log.cc` and the acceptor that writes it. `logread` mixes words, numbers, a skipped
character and lines. The records that an acceptor has written lead to its state again (`logread_live`),
with two exceptions: the name in a number 0 is not kept, and a prepare request for a passed instance
that was never committed leaves an empty entry in `values` that is not logged.
-/
namespace CodeExercise.PaxosLog
open Paxos TextStreams List Function

/-- `log::loginstance`. -/
def loginstance (log : String) (inst : Nat) (v : String) : String :=
  log ++ "done" ++ " " ++ toString inst ++ " " ++ v ++ "\n"
/-- `log::logprop`. -/
def logprop (log : String) (n : PropT) : String :=
  log ++ "propseen" ++ " " ++ toString n.n ++ " " ++ n.m ++ "\n"
/-- `log::logaccept`. -/
def logaccept (log : String) (n : PropT) (v : String) : String :=
  log ++ "accepted" ++ " " ++ toString n.n ++ " " ++ n.m ++ " " ++ v ++ "\n"

/-- An acceptor and its log file. -/
structure Node where
  acceptor : Acceptor
  log : String

/-- The fields that the constructor sets before it reads the log. -/
def blank (me : String) : Acceptor := ⟨me,⟨0,me⟩,⟨0,me⟩,"",0,fun _ => none⟩

/-- `acceptor::acceptor` at a node without a log file. -/
def Node.create (me : String) (first : Bool) (value : String) : Node :=
  if first then ⟨{ blank me with values := update (blank me).values 1 (some value), instanceH := 1 },
    loginstance "" 1 value⟩
  else ⟨blank me,""⟩

/-- `preparereq` logs the number that it promises. -/
def Node.preparereq (s : Node) (inst : Nat) (n : PropT) : PrepareRes × Node :=
  match s.acceptor.preparereq inst n with
  | (.accept nA vA,a) => (.accept nA vA,⟨a,logprop s.log a.nH⟩)
  | (r,a) => (r,⟨a,s.log⟩)
/-- `acceptreq` logs the pair that it accepts. -/
def Node.acceptreq (s : Node) (inst : Nat) (n : PropT) (v : String) : Bool × Node :=
  match s.acceptor.acceptreq inst n v with
  | (true,a) => (true,⟨a,logaccept s.log a.nA a.vA⟩)
  | (false,a) => (false,⟨a,s.log⟩)
/-- `commit_wo` logs the value of a new instance. -/
def Node.commit (s : Node) (inst : Nat) (value : String) : Node :=
  ⟨s.acceptor.commit inst value,if inst > s.acceptor.instanceH then loginstance s.log inst value else s.log⟩

inductive Call where
  | preparereq (inst : Nat) (n : PropT)
  | acceptreq (inst : Nat) (n : PropT) (v : String)
  | commit (inst : Nat) (v : String)
  deriving DecidableEq

def Node.call (s : Node) : Call → Node
  | .preparereq inst n => (s.preparereq inst n).2
  | .acceptreq inst n v => (s.acceptreq inst n v).2
  | .commit inst v => s.commit inst v

/-- The loop of `log::logread`, with the variable `instance`; no result when the
type of a record is unknown (`VERIFY(0)`). -/
def logreadLoop : Nat → Istream → Nat → Acceptor → Option Acceptor
  | 0,_,_,_ => none
  | fuel+1,input,inst,pxs =>
    let type := input.word ""
    if type.2.failed then some pxs
    else if type.1 = "done" then
      let number := type.2.unsignedInt inst
      let v := number.2.get.getline ""
      logreadLoop fuel v.2 number.1
        { pxs with values := update pxs.values number.1 (some v.1), instanceH := number.1, vA := "",
                   nH := { pxs.nH with n := 0 }, nA := { pxs.nA with n := 0 } }
    else if type.1 = "propseen" then
      let n := type.2.unsignedInt pxs.nH.n
      let m := n.2.word pxs.nH.m
      logreadLoop fuel m.2 inst { pxs with nH := ⟨n.1,m.1⟩ }
    else if type.1 = "accepted" then
      let n := type.2.unsignedInt pxs.nA.n
      let m := n.2.word pxs.nA.m
      let v := m.2.get.getline ""
      logreadLoop fuel v.2 inst { pxs with nA := ⟨n.1,m.1⟩, vA := v.1 }
    else none

/-- `log::logread`. Each turn of the loop reads at least one character. -/
def logread (log : String) (pxs : Acceptor) : Option Acceptor :=
  logreadLoop (log.toList.length+1) ⟨log.toList,false⟩ 0 pxs

inductive Record where
  | done (inst : Nat) (v : String)
  | propseen (n : PropT)
  | accepted (n : PropT) (v : String)
  deriving DecidableEq

def Record.text : Record → String
  | .done inst v => loginstance "" inst v
  | .propseen n => logprop "" n
  | .accepted n v => logaccept "" n v

/-- What `logread` does with a record. -/
def Record.apply (pxs : Acceptor) : Record → Acceptor
  | .done inst v =>
    { pxs with values := update pxs.values inst (some v), instanceH := inst, vA := "",
               nH := { pxs.nH with n := 0 }, nA := { pxs.nA with n := 0 } }
  | .propseen n => { pxs with nH := n }
  | .accepted n v => { pxs with nA := n, vA := v }

/-- The numbers are 32-bit, names are words and values are lines. -/
def Record.Plain : Record → Prop
  | .done inst v => inst < 2^32 ∧ Line v
  | .propseen n => n.n < 2^32 ∧ Word n.m
  | .accepted n v => n.n < 2^32 ∧ Word n.m ∧ Line v
instance : (r : Record) → Decidable r.Plain
  | .done _ _ | .propseen _ | .accepted _ _ => decideAs (_ ∧ _)

/-- The text of a log with the records. -/
def text (records : List Record) : List Char := records.flatMap (fun r => r.text.toList)

@[simp] lemma text_nil : text [] = [] := rfl
@[simp] lemma text_cons (r : Record) (records : List Record) : text (r::records) = r.text.toList++text records :=
  rfl
@[simp] lemma text_append (left right : List Record) : text (left++right) = text left ++ text right := by
  simp [text]

section Read
variable {fuel inst : Nat} {rest : List Char} {pxs : Acceptor}

lemma logreadLoop_space : logreadLoop fuel ⟨'\n'::rest,false⟩ inst pxs = logreadLoop fuel ⟨rest,false⟩ inst pxs := by
  cases fuel with
  | zero => rfl
  | succ fuel => simp only [logreadLoop,word_space "" isspace_newline]

lemma logreadLoop_done (range : i < 2^32) (isLine : Line v) :
    logreadLoop (fuel+1) ⟨(Record.done i v).text.toList++rest,false⟩ inst pxs =
      logreadLoop fuel ⟨rest,false⟩ i (Record.apply pxs (.done i v)) := by
  have split : (Record.done i v).text.toList ++ rest =
      "done".toList ++ ' ' :: (Nat.toDigits 10 i ++ ' ' :: (v.toList ++ '\n' :: rest)) := by
    simp [Record.text,loginstance]
  have isWord : Word "done" := by decide
  rw [split,logreadLoop]
  simp only [word_append "" isWord isspace_blank,if_ff,if_true,
    unsignedInt_append inst range (show ' '.isDigit = false by decide),Istream.get,getline_append "" isLine]
  rfl

lemma logreadLoop_propseen (range : n.n < 2^32) (named : Word n.m) :
    logreadLoop (fuel+1) ⟨(Record.propseen n).text.toList++rest,false⟩ inst pxs =
      logreadLoop fuel ⟨rest,false⟩ inst (Record.apply pxs (.propseen n)) := by
  have split : (Record.propseen n).text.toList ++ rest =
      "propseen".toList ++ ' ' :: (Nat.toDigits 10 n.n ++ ' ' :: (n.m.toList ++ '\n' :: rest)) := by
    simp [Record.text,logprop]
  have isWord : Word "propseen" := by decide
  have other : ¬ "propseen" = "done" := by decide
  rw [split,logreadLoop]
  simp only [word_append "" isWord isspace_blank,if_ff,if_true,other,
    unsignedInt_append _ range (show ' '.isDigit = false by decide),word_space _ isspace_blank,
    word_append _ named isspace_newline]
  exact logreadLoop_space

lemma logreadLoop_accepted (range : n.n < 2^32) (named : Word n.m) (isLine : Line v) :
    logreadLoop (fuel+1) ⟨(Record.accepted n v).text.toList++rest,false⟩ inst pxs =
      logreadLoop fuel ⟨rest,false⟩ inst (Record.apply pxs (.accepted n v)) := by
  have split : (Record.accepted n v).text.toList ++ rest =
      "accepted".toList ++ ' ' :: (Nat.toDigits 10 n.n ++ ' ' :: (n.m.toList ++ ' ' :: (v.toList ++ '\n' :: rest))) := by
    simp [Record.text,logaccept]
  have isWord : Word "accepted" := by decide
  have notDone : ¬ "accepted" = "done" := by decide
  have notPropseen : ¬ "accepted" = "propseen" := by decide
  rw [split,logreadLoop]
  simp only [word_append "" isWord isspace_blank,if_ff,if_true,notDone,
    notPropseen,unsignedInt_append _ range (show ' '.isDigit = false by decide),
    word_space _ isspace_blank,word_append _ named isspace_blank,
    Istream.get,getline_append "" isLine]
  rfl

end Read

lemma logreadLoop_text (plain : ∀ r ∈ records, r.Plain)
    (enough : records.length < fuel) :
    logreadLoop fuel ⟨text records,false⟩ inst pxs = some (records.foldl Record.apply pxs) := by
  induction records generalizing fuel inst pxs with
  | nil =>
    obtain ⟨rest,rfl⟩ := Nat.exists_eq_add_of_lt enough
    simp [logreadLoop,Istream.word]
  | cons r records ih =>
    obtain _ | fuel := fuel
    · omega
    have rest := fun r mem => plain r (mem_cons_of_mem _ mem)
    have less : records.length < fuel := by
      simp only [length_cons] at enough
      omega
    have first := plain r mem_cons_self
    rw [text_cons,foldl_cons]
    cases r with
    | done i v => rw [logreadLoop_done first.1 first.2,ih rest less]
    | propseen n => rw [logreadLoop_propseen first.1 first.2,ih rest less]
    | accepted n v => rw [logreadLoop_accepted first.1 first.2.1 first.2.2,ih rest less]

lemma length_le_text (records : List Record) : records.length ≤ (text records).length := by
  induction records with
  | nil => simp
  | cons r records ih =>
    have filled : 0 < r.text.toList.length := by
      cases r <;> simp [Record.text,loginstance,logprop,logaccept]
    simp only [text_cons,length_append,length_cons]
    omega

lemma logread_text (plain : ∀ r ∈ records, r.Plain)
    (written : log.toList = text records) (pxs : Acceptor) :
    logread log pxs = some (records.foldl Record.apply pxs) := by
  have enough := length_le_text records
  rw [logread,written]
  exact logreadLoop_text plain (by omega)

/-- The names of the requests are words, the values are lines, numbers are 32-bit. -/
def Call.Plain : Call → Prop
  | .preparereq inst n => inst < 2^32 ∧ n.n < 2^32 ∧ Word n.m
  | .acceptreq inst n v => inst < 2^32 ∧ n.n < 2^32 ∧ Word n.m ∧ Line v
  | .commit inst v => inst < 2^32 ∧ Line v
instance : (call : Call) → Decidable call.Plain
  | .preparereq _ _ | .acceptreq _ _ _ | .commit _ _ => decideAs (_ ∧ _)

/-- What a call adds to the log. -/
def Node.writes (s : Node) : Call → List Record
  | .preparereq inst n => if inst > s.acceptor.instanceH ∧ n.gt s.acceptor.nH then [.propseen n] else []
  | .acceptreq _ n v => if n.ge s.acceptor.nH then [.accepted n v] else []
  | .commit inst v => if inst > s.acceptor.instanceH then [.done inst v] else []

lemma writes_plain {s : Node} {call : Call} (plain : call.Plain) : ∀ r ∈ s.writes call, r.Plain := by
  cases call with
  | preparereq inst n | acceptreq inst n v | commit inst v =>
    simp only [Node.writes]
    split <;> simp_all [Call.Plain,Record.Plain]

lemma loginstance_toList (log : String) (inst : Nat) (v : String) :
    (loginstance log inst v).toList = log.toList++text [.done inst v] := by
  simp [loginstance,text,Record.text]
lemma logprop_toList (log : String) (n : PropT) : (logprop log n).toList = log.toList++text [.propseen n] := by
  simp [logprop,text,Record.text]
lemma logaccept_toList (log : String) (n : PropT) (v : String) :
    (logaccept log n v).toList = log.toList++text [.accepted n v] := by
  simp [logaccept,text,Record.text]

lemma call_log (s : Node) (call : Call) : (s.call call).log.toList = s.log.toList++text (s.writes call) := by
  cases call with
  | preparereq inst n =>
    simp only [Node.call,Node.preparereq,Acceptor.preparereq,Node.writes]
    by_cases old : inst ≤ s.acceptor.instanceH
    · simp [old,not_lt.mpr old]
    · by_cases higher : n.gt s.acceptor.nH = true
      · simp [old,higher,logprop_toList,not_le.mp old]
      · simp [old,higher]
  | acceptreq inst n v =>
    simp only [Node.call,Node.acceptreq,Acceptor.acceptreq,Node.writes]
    by_cases high : n.ge s.acceptor.nH = true
    · simp [high,logaccept_toList]
    · simp [high]
  | commit inst v =>
    simp only [Node.call,Node.commit,Node.writes]
    by_cases above : inst > s.acceptor.instanceH
    · simp [above,loginstance_toList]
    · simp [above]

/-- The same proposal number, up to the name when the number is 0. -/
def SameN (x y : PropT) : Prop := x.n = y.n ∧ (x.n ≠ 0 → x.m = y.m)

/-- The state read from the log and the live one. An entry of `values` may be
missing where the live one is empty, below the highest instance. -/
structure Replays (live read : Acceptor) : Prop where
  instanceH : read.instanceH = live.instanceH
  vA : read.vA = live.vA
  nH : SameN read.nH live.nH
  nA : SameN read.nA live.nA
  values : ∀ i, read.values i = live.values i ∨
    (read.values i = none ∧ live.values i = some "" ∧ i ≤ live.instanceH)

lemma replays_preparereq {live read : Acceptor} {inst : Nat} {n : PropT} (log : String) (replays : Replays live read) :
    Replays ((Node.call ⟨live,log⟩ (.preparereq inst n)).acceptor)
      ((Node.writes ⟨live,log⟩ (.preparereq inst n)).foldl Record.apply read) := by
  simp only [Node.call,Node.preparereq,Acceptor.preparereq,Node.writes]
  by_cases old : inst ≤ live.instanceH
  · simp only [old,if_true,gt_iff_lt,not_lt.mpr old,false_and,if_false,foldl_nil]
    refine { replays with values := ?_ }
    intro i
    by_cases same : i = inst
    · subst same
      simp only [update_self]
      -- An entry that is missing is read as empty and then there.
      cases found : live.values i with
      | some v => simpa [found] using replays.values i
      | none =>
        right
        have missing := replays.values i
        simp only [found,reduceCtorEq,false_and,and_false,or_false] at missing
        exact ⟨missing,rfl,old⟩
    · simpa only [update_of_ne same] using replays.values i
  · by_cases higher : n.gt live.nH = true
    · simp only [old,higher,if_false,if_true,gt_iff_lt,not_le.mp old,and_self,foldl_cons,foldl_nil]
      exact { replays with nH := ⟨rfl,fun _ => rfl⟩ }
    · simpa only [old,higher,if_false,and_false,Bool.false_eq_true,foldl_nil] using replays

lemma replays_acceptreq {live read : Acceptor} {inst : Nat} {n : PropT} {v : String} (log : String)
    (replays : Replays live read) :
    Replays ((Node.call ⟨live,log⟩ (.acceptreq inst n v)).acceptor)
      ((Node.writes ⟨live,log⟩ (.acceptreq inst n v)).foldl Record.apply read) := by
  simp only [Node.call,Node.acceptreq,Acceptor.acceptreq,Node.writes]
  by_cases high : n.ge live.nH = true
  · simp only [high,if_true,foldl_cons,foldl_nil]
    exact { replays with vA := rfl, nA := ⟨rfl,fun _ => rfl⟩ }
  · simpa only [high,if_false,Bool.false_eq_true,foldl_nil] using replays

lemma replays_commit {live read : Acceptor} {inst : Nat} {v : String} (log : String) (replays : Replays live read) :
    Replays ((Node.call ⟨live,log⟩ (.commit inst v)).acceptor)
      ((Node.writes ⟨live,log⟩ (.commit inst v)).foldl Record.apply read) := by
  simp only [Node.call,Node.commit,Acceptor.commit,Node.writes]
  by_cases above : inst > live.instanceH
  · simp only [above,if_true,foldl_cons,foldl_nil]
    refine ⟨rfl,rfl,⟨rfl,by simp [Record.apply]⟩,⟨rfl,by simp [Record.apply]⟩,?_⟩
    intro i
    by_cases same : i = inst
    · subst same
      simp [Record.apply]
    · simp only [Record.apply,update_of_ne same]
      refine (replays.values i).imp id ?_
      rintro ⟨missing,empty,upTo⟩
      exact ⟨missing,empty,by omega⟩
  · simpa only [above,if_false,foldl_nil] using replays

/-- The records in the log of a node replay to its state. -/
def Logged (me : String) (s : Node) : Prop :=
  ∃ records : List Record, (∀ r ∈ records, r.Plain) ∧ s.log.toList = text records ∧
    Replays s.acceptor (records.foldl Record.apply (blank me))

lemma logged_create (me : String) (first : Bool) (isLine : Line value) :
    Logged me (Node.create me first value) := by
  cases first with
  | true =>
    refine ⟨[.done 1 value],?_,loginstance_toList _ _ _,?_⟩
    · intro r mem
      rw [mem_singleton.mp mem]
      exact ⟨by decide,isLine⟩
    · exact ⟨rfl,rfl,⟨rfl,fun _ => rfl⟩,⟨rfl,fun _ => rfl⟩,fun _ => .inl rfl⟩
  | false =>
    refine ⟨[],by simp,rfl,?_⟩
    exact ⟨rfl,rfl,⟨rfl,fun _ => rfl⟩,⟨rfl,fun _ => rfl⟩,fun _ => .inl rfl⟩

lemma logged_call {me : String} {s : Node} {call : Call} (logged : Logged me s) (plain : call.Plain) :
    Logged me (s.call call) := by
  obtain ⟨records,allPlain,written,replays⟩ := logged
  refine ⟨records++s.writes call,?_,?_,?_⟩
  · exact forall_mem_append.mpr ⟨allPlain,writes_plain plain⟩
  · rw [call_log,written,text_append]
  · rw [foldl_append]
    cases call with
    | preparereq inst n => exact replays_preparereq s.log replays
    | acceptreq inst n v => exact replays_acceptreq s.log replays
    | commit inst v => exact replays_commit s.log replays

lemma logged_calls {s : Node} {calls : List Call} (logged : Logged me s)
    (plain : ∀ call ∈ calls, call.Plain) : Logged me (calls.foldl Node.call s) := by
  induction calls generalizing s with
  | nil => exact logged
  | cons call rest ih =>
    exact ih (logged_call logged (plain call mem_cons_self)) fun c mem => plain c (mem_cons_of_mem _ mem)

/-- Reading the log that any calls have produced gives the live state again. -/
theorem logread_live {me value : String} {first : Bool} {calls : List Call} (isLine : Line value)
    (plain : ∀ call ∈ calls, call.Plain) :
    ∃ read, logread (calls.foldl Node.call (Node.create me first value)).log (blank me) = some read ∧
      Replays (calls.foldl Node.call (Node.create me first value)).acceptor read := by
  obtain ⟨records,allPlain,written,replays⟩ := logged_calls (logged_create me first isLine) plain
  exact ⟨_,logread_text allPlain written _,replays⟩

/-- A round of instance 2 with a value that has spaces at its ends, and a promise
and an empty value for instance 3. -/
def rounds : List Call :=
  [.preparereq 2 ⟨1,"b"⟩,.acceptreq 2 ⟨1,"b"⟩ " a b ",.commit 2 " a b ",.preparereq 3 ⟨7,"c"⟩,.acceptreq 3 ⟨7,"c"⟩ ""]

theorem logread_live_rounds : ∃ read,
    logread (rounds.foldl Node.call (Node.create "a" true "a")).log (blank "a") = some read ∧
      Replays (rounds.foldl Node.call (Node.create "a" true "a")).acceptor read :=
  logread_live (by decide) (by decide)

/-- An acceptor learns of instance 2 first and is then asked about instance 1. -/
def skipped : Node := [Call.commit 2 "x",.preparereq 1 ⟨1,"a"⟩].foldl Node.call (Node.create "a" false "")

theorem old_prepare_is_not_logged : skipped.acceptor.values 1 = some "" ∧
    ∃ read, logread skipped.log (blank "a") = some read ∧ read.values 1 = none := by
  have observed : (logread skipped.log (blank "a")).map (fun read => read.values 1) = some none := by decide +kernel
  obtain ⟨read,replayed,missing⟩ := Option.map_eq_some_iff.mp observed
  exact ⟨by decide,read,replayed,missing⟩

end CodeExercise.PaxosLog
