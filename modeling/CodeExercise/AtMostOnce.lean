import CodeExercise.RpcServer

/-! Runs of the at-most-once table. -/
namespace CodeExercise.AtMostOnce
open Runs RpcServer List Function

/-- What happened at the table: a request arrived and was answered, or the
handler of a request handed in its reply. -/
inductive Event where
  | arrive (nonce xid xidRep : Nat) (out : RpcState)
  | reply (nonce xid : Nat) (buf : List UInt8)
  deriving DecidableEq

/-- The table, the requests whose handlers are running, and the history of the
run, newest first. -/
structure Server where
  rpcs : Rpcs
  running : List (Nat × Nat)
  log : List Event

def Server.init : Server := ⟨.empty,[],[]⟩

/-- The choices of the environment: which request arrives, which handler ends. -/
inductive Label where
  | arrive (nonce xid xidRep : Nat)
  | reply (nonce xid : Nat) (buf : List UInt8)
  deriving DecidableEq

/-- `rpcs::dispatch` up to the classification of a request with a nonzero nonce,
and its call of `add_reply`. When the entry of the request is gone, the loop
of `add_reply` leaves the table as it is. -/
def next (s : Server) : Label → Option Server
  | .arrive nonce xid xidRep =>
    if nonce = 0 then none
    else
      match (s.rpcs.create nonce).checkduplicateAndUpdate nonce xid xidRep with
      | none => none
      | some (out,rpcs) =>
        some ⟨rpcs,if out = .new then (nonce,xid) :: s.running else s.running,.arrive nonce xid xidRep out :: s.log⟩
  | .reply nonce xid buf =>
    if (nonce,xid) ∈ s.running then
      some ⟨(s.rpcs.addReply nonce xid buf).getD s.rpcs,s.running.erase (nonce,xid),.reply nonce xid buf :: s.log⟩
    else none

/-- The request was answered NEW. -/
def Answered (nonce xid : Nat) (past : List Event) : Prop :=
  ∃ xidRep, .arrive nonce xid xidRep .new ∈ past

/-- Some request that arrived acknowledges the reply of `xid`. -/
def Acknowledged (nonce xid : Nat) (past : List Event) : Prop :=
  ∃ other xidRep out, .arrive nonce other xidRep out ∈ past ∧ xid ≤ xidRep

/-- The reply that was handed in for the request, if any. -/
def recorded (nonce xid : Nat) : List Event → Option (List UInt8)
  | [] => none
  | .arrive .. :: past => recorded nonce xid past
  | .reply nonce' xid' buf :: past =>
    if nonce' = nonce ∧ xid' = xid then some buf else recorded nonce xid past

/-- What a request that was answered NEW before has to be answered now. -/
def Classified (nonce xid : Nat) (past : List Event) (out : RpcState) : Prop :=
  (Acknowledged nonce xid past ∧ out = .forgotten) ∨
    (¬ Acknowledged nonce xid past ∧ out = match recorded nonce xid past with
      | some buf => .done buf
      | none => .inprogress)

variable {nonce nonce' : Nat} {out : RpcState} {s t : Server}

lemma answered_cons :
    Answered nonce xid (event::past) ↔ (∃ xidRep, event = .arrive nonce xid xidRep .new) ∨ Answered nonce xid past := by
  simp only [Answered,mem_cons]
  constructor
  · rintro ⟨xidRep,same | mem⟩
    · exact .inl ⟨xidRep,same.symm⟩
    · exact .inr ⟨xidRep,mem⟩
  · rintro (⟨xidRep,same⟩ | ⟨xidRep,mem⟩)
    · exact ⟨xidRep,.inl same.symm⟩
    · exact ⟨xidRep,.inr mem⟩

lemma acknowledged_arrive :
    Acknowledged nonce xid (.arrive nonce' other xidRep out :: past) ↔
      (nonce' = nonce ∧ xid ≤ xidRep) ∨ Acknowledged nonce xid past := by
  simp only [Acknowledged,mem_cons]
  constructor
  · rintro ⟨o,rep,result,same | mem,le⟩
    · cases same
      exact .inl ⟨rfl,le⟩
    · exact .inr ⟨o,rep,result,mem,le⟩
  · rintro (⟨rfl,le⟩ | ⟨o,rep,result,mem,le⟩)
    · exact ⟨other,xidRep,out,.inl rfl,le⟩
    · exact ⟨o,rep,result,.inr mem,le⟩

lemma acknowledged_reply :
    Acknowledged nonce xid (.reply nonce' xid' buf :: past) ↔ Acknowledged nonce xid past := by
  simp [Acknowledged]

/-- The window and the acknowledgement of a nonce against the history. -/
structure NonceOk (nonce : Nat) (window : List ReplyT) (highest : Nat) (running : List (Nat × Nat)) (log : List Event) :
    Prop where
  acknowledged : ∀ xid, 0 < xid → (xid ≤ highest ↔ Acknowledged nonce xid log)
  distinct : (window.map (·.xid)).Nodup
  entered : ∀ r ∈ window, Answered nonce r.xid log
  kept : ∀ xid, highest < xid → Answered nonce xid log → ∃ r ∈ window, r.xid = xid
  replied : ∀ r ∈ window, recorded nonce r.xid log = if r.cbPresent then some r.buf else none
  pending : ∀ xid, (nonce,xid) ∈ running → Answered nonce xid log ∧ recorded nonce xid log = none
  silent : ∀ xid, ¬ Answered nonce xid log → recorded nonce xid log = none

/-- Every arrival in the history was answered as the history before it says. -/
def Faithful : List Event → Prop
  | [] => True
  | .arrive nonce xid _ out :: past =>
    (Answered nonce xid past → Classified nonce xid past out) ∧ Faithful past
  | .reply .. :: past => Faithful past

structure Inv (s : Server) : Prop where
  nonces : ∀ nonce, NonceOk nonce (s.rpcs.window nonce) (s.rpcs.maxXidRepSofar nonce) s.running s.log
  once : s.running.Nodup
  faithful : Faithful s.log

lemma inv_init : Inv Server.init := by
  refine ⟨fun nonce => ⟨?_,?_,?_,?_,?_,?_,?_⟩,nodup_nil,trivial⟩
  · intro xid positive
    simp [Server.init,Rpcs.empty,Acknowledged]
    omega
  · simp [Server.init,Rpcs.empty,Rpcs.window]
  · simp [Server.init,Rpcs.empty,Rpcs.window]
  · simp [Server.init,Answered]
  · simp [Server.init,Rpcs.empty,Rpcs.window]
  · simp [Server.init]
  · simp [Server.init,recorded]

lemma NonceOk.frame
    (ok : NonceOk nonce window highest running log)
    (answered : ∀ xid, Answered nonce xid (event::log) ↔ Answered nonce xid log)
    (acknowledged : ∀ xid, Acknowledged nonce xid (event::log) ↔ Acknowledged nonce xid log)
    (same : ∀ xid, recorded nonce xid (event::log) = recorded nonce xid log)
    (still : ∀ xid, (nonce,xid) ∈ running' → (nonce,xid) ∈ running) :
    NonceOk nonce window highest running' (event::log) := by
  refine ⟨?_,ok.distinct,?_,?_,?_,?_,?_⟩
  · intro xid positive
    rw [acknowledged]
    exact ok.acknowledged xid positive
  · intro r mem
    exact (answered _).mpr (ok.entered r mem)
  · intro xid above was
    exact ok.kept xid above ((answered xid).mp was)
  · intro r mem
    rw [same]
    exact ok.replied r mem
  · intro xid open_
    rw [answered,same]
    exact ok.pending xid (still xid open_)
  · intro xid never
    rw [same]
    exact ok.silent xid fun was => never ((answered xid).mpr was)

lemma NonceOk.arrive_other
    (ok : NonceOk nonce window highest running log)
    (different : nonce ≠ nonce') :
    NonceOk nonce window highest (if out = .new then (nonce',xid) :: running else running)
      (.arrive nonce' xid xidRep out :: log) := by
  apply ok.frame
  · intro x
    rw [answered_cons]
    simp [Ne.symm different]
  · intro x
    rw [acknowledged_arrive]
    simp [Ne.symm different]
  · intro x
    rfl
  · intro x mem
    split at mem
    · simpa [different] using mem
    · exact mem

lemma NonceOk.reply_other (xid : Nat) (buf : List UInt8)
    (ok : NonceOk nonce window highest running log)
    (different : nonce ≠ nonce') :
    NonceOk nonce window highest (running.erase (nonce',xid)) (.reply nonce' xid buf :: log) := by
  apply ok.frame
  · intro x
    rw [answered_cons]
    simp
  · intro x
    exact acknowledged_reply
  · intro x
    simp [recorded,Ne.symm different]
  · intro x mem
    exact mem_of_mem_erase mem

/-- An arrival answered without a new entry keeps the entries that its
acknowledgement does not drop. -/
lemma NonceOk.arrive_known {window kept : List ReplyT}
    (ok : NonceOk nonce window highest running log)
    (known : out ≠ .new) (sub : kept.Sublist window) (stays : ∀ r ∈ window, xidRep < r.xid → r ∈ kept) :
    NonceOk nonce kept (max highest xidRep) running (.arrive nonce xid xidRep out :: log) := by
  have answered : ∀ x, Answered nonce x (.arrive nonce xid xidRep out :: log) ↔ Answered nonce x log := by
    intro x
    rw [answered_cons]
    simp [known]
  refine ⟨?_,ok.distinct.sublist (sub.map _),?_,?_,?_,?_,?_⟩
  · intro x positive
    rw [acknowledged_arrive,← ok.acknowledged x positive]
    omega
  · intro r mem
    exact (answered _).mpr (ok.entered r (sub.subset mem))
  · intro x above was
    obtain ⟨r,mem,named⟩ := ok.kept x (by omega) ((answered x).mp was)
    exact ⟨r,stays r mem (by omega),named⟩
  · intro r mem
    exact ok.replied r (sub.subset mem)
  · intro x mem
    rw [answered]
    exact ok.pending x mem
  · intro x never
    exact ok.silent x fun was => never ((answered x).mpr was)

lemma NonceOk.arrive_new {window kept : List ReplyT}
    (ok : NonceOk nonce window highest running log) (fresh : highest < xid)
    (absent : ∀ r ∈ window, r.xid ≠ xid) (sub : kept.Sublist window)
    (stays : ∀ r ∈ window, xidRep < r.xid → r ∈ kept) :
    NonceOk nonce (kept++[.received xid]) (max highest xidRep) ((nonce,xid)::running)
      (.arrive nonce xid xidRep .new :: log) := by
  have unanswered : ¬ Answered nonce xid log := by
    intro was
    obtain ⟨r,mem,named⟩ := ok.kept xid fresh was
    exact absent r mem named
  have answered : ∀ x, Answered nonce x (.arrive nonce xid xidRep .new :: log) ↔ x = xid ∨ Answered nonce x log := by
    intro x
    rw [answered_cons]
    simp [eq_comm]
  refine ⟨?_,?_,?_,?_,?_,?_,?_⟩
  · intro x positive
    rw [acknowledged_arrive,← ok.acknowledged x positive]
    omega
  · rw [map_append,nodup_append]
    refine ⟨ok.distinct.sublist (sub.map _),by simp,?_⟩
    intro x left y right same
    simp only [map_cons,map_nil,mem_singleton,ReplyT.received] at right
    obtain ⟨r,mem,named⟩ := mem_map.mp left
    exact absent r (sub.subset mem) (named.trans (same.trans right))
  · intro r mem
    rw [answered]
    rcases mem_append.mp mem with old | added
    · exact .inr (ok.entered r (sub.subset old))
    · exact .inl (by rw [mem_singleton.mp added]; rfl)
  · intro x above was
    rcases (answered x).mp was with rfl | before
    · exact ⟨.received x,by simp,rfl⟩
    · obtain ⟨r,mem,named⟩ := ok.kept x (by omega) before
      exact ⟨r,mem_append_left _ (stays r mem (by omega)),named⟩
  · intro r mem
    rcases mem_append.mp mem with old | added
    · exact ok.replied r (sub.subset old)
    · rw [mem_singleton.mp added]
      exact ok.silent xid unanswered
  · intro x mem
    rw [answered]
    rcases mem_cons.mp mem with same | before
    · cases same
      exact ⟨.inl rfl,ok.silent xid unanswered⟩
    · exact ⟨.inr (ok.pending x before).1,(ok.pending x before).2⟩
  · intro x never
    exact ok.silent x fun was => never ((answered x).mpr (.inr was))

/-- A reply handed in is recorded in the entry of its request, when the window
still has one. -/
lemma NonceOk.reply_own (buf : List UInt8)
    (ok : NonceOk nonce window highest running log)
    (once : running.Nodup) (mem : (nonce,xid) ∈ running) :
    NonceOk nonce ((fill xid buf window).getD window) highest (running.erase (nonce,xid)) (.reply nonce xid buf :: log) := by
  have answered : ∀ x, Answered nonce x (.reply nonce xid buf :: log) ↔ Answered nonce x log := by
    intro x
    rw [answered_cons]
    simp
  have noted : ∀ x, x ≠ xid → recorded nonce x (.reply nonce xid buf :: log) = recorded nonce x log := by
    intro x different
    simp [recorded,Ne.symm different]
  -- Whether or not the entry is still there, the other entries are untouched.
  have filled : (fill xid buf window).getD window =
      window.map (fun r => if r.xid = xid then { r with cbPresent := true, buf := buf } else r) := by
    cases ran : fill xid buf window with
    | some filled => exact fill_map ok.distinct ran
    | none =>
      have absent : ∀ r ∈ window, ¬ r.xid = xid := by
        intro r inside named
        have some_ := (fill_isSome xid buf window).mpr ⟨r,inside,named⟩
        simp [ran] at some_
      rw [map_congr_left (fun r inside => if_neg (absent r inside)),map_id']
      rfl
  rw [filled]
  have names : (window.map (fun r => if r.xid = xid then { r with cbPresent := true, buf := buf } else r)).map
      (fun r : ReplyT => r.xid) = window.map (fun r => r.xid) := by
    rw [map_map]
    apply map_congr_left
    intro r _
    simp only [comp_apply]
    split <;> rfl
  refine ⟨?_,by rw [names]; exact ok.distinct,?_,?_,?_,?_,?_⟩
  · intro x positive
    rw [acknowledged_reply]
    exact ok.acknowledged x positive
  · intro r inside
    rw [answered]
    obtain ⟨old,was,rfl⟩ := mem_map.mp inside
    split
    · exact ok.entered old was
    · exact ok.entered old was
  · intro x above was
    obtain ⟨r,inside,named⟩ := ok.kept x above ((answered x).mp was)
    refine ⟨_,mem_map_of_mem inside,?_⟩
    split
    · exact named
    · exact named
  · intro r inside
    obtain ⟨old,was,rfl⟩ := mem_map.mp inside
    by_cases named : old.xid = xid
    · simp [named,recorded]
    · rw [if_neg named,noted _ named]
      exact ok.replied old was
  · intro x inside
    have different : x ≠ xid := by
      rintro rfl
      exact once.not_mem_erase inside
    rw [answered,noted x different]
    exact ok.pending x (mem_of_mem_erase inside)
  · intro x never
    have unanswered : ¬ Answered nonce x log := fun was => never ((answered x).mpr was)
    rw [noted x (fun same => unanswered (same ▸ (ok.pending xid mem).1))]
    exact ok.silent x unanswered

lemma NonceOk.classified
    (ok : NonceOk nonce window highest running log) (asserted : xidRep < xid)
    (was : Answered nonce xid log) : (xid ≤ highest → Classified nonce xid log .forgotten) ∧
    (∀ r ∈ window, highest < xid → r.xid = xid →
      Classified nonce xid log (if r.cbPresent then .done r.buf else .inprogress)) ∧
    (highest < xid → ∃ r ∈ window, r.xid = xid) := by
  have positive : 0 < xid := by omega
  refine ⟨?_,?_,fun above => ok.kept xid above was⟩
  · intro old
    exact .inl ⟨(ok.acknowledged xid positive).mp old,rfl⟩
  · intro r inside above named
    have unacknowledged : ¬ Acknowledged nonce xid log := by
      intro acknowledged
      have := (ok.acknowledged xid positive).mpr acknowledged
      omega
    refine .inr ⟨unacknowledged,?_⟩
    rw [← named,ok.replied r inside]
    split <;> rfl

lemma inv_arrive (inv : Inv s)
    (moved : next s (.arrive nonce xid xidRep) = some t) : Inv t := by
  simp only [next] at moved
  split at moved
  · simp at moved
  · cases checked : (s.rpcs.create nonce).checkduplicateAndUpdate nonce xid xidRep with
    | none => simp [checked] at moved
    | some result =>
      obtain ⟨out,rpcs⟩ := result
      simp only [checked,Option.some.injEq] at moved
      subst moved
      obtain ⟨asserted,highest,others,cases_⟩ := check_cases checked
      rw [create_max] at highest cases_
      simp only [create_window] at others cases_
      have own := inv.nonces nonce
      have stays : ∀ r ∈ s.rpcs.window nonce, xidRep < r.xid →
          r ∈ (s.rpcs.window nonce).filter (fun r => !decide (r.xid ≤ xidRep)) := by
        intro r inside above
        exact mem_filter.mpr ⟨inside,by simp; omega⟩
      refine ⟨?_,?_,?_,inv.faithful⟩
      · intro nonce'
        by_cases same : nonce' = nonce
        · subst same
          simp only [highest,update_self]
          rcases cases_ with ⟨_,rfl,window⟩ | ⟨_,r,_,_,rfl,window⟩ | ⟨fresh,absent,rfl,window⟩
          · rw [window]
            exact own.arrive_known (by simp) (List.Sublist.refl _) fun _ inside _ => inside
          · rw [window]
            have known : (if r.cbPresent then RpcState.done r.buf else .inprogress) ≠ .new := by
              split <;> simp
            rw [if_neg known]
            exact own.arrive_known known filter_sublist stays
          · rw [window]
            exact own.arrive_new fresh absent filter_sublist stays
        · simp only [highest,update_of_ne same,others nonce' same]
          exact (inv.nonces nonce').arrive_other same
      · split
        · next new =>
          rw [nodup_cons]
          refine ⟨?_,inv.once⟩
          intro already
          -- A running request has been answered, and so is not new.
          have was := (own.pending xid already).1
          rcases cases_ with ⟨_,rfl,_⟩ | ⟨_,r,_,_,rfl,_⟩ | ⟨fresh,absent,_,_⟩
          · simp at new
          · split at new <;> simp at new
          · obtain ⟨r,inside,named⟩ := (own.classified asserted was).2.2 fresh
            exact absent r inside named
        · exact inv.once
      · intro was
        obtain ⟨old,repeated,present⟩ := own.classified asserted was
        rcases cases_ with ⟨le,rfl,_⟩ | ⟨above,r,inside,named,rfl,_⟩ | ⟨fresh,absent,_,_⟩
        · exact old le
        · exact repeated r inside above named
        · obtain ⟨r,inside,named⟩ := present fresh
          exact absurd named (absent r inside)

lemma inv_reply (inv : Inv s)
    (moved : next s (.reply nonce xid buf) = some t) : Inv t := by
  simp only [next] at moved
  split at moved <;> cases moved
  next mem =>
    refine ⟨?_,inv.once.erase _,inv.faithful⟩
    intro nonce'
    by_cases same : nonce' = nonce
    · subst same
      have own := (inv.nonces nonce').reply_own buf inv.once mem
      cases added : s.rpcs.addReply nonce' xid buf with
      | some rpcs =>
        obtain ⟨highest,_,filled⟩ := addReply_some added
        rw [filled] at own
        simpa [highest] using own
      | none =>
        have gone : fill xid buf (s.rpcs.window nonce') = none := by
          simpa [Rpcs.addReply,Rpcs.window] using added
        rwa [gone] at own
    · have other := (inv.nonces nonce').reply_other xid buf same
      cases added : s.rpcs.addReply nonce xid buf with
      | some rpcs =>
        obtain ⟨highest,others,_⟩ := addReply_some added
        simpa [highest,others nonce' same] using other
      | none => exact other

lemma inv_step (inv : Inv s) (moved : next s label = some t) : Inv t := by
  cases label with
  | arrive nonce xid xidRep => exact inv_arrive inv moved
  | reply nonce xid buf => exact inv_reply inv moved

lemma inv_reached : ∀ s, Reach (· = Server.init) anyStep next s → Inv s :=
  Reach.invariant (by rintro s rfl; exact inv_init) (fun _ _ _ inv _ moved => inv_step inv moved)

/-- The event answers the request NEW. -/
def isNew (nonce xid : Nat) : Event → Bool
  | .arrive nonce' xid' _ out => nonce' == nonce && xid' == xid && out == .new
  | .reply .. => false

lemma countP_isNew_eq_zero (never : ¬ Answered nonce xid past) :
    past.countP (isNew nonce xid) = 0 := by
  rw [countP_eq_zero]
  intro event mem new
  cases event with
  | reply nonce' xid' buf => simp [isNew] at new
  | arrive nonce' xid' xidRep out =>
    simp only [isNew,Bool.and_eq_true,beq_iff_eq] at new
    obtain ⟨⟨rfl,rfl⟩,rfl⟩ := new
    exact never ⟨xidRep,mem⟩

lemma Faithful.once (faithful : Faithful log) (nonce xid : Nat) :
    log.countP (isNew nonce xid) ≤ 1 := by
  induction log with
  | nil => simp
  | cons event past ih =>
    cases event with
    | reply nonce' xid' buf => simpa [countP_cons,isNew] using ih faithful
    | arrive nonce' xid' xidRep out =>
      rw [countP_cons]
      by_cases new : isNew nonce xid (.arrive nonce' xid' xidRep out) = true
      · have unanswered : ¬ Answered nonce xid past := by
          intro was
          simp only [isNew,Bool.and_eq_true,beq_iff_eq] at new
          obtain ⟨⟨rfl,rfl⟩,rfl⟩ := new
          rcases faithful.1 was with ⟨_,bad⟩ | ⟨_,bad⟩
          · simp at bad
          · split at bad <;> simp at bad
        simp [new,countP_isNew_eq_zero unanswered]
      · simpa [new] using ih faithful.2

lemma Faithful.split
    (faithful : Faithful (later++.arrive nonce xid xidRep out :: earlier)) (was : Answered nonce xid earlier) :
    Classified nonce xid earlier out := by
  induction later with
  | nil => exact faithful.1 was
  | cons event rest ih =>
    cases event with
    | arrive _ _ _ _ => exact ih faithful.2
    | reply _ _ _ => exact ih faithful

/-- In every run, a request is answered NEW at most once, and when it arrives
again it is FORGOTTEN once some arrived acknowledgement has reached it, DONE
with the recorded reply once its handler handed one in, and INPROGRESS before. -/
theorem duplicate_answers {s : Server} (reached : Reach (· = Server.init) anyStep next s) (nonce xid : Nat) :
    s.log.countP (isNew nonce xid) ≤ 1 ∧
      ∀ later earlier xidRep out, s.log = later++.arrive nonce xid xidRep out :: earlier →
        Answered nonce xid earlier → Classified nonce xid earlier out := by
  have faithful := (inv_reached s reached).faithful
  refine ⟨faithful.once nonce xid,?_⟩
  intro later earlier xidRep out split was
  rw [split] at faithful
  exact faithful.split was

/-- A run with a repeated request before and after its reply, an
acknowledgement on another request and a late duplicate. -/
def lateDuplicate : List Label :=
  [.arrive 7 1 0,.arrive 7 1 0,.reply 7 1 [42],.arrive 7 1 0,.arrive 7 2 1,.arrive 7 1 0]

theorem duplicate_answers_late : ∃ s, run next Server.init lateDuplicate = some s ∧
    s.log = [.arrive 7 1 0 .forgotten,.arrive 7 2 1 .new,.arrive 7 1 0 (.done [42]),.reply 7 1 [42],
      .arrive 7 1 0 .inprogress,.arrive 7 1 0 .new] ∧
    s.log.countP (isNew 7 1) ≤ 1 ∧
      ∀ later earlier xidRep out, s.log = later++.arrive 7 1 xidRep out :: earlier →
        Answered 7 1 earlier → Classified 7 1 earlier out := by
  refine ⟨_,rfl,rfl,?_⟩
  exact duplicate_answers (Reach.run lateDuplicate (.start rfl) (meets_anyStep _ _) rfl) 7 1

/-- In every run the window of a nonce lists no request twice, and it has each request that was answered and is not yet
acknowledged, with the reply of its handler. -/
theorem window_keeps_replies {s : Server} (reached : Reach (· = Server.init) anyStep next s) (nonce : Nat) :
    ((s.rpcs.window nonce).map (·.xid)).Nodup ∧
      ∀ xid, 0 < xid → Answered nonce xid s.log → ¬ Acknowledged nonce xid s.log → ∃ r ∈ s.rpcs.window nonce, r.xid = xid ∧
        recorded nonce xid s.log = if r.cbPresent then some r.buf else none := by
  have ok := (inv_reached s reached).nonces nonce
  refine ⟨ok.distinct,fun xid positive answered unread => ?_⟩
  have above : ¬ xid ≤ s.rpcs.maxXidRepSofar nonce := fun le => unread ((ok.acknowledged xid positive).mp le)
  obtain ⟨r,mem,rfl⟩ := ok.kept xid (Nat.lt_of_not_le above) answered
  exact ⟨r,mem,rfl,ok.replied r mem⟩

theorem window_keeps_replies_late : ∃ s, Reach (· = Server.init) anyStep next s ∧
    s.log = [.reply 7 2 [43],.arrive 7 2 1 .new,.reply 7 1 [42],.arrive 7 1 0 .new] ∧ ((s.rpcs.window 7).map (·.xid)).Nodup ∧
    ∃ r ∈ s.rpcs.window 7, r.xid = 2 ∧ recorded 7 2 s.log = if r.cbPresent then some r.buf else none := by
  obtain ⟨s,reached,log⟩ : ∃ s, Reach (· = Server.init) anyStep next s ∧
      s.log = [.reply 7 2 [43],.arrive 7 2 1 .new,.reply 7 1 [42],.arrive 7 1 0 .new] :=
    exists_reach_from rfl [.arrive 7 1 0,.reply 7 1 [42],.arrive 7 2 1,.reply 7 2 [43]] (by decide +kernel)
  obtain ⟨distinct,kept⟩ := window_keeps_replies reached 7
  refine ⟨s,reached,log,distinct,kept 2 (by decide) ⟨1,by simp [log]⟩ ?_⟩
  rintro ⟨other,xidRep,out,mem,le⟩
  simp [log] at mem
  omega

end CodeExercise.AtMostOnce
