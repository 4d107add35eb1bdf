import CodeExercise.LockCacheRsm

/-! The lock server on the replicated state machine, with any requests from any clients. -/
namespace CodeExercise.LockServerRsm
open Runs LockCacheRsm List Option Function

inductive Request where
  | acquire (lid : Nat) (id : String) (xid : Nat)
  | release (lid : Nat) (id : String) (xid : Nat)
  deriving DecidableEq

/-- The table, with the releases that have been executed and the grants that have not
been released since. -/
structure Grants where
  lockClients : Nat → Option ClientInfo
  executed : List (Nat × String × Nat)
  granted : List (Nat × String)

def Grants.init : Grants := ⟨fun _ => none,[],[]⟩

def serve (s : Grants) : Request → Option Grants
  | .acquire lid id xid => (serverAcquire (s.lockClients lid) id xid).map (fun r =>
    { s with
      lockClients := update s.lockClients lid (some r.2.1)
      granted := if r.1 then (lid,id) :: s.granted else s.granted })
  | .release lid id xid => some
    { lockClients := update s.lockClients lid (serverRelease (s.lockClients lid) id)
      executed := (lid,id,xid)::s.executed
      -- a release that comes again is one of an earlier grant
      granted := if (lid,id,xid) ∈ s.executed then s.granted else s.granted.filter (· ≠ (lid,id)) }

instance (entry : Option ClientInfo) (c : String) : Decidable (Owns entry c) :=
  match entry with
  | none => isFalse (by rintro ⟨_,found,_⟩; cases found)
  | some e => decidable_of_iff (e.cid = c ∧ e.available = false) (by simp [Owns])

/-- A release that comes again finds that its client does not have the lock. -/
def NotOwned (s : Grants) : Request → Prop
  | .acquire .. => True
  | .release lid id xid => (lid,id,xid) ∈ s.executed → ¬ Owns (s.lockClients lid) id
instance (s : Grants) : (request : Request) → Decidable (NotOwned s request)
  | .acquire .. => isTrue trivial
  | .release .. => decideAs (_ → _)

/-- A client whose grant has not been released is the holder. -/
def Held (s : Grants) : Prop := ∀ lid id, (lid,id) ∈ s.granted → Owns (s.lockClients lid) id

lemma held_acquire {id : String} (held : Held s)
    (served : serve s (.acquire lid id xid) = some t) : Held t := by
  obtain ⟨⟨granted,new,enqueue⟩,answer,rfl⟩ := map_eq_some_iff.mp served
  intro l c mem
  rcases serverAcquire_cases answer with ⟨rfl,named,_,taken,free,_⟩ | ⟨rfl,e,found,cid,_,available,_⟩
  · by_cases same : l = lid
    · subst same
      simp only [update_self]
      rcases mem_cons.mp mem with new' | old
      · exact ⟨new,rfl,named.trans (Prod.mk.inj new').2.symm,taken⟩
      · obtain ⟨e,found,_,busy⟩ := held l c old
        simp [free e found] at busy
    · simp only [update_of_ne same]
      rcases mem_cons.mp mem with new' | old
      · exact absurd (Prod.mk.inj new').1 same
      · exact held l c old
  · have own := held l c mem
    by_cases same : l = lid
    · subst same
      obtain ⟨f,here,rfl,busy⟩ := own
      obtain rfl : e = f := by simpa [found] using here
      exact ⟨new,update_self _ _ _,cid,available.trans busy⟩
    · simpa only [update_of_ne same] using own

lemma held_release {id : String} (held : Held s)
    (meets : NotOwned s (.release lid id xid)) (served : serve s (.release lid id xid) = some t) : Held t := by
  cases served
  intro l c mem
  by_cases same : l = lid
  · subst same
    simp only [update_self]
    by_cases again : (l,id,xid) ∈ s.executed
    · rw [if_pos again] at mem
      have own := held l c mem
      exact owns_release (fun same => meets again (same ▸ own)) own
    · rw [if_neg again,mem_filter] at mem
      exact owns_release (by simpa using mem.2) (held l c mem.1)
  · simp only [update_of_ne same]
    split at mem
    · exact held l c mem
    · exact held l c (mem_filter.mp mem).1

lemma reach_held : ∀ s, Reach (· = Grants.init) NotOwned serve s → Held s := by
  apply Reach.invariant
  · rintro s rfl lid id mem
    cases mem
  · intro s request t held meets served
    cases request with
    | acquire lid id xid => exact held_acquire held served
    | release lid id xid => exact held_release held meets served

/-- No lock is available while a grant has not been released, and no lock is granted to
two clients at once. -/
theorem grants_exclusive {s : Grants} (reached : Reach (· = Grants.init) NotOwned serve s) :
    (∀ lid id, (lid,id) ∈ s.granted → Owns (s.lockClients lid) id) ∧
    ∀ lid c d, (lid,c) ∈ s.granted → (lid,d) ∈ s.granted → c = d := by
  have held := reach_held s reached
  exact ⟨held,fun lid c d first second => owns_unique (held lid c first) (held lid d second)⟩

theorem grants_exclusive_resent : ∃ s, Reach (· = Grants.init) NotOwned serve s ∧ s.granted = [(1,"b")] ∧
    (1,"a",1) ∈ s.executed ∧ ((∀ lid id, (lid,id) ∈ s.granted → Owns (s.lockClients lid) id) ∧
      ∀ lid c d, (lid,c) ∈ s.granted → (lid,d) ∈ s.granted → c = d) := by
  obtain ⟨s,reached,granted,executed⟩ : ∃ s, Reach (· = Grants.init) NotOwned serve s ∧ s.granted = [(1,"b")] ∧
      (1,"a",1) ∈ s.executed :=
    exists_reach_from rfl [.acquire 1 "a" 1,.release 1 "a" 1,.release 1 "a" 1,.acquire 1 "b" 1,.release 1 "a" 1]
      (by decide +kernel)
  exact ⟨s,reached,granted,executed,grants_exclusive reached⟩

/-- Client `a` gives the lock back and gets it again. When its release comes a second
time the lock is available, and it is granted to `b` as well. -/
theorem resent_release_grants_twice : ∃ s t u, Reach (· = Grants.init) anyStep serve s ∧ (1,"a",1) ∈ s.executed ∧
    s.granted = [(1,"a")] ∧ serve s (.release 1 "a" 1) = some t ∧ t.granted = [(1,"a")] ∧
    ¬ Owns (t.lockClients 1) "a" ∧ serve t (.acquire 1 "b" 1) = some u ∧ u.granted = [(1,"b"),(1,"a")] := by
  simp only [exists_and_left]
  exact exists_reach_from rfl [.acquire 1 "a" 1,.release 1 "a" 1,.acquire 1 "a" 2] (by decide +kernel)

/-- The loop of `revoker`: the lock it has taken, the RPC to the holder in one of its
tenures, and the answer. -/
inductive Revoking where
  | idle
  | dequeued (lid : Nat)
  | sent (lid : Nat) (holder : String) (tenure : Nat)
  | returned (lid : Nat)
  deriving DecidableEq

/-- The primary. The tenures of each lock are counted, and the revokes that have been
delivered are kept; the server does not see either. -/
structure Primary where
  lockClients : Nat → Option ClientInfo
  inviewchange : Bool
  revokerQueue : List Nat
  revoker : Revoking
  retryerQueue : List Nat
  retryer : Retryer
  tenure : Nat → Nat
  delivered : List (Nat × String × Nat)

def Primary.init : Primary := ⟨fun _ => none,false,[],.idle,[],.idle,fun _ => 0,[]⟩
/-- `rsm::amiprimary` on the primary. -/
def Primary.amiprimary (s : Primary) : Bool := !s.inviewchange

inductive Event where
  | acquire (lid : Nat) (id : String) (xid : Nat)
  | release (lid : Nat) (id : String)
  | revokerDeq
  | callRevoke
  | revokeHandler
  | retryerEnq
  | retryerDeq
  /-- The retryer finds the lock available. -/
  | callRetry
  | retryHandler
  /-- `commit_change`, which the primary survives. -/
  | commitChange
  /-- The end of `recovery`. -/
  | recovered
  /-- A replica becomes the primary. -/
  | changePrimary
  deriving DecidableEq

def next (s : Primary) : Event → Option Primary
  | .acquire lid id xid => (serverAcquire (s.lockClients lid) id xid).map (fun r =>
    { s with
      lockClients := update s.lockClients lid (some r.2.1)
      revokerQueue := if r.2.2 && s.amiprimary then s.revokerQueue ++ [lid] else s.revokerQueue
      tenure := if r.1 then update s.tenure lid (s.tenure lid+1) else s.tenure })
  | .release lid id =>
    some { s with lockClients := update s.lockClients lid (serverRelease (s.lockClients lid) id) }
  | .revokerDeq =>
    match s.revoker,s.revokerQueue with
    | .idle,lid::rest => some { s with revoker := .dequeued lid, revokerQueue := rest }
    | _,_ => none
  | .callRevoke =>
    match s.revoker with
    | .dequeued lid => (s.lockClients lid).map (fun e => { s with revoker := .sent lid e.cid (s.tenure lid) })
    | _ => none
  | .revokeHandler =>
    match s.revoker with
    | .sent lid holder n => some { s with revoker := .returned lid, delivered := (lid,holder,n)::s.delivered }
    | _ => none
  | .retryerEnq =>
    match s.revoker with
    | .returned lid => some { s with revoker := .idle, retryerQueue := s.retryerQueue++[lid] }
    | _ => none
  | .retryerDeq =>
    match s.retryer,s.retryerQueue with
    | .idle,lid::rest => some { s with retryer := .waiting lid, retryerQueue := rest }
    | _,_ => none
  | .callRetry =>
    match s.retryer with
    | .waiting lid =>
      match s.lockClients lid with
      | some ⟨_,_,true,client::_⟩ => some { s with retryer := .notify lid client }
      | _ => none
    | _ => none
  | .retryHandler =>
    match s.retryer with
    | .notify _ _ => some { s with retryer := .idle }
    | _ => none
  | .commitChange => some { s with inviewchange := true }
  | .recovered => some { s with inviewchange := false }
  | .changePrimary =>
    some { s with inviewchange := true, revokerQueue := [], revoker := .idle, retryerQueue := [], retryer := .idle }

/-- The revoke of the holder's tenure has been delivered. -/
def Delivered (s : Primary) (lid : Nat) (e : ClientInfo) : Prop := (lid,e.cid,s.tenure lid) ∈ s.delivered

/-- A revoke of the holder's tenure is on its way or has been delivered. -/
def Underway (s : Primary) (lid : Nat) (e : ClientInfo) : Prop :=
  lid ∈ s.revokerQueue ∨ s.revoker = .dequeued lid ∨ s.revoker = .sent lid e.cid (s.tenure lid) ∨ Delivered s lid e

/-- The next request of a waiting client puts the lock into the queue. -/
def Renews (e : ClientInfo) : Prop := ∀ id ∈ e.waited, ∀ xid, ∃ granted new, serverAcquire (some e) id xid = some (granted,new,true)

/-- No client waits for a lock whose holder is not going to hear of it. -/
def NoneStranded (s : Primary) : Prop :=
  ∀ lid e, s.lockClients lid = some e → e.available = false → e.waited ≠ [] → Underway s lid e ∨ Renews e

/-- No lock is asked for during a view change, and the primary changes only when the
holders of all locks that clients wait for have got their revokes. -/
def Undisturbed (s : Primary) : Event → Prop
  | .acquire .. => s.inviewchange = false
  | .changePrimary => ∀ lid e, s.lockClients lid = some e → e.available = false → e.waited ≠ [] → Delivered s lid e
  | _ => True

/-- The revoke of every lock that clients wait for is on its way or has been delivered. -/
def AllUnderway (s : Primary) : Prop :=
  ∀ lid e, s.lockClients lid = some e → e.available = false → e.waited ≠ [] → Underway s lid e

section
variable {s t : Primary}

lemma AllUnderway.move (all : AllUnderway s) (table : t.lockClients = s.lockClients)
    (keep : ∀ lid e, s.lockClients lid = some e → Underway s lid e → Underway t lid e) : AllUnderway t := by
  intro lid e found busy waited
  rw [table] at found
  exact keep lid e found (all lid e found busy waited)

lemma Underway.keep (underway : Underway s lid e)
    (queue : lid ∈ s.revokerQueue → lid ∈ t.revokerQueue) (revoker : t.revoker = s.revoker)
    (delivered : t.delivered = s.delivered) (tenure : t.tenure lid = s.tenure lid) (cid : e'.cid = e.cid) :
    Underway t lid e' := by
  simp only [Underway,Delivered,revoker,delivered,tenure,cid] at underway ⊢
  exact underway.imp_left queue

lemma allUnderway_acquire {id : String} (all : AllUnderway s) (steady : s.inviewchange = false)
    (step : next s (.acquire lid id xid) = some t) : AllUnderway t := by
  obtain ⟨⟨granted,new,enqueue⟩,answer,rfl⟩ := map_eq_some_iff.mp step
  have queue : ∀ l ∈ s.revokerQueue,
      l ∈ if enqueue && s.amiprimary then s.revokerQueue ++ [lid] else s.revokerQueue := by
    intro l inside
    split
    · exact mem_append_left _ inside
    · exact inside
  intro l e found busy waited
  by_cases same : l = lid
  · subst same
    obtain rfl : new = e := by simpa using found
    have queued : enqueue = true →
        l ∈ if enqueue && s.amiprimary then s.revokerQueue ++ [l] else s.revokerQueue := by
      rintro rfl
      simp [Primary.amiprimary,steady]
    rcases serverAcquire_cases answer with ⟨rfl,_,_,_,_,left⟩ | ⟨rfl,e,found,cid,_,available,first⟩
    · exact .inl (queued (left waited))
    · rcases first (available ▸ busy) with others | enqueued
      · exact (all l e found (available ▸ busy) others).keep (queue l) rfl rfl rfl cid
      · exact .inl (queued enqueued)
  · simp only [update_of_ne same] at found
    refine (all l e found busy waited).keep (queue l) rfl rfl ?_ rfl
    cases granted
    · rfl
    · exact update_of_ne same _ _

lemma allUnderway_release {id : String} (all : AllUnderway s)
    (step : next s (.release lid id) = some t) : AllUnderway t := by
  cases step
  intro l e found busy waited
  by_cases same : l = lid
  · subst same
    simp only [update_self,serverRelease,map_eq_some_iff] at found
    obtain ⟨f,found,rfl⟩ := found
    split at busy
    · cases busy
    · next other =>
      rw [if_neg other] at waited ⊢
      exact all l f found busy waited
  · simp only [update_of_ne same] at found
    exact all l e found busy waited

lemma allUnderway_step (all : AllUnderway s) (meets : Undisturbed s event)
    (step : next s event = some t) : AllUnderway t := by
  cases event with
  | acquire lid id xid => exact allUnderway_acquire all meets step
  | release lid id => exact allUnderway_release all step
  | revokerDeq =>
    simp only [next] at step
    split at step <;> cases step
    next lid rest idle queue =>
      refine all.move rfl ?_
      rintro l e _ (inside | taken | sent | delivered)
      · rw [queue] at inside
        rcases mem_cons.mp inside with rfl | later
        · exact .inr (.inl rfl)
        · exact .inl later
      · simp [idle] at taken
      · simp [idle] at sent
      · exact .inr (.inr (.inr delivered))
  | callRevoke =>
    simp only [next] at step
    split at step
    · next lid dequeued =>
      obtain ⟨f,holder,rfl⟩ := map_eq_some_iff.mp step
      refine all.move rfl ?_
      rintro l e found (inside | taken | sent | delivered)
      · exact .inl inside
      · obtain rfl : lid = l := by simpa [dequeued] using taken
        obtain rfl : f = e := by simpa [holder] using found
        exact .inr (.inr (.inl rfl))
      · simp [dequeued] at sent
      · exact .inr (.inr (.inr delivered))
    · cases step
  | revokeHandler =>
    simp only [next] at step
    split at step <;> cases step
    next lid holder n called =>
      refine all.move rfl ?_
      rintro l e _ (inside | taken | sent | delivered)
      · exact .inl inside
      · simp [called] at taken
      · rw [called] at sent
        cases sent
        exact .inr (.inr (.inr mem_cons_self))
      · exact .inr (.inr (.inr (mem_cons_of_mem _ delivered)))
  | retryerEnq =>
    simp only [next] at step
    split at step <;> cases step
    next lid returned =>
      refine all.move rfl ?_
      rintro l e _ (inside | taken | sent | delivered)
      · exact .inl inside
      · simp [returned] at taken
      · simp [returned] at sent
      · exact .inr (.inr (.inr delivered))
  | retryerDeq | retryHandler =>
    simp only [next] at step
    split at step <;> cases step
    exact all.move rfl fun _ _ _ => id
  | callRetry =>
    simp only [next] at step
    split at step
    · split at step
      · cases step
        exact all.move rfl fun _ _ _ => id
      · cases step
    · cases step
  | commitChange =>
    cases step
    exact all.move rfl fun _ _ _ => id
  | recovered =>
    cases step
    exact all.move rfl fun _ _ _ => id
  | changePrimary =>
    cases step
    intro lid e found busy waited
    exact .inr (.inr (.inr (meets lid e found busy waited)))

end

theorem no_stranded_waiter {s : Primary} (reached : Reach (· = Primary.init) Undisturbed next s) : NoneStranded s := by
  have all : ∀ s, Reach (· = Primary.init) Undisturbed next s → AllUnderway s := by
    apply Reach.invariant
    · rintro s rfl lid e found
      cases found
    · intro s event t all meets step
      exact allUnderway_step all meets step
  intro lid e found busy waited
  exact .inl (all s reached lid e found busy waited)

/-- Client `a` has the lock, `b` waits for it, and the revoke has been delivered. -/
def notified : Primary :=
  ⟨update (update (fun _ => none) 1 (some ⟨"a",1,false,[]⟩)) 1 (some ⟨"a",1,false,["b"]⟩),false,[],
    .returned 1,[],.idle,update (fun _ => 0) 1 1,[(1,"a",1)]⟩

theorem no_stranded_waiter_notified : ∃ s, Reach (· = Primary.init) Undisturbed next notified ∧
    next notified .changePrimary = some s ∧ s.lockClients 1 = some ⟨"a",1,false,["b"]⟩ ∧ s.revokerQueue = [] ∧
    NoneStranded s := by
  have ran : run next Primary.init [.acquire 1 "a" 1,.acquire 1 "b" 1,.revokerDeq,.callRevoke,.revokeHandler] =
      some notified := rfl
  have meets : Meets next Undisturbed Primary.init
      [.acquire 1 "a" 1,.acquire 1 "b" 1,.revokerDeq,.callRevoke,.revokeHandler] :=
    ⟨rfl,rfl,trivial,trivial,trivial,trivial⟩
  have reached : Reach (· = Primary.init) Undisturbed next notified := .run _ (.start rfl) meets ran
  have delivered : Undisturbed notified .changePrimary := by
    intro lid e found _ _
    by_cases same : lid = 1
    · subst same
      obtain rfl : (⟨"a",1,false,["b"]⟩ : ClientInfo) = e := by simpa [notified] using found
      simp [Delivered,notified]
    · simp [notified,update_of_ne same] at found
  exact ⟨_,reached,rfl,rfl,rfl,no_stranded_waiter (reached.step delivered rfl)⟩

/-- The primary fails before its revoker has sent the revoke. The requests of the waiting
client do not put another one into the queue of the new primary. -/
theorem failover_strands_waiter : ∃ s, Reach (· = Primary.init) anyStep next s ∧
    s.lockClients 1 = some ⟨"a",1,false,["b"]⟩ ∧ ¬ Underway s 1 ⟨"a",1,false,["b"]⟩ ∧
    ¬ Renews ⟨"a",1,false,["b"]⟩ ∧ ¬ NoneStranded s := by
  have renews : ¬ Renews ⟨"a",1,false,["b"]⟩ := by
    intro renews
    obtain ⟨granted,new,answer⟩ := renews "b" (by simp) 1
    simp [serverAcquire] at answer
  obtain ⟨s,reached,found,lost⟩ : ∃ s, Reach (· = Primary.init) anyStep next s ∧
      s.lockClients 1 = some ⟨"a",1,false,["b"]⟩ ∧ s.revokerQueue = [] ∧ s.revoker = .idle ∧ s.delivered = [] :=
    exists_reach_from rfl [.acquire 1 "a" 1,.acquire 1 "b" 1,.changePrimary,.recovered] (by decide +kernel)
  have underway : ¬ Underway s 1 ⟨"a",1,false,["b"]⟩ := by simp [Underway,Delivered,lost]
  refine ⟨s,reached,found,underway,renews,fun none => ?_⟩
  rcases none 1 _ found rfl (by simp) with found' | again
  · exact underway found'
  · exact renews again

end CodeExercise.LockServerRsm
