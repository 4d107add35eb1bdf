import CodeExercise.LockCache

/-!
The lock service on the replicated state machine: `lock_client_cache_rsm` and `lock_server_cache_rsm`
on one primary, without a change of view. The server's `acquire` only decides; the `revoker` thread
calls the holders of the locks in its queue, and the `retryer` thread tells a waiting client when the
lock is available again. All locks share the two threads, and all locks of a client its counter `xid`.
-/
namespace CodeExercise.LockCacheRsm
open Runs Function
open LockCache (Stat LockInfo insertClient mem_insertClient)

/-- `client_info` of `lock_server_cache_rsm`. -/
structure ClientInfo where
  cid : String
  xid : Nat
  available : Bool
  waited : List String
  deriving DecidableEq

/-- `lock_server_cache_rsm::acquire`: the answer (granted or RETRY), the entry, and
whether the lock is put into `revoker_queue`. No result for a duplicate, where
`clear_and_notify` uses `waited_clts` before it is set. -/
def serverAcquire (entry : Option ClientInfo) (id : String) (xid : Nat) : Option (Bool × ClientInfo × Bool) :=
  match entry with
  | none => some (true,⟨id,xid,false,[]⟩,false)
  | some e =>
    if id = e.cid ∧ xid = e.xid then none
    else if !e.waited.isEmpty && !decide (id ∈ e.waited) then
      some (false,{ e with waited := insertClient id e.waited },false)
    else if !e.available then
      if !decide (id ∈ e.waited) then some (false,{ e with waited := insertClient id e.waited },true)
      else some (false,e,false)
    else
      let waited := e.waited.erase id
      some (true,⟨id,xid,false,waited⟩,!waited.isEmpty)

/-- `lock_server_cache_rsm::release`; the `xid` is not looked at. -/
def serverRelease (entry : Option ClientInfo) (id : String) : Option ClientInfo :=
  entry.map (fun e => if e.cid = id then { e with available := true } else e)

/-- The server records the client as the holder, and the lock as taken. -/
def Owns (entry : Option ClientInfo) (c : String) : Prop := ∃ e, entry = some e ∧ e.cid = c ∧ e.available = false

lemma owns_unique (left : Owns entry c) (right : Owns entry d) : c = d := by
  obtain ⟨e,found,rfl,_⟩ := left
  obtain ⟨f,same,rfl,_⟩ := right
  obtain rfl : e = f := by simpa [found] using same
  rfl

/-- A lock that is granted was available, and its remaining waiters put it into the
queue. Otherwise the holder stays, and the lock is put into the queue for the first
waiter. -/
lemma serverAcquire_cases {id : String} {x : Nat} {granted enqueue : Bool}
    {new : ClientInfo} (served : serverAcquire entry id x = some (granted,new,enqueue)) :
    (granted = true ∧ new.cid = id ∧ new.xid = x ∧ new.available = false ∧ (∀ e, entry = some e → e.available = true) ∧
      (new.waited ≠ [] → enqueue = true)) ∨
    (granted = false ∧ ∃ e, entry = some e ∧ new.cid = e.cid ∧ new.xid = e.xid ∧ new.available = e.available ∧
      (e.available = false → e.waited ≠ [] ∨ enqueue = true)) := by
  unfold serverAcquire at served
  cases entry with
  | none =>
    cases served
    exact .inl ⟨rfl,rfl,rfl,rfl,by simp,by simp⟩
  | some e =>
    simp only at served
    split at served
    · cases served
    split at served
    · next late =>
      cases served
      refine .inr ⟨rfl,_,rfl,rfl,rfl,rfl,fun _ => .inl ?_⟩
      rintro empty
      simp [empty] at late
    split at served
    · split at served
      · cases served
        exact .inr ⟨rfl,_,rfl,rfl,rfl,rfl,fun _ => .inr rfl⟩
      · next waits =>
        cases served
        refine .inr ⟨rfl,_,rfl,rfl,rfl,rfl,fun _ => .inl ?_⟩
        rintro empty
        simp [empty] at waits
    · next available =>
      cases served
      refine .inl ⟨rfl,rfl,rfl,rfl,?_,by simp⟩
      intro f same
      obtain rfl : e = f := by simpa using same
      simpa using available

lemma owns_release (other : d ≠ h) (own : Owns entry d) :
    Owns (serverRelease entry h) d := by
  obtain ⟨e,rfl,rfl,held⟩ := own
  exact ⟨e,by simp [serverRelease,other],rfl,held⟩

/-- Where a thread stands. -/
inductive Pc where
  | idle
  /-- Waits for `lcond`. -/
  | blocked
  /-- About to make the acquire RPC, whose argument `xid` is read without `lm`. -/
  | calling
  | request (xid : Nat)
  | reply (granted : Bool)
  | retryWait
  /-- `acquire` has returned, `release` has not been called. -/
  | holding
  /-- Before and after the release RPC of `release`. -/
  | releasing
  | released
  deriving DecidableEq

/-- One lock: the clients' records of it, the threads, the server's entry. -/
structure Lock where
  clients : String → LockInfo
  threads : String → Nat → Pc
  entry : Option ClientInfo

def Lock.init : Lock := ⟨fun _ => ⟨false,.none,false⟩,fun _ _ => .idle,none⟩

def Lock.setThread (s : Lock) (c : String) (t : Nat) (pc : Pc) : Lock :=
  { s with threads := update s.threads c (update (s.threads c) t pc) }
def Lock.setClient (s : Lock) (c : String) (info : LockInfo) : Lock :=
  { s with clients := update s.clients c info }
def Lock.setEntry (s : Lock) (entry : Option ClientInfo) : Lock := { s with entry := entry }

/-- The loop of `revoker`: the lock it has taken, the revoke RPC and its handler
at the holder, before and after the handler's release RPC. -/
inductive Revoker where
  | idle
  | dequeued (lid : Nat)
  | sent (lid : Nat) (holder : String)
  | release (lid : Nat) (holder : String)
  | released (lid : Nat) (holder : String)
  | returned (lid : Nat)
  deriving DecidableEq

/-- The loop of `retryer`. -/
inductive Retryer where
  | idle
  | waiting (lid : Nat)
  | notify (lid : Nat) (client : String)
  deriving DecidableEq

structure System where
  locks : Nat → Lock
  xid : String → Nat
  revokerQueue : List Nat
  revoker : Revoker
  retryerQueue : List Nat
  retryer : Retryer

def System.init : System := ⟨fun _ => .init,fun _ => 0,[],.idle,[],.idle⟩

def System.setLock (s : System) (lid : Nat) (lock : Lock) : System :=
  { s with locks := update s.locks lid lock }

/-- The `switch` of `acquire`. -/
def Lock.enter (s : Lock) (c : String) (t : Nat) : Lock :=
  match (s.clients c).stat with
  | .none => (s.setClient c { s.clients c with stat := .acquiring }).setThread c t .calling
  | .free => (s.setClient c { s.clients c with stat := .locked }).setThread c t .holding
  | _ => s.setThread c t .blocked

/-- `xid++` in the case NONE of `acquire`. -/
def System.enter (s : System) (lid : Nat) (c : String) (t : Nat) : System :=
  let s' := s.setLock lid ((s.locks lid).enter c t)
  if ((s.locks lid).clients c).stat = .none then
    { s' with xid := update s.xid c ((s.xid c+1)%2^64) }
  else s'

inductive Label where
  | acquire (lid : Nat) (c : String) (t : Nat)
  | wake (lid : Nat) (c : String) (t : Nat)
  | call (lid : Nat) (c : String) (t : Nat)
  | serve (lid : Nat) (c : String) (t : Nat)
  | reply (lid : Nat) (c : String) (t : Nat)
  /-- The retry message has come, or the timed wait is over. -/
  | retry (lid : Nat) (c : String) (t : Nat)
  | release (lid : Nat) (c : String) (t : Nat)
  | releaseRpc (lid : Nat) (c : String) (t : Nat)
  | released (lid : Nat) (c : String) (t : Nat)
  | revokerDeq
  /-- The revoker reads `cid` and calls the holder. -/
  | callRevoke
  | revokeHandler
  | revokeRelease
  | revokeDone
  | retryerEnq
  | retryerDeq
  /-- The retryer finds the lock available. -/
  | callRetry
  | retryHandler
  deriving DecidableEq

def next (s : System) : Label → Option System
  | .acquire lid c t => if (s.locks lid).threads c t = .idle then some (s.enter lid c t) else none
  | .wake lid c t => if (s.locks lid).threads c t = .blocked then some (s.enter lid c t) else none
  | .call lid c t =>
    if (s.locks lid).threads c t = .calling then
      some (s.setLock lid ((s.locks lid).setThread c t (.request (s.xid c))))
    else none
  | .serve lid c t =>
    match (s.locks lid).threads c t with
    | .request x =>
      match serverAcquire (s.locks lid).entry c x with
      | some (granted,e,revoke) =>
        some { s.setLock lid (((s.locks lid).setEntry (some e)).setThread c t (.reply granted)) with
          revokerQueue := if revoke then s.revokerQueue ++ [lid] else s.revokerQueue }
      | none => none
    | _ => none
  | .reply lid c t =>
    let lock := s.locks lid
    match lock.threads c t with
    | .reply true =>
      some (s.setLock lid ((lock.setClient c { lock.clients c with stat := .locked }).setThread c t .holding))
    | .reply false => some (s.setLock lid (lock.setThread c t .retryWait))
    | _ => none
  | .retry lid c t =>
    let lock := s.locks lid
    if lock.threads c t = .retryWait then
      some (s.setLock lid ((lock.setClient c { lock.clients c with retry := false }).setThread c t .calling))
    else none
  | .release lid c t =>
    let lock := s.locks lid
    if lock.threads c t = .idle ∨ lock.threads c t = .holding then
      match (lock.clients c).stat with
      | .none => some (s.setLock lid (lock.setThread c t .idle))
      | .locked | .free =>
        if (lock.clients c).revoked = false then
          some (s.setLock lid ((lock.setClient c { lock.clients c with stat := .free }).setThread c t .idle))
        else
          some (s.setLock lid ((lock.setClient c { lock.clients c with stat := .releasing }).setThread c t .releasing))
      | _ => none
    else none
  | .releaseRpc lid c t =>
    let lock := s.locks lid
    if lock.threads c t = .releasing then
      some (s.setLock lid ((lock.setEntry (serverRelease lock.entry c)).setThread c t .released))
    else none
  | .released lid c t =>
    let lock := s.locks lid
    if lock.threads c t = .released then
      some (s.setLock lid
        ((lock.setClient c { lock.clients c with stat := .none, revoked := false }).setThread c t .idle))
    else none
  | .revokerDeq =>
    match s.revoker,s.revokerQueue with
    | .idle,lid::rest => some { s with revoker := .dequeued lid, revokerQueue := rest }
    | _,_ => none
  | .callRevoke =>
    match s.revoker with
    | .dequeued lid => (s.locks lid).entry.map (fun e => { s with revoker := .sent lid e.cid })
    | _ => none
  | .revokeHandler =>
    match s.revoker with
    | .sent lid h =>
      let info := (s.locks lid).clients h
      if info.stat = .free then
        some { s.setLock lid ((s.locks lid).setClient h { info with revoked := true, stat := .releasing }) with
          revoker := .release lid h }
      else some { s.setLock lid ((s.locks lid).setClient h { info with revoked := true }) with revoker := .returned lid }
    | _ => none
  | .revokeRelease =>
    match s.revoker with
    | .release lid h =>
      some { s.setLock lid ((s.locks lid).setEntry (serverRelease (s.locks lid).entry h)) with
        revoker := .released lid h }
    | _ => none
  | .revokeDone =>
    match s.revoker with
    | .released lid h =>
      some { s.setLock lid ((s.locks lid).setClient h
          { (s.locks lid).clients h with stat := .none, revoked := false }) with revoker := .returned lid }
    | _ => none
  | .retryerEnq =>
    match s.revoker with
    | .returned lid => some { s with revoker := .idle, retryerQueue := s.retryerQueue++[lid] }
    | _ => none
  | .retryerDeq =>
    match s.retryer,s.retryerQueue with
    | .idle,lid::rest => some { s with retryer := .waiting lid, retryerQueue := rest }
    | _,_ => none
  | .callRetry =>
    match s.retryer with
    | .waiting lid =>
      match (s.locks lid).entry with
      | some ⟨_,_,true,client::_⟩ => some { s with retryer := .notify lid client }
      | _ => none
    | _ => none
  | .retryHandler =>
    match s.retryer with
    | .notify lid client =>
      some { s.setLock lid ((s.locks lid).setClient client { (s.locks lid).clients client with retry := true }) with
        retryer := .idle }
    | _ => none

/-- A lock is released only by the thread that acquired it. -/
def HolderReleases (s : System) : Label → Prop
  | .release lid c t => (s.locks lid).threads c t = .holding
  | _ => True
instance (s : System) : (label : Label) → Decidable (HolderReleases s label)
  | .release .. => decideAs (_ = _)
  | .acquire .. | .wake .. | .call .. | .serve .. | .reply .. | .retry .. | .releaseRpc .. | .released .. => isTrue trivial
  | .revokerDeq | .callRevoke | .revokeHandler | .revokeRelease | .revokeDone => isTrue trivial
  | .retryerEnq | .retryerDeq | .callRetry | .retryHandler => isTrue trivial

/-- At most one client has the lock LOCKED or FREE and it is the server's holder;
at most one thread holds the lock, and it belongs to that client. -/
structure Exclusive (lock : Lock) : Prop where
  client : ∀ c d, (lock.clients c).stat = .locked ∨ (lock.clients c).stat = .free →
    (lock.clients d).stat = .locked ∨ (lock.clients d).stat = .free → c = d
  holder : ∀ c, (lock.clients c).stat = .locked ∨ (lock.clients c).stat = .free → Owns lock.entry c
  thread : ∀ c t d u, lock.threads c t = .holding → lock.threads d u = .holding → (c,t) = (d,u)
  locked : ∀ c t, lock.threads c t = .holding → (lock.clients c).stat = .locked

/-- `lock_clients`. -/
abbrev Table := Nat → Option ClientInfo
/-- A pointer to the waiting set of a lock; none before the assignment. -/
abbrev WaitedClts := Option Nat

/-- The code behind the label `clear_and_notify`: whether the lock is granted, the table, and whether the lock is put into
`revoker_queue`. There is no result when the pointer has no value. -/
def clearAndNotify (table : Table) (waitedClts : WaitedClts) (id : String) (amiprimary : Bool) : Option (Bool × Table × Bool) := do
  let l ← waitedClts
  let e ← table l
  let waited := e.waited.erase id
  return (true,update table l (some { e with waited := waited }),!waited.isEmpty && amiprimary)

/-- `lock_server_cache_rsm::acquire`. -/
def acquire (table : Table) (lid : Nat) (id : String) (xid : Nat) (amiprimary : Bool) : Option (Bool × Table × Bool) :=
  let waitedClts : WaitedClts := none
  match table lid with
  | none => some (true,update table lid (some ⟨id,xid,false,[]⟩),false)
  | some e =>
    -- the check for a duplicate comes before the assignment
    if id = e.cid ∧ xid = e.xid then clearAndNotify table waitedClts id amiprimary
    else
      let waitedClts : WaitedClts := some lid
      if !e.waited.isEmpty && !decide (id ∈ e.waited) then
        some (false,update table lid (some { e with waited := insertClient id e.waited }),false)
      else if !e.available then
        if !decide (id ∈ e.waited) then
          some (false,update table lid (some { e with waited := insertClient id e.waited }),amiprimary)
        else some (false,table,false)
      else
        clearAndNotify (update table lid (some { e with cid := id, xid := xid, available := false })) waitedClts id amiprimary

/-- The request made its client the holder of the lock. -/
def Duplicate (table : Table) (lid : Nat) (id : String) (xid : Nat) : Prop :=
  ∃ e, table lid = some e ∧ e.cid = id ∧ e.xid = xid

/-- The call returns, nobody but its client leaves the waiting set, and if the request made its client the holder it is granted
again and leaves the holder, the `xid` and the availability as they are. -/
def RunsAgain (table : Table) (lid : Nat) (id : String) (xid : Nat) (amiprimary : Bool) : Prop :=
  ∃ granted table' enqueue, acquire table lid id xid amiprimary = some (granted,table',enqueue) ∧
    ∀ e, table lid = some e → ∃ e', table' lid = some e' ∧ (∀ c ∈ e.waited, c ≠ id → c ∈ e'.waited) ∧
      (e.cid = id → e.xid = xid → granted = true ∧ e'.cid = e.cid ∧ e'.xid = e.xid ∧ e'.available = e.available)

section
variable {table : Table} {lid xid : Nat} {id : String} {amiprimary : Bool}

lemma clearAndNotify_update (table : Table) (lid : Nat) (e : ClientInfo) (id : String) (amiprimary : Bool) :
    clearAndNotify (update table lid (some e)) (some lid) id amiprimary =
      some (true,update table lid (some { e with waited := e.waited.erase id }),!(e.waited.erase id).isEmpty && amiprimary) := by
  simp [clearAndNotify]

lemma acquire_duplicate (duplicate : Duplicate table lid id xid) : acquire table lid id xid amiprimary = none := by
  obtain ⟨e,found,rfl,rfl⟩ := duplicate
  simp [acquire,found,clearAndNotify]

/-- On the primary, any other call does what the model of the whole service has it do. -/
lemma acquire_eq (table : Table) (lid : Nat) (id : String) (xid : Nat) :
    acquire table lid id xid true =
      (serverAcquire (table lid) id xid).map (fun r => (r.1,update table lid (some r.2.1),r.2.2)) := by
  unfold acquire serverAcquire
  cases found : table lid with
  | none => rfl
  | some e =>
    have same : update table lid (some e) = table := by rw [← found,update_eq_self]
    by_cases duplicate : id = e.cid ∧ xid = e.xid
    · simp [duplicate,clearAndNotify]
    simp only [if_neg duplicate]
    by_cases late : (!e.waited.isEmpty && !decide (id ∈ e.waited)) = true
    · simp only [if_pos late,Option.map_some]
    simp only [if_neg late]
    cases available : e.available with
    | false =>
      by_cases waits : id ∈ e.waited
      · simp [waits,same]
      · simp [waits]
    | true => simp [clearAndNotify_update]

/-- A call that is no duplicate returns, and removes nobody but its client from the waiting set. -/
lemma acquire_other (other : ¬ Duplicate table lid id xid) : RunsAgain table lid id xid amiprimary := by
  unfold RunsAgain acquire
  cases found : table lid with
  | none => exact ⟨_,_,_,rfl,by simp⟩
  | some e =>
    have differs : ¬ (id = e.cid ∧ xid = e.xid) := fun same => other ⟨e,found,same.1.symm,same.2.symm⟩
    have unlike {P : Prop} (cid : e.cid = id) (same : e.xid = xid) : P := absurd ⟨cid.symm,same.symm⟩ differs
    simp only [if_neg differs,Option.some.injEq,forall_eq']
    split
    · exact ⟨_,_,_,rfl,_,update_self _ _ _,fun c mem _ => mem_insertClient mem,unlike⟩
    split
    · split
      · exact ⟨_,_,_,rfl,_,update_self _ _ _,fun c mem _ => mem_insertClient mem,unlike⟩
      · exact ⟨_,_,_,rfl,e,found,fun c mem _ => mem,unlike⟩
    · refine ⟨_,_,_,clearAndNotify_update _ _ _ _ _,_,update_self _ _ _,?_,unlike⟩
      intro c mem client
      exact (List.mem_erase_of_ne client).mpr mem

end

/-- A call of `acquire` runs as it should, whether or not it came before, exactly if it is no duplicate of the request that made
its client the holder. -/
theorem acquire_again_iff (table : Table) (lid : Nat) (id : String) (xid : Nat) (amiprimary : Bool) :
    RunsAgain table lid id xid amiprimary ↔ ¬ Duplicate table lid id xid := by
  constructor
  · rintro ⟨granted,table',enqueue,ran,_⟩ duplicate
    rw [acquire_duplicate duplicate] at ran
    cases ran
  · exact acquire_other

/-- Client `a` gets the lock and `b` waits for it. When the request of `a` comes again, it uses the pointer without a value. -/
theorem acquire_again_fails : ∃ table table', acquire (fun _ => none) 1 "a" 1 true = some (true,table,false) ∧
    acquire table 1 "b" 1 true = some (false,table',true) ∧ table' 1 = some ⟨"a",1,false,["b"]⟩ ∧
    acquire table' 1 "a" 1 true = none :=
  ⟨_,_,rfl,rfl,by decide,rfl⟩

end CodeExercise.LockCacheRsm
