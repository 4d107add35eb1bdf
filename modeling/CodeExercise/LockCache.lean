import CodeExercise.Runs
import Mathlib.Data.List.Sort
import Mathlib.Data.String.Basic

/-!
The caching lock service: `lock_client_cache` and `lock_server_cache`, for one
lock. A thread that acquires is followed through its RPC: while the server
handles it, the thread's place says where the handler stands, up to the revoke
handler that the server calls at the holder. A step is the code between two
points where a mutex is released; waiting on a condition variable is looking
again at any time.
-/
namespace CodeExercise.LockCache
open Runs Function

/-- `lock_client_cache::xxstatus`. -/
inductive Stat where
  | none
  | acquiring
  | locked
  | releasing
  | free
  deriving DecidableEq

/-- `lock_client_cache::lock_info`. -/
structure LockInfo where
  revoked : Bool
  stat : Stat
  retry : Bool
  deriving DecidableEq

/-- `lock_server_cache::client_info`; `waited` is the set `waited_clients`. -/
structure ClientInfo where
  cid : String
  available : Bool
  waiting : Bool
  waited : List String
  deriving DecidableEq

/-- `insert` of a `std::set`. -/
def insertClient (id : String) (clients : List String) : List String :=
  if id ∈ clients then clients else clients.orderedInsert (· ≤ ·) id

lemma mem_insertClient {c id : String} {clients : List String} (mem : c ∈ clients) : c ∈ insertClient id clients := by
  unfold insertClient
  split
  · exact mem
  · exact (List.mem_orderedInsert _).mpr (.inr mem)

/-- How the first part of `acquire` ends, up to the first release of the mutex. -/
inductive Outcome where
  /-- The lock is given; a waiting client may have to be told. -/
  | granted (notify : Option String)
  | revoke
  | retry
  deriving DecidableEq

/-- `acquire` after its first block: the lock goes to `id`. -/
def ClientInfo.grant (e : ClientInfo) (id : String) : Option String × ClientInfo :=
  ((e.waited.erase id).head?,{ e with available := false, cid := id, waited := e.waited.erase id })

/-- `lock_server_cache::acquire`. -/
def serverAcquire (entry : Option ClientInfo) (id : String) : Outcome × ClientInfo :=
  match entry with
  | none => (.granted none,⟨id,false,false,[]⟩)
  | some e =>
    if !(e.available && e.waited.isEmpty) then
      if !e.available && !e.waiting && (e.waited.isEmpty || decide (id ∈ e.waited)) then
        (.revoke,{ e with waiting := true, waited := if e.waited.isEmpty then insertClient id e.waited else e.waited })
      else (.retry,{ e with waited := insertClient id e.waited })
    else (.granted (e.grant id).1,(e.grant id).2)

/-- Everything that the first part of `acquire` can do. -/
lemma serverAcquire_cases (entry : Option ClientInfo) (id : String) :
    (∃ notify new, serverAcquire entry id = (.granted notify,new) ∧ new.cid = id ∧ new.available = false ∧
      ∀ e, entry = some e → e.available = true ∧ e.waited = []) ∨
    (∃ e new, entry = some e ∧ serverAcquire entry id = (.revoke,new) ∧ e.waiting = false ∧ new.waiting = true ∧
      id ∈ new.waited ∧ new.cid = e.cid ∧ new.available = e.available) ∨
    (∃ e new, entry = some e ∧ serverAcquire entry id = (.retry,new) ∧ new.waiting = e.waiting ∧
      (∀ d ∈ e.waited, d ∈ new.waited) ∧ new.cid = e.cid ∧ new.available = e.available) := by
  cases entry with
  | none => exact .inl ⟨none,_,rfl,rfl,rfl,by simp⟩
  | some e =>
    have inserted : ∀ d ∈ e.waited, d ∈ insertClient id e.waited := fun d mem => mem_insertClient mem
    simp only [serverAcquire]
    split
    · split
      · next first =>
        refine .inr (.inl ⟨e,{ e with waiting := true, waited := if e.waited.isEmpty then insertClient id e.waited
          else e.waited },rfl,rfl,?_,rfl,?_,rfl,rfl⟩)
        · simp only [Bool.and_eq_true,Bool.not_eq_true'] at first
          exact first.1.2
        · simp only [Bool.and_eq_true,Bool.or_eq_true,List.isEmpty_iff,decide_eq_true_eq] at first
          rcases first.2 with empty | mem
          · simp [empty,insertClient]
          · have some : e.waited ≠ [] := List.ne_nil_of_mem mem
            simp [some,mem]
      · exact .inr (.inr ⟨e,{ e with waited := insertClient id e.waited },rfl,rfl,rfl,inserted,rfl,rfl⟩)
    · next unused =>
      refine .inl ⟨(e.grant id).1,(e.grant id).2,rfl,rfl,rfl,?_⟩
      rintro f same
      obtain rfl : e = f := by simpa using same
      simpa using unused

/-- `lock_server_cache::release`. -/
def serverRelease (entry : Option ClientInfo) (id : String) : Option ClientInfo :=
  entry.map (fun e => if e.cid = id then { e with available := true } else e)

/-- The revoke handler at the holder: called, before the release RPC, after it. -/
inductive RevokeStage where
  | sent
  | release
  | released
  deriving DecidableEq

/-- Where a thread stands. -/
inductive Pc where
  | idle
  /-- Waits for `lcond`. -/
  | blocked
  /-- The acquire RPC is on its way to the server. -/
  | request
  /-- The server is about to revoke the lock, revokes it, waits for its release. -/
  | revoke
  | revoking (holder : String) (stage : RevokeStage)
  | await
  /-- The server has given the lock and tells a waiting client to retry. -/
  | notify (client : String)
  | reply (granted : Bool)
  | retryWait
  /-- `acquire` has returned, `release` has not been called. -/
  | holding
  /-- Before and after the release RPC of `release`. -/
  | releasing
  | released
  deriving DecidableEq

structure Lock where
  clients : String → LockInfo
  threads : String → Nat → Pc
  entry : Option ClientInfo

def Lock.init : Lock := ⟨fun _ => ⟨false,.none,false⟩,fun _ _ => .idle,none⟩

def Lock.setThread (s : Lock) (c : String) (t : Nat) (pc : Pc) : Lock :=
  { s with threads := update s.threads c (update (s.threads c) t pc) }
def Lock.setClient (s : Lock) (c : String) (info : LockInfo) : Lock :=
  { s with clients := update s.clients c info }
def Lock.setEntry (s : Lock) (entry : Option ClientInfo) : Lock := { s with entry := entry }

section Set
variable (s : Lock) (c d : String) (t u : Nat) (pc : Pc)

@[simp] lemma setThread_threads :
    (s.setThread c t pc).threads d u = if d = c ∧ u = t then pc else s.threads d u := by
  by_cases client : d = c
  · subst client
    by_cases thread : u = t
    · simp [Lock.setThread,thread]
    · simp [Lock.setThread,thread]
  · simp [Lock.setThread,client]
@[simp] lemma setThread_clients : (s.setThread c t pc).clients = s.clients := rfl

end Set

/-- The `switch` of `acquire`. -/
def Lock.enter (s : Lock) (c : String) (t : Nat) : Lock :=
  match (s.clients c).stat with
  | .none => (s.setClient c { s.clients c with stat := .acquiring }).setThread c t .request
  | .free => (s.setClient c { s.clients c with stat := .locked }).setThread c t .holding
  | _ => s.setThread c t .blocked

/-- What the server does next for an acquire RPC. -/
def Outcome.pc : Outcome → Pc
  | .granted (some client) => .notify client
  | .granted none => .reply true
  | .revoke => .revoke
  | .retry => .reply false

inductive Label where
  | acquire (c : String) (t : Nat)
  | wake (c : String) (t : Nat)
  /-- The server takes up an acquire RPC. -/
  | serve (c : String) (t : Nat)
  /-- The server reads `cid` and calls the holder. -/
  | callRevoke (c : String) (t : Nat)
  | revokeHandler (c : String) (t : Nat)
  | revokeRelease (c : String) (t : Nat)
  | revokeDone (c : String) (t : Nat)
  /-- The server finds the lock available. -/
  | take (c : String) (t : Nat)
  | retryHandler (c : String) (t : Nat)
  /-- The reply of the acquire RPC reaches the thread. -/
  | reply (c : String) (t : Nat)
  | retry (c : String) (t : Nat)
  | release (c : String) (t : Nat)
  | releaseRpc (c : String) (t : Nat)
  | released (c : String) (t : Nat)
  deriving DecidableEq

def next (s : Lock) : Label → Option Lock
  | .acquire c t => if s.threads c t = .idle then some (s.enter c t) else none
  | .wake c t => if s.threads c t = .blocked then some (s.enter c t) else none
  | .serve c t =>
    if s.threads c t = .request then
      some ((s.setEntry (some (serverAcquire s.entry c).2)).setThread c t (serverAcquire s.entry c).1.pc)
    else none
  | .callRevoke c t =>
    match s.threads c t,s.entry with
    | .revoke,some e => some (s.setThread c t (.revoking e.cid .sent))
    | _,_ => none
  | .revokeHandler c t =>
    match s.threads c t with
    | .revoking h .sent =>
      some ((s.setClient h { s.clients h with revoked := true }).setThread c t
        (if (s.clients h).stat = .free then .revoking h .release else .await))
    | _ => none
  | .revokeRelease c t =>
    match s.threads c t with
    | .revoking h .release => some ((s.setEntry (serverRelease s.entry h)).setThread c t (.revoking h .released))
    | _ => none
  | .revokeDone c t =>
    match s.threads c t with
    | .revoking h .released =>
      some ((s.setClient h { s.clients h with stat := .none, revoked := false }).setThread c t .await)
    | _ => none
  | .take c t =>
    match s.threads c t,s.entry with
    | .await,some e =>
      if e.available = true then
        some ((s.setEntry (some ({ e with waiting := false }.grant c).2)).setThread c t
          (Outcome.granted ({ e with waiting := false }.grant c).1).pc)
      else none
    | _,_ => none
  | .retryHandler c t =>
    match s.threads c t with
    | .notify w => some ((s.setClient w { s.clients w with retry := true }).setThread c t (.reply true))
    | _ => none
  | .reply c t =>
    match s.threads c t with
    | .reply true => some ((s.setClient c { s.clients c with stat := .locked }).setThread c t .holding)
    | .reply false => some (s.setThread c t .retryWait)
    | _ => none
  | .retry c t =>
    if s.threads c t = .retryWait ∧ (s.clients c).retry = true then some (s.setThread c t .request) else none
  | .release c t =>
    if s.threads c t = .idle ∨ s.threads c t = .holding then
      match (s.clients c).stat with
      | .none => some (s.setThread c t .idle)
      | .locked | .free =>
        if (s.clients c).revoked = false then
          some ((s.setClient c { s.clients c with stat := .free }).setThread c t .idle)
        else some ((s.setClient c { s.clients c with stat := .releasing }).setThread c t .releasing)
      | _ => none
    else none
  | .releaseRpc c t =>
    if s.threads c t = .releasing then some ((s.setEntry (serverRelease s.entry c)).setThread c t .released) else none
  | .released c t =>
    if s.threads c t = .released then
      some ((s.setClient c { s.clients c with stat := .none, revoked := false }).setThread c t .idle)
    else none

/-- No two threads have both returned from `acquire` and not called `release`. -/
def Exclusive (s : Lock) : Prop :=
  ∀ c t d u, s.threads c t = .holding → s.threads d u = .holding → (c,t) = (d,u)

end CodeExercise.LockCache
