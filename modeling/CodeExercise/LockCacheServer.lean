import CodeExercise.LockCache

/-!
`lock_server_cache` by itself: any number of `acquire` and `release` calls from any clients, in steps
between the points where `lock_clients_mutex` is released. An `acquire` gives the mutex up while it
revokes the lock, while it waits for the condition variable and while it tells another client to
retry.
-/
namespace CodeExercise.LockCacheServer
open Runs LockCache List Option

/-- Where an `acquire` stands. -/
inductive Pc where
  /-- The mutex is released, the revoke RPC is not sent yet. -/
  | revoke
  /-- The revoke RPC is sent. -/
  | revoking
  /-- In `pthread_cond_wait`, and woken up from it. -/
  | asleep
  | awake
  /-- The lock is granted, the retry RPC has not returned. -/
  | notify (client : String)
  | ok
  | retry
  /-- The assertion before the grant failed. -/
  | failed
  deriving DecidableEq

structure Call where
  id : String
  pc : Pc
  deriving DecidableEq

inductive Event where
  | granted (id : String)
  | revoked (id : String)
  | released (id : String)
  deriving DecidableEq

/-- What the server has for one lock, and what has happened to the lock, the last event first. -/
structure Lock where
  entry : Option ClientInfo
  calls : List Call
  history : List Event
  deriving DecidableEq

def Lock.init : Lock := ⟨none,[],[]⟩

/-- `acquire` from the assertion on, up to the next release of the mutex. -/
def Lock.assign (s : Lock) (id : String) : Pc × Lock :=
  if s.entry.all (·.available) then
    match s.entry with
    | none => (.ok,{ s with entry := some ⟨id,false,false,[]⟩, history := .granted id :: s.history })
    | some e =>
      ((e.grant id).1.elim .ok .notify,{ s with entry := some (e.grant id).2, history := .granted id :: s.history })
  else (.failed,s)

/-- A new call has come to a place. -/
def Lock.enter (s : Lock) (id : String) (pc : Pc) : Lock := { s with calls := s.calls++[⟨id,pc⟩] }
def Lock.move (s : Lock) (i : Nat) (call : Call) (pc : Pc) : Lock := { s with calls := s.calls.set i { call with pc } }

/-- `acquire` up to the first release of the mutex. -/
def Lock.acquire (s : Lock) (id : String) : Lock :=
  match serverAcquire s.entry id with
  | (.granted _,_) => (s.assign id).2.enter id (s.assign id).1
  | (.revoke,e) => { s with entry := some e }.enter id .revoke
  | (.retry,e) => { s with entry := some e }.enter id .retry

/-- The `while` loop that waits for the holder, and what follows it. -/
def Lock.await (s : Lock) (i : Nat) (call : Call) (e : ClientInfo) : Lock :=
  if !e.available then s.move i call .asleep
  else
    let freed := { s with entry := some { e with waiting := false } }
    (freed.assign call.id).2.move i call (freed.assign call.id).1

/-- `pthread_cond_signal`: one of the threads in `pthread_cond_wait`, if there is one, wakes up. -/
def signal (calls : List Call) (woken : Option Nat) : Option (List Call) :=
  match woken with
  | none => if calls.all (fun call => decide (call.pc ≠ .asleep)) then some calls else none
  | some i => calls[i]?.bind (fun call => if call.pc = .asleep then some (calls.set i { call with pc := .awake }) else none)

inductive Label where
  | acquire (id : String)
  /-- `cid` is read and the revoke RPC is sent. -/
  | callRevoke (i : Nat)
  | revokeReturned (i : Nat)
  /-- `pthread_cond_wait` may return without a signal. -/
  | wakeUp (i : Nat)
  /-- `pthread_cond_wait` has the mutex again. -/
  | lookAgain (i : Nat)
  | retryReturned (i : Nat)
  | release (id : String) (woken : Option Nat)
  deriving DecidableEq

/-- Failing revoke and retry RPCs abort the server and are not followed. -/
def next (s : Lock) : Label → Option Lock
  | .acquire id => some (s.acquire id)
  | .callRevoke i => do
    let call ← s.calls[i]?
    let e ← s.entry
    if call.pc = .revoke then some { s.move i call .revoking with history := .revoked e.cid :: s.history } else none
  | .revokeReturned i => do
    let call ← s.calls[i]?
    let e ← s.entry
    if call.pc = .revoking then some (s.await i call e) else none
  | .wakeUp i => do
    let call ← s.calls[i]?
    if call.pc = .asleep then some (s.move i call .awake) else none
  | .lookAgain i => do
    let call ← s.calls[i]?
    let e ← s.entry
    if call.pc = .awake then some (s.await i call e) else none
  | .retryReturned i => do
    let call ← s.calls[i]?
    match call.pc with
    | .notify _ => some (s.move i call .ok)
    | _ => none
  | .release id woken =>
    let s := { s with history := .released id :: s.history }
    match s.entry with
    | none => some s
    | some e =>
      if e.cid = id then
        (signal s.calls woken).map (fun calls => { s with calls, entry := serverRelease s.entry id })
      else some s

/-- An `acquire` that waits for the holder, and one whose revoke has been sent. -/
def Pc.waits : Pc → Bool
  | .revoke | .revoking | .asleep | .awake => true
  | _ => false

def Pc.revoked : Pc → Bool
  | .revoking | .asleep | .awake => true
  | _ => false

/-- It has the lock: its answer is OK, now or after the retry RPC. -/
def Pc.granted : Pc → Bool
  | .ok | .notify _ => true
  | _ => false

/-- How many calls of a client are answered OK. -/
def answered (calls : List Call) (id : String) : Nat := calls.countP (fun call => decide (call.id = id) && call.pc.granted)

/-- Between two grants the holder of the earlier one has released the lock. -/
def InTurn (history : List Event) : Prop :=
  ∀ late mid early c d, history = late++.granted d :: (mid++.granted c :: early) → .released c ∈ mid

/-- The events since the last grant. -/
def sinceGrant : List Event → List Event
  | [] => []
  | .granted _ :: _ => []
  | event::rest => event :: sinceGrant rest

/-- A holder releases the lock only after a revoke was sent to it for this grant. -/
def KeptUntilRevoked (s : Lock) : Label → Prop
  | .release id _ => ∀ e ∈ s.entry, e.cid = id → e.available = false → .revoked id ∈ sinceGrant s.history
  | _ => True

instance (s : Lock) : (label : Label) → Decidable (KeptUntilRevoked s label)
  | .release _ _ => decideAs (∀ e ∈ s.entry, _)
  | .acquire _ | .callRevoke _ | .revokeReturned _ | .wakeUp _ | .lookAgain _ | .retryReturned _ => isTrue trivial

/-- The lock is free for it as soon as it runs. -/
def Pc.takes : Pc → Bool
  | .revoking | .awake => true
  | _ => false

lemma inTurn_cons (turn : InTurn history) (other : ∀ id, event ≠ .granted id) :
    InTurn (event::history) := by
  intro late mid early c d cut
  cases late with
  | nil => exact absurd (List.cons.inj cut).1 (other d)
  | cons first late => exact turn late mid early c d (List.cons.inj cut).2

/-- The last grant was to the holder; it has released the lock if the lock is available. -/
def Holder (entry : Option ClientInfo) (history : List Event) : Prop :=
  match entry with
  | none => ∀ id, .granted id ∉ history
  | some e => ∃ mid early, history = mid++.granted e.cid :: early ∧ (∀ id, .granted id ∉ mid) ∧
      (e.available = true → .released e.cid ∈ mid)

lemma holder_cons (holder : Holder entry history)
    (other : ∀ id, event ≠ .granted id) : Holder entry (event::history) := by
  cases entry with
  | none =>
    intro id mem
    rcases mem_cons.mp mem with same | mem
    · exact other id same.symm
    · exact holder id mem
  | some e =>
    obtain ⟨mid,early,rfl,ungranted,released⟩ := holder
    refine ⟨event::mid,early,rfl,?_,fun free => mem_cons_of_mem _ (released free)⟩
    intro id mem
    rcases mem_cons.mp mem with same | mem
    · exact other id same.symm
    · exact ungranted id mem

lemma inTurn_grant (turn : InTurn history)
    (holder : Holder entry history) (free : ∀ e ∈ entry, e.available = true) (id : String) :
    InTurn (.granted id :: history) := by
  intro late mid early c d cut
  cases late with
  | cons first late => exact turn late mid early c d (List.cons.inj cut).2
  | nil =>
    have rest : history = mid++.granted c :: early := (List.cons.inj cut).2
    cases entry with
    | none => exact absurd (by rw [rest]; simp) (holder c)
    | some e =>
      obtain ⟨mid',early',split,ungranted,released⟩ := holder
      have same := rest.symm.trans split
      -- the grant to `c` is the last one, or an earlier one
      rcases append_eq_append_iff.mp same with ⟨gap,rfl,tail⟩ | ⟨gap,rfl,tail⟩
      · cases gap with
        | nil =>
          obtain rfl : c = e.cid := by simpa using (List.cons.inj tail).1
          simpa using released (free e rfl)
        | cons first gap =>
          obtain rfl : .granted c = first := (List.cons.inj tail).1
          exact absurd (by simp) (ungranted c)
      · cases gap with
        | nil =>
          obtain rfl : e.cid = c := by simpa using (List.cons.inj tail).1
          simpa using released (free e rfl)
        | cons first gap =>
          obtain rfl : .granted e.cid = first := (List.cons.inj tail).1
          have before : .released c ∈ gap := turn mid' gap early c e.cid (by rw [rest]; simp)
          simp [before]

lemma mem_sinceGrant_cons (other : ∀ id, event ≠ .granted id) :
    x ∈ sinceGrant (event::history) ↔ x = event ∨ x ∈ sinceGrant history := by
  cases event with
  | granted id => exact absurd rfl (other id)
  | revoked id => simp [sinceGrant]
  | released id => simp [sinceGrant]

structure Inv (s : Lock) : Prop where
  single : ∀ (i j : Nat) (c d : Call), s.calls[i]? = some c → s.calls[j]? = some d → c.pc.waits = true → d.pc.waits = true → i = j
  line : ∀ (i : Nat) (c : Call), s.calls[i]? = some c → c.pc.waits = true → ∃ e, s.entry = some e ∧ e.waiting = true ∧ c.id ∈ e.waited
  sleeps : ∀ (i : Nat) (c : Call) (e : ClientInfo), s.calls[i]? = some c → c.pc = .asleep → s.entry = some e → e.available = false
  passed : ∀ (i : Nat) (c : Call), s.calls[i]? = some c → c.pc ≠ .failed
  turn : InTurn s.history
  holder : Holder s.entry s.history
  told : ∀ id, .revoked id ∈ sinceGrant s.history → ∃ (i : Nat) (c : Call), s.calls[i]? = some c ∧ c.pc.revoked = true
  answers : ∀ id, answered s.calls id = s.history.count (.granted id)

lemma inv_init : Inv Lock.init := by
  refine ⟨?_,?_,?_,?_,?_,?_,?_,?_⟩
  · simp [Lock.init]
  · simp [Lock.init]
  · simp [Lock.init]
  · simp [Lock.init]
  · intro late mid early c d cut
    simp [Lock.init] at cut
  · simp [Lock.init,Holder]
  · simp [Lock.init,sinceGrant]
  · simp [Lock.init,answered]

section
variable {s : Lock} {i j : Nat} {call c : Call} {pc : Pc} {id : String}

lemma move_cases (found : (s.move i call pc).calls[j]? = some c) :
    (j = i ∧ c = { call with pc }) ∨ (j ≠ i ∧ s.calls[j]? = some c) := by
  rw [Lock.move,getElem?_set] at found
  split at found
  · next same =>
    split at found
    · exact .inl ⟨same.symm,(some.inj found).symm⟩
    · exact nomatch found
  · next other => exact .inr ⟨fun same => other same.symm,found⟩

lemma move_self (found : s.calls[i]? = some call) : (s.move i call pc).calls[i]? = some { call with pc } := by
  have inside : i < s.calls.length := (List.getElem?_eq_some_iff.mp found).1
  rw [Lock.move,getElem?_set,if_pos rfl,if_pos inside]

lemma answered_move (found : s.calls[i]? = some call) (pc : Pc) (id : String) :
    answered (s.move i call pc).calls id + (decide (call.id = id) && call.pc.granted).toNat =
      answered s.calls id + (decide (call.id = id) && pc.granted).toNat := by
  obtain ⟨inside,rfl⟩ := List.getElem?_eq_some_iff.mp found
  have counted := boole_getElem_le_countP (p := fun call => decide (call.id = id) && call.pc.granted) inside
  simp only [answered,Lock.move,countP_set inside,Bool.toNat,Bool.cond_eq_ite]
  omega

lemma answered_enter : answered (s.enter id pc).calls client = answered s.calls client + (decide (id = client) && pc.granted).toNat := by
  simp [answered,Lock.enter,countP_append,countP_cons,Bool.toNat,Bool.cond_eq_ite]

lemma enter_cases (found : (s.enter id pc).calls[j]? = some c) :
    (j = s.calls.length ∧ c = ⟨id,pc⟩) ∨ s.calls[j]? = some c := by
  by_cases old : j < s.calls.length
  · rw [Lock.enter,getElem?_append_left old] at found
    exact .inr found
  · rw [Lock.enter,getElem?_append_right (Nat.not_lt.mp old)] at found
    obtain ⟨first,same⟩ := List.getElem?_eq_some_iff.mp found
    simp only [length_singleton,Nat.lt_one_iff] at first
    refine .inl ⟨by omega,?_⟩
    simpa [first] using same.symm

lemma enter_old (found : s.calls[j]? = some c) : (s.enter id pc).calls[j]? = some c := by
  rwa [Lock.enter,getElem?_append_left (List.getElem?_eq_some_iff.mp found).1]

lemma Inv.move (inv : Inv s) (found : s.calls[i]? = some call) (waits : pc.waits = true → call.pc.waits = true)
    (revoked : call.pc.revoked = true → pc.revoked = true) (passed : pc ≠ .failed)
    (sleeps : pc = .asleep → ∀ e, s.entry = some e → e.available = false) (same : pc.granted = call.pc.granted) : Inv (s.move i call pc) := by
  have back : ∀ (j : Nat) (c : Call), (s.move i call pc).calls[j]? = some c → c.pc.waits = true →
      ∃ d : Call, s.calls[j]? = some d ∧ d.id = c.id ∧ d.pc.waits = true := by
    intro j c at_j waiting
    rcases move_cases at_j with ⟨rfl,rfl⟩ | ⟨_,at_j⟩
    · exact ⟨call,found,rfl,waits waiting⟩
    · exact ⟨c,at_j,rfl,waiting⟩
  refine ⟨?_,?_,?_,?_,inv.turn,inv.holder,?_,fun id => ?_⟩
  · intro j k c d at_j at_k left right
    obtain ⟨c',at_j,_,left⟩ := back j c at_j left
    obtain ⟨d',at_k,_,right⟩ := back k d at_k right
    exact inv.single j k c' d' at_j at_k left right
  · intro j c at_j waiting
    obtain ⟨c',at_j,same,waiting⟩ := back j c at_j waiting
    rw [← same]
    exact inv.line j c' at_j waiting
  · intro j c e at_j asleep entry
    rcases move_cases at_j with ⟨rfl,rfl⟩ | ⟨_,at_j⟩
    · exact sleeps asleep e entry
    · exact inv.sleeps j c e at_j asleep entry
  · intro j c at_j
    rcases move_cases at_j with ⟨rfl,rfl⟩ | ⟨_,at_j⟩
    · exact passed
    · exact inv.passed j c at_j
  · intro id mem
    obtain ⟨j,c,at_j,past⟩ := inv.told id mem
    by_cases same : j = i
    · subst same
      obtain rfl : call = c := by simpa [found] using at_j
      exact ⟨j,_,move_self found,revoked past⟩
    · refine ⟨j,c,?_,past⟩
      rwa [Lock.move,getElem?_set,if_neg (fun eq => same eq.symm)]
  · have counted := answered_move found pc id
    rw [same] at counted
    exact (Nat.add_right_cancel counted).trans (inv.answers id)

lemma Inv.enter (inv : Inv s) (waits : pc.waits = false) (passed : pc ≠ .failed) (refused : pc.granted = false) : Inv (s.enter id pc) := by
  have back : ∀ (j : Nat) (c : Call), (s.enter id pc).calls[j]? = some c → c.pc.waits = true → s.calls[j]? = some c := by
    intro j c at_j waiting
    rcases enter_cases at_j with ⟨_,rfl⟩ | at_j
    · exact absurd waiting (by simp [waits])
    · exact at_j
  refine ⟨?_,?_,?_,?_,inv.turn,inv.holder,?_,fun client => (answered_enter.trans (by simp [refused])).trans (inv.answers client)⟩
  · intro j k c d at_j at_k left right
    exact inv.single j k c d (back j c at_j left) (back k d at_k right) left right
  · intro j c at_j waiting
    exact inv.line j c (back j c at_j waiting) waiting
  · intro j c e at_j asleep entry
    exact inv.sleeps j c e (back j c at_j (by rw [asleep]; rfl)) asleep entry
  · intro j c at_j
    rcases enter_cases at_j with ⟨_,rfl⟩ | at_j
    · exact passed
    · exact inv.passed j c at_j
  · intro id mem
    obtain ⟨j,c,at_j,past⟩ := inv.told id mem
    exact ⟨j,c,enter_old at_j,past⟩

lemma Inv.more (inv : Inv s) (entry : s.entry = some e) (cid : e'.cid = e.cid)
    (available : e'.available = e.available) (waiting : e'.waiting = e.waiting) (waited : e.waited ⊆ e'.waited) :
    Inv { s with entry := some e' } := by
  refine ⟨inv.single,?_,?_,inv.passed,inv.turn,?_,inv.told,inv.answers⟩
  · intro j c at_j waits
    obtain ⟨f,same,held,mem⟩ := inv.line j c at_j waits
    obtain rfl : e = f := by simpa [entry] using same
    exact ⟨e',rfl,waiting.trans held,waited mem⟩
  · intro j c f at_j asleep same
    obtain rfl : e' = f := by simpa using same
    exact available.trans (inv.sleeps j c e at_j asleep entry)
  · have holder := inv.holder
    rw [entry] at holder
    simpa only [Holder,cid,available] using holder

lemma Inv.grant (inv : Inv s) (free : ∀ e ∈ s.entry, e.available = true)
    (held : e.available = false) (alone : ∀ (j : Nat) (c : Call), calls[j]? = some c → c.pc.waits = false ∧ c.pc ≠ .failed)
    (more : ∀ id, answered calls id = answered s.calls id + (decide (e.cid = id)).toNat) : Inv ⟨some e,calls,.granted e.cid :: s.history⟩ := by
  refine ⟨?_,?_,?_,fun j c at_j => (alone j c at_j).2,inTurn_grant inv.turn inv.holder free e.cid,?_,?_,fun id => ?_⟩
  · intro j k c d at_j _ left
    exact absurd left (by simp [(alone j c at_j).1])
  · intro j c at_j waits
    exact absurd waits (by simp [(alone j c at_j).1])
  · intro j c f at_j asleep
    exact absurd (alone j c at_j).1 (by simp [asleep,Pc.waits])
  · exact ⟨[],s.history,rfl,by simp,by simp [held]⟩
  · simp [sinceGrant]
  · simp [more,inv.answers,count_cons,Bool.toNat,Bool.cond_eq_ite]

end

section
variable {s t : Lock} {i : Nat} {call : Call} {e : ClientInfo} {id : String}

lemma assign_free (free : ∀ e ∈ s.entry, e.available = true) (id : String) :
    ∃ pc e, s.assign id = (pc,{ s with entry := some e, history := .granted e.cid :: s.history }) ∧
      e.cid = id ∧ e.available = false ∧ pc.waits = false ∧ pc ≠ .failed ∧ pc.granted = true := by
  have passes : s.entry.all (·.available) = true := (Option.all_eq_true _ _).mpr free
  cases entry : s.entry with
  | none =>
    rw [entry] at passes
    refine ⟨.ok,⟨id,false,false,[]⟩,?_,rfl,rfl,rfl,by decide,rfl⟩
    simp [Lock.assign,entry]
  | some e =>
    rw [entry] at passes
    refine ⟨(e.grant id).1.elim .ok .notify,(e.grant id).2,?_,rfl,rfl,?_,?_,?_⟩
    · simp only [Lock.assign,entry,if_pos passes]
      rfl
    · cases (e.grant id).1 <;> rfl
    · cases (e.grant id).1 <;> simp
    · cases (e.grant id).1 <;> rfl

section
variable (inv : Inv s)
include inv

lemma Inv.idle_of_quiet (quiet : ∀ e ∈ s.entry, e.waiting = false ∨ e.waited = []) (j : Nat) (c : Call)
    (at_j : s.calls[j]? = some c) : c.pc.waits = false := by
  cases waits : c.pc.waits with
  | false => rfl
  | true =>
    obtain ⟨e,entry,waiting,mem⟩ := inv.line j c at_j waits
    rcases quiet e entry with not | empty
    · exact absurd waiting (by simp [not])
    · exact absurd mem (by simp [empty])

lemma Inv.acquire (id : String) : Inv (s.acquire id) := by
  rcases serverAcquire_cases s.entry id with ⟨notify,new,served,_,_,quiet⟩ |
    ⟨e,new,entry,served,quiet,waiting,mem,cid,available⟩ | ⟨e,new,entry,served,waiting,waited,cid,available⟩
  · obtain ⟨pc,e,assigned,rfl,held,away,passed,granted⟩ := assign_free (fun e found => (quiet e found).1) id
    have result : s.acquire e.cid = ⟨some e,(s.enter e.cid pc).calls,.granted e.cid :: s.history⟩ := by
      rw [Lock.acquire,served,assigned]
      rfl
    rw [result]
    refine inv.grant (fun e found => (quiet e found).1) held (fun j c at_j => ?_) fun client => by simp [answered_enter,granted]
    rcases enter_cases at_j with ⟨_,rfl⟩ | at_j
    · exact ⟨away,passed⟩
    · exact ⟨inv.idle_of_quiet (fun e found => .inr (quiet e found).2) j c at_j,inv.passed j c at_j⟩
  · -- the only call that waits is the new one
    have idle := inv.idle_of_quiet (fun f found => .inl (by rw [some.inj (entry.symm.trans found)] at quiet; exact quiet))
    have only : ∀ (j : Nat) (c : Call), ({ s with entry := some new }.enter id .revoke).calls[j]? = some c →
        c.pc.waits = true → j = s.calls.length ∧ c = ⟨id,.revoke⟩ := by
      intro j c at_j waits
      rcases enter_cases at_j with first | at_j
      · exact first
      · exact absurd waits (by simp [idle j c at_j])
    rw [Lock.acquire,served]
    refine ⟨?_,?_,?_,?_,inv.turn,?_,?_,fun client => (answered_enter.trans (by simp [Pc.granted])).trans (inv.answers client)⟩
    · intro j k c d at_j at_k left right
      rw [(only j c at_j left).1,(only k d at_k right).1]
    · intro j c at_j waits
      obtain ⟨_,rfl⟩ := only j c at_j waits
      exact ⟨new,rfl,waiting,mem⟩
    · intro j c f at_j asleep
      obtain ⟨_,rfl⟩ := only j c at_j (by rw [asleep]; rfl)
      exact nomatch asleep
    · intro j c at_j
      rcases enter_cases at_j with ⟨_,rfl⟩ | at_j
      · simp
      · exact inv.passed j c at_j
    · have holder := inv.holder
      rw [entry] at holder
      simpa only [Lock.enter,Holder,cid,available] using holder
    · intro id told
      obtain ⟨j,c,at_j,past⟩ := inv.told id told
      exact ⟨j,c,enter_old at_j,past⟩
  · rw [Lock.acquire,served]
    have more := inv.more entry cid available waiting waited
    exact more.enter rfl (show Pc.retry ≠ .failed by decide) rfl

lemma Inv.await (found : s.calls[i]? = some call) (waits : call.pc.waits = true) (entry : s.entry = some e) :
    Inv (s.await i call e) := by
  have refused : call.pc.granted = false := by cases at_pc : call.pc <;> simp_all [Pc.waits,Pc.granted]
  rw [Lock.await]
  split
  · next held =>
    refine inv.move found (fun _ => waits) (fun _ => rfl) (by simp) (fun _ f same => ?_) refused.symm
    obtain rfl : e = f := by simpa [entry] using same
    simpa using held
  · next free =>
    have free : e.available = true := by simpa using free
    obtain ⟨pc,e',assigned,cid,held,away,passed,granted⟩ := assign_free (s := { s with entry := some { e with waiting := false } })
      (by simpa using free) call.id
    have result : (({ s with entry := some { e with waiting := false } } : Lock).assign call.id).2.move i call pc =
        ⟨some e',(s.move i call pc).calls,.granted e'.cid :: s.history⟩ := by
      rw [assigned]
      rfl
    simp only [assigned] at result ⊢
    rw [result]
    refine inv.grant (by simpa [entry] using free) held (fun j c at_j => ?_) fun client => by
      simpa [refused,granted,cid] using answered_move found pc client
    rcases move_cases at_j with ⟨rfl,rfl⟩ | ⟨other,at_j⟩
    · exact ⟨away,passed⟩
    · refine ⟨?_,inv.passed j c at_j⟩
      cases pending : c.pc.waits with
      | false => rfl
      | true => exact absurd (inv.single j i c call at_j found pending waits) other

lemma Inv.released (id : String) : Inv { s with history := .released id :: s.history } := by
  refine ⟨inv.single,inv.line,inv.sleeps,inv.passed,inTurn_cons inv.turn (by simp),holder_cons inv.holder (by simp),?_,fun id => by simpa using inv.answers id⟩
  intro client mem
  rcases (mem_sinceGrant_cons (by simp)).mp mem with same | mem
  · exact nomatch same
  · exact inv.told client mem

lemma Inv.revoked (found : s.calls[i]? = some call) (past : call.pc.revoked = true) (id : String) :
    Inv { s with history := .revoked id :: s.history } :=
  { inv with
    turn := inTurn_cons inv.turn (by simp), holder := holder_cons inv.holder (by simp), told := fun _ _ => ⟨i,call,found,past⟩
    answers := fun id => by simpa using inv.answers id }

lemma Inv.signal (done : signal s.calls woken = some calls) :
    Inv { s with calls } ∧ ∀ c ∈ calls, c.pc ≠ .asleep := by
  cases woken with
  | none =>
    simp only [LockCacheServer.signal] at done
    split at done <;> cases done
    next nobody => exact ⟨inv,by simpa using nobody⟩
  | some i =>
    simp only [LockCacheServer.signal,bind_eq_some_iff] at done
    obtain ⟨call,found,done⟩ := done
    split at done <;> cases done
    next asleep =>
      refine ⟨inv.move found (fun _ => by rw [asleep]; rfl) (fun _ => rfl) (show Pc.awake ≠ .failed by decide) ?_ (by rw [asleep]; rfl),?_⟩
      · simp
      · intro c mem still
        obtain ⟨j,at_j⟩ := mem_iff_getElem?.mp mem
        rcases move_cases at_j with ⟨_,rfl⟩ | ⟨other,at_j⟩
        · exact nomatch still
        · exact other (inv.single j i c call at_j found (by rw [still]; rfl) (by rw [asleep]; rfl))

lemma Inv.freed (entry : s.entry = some e) (awake : ∀ c ∈ s.calls, c.pc ≠ .asleep)
    (last : s.history = .released e.cid :: rest) : Inv { s with entry := some { e with available := true } } := by
  refine ⟨inv.single,?_,?_,inv.passed,inv.turn,?_,inv.told,inv.answers⟩
  · intro j c at_j waits
    obtain ⟨f,same,held,mem⟩ := inv.line j c at_j waits
    obtain rfl : e = f := by simpa [entry] using same
    exact ⟨_,rfl,held,mem⟩
  · intro j c f at_j asleep
    exact absurd asleep (awake c (mem_of_getElem? at_j))
  · have holder := inv.holder
    rw [entry] at holder
    obtain ⟨mid,early,cut,ungranted,_⟩ := holder
    refine ⟨mid,early,cut,ungranted,fun _ => ?_⟩
    cases mid with
    | nil => exact absurd (last.symm.trans cut) (by simp)
    | cons event mid =>
      have first : .released e.cid = event := (List.cons.inj (last.symm.trans cut)).1
      rw [← first]
      exact mem_cons_self

lemma Inv.release (moved : next s (.release id woken) = some t) : Inv t := by
  simp only [next] at moved
  split at moved
  · cases moved
    exact inv.released id
  · next e entry =>
    split at moved
    · next holder =>
      obtain ⟨calls,done,rfl⟩ := map_eq_some_iff.mp moved
      obtain ⟨signalled,awake⟩ := (inv.released id).signal done
      have freed := signalled.freed entry awake (show _ = Event.released e.cid :: s.history by rw [holder])
      have same : serverRelease s.entry id = some { e with available := true } := by
        rw [serverRelease,entry,map_some,if_pos holder]
      rwa [same]
    · cases moved
      exact inv.released id

end

lemma inv_next (s : Lock) (label : Label) (t : Lock) (inv : Inv s) (moved : next s label = some t) : Inv t := by
  cases label with
  | acquire id =>
    cases moved
    exact inv.acquire id
  | release id woken => exact inv.release moved
  | callRevoke i =>
    simp only [next,bind_eq_bind,bind_eq_some_iff] at moved
    obtain ⟨call,found,e,_,moved⟩ := moved
    split at moved <;> cases moved
    next at_pc =>
      have sent : Inv (s.move i call .revoking) := inv.move found (fun _ => by rw [at_pc]; rfl) (fun _ => rfl) (by simp) (by simp) (by rw [at_pc]; rfl)
      exact sent.revoked (move_self found) rfl e.cid
  | revokeReturned i | lookAgain i =>
    simp only [next,bind_eq_bind,bind_eq_some_iff] at moved
    obtain ⟨call,found,e,entry,moved⟩ := moved
    split at moved <;> cases moved
    next at_pc => exact inv.await found (by rw [at_pc]; rfl) entry
  | wakeUp i =>
    simp only [next,bind_eq_bind,bind_eq_some_iff] at moved
    obtain ⟨call,found,moved⟩ := moved
    split at moved <;> cases moved
    next at_pc => exact inv.move found (fun _ => by rw [at_pc]; rfl) (fun _ => rfl) (by simp) (by simp) (by rw [at_pc]; rfl)
  | retryReturned i =>
    simp only [next,bind_eq_bind,bind_eq_some_iff] at moved
    obtain ⟨call,found,moved⟩ := moved
    split at moved <;> cases moved
    next client at_pc => exact inv.move found (by simp [Pc.waits]) (by simp [at_pc,Pc.revoked]) (by simp) (by simp) (by rw [at_pc]; rfl)

lemma acquire_available (entry : (s.acquire id).entry = some e) (free : e.available = true) :
    ∃ f, s.entry = some f ∧ f.cid = e.cid ∧ f.available = true ∧ (s.acquire id).history = s.history := by
  rcases serverAcquire_cases s.entry id with ⟨notify,new,served,_,_,quiet⟩ |
    ⟨f,new,found,served,_,_,_,cid,available⟩ | ⟨f,new,found,served,_,_,cid,available⟩
  · obtain ⟨pc,new,assigned,_,held,_⟩ := assign_free (fun e found => (quiet e found).1) id
    rw [Lock.acquire,served,assigned] at entry
    obtain rfl : new = e := by simpa [Lock.enter] using entry
    exact absurd free (by simp [held])
  · rw [Lock.acquire,served] at entry ⊢
    obtain rfl : new = e := by simpa [Lock.enter] using entry
    exact ⟨f,found,cid.symm,available.symm.trans free,rfl⟩
  · rw [Lock.acquire,served] at entry ⊢
    obtain rfl : new = e := by simpa [Lock.enter] using entry
    exact ⟨f,found,cid.symm,available.symm.trans free,rfl⟩

lemma await_available (before : s.entry = some f) (entry : (s.await i call f).entry = some e)
    (free : e.available = true) : f = e ∧ (s.await i call f).history = s.history := by
  by_cases held : f.available = false
  · have asleep : s.await i call f = s.move i call .asleep := by simp [Lock.await,held]
    rw [asleep] at entry ⊢
    exact ⟨by simpa [Lock.move,before] using entry,rfl⟩
  · have quiet : f.available = true := by simpa using held
    obtain ⟨pc,new,assigned,_,taken,_⟩ := assign_free (s := { s with entry := some { f with waiting := false } })
      (by simpa using quiet) call.id
    rw [Lock.await,if_neg (by simp [quiet])] at entry
    simp only [assigned] at entry
    obtain rfl : new = e := by simpa [Lock.move] using entry
    exact absurd free (by simp [taken])

/-- A lock becomes available only by the release of its holder. -/
lemma available_before (moved : next s label = some t) (entry : t.entry = some e)
    (free : e.available = true) : ∃ f, s.entry = some f ∧ f.cid = e.cid ∧ sinceGrant s.history ⊆ sinceGrant t.history ∧
      (f.available = true ∨ ∃ woken, label = .release f.cid woken) := by
  have later : ∀ event : Event, (∀ id, event ≠ .granted id) → sinceGrant s.history ⊆ sinceGrant (event::s.history) :=
    fun event other x mem => (mem_sinceGrant_cons other).mpr (.inr mem)
  cases label with
  | acquire id =>
    cases moved
    obtain ⟨f,found,cid,quiet,same⟩ := acquire_available entry free
    exact ⟨f,found,cid,by rw [same]; exact List.Subset.refl _,.inl quiet⟩
  | callRevoke i =>
    simp only [next,bind_eq_bind,bind_eq_some_iff] at moved
    obtain ⟨call,_,f,_,moved⟩ := moved
    split at moved <;> cases moved
    exact ⟨e,entry,rfl,later _ (by simp),.inl free⟩
  | revokeReturned i | lookAgain i =>
    simp only [next,bind_eq_bind,bind_eq_some_iff] at moved
    obtain ⟨call,_,f,before,moved⟩ := moved
    split at moved <;> cases moved
    obtain ⟨rfl,same⟩ := await_available before entry free
    exact ⟨f,before,rfl,by rw [same]; exact List.Subset.refl _,.inl free⟩
  | wakeUp i | retryReturned i =>
    simp only [next,bind_eq_bind,bind_eq_some_iff] at moved
    obtain ⟨call,_,moved⟩ := moved
    split at moved <;> cases moved
    exact ⟨e,entry,rfl,List.Subset.refl _,.inl free⟩
  | release id woken =>
    simp only [next] at moved
    split at moved
    · next none =>
      cases moved
      exact absurd (none.symm.trans entry) (by simp)
    · next f before =>
      split at moved
      · next holder =>
        obtain ⟨calls,_,rfl⟩ := map_eq_some_iff.mp moved
        have same : { f with available := true } = e := by
          simpa [serverRelease,show s.entry = some f from before,holder] using entry
        exact ⟨f,before,by rw [← same],later _ (by simp),.inr ⟨woken,by rw [holder]⟩⟩
      · cases moved
        exact ⟨e,entry,rfl,later _ (by simp),.inl free⟩

/-- A lock that is available has been revoked since it was granted. -/
def Kept (s : Lock) : Prop := ∀ e, s.entry = some e → e.available = true → .revoked e.cid ∈ sinceGrant s.history

lemma kept_next (kept : Kept s) (careful : KeptUntilRevoked s label) (moved : next s label = some t) :
    Kept t := by
  intro e entry free
  obtain ⟨f,before,cid,later,quiet⟩ := available_before moved entry free
  rw [← cid]
  apply later
  rcases quiet with quiet | ⟨woken,rfl⟩
  · exact kept f before quiet
  · by_cases held : f.available = false
    · exact careful f before rfl held
    · exact kept f before (by simpa using held)

end

lemma inv_reach : ∀ s, Reach (· = Lock.init) ok next s → Inv s := by
  apply Reach.invariant
  · rintro s rfl
    exact inv_init
  · intro s label t inv _ moved
    exact inv_next s label t inv moved

lemma kept_reach : ∀ s, Reach (· = Lock.init) KeptUntilRevoked next s → Kept s := by
  apply Reach.invariant
  · rintro s rfl
    simp [Kept,Lock.init]
  · intro s label t kept careful moved
    exact kept_next kept careful moved

/-- The server with its map from lock ids. -/
def server (s : UInt64 → Lock) (label : UInt64 × Label) : Option (UInt64 → Lock) := each next s label
def started (s : UInt64 → Lock) : Prop := ∀ lid, s lid = Lock.init

lemma reach_lock (ok : Lock → Label → Prop)
    (reached : Reach started (fun s label => ok (s label.1) label.2) server s) (lid : UInt64) :
    Reach (· = Lock.init) ok next (s lid) := @Reach.each Lock Label UInt64 _ (· = Lock.init) ok next s reached lid

/-- Whatever calls come and however they interleave, the calls of a client answered OK are as many as the grants to it, a lock
is granted again only after its holder has released it, the assertion before the grant holds, and at most one `acquire`
waits for the holder of a lock. While holders keep a lock until it is revoked, an available lock with waiting clients is
about to be taken. -/
theorem server_grants_in_turn :
    (∀ s, Reach started anyStep server s → ∀ lid, (∀ id, answered (s lid).calls id = (s lid).history.count (.granted id)) ∧
      InTurn (s lid).history ∧ (∀ call ∈ (s lid).calls, call.pc ≠ .failed) ∧
      ∀ (i j : Nat) (c d : Call), (s lid).calls[i]? = some c → (s lid).calls[j]? = some d → c.pc.waits = true →
        d.pc.waits = true → i = j) ∧
    ∀ s, Reach started (fun s label => KeptUntilRevoked (s label.1) label.2) server s → ∀ lid e,
      (s lid).entry = some e → e.available = true → e.waited ≠ [] → ∃ call ∈ (s lid).calls, call.pc.takes = true := by
  constructor
  · intro s reached lid
    have alone := reach_lock anyStep reached lid
    have inv := inv_reach (s lid) alone
    refine ⟨inv.answers,inv.turn,fun call mem => ?_,inv.single⟩
    obtain ⟨i,found⟩ := mem_iff_getElem?.mp mem
    exact inv.passed i call found
  · intro s reached lid e entry free _
    have alone := reach_lock KeptUntilRevoked reached lid
    have inv := inv_reach (s lid) alone
    obtain ⟨i,call,found,past⟩ := inv.told e.cid (kept_reach (s lid) alone e entry free)
    refine ⟨call,mem_of_getElem? found,?_⟩
    cases at_pc : call.pc with
    | revoking => rfl
    | awake => rfl
    | asleep => exact absurd (inv.sleeps i call e found at_pc entry) (by simp [free])
    | _ => exact absurd past (by simp [at_pc,Pc.revoked])

instance decidableEachKept (s : UInt64 → Lock) (label : UInt64 × Label) :
    Decidable (KeptUntilRevoked (s label.1) label.2) := inferInstance

/-- `b` waits for the holder `a`, `c` is told to retry, and `a` releases the lock before its revoke has returned. -/
def handover : List (UInt64 × Label) := [(1,.acquire "a"),(1,.acquire "b"),(1,.acquire "c"),(1,.callRevoke 1),
  (1,.release "a" none)]

theorem server_grants_in_turn_handover :
    (∃ s, Reach started anyStep server s ∧ (s 1).history = [.granted "b",.released "a",.revoked "a",.granted "a"] ∧
      (∀ id, answered (s 1).calls id = (s 1).history.count (.granted id)) ∧ InTurn (s 1).history ∧
      (∀ call ∈ (s 1).calls, call.pc ≠ .failed) ∧ ∀ (i j : Nat) (c d : Call), (s 1).calls[i]? = some c →
        (s 1).calls[j]? = some d → c.pc.waits = true → d.pc.waits = true → i = j) ∧
    ∃ s, Reach started (fun s label => KeptUntilRevoked (s label.1) label.2) server s ∧ (s 1).entry = some ⟨"a",true,true,["b","c"]⟩ ∧
      ∃ call ∈ (s 1).calls, call.pc.takes = true := by
  constructor
  · obtain ⟨s,reached,events⟩ : ∃ s, Reach started anyStep server s ∧
        (s 1).history = [.granted "b",.released "a",.revoked "a",.granted "a"] :=
      exists_reach_from (s := fun _ => Lock.init) (fun _ => rfl) (handover++[(1,.revokeReturned 1)]) (by decide +kernel)
    exact ⟨s,reached,events,server_grants_in_turn.1 s reached 1⟩
  · obtain ⟨s,reached,entry⟩ : ∃ s, Reach started (fun s label => KeptUntilRevoked (s label.1) label.2) server s ∧
        (s 1).entry = some ⟨"a",true,true,["b","c"]⟩ :=
      exists_reach_from (s := fun _ => Lock.init) (fun _ => rfl) handover (by decide +kernel)
    exact ⟨s,reached,entry,server_grants_in_turn.2 s reached 1 _ entry rfl (by decide)⟩

/-- An `acquire` sleeps only while its lock is held and marked as waited for, with its client in line. -/
theorem sleeper_not_forgotten {s : UInt64 → Lock} (reached : Reach started anyStep server s) (mem : call ∈ (s lid).calls)
    (asleep : call.pc = .asleep) :
    ∃ e, (s lid).entry = some e ∧ e.available = false ∧ e.waiting = true ∧ call.id ∈ e.waited := by
  have inv := inv_reach (s lid) (reach_lock anyStep reached lid)
  obtain ⟨i,found⟩ := mem_iff_getElem?.mp mem
  obtain ⟨e,entry,waiting,queued⟩ := inv.line i call found (by simp [asleep,Pc.waits])
  exact ⟨e,entry,inv.sleeps i call e found asleep entry,waiting,queued⟩

theorem sleeper_not_forgotten_b : ∃ s, Reach started anyStep server s ∧ (s 1).calls[1]? = some ⟨"b",.asleep⟩ ∧
    ∃ e, (s 1).entry = some e ∧ e.available = false ∧ e.waiting = true ∧ "b" ∈ e.waited := by
  obtain ⟨s,reached,found⟩ : ∃ s, Reach started anyStep server s ∧ (s 1).calls[1]? = some ⟨"b",.asleep⟩ :=
    exists_reach_from (s := fun _ => Lock.init) (fun _ => rfl)
      [(1,.acquire "a"),(1,.acquire "b"),(1,.callRevoke 1),(1,.revokeReturned 1)] (by decide +kernel)
  exact ⟨s,reached,found,sleeper_not_forgotten reached (mem_of_getElem? found) rfl⟩

end CodeExercise.LockCacheServer
