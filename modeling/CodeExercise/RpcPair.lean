import CodeExercise.RpcClient
import CodeExercise.RpcServer
import Mathlib.Algebra.Order.Group.Nat

/-!
One RPC client (`rpcc::call1`, `rpcc::got_pdu`) and one server (`rpcs::dispatch`) over a network that
delays, loses and repeats requests. A call that times out is marked like one that got its reply, so a
later request may acknowledge a call whose handler is still running (`slow_handler_loses_entry`).
-/
namespace CodeExercise.RpcPair
open Runs RpcServer RpcClient List Option Function

/-- The fields of `req_header` that the server's table looks at. -/
structure ReqHeader where
  xid : Nat
  xidRep : Nat
  deriving DecidableEq

/-- `rpcc::caller`, with the header packed into its request. -/
structure Caller where
  header : ReqHeader
  done : Bool

structure System where
  xid : Nat
  calls : Nat → Option Caller
  xidRepWindow : List Nat
  /-- Requests of calls that got their reply; `dup_req_` is one of them. -/
  completed : List ReqHeader
  wire : List ReqHeader
  rpcs : Rpcs
  running : List Nat
  replies : List Nat

/-- The constructors of `rpcc` and `rpcs`. -/
def System.init : System := ⟨1,fun _ => none,[0],[],[],.empty,[],[]⟩

inductive Label where
  /-- `call1` up to the unlock of `m_`. -/
  | call
  /-- `ch->send` of the request of a call, the first time or again. -/
  | transmit (xid : Nat)
  /-- `ch->send` of `dup_req_`. -/
  | resend (h : ReqHeader)
  /-- The network repeats or loses a request. -/
  | duplicate (h : ReqHeader)
  | lose (h : ReqHeader)
  /-- `dispatch` classifies a request. -/
  | deliver (h : ReqHeader)
  /-- `dispatch` stores and sends the reply of its handler. -/
  | finish (xid : Nat) (buf : List UInt8)
  | gotPdu (xid : Nat)
  /-- `call1` ends with `ca.done`, or without. -/
  | finishCall (xid : Nat)
  | timeout (xid : Nat)
  deriving DecidableEq

/-- The steps of the pair, where `nonce` is the client's nonce. -/
def next (nonce : Nat) (s : System) : Label → Option System
  | .call =>
    some { s with xid := (s.xid+1)%2^32,
                  calls := update s.calls s.xid (some ⟨⟨s.xid,front s.xidRepWindow⟩,false⟩) }
  | .transmit xid =>
    match s.calls xid with
    | some ca => some { s with wire := ca.header::s.wire }
    | none => none
  | .resend h => if h ∈ s.completed then some { s with wire := h::s.wire } else none
  | .duplicate h => if h ∈ s.wire then some { s with wire := h::s.wire } else none
  | .lose h => if h ∈ s.wire then some { s with wire := s.wire.erase h } else none
  | .deliver h =>
    if h ∈ s.wire then
      match (s.rpcs.create nonce).checkduplicateAndUpdate nonce h.xid h.xidRep with
      | none => none
      | some (.new,rpcs) => some { s with wire := s.wire.erase h, rpcs := rpcs, running := h.xid::s.running }
      | some (.inprogress,rpcs) => some { s with wire := s.wire.erase h, rpcs := rpcs }
      | some (_,rpcs) => some { s with wire := s.wire.erase h, rpcs := rpcs, replies := h.xid::s.replies }
    else none
  | .finish xid buf =>
    if xid ∈ s.running then
      match s.rpcs.addReply nonce xid buf with
      | none => none
      | some rpcs => some { s with rpcs := rpcs, running := s.running.erase xid, replies := xid::s.replies }
    else none
  | .gotPdu xid =>
    if xid ∈ s.replies then
      some { s with replies := s.replies.erase xid, xidRepWindow := updateXidRep s.xidRepWindow xid,
                    calls := match s.calls xid with
                      | some ca => update s.calls xid (some { ca with done := true })
                      | none => s.calls }
    else none
  | .finishCall xid =>
    match s.calls xid with
    | some ⟨h,true⟩ =>
      some { s with calls := update s.calls xid none, xidRepWindow := updateXidRep s.xidRepWindow xid,
                    completed := h::s.completed }
    | _ => none
  | .timeout xid =>
    match s.calls xid with
    | some ⟨_,false⟩ =>
      some { s with calls := update s.calls xid none, xidRepWindow := updateXidRep s.xidRepWindow xid }
    | _ => none

/-- A call times out only when its handler is not running and no copy of its
request is on the way; `xid_` does not wrap. -/
def Calm (s : System) : Label → Prop
  | .call => s.xid+1 < 2^32
  | .timeout xid => xid ∉ s.running ∧ ∀ h ∈ s.wire, h.xid ≠ xid
  | _ => True

instance (s : System) : (label : Label) → Decidable (Calm s label)
  | .call => decideAs (_ < _)
  | .timeout _ => decideAs (_ ∧ _)
  | .transmit _ | .resend _ | .duplicate _ | .lose _ | .deliver _ | .finish _ _ | .gotPdu _ | .finishCall _ =>
    isTrue trivial

/-- Whenever a handler finishes, `add_reply` finds the entry of its request. -/
def RepliesKept (nonce : Nat) (s : System) : Prop :=
  ∀ xid ∈ s.running, ∀ buf, (s.rpcs.addReply nonce xid buf).isSome

/-- The server does not take a copy of the request for a new one. -/
def Seen (nonce : Nat) (s : System) (xid : Nat) : Prop :=
  xid ≤ s.rpcs.maxXidRepSofar nonce ∨ ∃ r ∈ s.rpcs.window nonce, r.xid = xid

/-- No copy of the request reaches the server any more. -/
def Gone (s : System) (xid : Nat) : Prop :=
  xid < s.xid ∧ (∀ h ∈ s.wire, h.xid ≠ xid) ∧ s.calls xid = none ∧ ∀ h ∈ s.completed, h.xid ≠ xid

/-- No handler runs for the request, now or later. -/
def Settled (nonce : Nat) (s : System) (xid : Nat) : Prop :=
  xid ∉ s.running ∧ (Seen nonce s xid ∨ Gone s xid)

/-- A request acknowledges only calls that are settled. -/
def HeaderOk (nonce : Nat) (s : System) (h : ReqHeader) : Prop :=
  h.xidRep < h.xid ∧ h.xid < s.xid ∧ ∀ xid, 0 < xid → xid ≤ h.xidRep → Settled nonce s xid

structure Inv (nonce : Nat) (s : System) : Prop where
  window : WindowOk (Settled nonce s) s.xidRepWindow
  below : ∀ x ∈ s.xidRepWindow, x < s.xid
  calls : ∀ xid ca, s.calls xid = some ca →
    ca.header.xid = xid ∧ HeaderOk nonce s ca.header ∧ (ca.done = true → Settled nonce s xid)
  completed : ∀ h ∈ s.completed, HeaderOk nonce s h ∧ s.calls h.xid = none
  wire : ∀ h ∈ s.wire, HeaderOk nonce s h
  highest : ∀ xid, 0 < xid → xid ≤ s.rpcs.maxXidRepSofar nonce → Settled nonce s xid
  replies : ∀ xid ∈ s.replies, xid < s.xid ∧ Settled nonce s xid
  running : ∀ xid ∈ s.running, xid < s.xid ∧ 0 < xid ∧ ∃ r ∈ s.rpcs.window nonce, r.xid = xid ∧ r.cbPresent = false
  once : s.running.Nodup
  distinct : ((s.rpcs.window nonce).map (·.xid)).Nodup

variable {nonce : Nat} {s t : System} {h : ReqHeader}

lemma HeaderOk.mono (ok : HeaderOk nonce s h) (le : s.xid ≤ t.xid)
    (settled : ∀ xid, Settled nonce s xid → Settled nonce t xid) : HeaderOk nonce t h :=
  ⟨ok.1,Nat.lt_of_lt_of_le ok.2.1 le,fun xid positive below => settled xid (ok.2.2 xid positive below)⟩

lemma repliesKept_of_inv (inv : Inv nonce s) : RepliesKept nonce s := by
  intro xid mem buf
  obtain ⟨_,_,r,inside,named,_⟩ := inv.running xid mem
  have filled := (fill_isSome xid buf (s.rpcs.window nonce)).mpr ⟨r,inside,named⟩
  simpa [Rpcs.addReply,Rpcs.window] using filled

lemma inv_init (nonce : Nat) : Inv nonce System.init := by
  refine ⟨⟨by simp [System.init],by simp [System.init],?_,?_⟩,?_,?_,?_,?_,?_,?_,?_,?_,?_⟩
  · intro x mem positive
    simp [System.init] at mem
    omega
  · intro x positive le
    simp [System.init,front] at le
    omega
  · simp [System.init]
  · simp [System.init]
  · simp [System.init]
  · simp [System.init]
  · intro x positive le
    simp [System.init,Rpcs.empty] at le
    omega
  · simp [System.init]
  · simp [System.init]
  · simp [System.init]
  · simp [System.init,Rpcs.empty,Rpcs.window]

lemma inv_send (inv : Inv nonce s) (ok : HeaderOk nonce s h)
    (live : ¬ Gone s h.xid) : Inv nonce { s with wire := h::s.wire } := by
  have settled : ∀ xid, Settled nonce s xid → Settled nonce { s with wire := h::s.wire } xid := by
    rintro xid ⟨idle,seen | gone⟩
    · exact ⟨idle,.inl seen⟩
    · refine ⟨idle,.inr ⟨gone.1,?_,gone.2.2⟩⟩
      intro other mem named
      rcases mem_cons.mp mem with rfl | before
      · exact live (named ▸ gone)
      · exact gone.2.1 other before named
  have header : ∀ other, HeaderOk nonce s other → HeaderOk nonce { s with wire := h::s.wire } other :=
    fun other ok => ok.mono (Nat.le_refl _) settled
  refine ⟨inv.window.mono settled,inv.below,?_,fun o m => ⟨header o (inv.completed o m).1,(inv.completed o m).2⟩,?_,
    fun x p le => settled x (inv.highest x p le),fun x m => ⟨(inv.replies x m).1,settled x (inv.replies x m).2⟩,
    inv.running,inv.once,inv.distinct⟩
  · intro xid ca found
    obtain ⟨named,fine,done⟩ := inv.calls xid ca found
    exact ⟨named,header _ fine,fun d => settled xid (done d)⟩
  · exact forall_mem_cons.mpr ⟨header _ ok,fun other before => header _ (inv.wire other before)⟩

lemma inv_call (inv : Inv nonce s) (calm : Calm s .call)
    (moved : next nonce s .call = some t) : Inv nonce t := by
  have wrap : (s.xid+1)%2^32 = s.xid+1 := Nat.mod_eq_of_lt calm
  simp only [next,wrap,some.injEq] at moved
  subst moved
  let started : Caller := ⟨⟨s.xid,front s.xidRepWindow⟩,false⟩
  set t : System := { s with xid := s.xid+1, calls := update s.calls s.xid (some started) } with tIs
  have settled : ∀ xid, Settled nonce s xid → Settled nonce t xid := by
    rintro xid ⟨idle,seen | gone⟩
    · exact ⟨idle,.inl seen⟩
    · have different : xid ≠ s.xid := by
        have := gone.1
        omega
      refine ⟨idle,.inr ⟨Nat.lt_succ_of_lt gone.1,gone.2.1,?_,gone.2.2.2⟩⟩
      simp [tIs,update_of_ne different,gone.2.2.1]
  have header : ∀ other, HeaderOk nonce s other → HeaderOk nonce t other :=
    fun other ok => ok.mono (Nat.le_succ _) settled
  refine ⟨inv.window.mono settled,fun x m => Nat.lt_succ_of_lt (inv.below x m),?_,?_,
    fun o m => header o (inv.wire o m),fun x p le => settled x (inv.highest x p le),
    fun x m => ⟨Nat.lt_succ_of_lt (inv.replies x m).1,settled x (inv.replies x m).2⟩,
    fun x m => ⟨Nat.lt_succ_of_lt (inv.running x m).1,(inv.running x m).2⟩,inv.once,inv.distinct⟩
  · intro xid ca found
    by_cases same : xid = s.xid
    · subst same
      simp only [tIs,update_self,some.injEq] at found
      subst ca
      have older := inv.below _ inv.window.front_mem
      exact ⟨rfl,⟨older,Nat.lt_succ_self _,fun x p le => settled x (inv.window.upTo x p le)⟩,by simp [started]⟩
    · simp only [tIs,update_of_ne same] at found
      obtain ⟨named,fine,done⟩ := inv.calls xid ca found
      exact ⟨named,header _ fine,fun d => settled xid (done d)⟩
  · intro h mem
    obtain ⟨fine,ended⟩ := inv.completed h mem
    have older := fine.2.1
    refine ⟨header h fine,?_⟩
    show update s.calls s.xid (some started) h.xid = none
    rwa [update_of_ne (Nat.ne_of_lt older)]

lemma inv_mark
    (inv : Inv nonce s) (known : xid < s.xid)
    (others : ∀ x ca, calls x = some ca → s.calls x = some ca ∨ (x = xid ∧ ∃ old, s.calls x = some old ∧
      ca.header = old.header)) (dropped : ∀ x, s.calls x = none → calls x = none)
    (more : ∀ h ∈ completed, h ∈ s.completed ∨ (h.xid = xid ∧ HeaderOk nonce s h ∧ ¬ Gone s xid ∧ calls xid = none))
    (fewer : ∀ x ∈ replies, x ∈ s.replies)
    (ended : Settled nonce { s with calls := calls, completed := completed, replies := replies } xid) :
    Inv nonce { s with calls := calls, completed := completed, replies := replies,
                       xidRepWindow := updateXidRep s.xidRepWindow xid } := by
  have settled : ∀ x, Settled nonce s x →
      Settled nonce { s with calls := calls, completed := completed, replies := replies } x := by
    rintro x ⟨idle,seen | gone⟩
    · exact ⟨idle,.inl seen⟩
    · refine ⟨idle,.inr ⟨gone.1,gone.2.1,dropped x gone.2.2.1,?_⟩⟩
      intro h mem named
      rcases more h mem with before | ⟨here,_,live,_⟩
      · exact gone.2.2.2 h before named
      · exact live (here ▸ named ▸ gone)
  have header : ∀ other, HeaderOk nonce s other →
      HeaderOk nonce { s with calls := calls, completed := completed, replies := replies } other :=
    fun other ok => ok.mono (Nat.le_refl _) settled
  refine ⟨updateXidRep_ok (inv.window.mono settled) ended,?_,?_,?_,fun o m => header o (inv.wire o m),
    fun x p le => settled x (inv.highest x p le),
    fun x m => ⟨(inv.replies x (fewer x m)).1,settled x (inv.replies x (fewer x m)).2⟩,
    inv.running,inv.once,inv.distinct⟩
  · intro x mem
    rcases mem_updateXidRep mem with rfl | before
    · exact known
    · exact inv.below x before
  · intro x ca found
    rcases others x ca found with before | ⟨rfl,old,before,same⟩
    · obtain ⟨named,fine,done⟩ := inv.calls x ca before
      exact ⟨named,header _ fine,fun d => settled x (done d)⟩
    · obtain ⟨named,fine,done⟩ := inv.calls x old before
      exact ⟨same ▸ named,same ▸ header _ fine,fun _ => ended⟩
  · intro h mem
    rcases more h mem with before | ⟨named,fine,_,ended⟩
    · exact ⟨header _ (inv.completed h before).1,dropped _ (inv.completed h before).2⟩
    · exact ⟨header _ fine,named ▸ ended⟩

lemma settled_seen (ended : Settled nonce s xid) (live : ¬ Gone s xid) :
    Seen nonce s xid := by
  rcases ended.2 with seen | gone
  · exact seen
  · exact absurd gone live

section
variable (inv : Inv nonce s)
include inv

lemma inv_gotPdu (moved : next nonce s (.gotPdu xid) = some t) :
    Inv nonce t := by
  obtain ⟨mem,moved⟩ := ite_none_right_eq_some.mp moved
  obtain ⟨known,ended⟩ := inv.replies xid mem
  cases found : s.calls xid with
  | none =>
    simp only [found,some.injEq] at moved
    subst moved
    exact inv_mark inv known (fun x ca before => .inl before) (fun x before => before) (fun h before => .inl before)
      (fun x before => mem_of_mem_erase before) ended
  | some ca =>
    simp only [found,some.injEq] at moved
    subst moved
    have seen : Seen nonce s xid := settled_seen ended (fun gone => by simp [gone.2.2.1] at found)
    refine inv_mark inv known ?_ ?_ (fun h before => .inl before) (fun x before => mem_of_mem_erase before)
      ⟨ended.1,.inl seen⟩
    · intro x after at_x
      by_cases same : x = xid
      · subst same
        simp only [update_self,some.injEq] at at_x
        subst at_x
        exact .inr ⟨rfl,ca,found,rfl⟩
      · rw [update_of_ne same] at at_x
        exact .inl at_x
    · intro x before
      have different : x ≠ xid := by
        rintro rfl
        simp [found] at before
      rwa [update_of_ne different]

lemma inv_drop (known : xid < s.xid)
    (more : ∀ h ∈ completed, h ∈ s.completed ∨ (h.xid = xid ∧ HeaderOk nonce s h ∧ ¬ Gone s xid))
    (ended : Settled nonce { s with calls := update s.calls xid none, completed := completed } xid) :
    Inv nonce { s with calls := update s.calls xid none, completed := completed,
                       xidRepWindow := updateXidRep s.xidRepWindow xid } := by
  refine inv_mark inv known ?_ ?_ (fun h mem => (more h mem).imp id (fun new => ⟨new.1,new.2.1,new.2.2,update_self ..⟩))
    (fun x before => before) ended
  · intro x after at_x
    by_cases same : x = xid
    · simp [same] at at_x
    · rw [update_of_ne same] at at_x
      exact .inl at_x
  · intro x before
    by_cases same : x = xid
    · simp [same]
    · rwa [update_of_ne same]

lemma inv_finishCall
    (moved : next nonce s (.finishCall xid) = some t) : Inv nonce t := by
  simp only [next] at moved
  split at moved <;> cases moved
  next h found =>
    obtain ⟨named,fine,done⟩ := inv.calls xid _ found
    have live : ¬ Gone s xid := fun gone => by simp [gone.2.2.1] at found
    have seen : Seen nonce s xid := settled_seen (done rfl) live
    refine inv_drop inv (named ▸ fine.2.1) ?_ ⟨(done rfl).1,.inl seen⟩
    exact forall_mem_cons.mpr ⟨.inr ⟨named,fine,live⟩,fun _ => .inl⟩

/-- The calm condition is what makes a call that times out settled. -/
lemma inv_timeout (calm : Calm s (.timeout xid))
    (moved : next nonce s (.timeout xid) = some t) : Inv nonce t := by
  simp only [next] at moved
  split at moved <;> cases moved
  next h found =>
    obtain ⟨named,fine,_⟩ := inv.calls xid _ found
    have known : xid < s.xid := named ▸ fine.2.1
    refine inv_drop inv known (fun h before => .inl before) ⟨calm.1,.inr ⟨known,calm.2,by simp,?_⟩⟩
    intro other mem same
    have ended := (inv.completed other mem).2
    rw [same,found] at ended
    simp at ended

/-- A change of the server's table and of the handlers that run, where what was
settled stays settled. -/
lemma inv_server
    (fewer : ∀ h ∈ wire, h ∈ s.wire) (settled : ∀ x, Settled nonce s x →
      Settled nonce { s with wire := wire, rpcs := rpcs, running := running, replies := replies } x)
    (highest : ∀ x, 0 < x → x ≤ rpcs.maxXidRepSofar nonce → Settled nonce s x)
    (answered : ∀ x ∈ replies, x ∈ s.replies ∨
      (x < s.xid ∧ Settled nonce { s with wire := wire, rpcs := rpcs, running := running, replies := replies } x))
    (entries : ∀ x ∈ running, x < s.xid ∧ 0 < x ∧ ∃ r ∈ rpcs.window nonce, r.xid = x ∧ r.cbPresent = false)
    (once : running.Nodup) (distinct : ((rpcs.window nonce).map (·.xid)).Nodup) :
    Inv nonce { s with wire := wire, rpcs := rpcs, running := running, replies := replies } := by
  have header : ∀ other, HeaderOk nonce s other →
      HeaderOk nonce { s with wire := wire, rpcs := rpcs, running := running, replies := replies } other :=
    fun other ok => ok.mono (Nat.le_refl _) settled
  refine ⟨inv.window.mono settled,inv.below,?_,fun o m => ⟨header o (inv.completed o m).1,(inv.completed o m).2⟩,
    fun o m => header o (inv.wire o (fewer o m)),fun x p le => settled x (highest x p le),?_,entries,once,distinct⟩
  · intro xid ca found
    obtain ⟨named,fine,done⟩ := inv.calls xid ca found
    exact ⟨named,header _ fine,fun d => settled xid (done d)⟩
  · intro x mem
    rcases answered x mem with before | new
    · exact ⟨(inv.replies x before).1,settled x (inv.replies x before).2⟩
    · exact new

/-- The entry of a running handler survives the cleanup that a request asks for. -/
lemma entry_kept (ok : HeaderOk nonce s h) :
    ∀ x ∈ s.running, x < s.xid ∧ 0 < x ∧ ∃ r ∈ (s.rpcs.window nonce).filter (fun r => !decide (r.xid ≤ h.xidRep)),
      r.xid = x ∧ r.cbPresent = false := by
  intro x mem
  obtain ⟨older,positive,r,inside,named,absent⟩ := inv.running x mem
  refine ⟨older,positive,r,mem_filter.mpr ⟨inside,?_⟩,named,absent⟩
  by_contra dropped
  have le : x ≤ h.xidRep := by
    rw [← named]
    simpa using dropped
  exact (ok.2.2 x positive le).1 mem

lemma highest_kept (ok : HeaderOk nonce s h) :
    ∀ x, 0 < x → x ≤ max (s.rpcs.maxXidRepSofar nonce) h.xidRep → Settled nonce s x := by
  intro x positive le
  by_cases known : x ≤ s.rpcs.maxXidRepSofar nonce
  · exact inv.highest x positive known
  · exact ok.2.2 x positive (by omega)

end

lemma seen_kept
    (highest : t.rpcs.maxXidRepSofar nonce = max (s.rpcs.maxXidRepSofar nonce) rep)
    (window : ∀ r ∈ s.rpcs.window nonce, r.xid ≤ rep ∨ ∃ u ∈ t.rpcs.window nonce, u.xid = r.xid)
    (seen : Seen nonce s x) : Seen nonce t x := by
  rcases seen with below | ⟨r,inside,named⟩
  · left
    omega
  · rcases window r inside with acknowledged | ⟨u,kept,same⟩
    · left
      omega
    · exact .inr ⟨u,kept,same.trans named⟩

section Deliver
variable {nonce : Nat} {s : System} {h : ReqHeader} {rpcs : Rpcs}

lemma gone_erase (gone : Gone s x) :
    Gone { s with wire := s.wire.erase h, rpcs := rpcs, running := running, replies := replies } x :=
  ⟨gone.1,fun o m => gone.2.1 o (mem_of_mem_erase m),gone.2.2⟩

lemma inv_lose (h : ReqHeader) (inv : Inv nonce s) : Inv nonce { s with wire := s.wire.erase h } :=
  inv_server inv (fun _ m => mem_of_mem_erase m) (fun _ ended => ⟨ended.1,ended.2.imp id gone_erase⟩) inv.highest
    (fun _ before => .inl before) inv.running inv.once inv.distinct

lemma inv_forgotten (inv : Inv nonce s) (onWire : h ∈ s.wire)
    (highest : rpcs.maxXidRepSofar nonce = max (s.rpcs.maxXidRepSofar nonce) h.xidRep)
    (window : rpcs.window nonce = s.rpcs.window nonce) (old : h.xid ≤ s.rpcs.maxXidRepSofar nonce) :
    Inv nonce { s with wire := s.wire.erase h, rpcs := rpcs, replies := h.xid::s.replies } := by
  have ok := inv.wire h onWire
  have settled : ∀ x, Settled nonce s x →
      Settled nonce { s with wire := s.wire.erase h, rpcs := rpcs, replies := h.xid::s.replies } x := by
    rintro x ⟨idle,seen | gone⟩
    · exact ⟨idle,.inl (seen_kept highest (fun r inside => .inr ⟨r,window ▸ inside,rfl⟩) seen)⟩
    · exact ⟨idle,.inr (gone_erase gone)⟩
  refine inv_server inv (fun o m => mem_of_mem_erase m) settled (highest ▸ highest_kept inv ok) ?_
    (window ▸ inv.running) inv.once (window ▸ inv.distinct)
  exact forall_mem_cons.mpr ⟨.inr ⟨ok.2.1,settled _ (inv.highest _ (Nat.zero_lt_of_lt ok.1) old)⟩,fun _ => .inl⟩

/-- A request whose entry is in the window; its reply is sent again when it is
stored, that is, when no handler runs any more. -/
lemma inv_repeated (inv : Inv nonce s) (onWire : h ∈ s.wire)
    (highest : rpcs.maxXidRepSofar nonce = max (s.rpcs.maxXidRepSofar nonce) h.xidRep)
    (window : rpcs.window nonce = (s.rpcs.window nonce).filter (fun r => !decide (r.xid ≤ h.xidRep)))
    (inside : r ∈ s.rpcs.window nonce) (named : r.xid = h.xid)
    (sent : ∀ x ∈ replies, x ∈ s.replies ∨ (x = h.xid ∧ r.cbPresent = true)) :
    Inv nonce { s with wire := s.wire.erase h, rpcs := rpcs, replies := replies } := by
  have ok := inv.wire h onWire
  have keep : ∀ r ∈ s.rpcs.window nonce, r.xid ≤ h.xidRep ∨ ∃ u ∈ rpcs.window nonce, u.xid = r.xid := by
    intro r inside
    by_cases dropped : r.xid ≤ h.xidRep
    · exact .inl dropped
    · exact .inr ⟨r,window ▸ mem_filter.mpr ⟨inside,by simpa using dropped⟩,rfl⟩
  have settled : ∀ x, Settled nonce s x →
      Settled nonce { s with wire := s.wire.erase h, rpcs := rpcs, replies := replies } x := by
    rintro x ⟨idle,seen | gone⟩
    · exact ⟨idle,.inl (seen_kept highest keep seen)⟩
    · exact ⟨idle,.inr (gone_erase gone)⟩
  refine inv_server inv (fun o m => mem_of_mem_erase m) settled (highest ▸ highest_kept inv ok) ?_
    (window ▸ entry_kept inv ok) inv.once ?_
  · intro x mem
    rcases sent x mem with before | ⟨rfl,present⟩
    · exact .inl before
    · refine .inr ⟨ok.2.1,settled _ ⟨?_,.inl (.inr ⟨r,inside,named⟩)⟩⟩
      intro running
      obtain ⟨_,_,u,other,same,absent⟩ := inv.running _ running
      have equal : u = r := inj_on_of_nodup_map inv.distinct other inside (same.trans named.symm)
      simp [equal,present] at absent
  · rw [window]
    exact inv.distinct.sublist (filter_sublist.map _)

lemma inv_new (inv : Inv nonce s) (onWire : h ∈ s.wire)
    (highest : rpcs.maxXidRepSofar nonce = max (s.rpcs.maxXidRepSofar nonce) h.xidRep)
    (window : rpcs.window nonce =
      (s.rpcs.window nonce).filter (fun r => !decide (r.xid ≤ h.xidRep)) ++ [.received h.xid])
    (fresh : s.rpcs.maxXidRepSofar nonce < h.xid) (unknown : ∀ r ∈ s.rpcs.window nonce, r.xid ≠ h.xid) :
    Inv nonce { s with wire := s.wire.erase h, rpcs := rpcs, running := h.xid::s.running } := by
  have ok := inv.wire h onWire
  have unseen : ¬ Settled nonce s h.xid := by
    rintro ⟨_,(below | ⟨r,inside,named⟩) | gone⟩
    · omega
    · exact unknown r inside named
    · exact gone.2.1 h onWire rfl
  have keep : ∀ r ∈ s.rpcs.window nonce, r.xid ≤ h.xidRep ∨ ∃ u ∈ rpcs.window nonce, u.xid = r.xid := by
    intro r inside
    by_cases dropped : r.xid ≤ h.xidRep
    · exact .inl dropped
    · refine .inr ⟨r,window ▸ mem_append_left _ (mem_filter.mpr ⟨inside,by simpa using dropped⟩),rfl⟩
  have settled : ∀ x, Settled nonce s x →
      Settled nonce { s with wire := s.wire.erase h, rpcs := rpcs, running := h.xid::s.running } x := by
    intro x ended
    have idle : x ∉ h.xid :: s.running := by
      intro mem
      rcases mem_cons.mp mem with rfl | before
      · exact unseen ended
      · exact ended.1 before
    rcases ended.2 with seen | gone
    · exact ⟨idle,.inl (seen_kept highest keep seen)⟩
    · exact ⟨idle,.inr (gone_erase gone)⟩
  refine inv_server inv (fun o m => mem_of_mem_erase m) settled (highest ▸ highest_kept inv ok)
    (fun x m => .inl m) ?_ ?_ ?_
  · intro x mem
    rcases mem_cons.mp mem with rfl | before
    · exact ⟨ok.2.1,Nat.zero_lt_of_lt ok.1,.received h.xid,by simp [window],rfl,rfl⟩
    · obtain ⟨older,positive,r,inside,rest⟩ := entry_kept inv ok x before
      exact ⟨older,positive,r,window ▸ mem_append_left _ inside,rest⟩
  · refine nodup_cons.mpr ⟨?_,inv.once⟩
    intro running
    obtain ⟨_,_,r,inside,named,_⟩ := inv.running _ running
    exact unknown r inside named
  · rw [window,map_append,nodup_append]
    refine ⟨inv.distinct.sublist (filter_sublist.map _),by simp,?_⟩
    intro a left b right
    obtain ⟨r,inside,rfl⟩ := List.mem_map.mp left
    have here : b = h.xid := by simpa [ReplyT.received] using right
    exact here ▸ unknown r (mem_of_mem_filter inside)

end Deliver

lemma inv_deliver (inv : Inv nonce s)
    (moved : next nonce s (.deliver h) = some t) : Inv nonce t := by
  obtain ⟨onWire,moved⟩ := ite_none_right_eq_some.mp moved
  cases checked : (s.rpcs.create nonce).checkduplicateAndUpdate nonce h.xid h.xidRep with
  | none => simp [checked] at moved
  | some result =>
    obtain ⟨out,rpcs⟩ := result
    obtain ⟨_,highest,_,outcome⟩ := check_cases checked
    rw [create_max] at highest outcome
    rw [create_window] at outcome
    have highest : rpcs.maxXidRepSofar nonce = max (s.rpcs.maxXidRepSofar nonce) h.xidRep := by simp [highest]
    rcases outcome with ⟨old,rfl,window⟩ | ⟨_,r,inside,named,rfl,window⟩ | ⟨fresh,unknown,rfl,window⟩
    · simp only [checked,some.injEq] at moved
      subst moved
      exact inv_forgotten inv onWire highest window old
    · cases present : r.cbPresent with
      | true =>
        simp only [checked,present,if_true,some.injEq] at moved
        subst moved
        refine inv_repeated inv onWire highest window inside named ?_
        exact forall_mem_cons.mpr ⟨.inr ⟨rfl,present⟩,fun _ => .inl⟩
      | false =>
        simp only [checked,present,if_ff,some.injEq] at moved
        subst moved
        exact inv_repeated inv onWire highest window inside named fun x before => .inl before
    · simp only [checked,some.injEq] at moved
      subst moved
      exact inv_new inv onWire highest window fresh unknown

lemma inv_finish (inv : Inv nonce s)
    (moved : next nonce s (.finish xid buf) = some t) : Inv nonce t := by
  obtain ⟨running,moved⟩ := ite_none_right_eq_some.mp moved
  cases added : s.rpcs.addReply nonce xid buf with
  | none => simp [added] at moved
  | some rpcs =>
    simp only [added,some.injEq] at moved
    subst moved
    obtain ⟨highest,_,filled⟩ := addReply_some added
    have window := fill_map inv.distinct filled
    have keep : ∀ r ∈ s.rpcs.window nonce, r.xid ≤ 0 ∨ ∃ u ∈ rpcs.window nonce, u.xid = r.xid := by
      intro r inside
      refine .inr ⟨_,window ▸ List.mem_map_of_mem inside,?_⟩
      split <;> rfl
    have settled : ∀ x, Seen nonce s x ∨ Gone s x → x ∉ s.running.erase xid →
        Settled nonce { s with rpcs := rpcs, running := s.running.erase xid, replies := xid::s.replies } x := by
      rintro x (seen | gone) idle
      · exact ⟨idle,.inl (seen_kept (by simp [highest]) keep seen)⟩
      · exact ⟨idle,.inr gone⟩
    obtain ⟨older,_,r,inside,named,_⟩ := inv.running xid running
    refine inv_server inv (fun o m => m) (fun x ended => settled x ended.2 (fun m => ended.1 (mem_of_mem_erase m)))
      (highest ▸ inv.highest) ?_ ?_ (inv.once.erase _) ?_
    · exact forall_mem_cons.mpr ⟨.inr ⟨older,settled _ (.inl (.inr ⟨r,inside,named⟩)) inv.once.not_mem_erase⟩,fun _ => .inl⟩
    · intro x mem
      obtain ⟨different,still⟩ := (List.Nodup.mem_erase_iff inv.once).mp mem
      obtain ⟨older,positive,u,entry,same,absent⟩ := inv.running x still
      refine ⟨older,positive,u,?_,same,absent⟩
      rw [window]
      exact List.mem_map.mpr ⟨u,entry,if_neg (same ▸ different)⟩
    · have xids : (rpcs.window nonce).map (·.xid) = (s.rpcs.window nonce).map (·.xid) := by
        rw [window,List.map_map]
        refine map_congr_left ?_
        intro u _
        simp only [comp_apply]
        split <;> rfl
      exact xids ▸ inv.distinct

lemma inv_step (s : System) (label : Label) (t : System) (inv : Inv nonce s) (calm : Calm s label)
    (moved : next nonce s label = some t) : Inv nonce t := by
  cases label with
  | call => exact inv_call inv calm moved
  | transmit xid =>
    simp only [next] at moved
    cases found : s.calls xid with
    | none => simp [found] at moved
    | some ca =>
      simp only [found,some.injEq] at moved
      subst moved
      obtain ⟨named,ok,_⟩ := inv.calls xid ca found
      exact inv_send inv ok fun gone => by simp [named ▸ gone.2.2.1] at found
  | resend h =>
    obtain ⟨mem,⟨⟩⟩ := ite_none_right_eq_some.mp moved
    exact inv_send inv (inv.completed h mem).1 fun gone => gone.2.2.2 h mem rfl
  | duplicate h =>
    obtain ⟨mem,⟨⟩⟩ := ite_none_right_eq_some.mp moved
    exact inv_send inv (inv.wire h mem) fun gone => gone.2.1 h mem rfl
  | lose h =>
    obtain ⟨_,⟨⟩⟩ := ite_none_right_eq_some.mp moved
    exact inv_lose h inv
  | deliver h => exact inv_deliver inv moved
  | finish xid buf => exact inv_finish inv moved
  | gotPdu xid => exact inv_gotPdu inv moved
  | finishCall xid => exact inv_finishCall inv moved
  | timeout xid => exact inv_timeout inv calm moved

/-- In every run whose timeouts are calm, the entry of a running handler is in
the window when its reply is stored. -/
theorem handler_has_entry {nonce : Nat} {s : System}
    (reached : Reach (· = System.init) Calm (next nonce) s) : RepliesKept nonce s := by
  refine repliesKept_of_inv (Reach.invariant ?_ inv_step s reached)
  intro first initial
  exact initial ▸ inv_init nonce

/-- A request is lost and its call times out; the next request acknowledges it. -/
def lostRequest : List Label :=
  [.call,.transmit 1,.lose ⟨1,0⟩,.timeout 1,.call,.transmit 2,.deliver ⟨2,1⟩]

theorem handler_has_entry_lost : ∃ s, run (next 7) System.init lostRequest = some s ∧
    s.running = [2] ∧ s.rpcs.maxXidRepSofar 7 = 1 ∧ RepliesKept 7 s := by
  refine ⟨_,rfl,rfl,rfl,?_⟩
  exact handler_has_entry (Reach.run lostRequest (.start rfl) (by decide) rfl)

/-- The call of a slow handler times out; the next request acknowledges it. -/
def slowHandler : List Label :=
  [.call,.transmit 1,.deliver ⟨1,0⟩,.timeout 1,.call,.transmit 2,.deliver ⟨2,1⟩]

/-- The entry of the slow handler is gone before its reply comes. -/
theorem slow_handler_loses_entry : ∃ s, Reach (· = System.init) anyStep (next 7) s ∧
    1 ∈ s.running ∧ s.rpcs.window 7 = [.received 2] ∧ s.rpcs.addReply 7 1 [42] = none ∧ ¬ RepliesKept 7 s := by
  refine ⟨_,Reach.run slowHandler (.start rfl) (meets_anyStep _ _) rfl,by decide,rfl,rfl,?_⟩
  intro kept
  exact absurd (kept 1 (by decide) [42]) (by decide)

end CodeExercise.RpcPair
