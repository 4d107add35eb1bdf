import CodeExercise.Runs
import Mathlib.Data.List.Nodup

/-!
The at-most-once table of the RPC server (`rpcs` in `rpc/rpc.cc`): for each client nonce a window
of the requests received and of their replies, which `checkduplicate_and_update` consults and
shrinks and `add_reply` fills.
-/
namespace CodeExercise.RpcServer
open Runs List Option Function

/-- `rpcs::rpcstate_t`. A completed duplicate comes with `*b` and `*sz`. -/
inductive RpcState where
  | new
  | inprogress
  | done (buf : List UInt8)
  | forgotten
  deriving DecidableEq

/-- `rpcs::reply_t`; `sz` is the length of `buf`. -/
structure ReplyT where
  xid : Nat
  cbPresent : Bool
  buf : List UInt8
  deriving DecidableEq

/-- The constructor of `reply_t`. -/
def ReplyT.received (xid : Nat) : ReplyT := ⟨xid,false,[]⟩

/-- The two maps of `rpcs` that `reply_window_m_` protects. A missing nonce of
`max_xid_rep_sofar_` reads as 0. -/
structure Rpcs where
  replyWindow : Nat → Option (List ReplyT)
  maxXidRepSofar : Nat → Nat

def Rpcs.empty : Rpcs := ⟨fun _ => none,fun _ => 0⟩

/-- `rpcs::dispatch` makes the window of a nonce it sees for the first time. -/
def Rpcs.create (s : Rpcs) (nonce : Nat) : Rpcs :=
  match s.replyWindow nonce with
  | some _ => s
  | none => { s with replyWindow := update s.replyWindow nonce (some []) }

/-- `rpcs::checkduplicate_and_update`; no result stands for a failed assertion. -/
def Rpcs.checkduplicateAndUpdate (s : Rpcs) (nonce xid xidRep : Nat) : Option (RpcState × Rpcs) :=
  match s.replyWindow nonce with
  | none => none
  | some window =>
    if xid ≤ xidRep then none
    else
      let highest := if xidRep > s.maxXidRepSofar nonce then xidRep else s.maxXidRepSofar nonce
      let s := { s with maxXidRepSofar := update s.maxXidRepSofar nonce highest }
      -- This return comes before the cleanup: acknowledged entries stay in the window.
      if xid ≤ highest then some (.forgotten,s)
      else
        let window := window.filter (fun r => !decide (r.xid ≤ xidRep))
        match window.find? (fun r => r.xid == xid) with
        | some r =>
          some (if r.cbPresent then .done r.buf else .inprogress,
            { s with replyWindow := update s.replyWindow nonce (some window) })
        | none =>
          some (.new,
            { s with replyWindow := update s.replyWindow nonce (some (window++[.received xid])) })

/-- The loop of `rpcs::add_reply`; no result when it runs to `end()`. -/
def fill (xid : Nat) (buf : List UInt8) : List ReplyT → Option (List ReplyT)
  | [] => none
  | r::rest =>
    if r.xid = xid then some ({ r with cbPresent := true, buf := buf } :: rest)
    else (fill xid buf rest).map (r::·)

/-- `rpcs::add_reply`; no result when the trailing assertion reads `end()`. -/
def Rpcs.addReply (s : Rpcs) (nonce xid : Nat) (buf : List UInt8) : Option Rpcs :=
  (fill xid buf ((s.replyWindow nonce).getD [])).map
    (fun window => { s with replyWindow := update s.replyWindow nonce (some window) })

/-- The window of a nonce, empty before its first request. -/
def Rpcs.window (s : Rpcs) (nonce : Nat) : List ReplyT := (s.replyWindow nonce).getD []

lemma create_window (s : Rpcs) (nonce other : Nat) : (s.create nonce).window other = s.window other := by
  unfold Rpcs.create Rpcs.window
  cases found : s.replyWindow nonce with
  | some window => rfl
  | none =>
    by_cases same : other = nonce
    · subst same
      simp [found]
    · simp [update_of_ne same]
lemma create_max (s : Rpcs) (nonce : Nat) : (s.create nonce).maxXidRepSofar = s.maxXidRepSofar := by
  unfold Rpcs.create
  split <;> rfl

/-- What an arrival does to the window and the acknowledgement of its nonce:
the request is forgotten, repeated or new. -/
lemma check_cases {s t : Rpcs}
    (checked : s.checkduplicateAndUpdate nonce xid xidRep = some (out,t)) :
    xidRep < xid ∧ t.maxXidRepSofar = update s.maxXidRepSofar nonce (max (s.maxXidRepSofar nonce) xidRep) ∧
      (∀ other, other ≠ nonce → t.window other = s.window other) ∧
      ((xid ≤ s.maxXidRepSofar nonce ∧ out = .forgotten ∧ t.window nonce = s.window nonce) ∨
       (s.maxXidRepSofar nonce < xid ∧ ∃ r ∈ s.window nonce, r.xid = xid ∧
          out = (if r.cbPresent then .done r.buf else .inprogress) ∧
          t.window nonce = (s.window nonce).filter (fun r => !decide (r.xid ≤ xidRep))) ∨
       (s.maxXidRepSofar nonce < xid ∧ (∀ r ∈ s.window nonce, r.xid ≠ xid) ∧ out = .new ∧
          t.window nonce = (s.window nonce).filter (fun r => !decide (r.xid ≤ xidRep)) ++ [.received xid])) := by
  unfold Rpcs.checkduplicateAndUpdate at checked
  cases present : s.replyWindow nonce with
  | none => simp [present] at checked
  | some window =>
    have here : s.window nonce = window := by simp [Rpcs.window,present]
    have highest : (if xidRep > s.maxXidRepSofar nonce then xidRep else s.maxXidRepSofar nonce) =
        max (s.maxXidRepSofar nonce) xidRep := by
      split <;> omega
    simp only [present,highest] at checked
    by_cases asserted : xid ≤ xidRep
    · simp [asserted] at checked
    · rw [if_neg asserted] at checked
      refine ⟨by omega,?_⟩
      by_cases old : xid ≤ max (s.maxXidRepSofar nonce) xidRep
      · simp only [old,if_true,some.injEq,Prod.mk.injEq] at checked
        obtain ⟨rfl,rfl⟩ := checked
        exact ⟨rfl,fun _ _ => rfl,.inl ⟨by omega,rfl,rfl⟩⟩
      · rw [if_neg old] at checked
        have fresh : s.maxXidRepSofar nonce < xid := by omega
        cases found : (window.filter (fun r => !decide (r.xid ≤ xidRep))).find? (fun r => r.xid == xid) with
        | some r =>
          simp only [found,some.injEq,Prod.mk.injEq] at checked
          obtain ⟨rfl,rfl⟩ := checked
          have mem := mem_of_find?_eq_some found
          have named : r.xid = xid := by simpa using find?_some found
          refine ⟨rfl,?_,.inr (.inl ⟨fresh,r,?_,named,rfl,?_⟩)⟩
          · intro other different
            simp [Rpcs.window,update_of_ne different]
          · rw [here]
            exact mem_of_mem_filter mem
          · simp [Rpcs.window,present]
        | none =>
          simp only [found,some.injEq,Prod.mk.injEq] at checked
          obtain ⟨rfl,rfl⟩ := checked
          refine ⟨rfl,?_,.inr (.inr ⟨fresh,?_,rfl,?_⟩)⟩
          · intro other different
            simp [Rpcs.window,update_of_ne different]
          · intro r mem named
            rw [here] at mem
            have absent := find?_eq_none.mp found r (mem_filter.mpr ⟨mem,by simp; omega⟩)
            simp [named] at absent
          · simp [Rpcs.window,present]

lemma fill_isSome (xid : Nat) (buf : List UInt8) (window : List ReplyT) :
    (fill xid buf window).isSome ↔ ∃ r ∈ window, r.xid = xid := by
  induction window with
  | nil => simp [fill]
  | cons r rest ih =>
    by_cases named : r.xid = xid
    · simp [fill,named]
    · simp [fill,named,ih]

lemma fill_map (distinct : (window.map (·.xid)).Nodup)
    (ran : fill xid buf window = some filled) :
    filled = window.map (fun r => if r.xid = xid then { r with cbPresent := true, buf := buf } else r) := by
  induction window generalizing filled with
  | nil => simp [fill] at ran
  | cons r rest ih =>
    simp only [map_cons,nodup_cons] at distinct
    by_cases named : r.xid = xid
    · simp only [fill,named,if_true,some.injEq] at ran
      subst ran
      simp only [map_cons,named,if_true,List.cons.injEq,true_and]
      have others : ∀ other ∈ rest,
          (if other.xid = xid then { other with cbPresent := true, buf := buf } else other) = other := by
        intro other mem
        have different : other.xid ≠ xid := by
          intro same
          exact distinct.1 (named.trans same.symm ▸ List.mem_map_of_mem mem)
        rw [if_neg different]
      rw [map_congr_left others,List.map_id']
    · simp only [fill,named,if_false,map_eq_some_iff] at ran
      obtain ⟨tail,ran,rfl⟩ := ran
      simp only [map_cons,named,if_false]
      rw [ih distinct.2 ran]

lemma addReply_some {s t : Rpcs}
    (added : s.addReply nonce xid buf = some t) :
    t.maxXidRepSofar = s.maxXidRepSofar ∧ (∀ other, other ≠ nonce → t.window other = s.window other) ∧
      fill xid buf (s.window nonce) = some (t.window nonce) := by
  simp only [Rpcs.addReply,map_eq_some_iff] at added
  obtain ⟨window,filled,rfl⟩ := added
  refine ⟨rfl,?_,?_⟩
  · intro other different
    simp [Rpcs.window,update_of_ne different]
  · simpa [Rpcs.window] using filled

end CodeExercise.RpcServer
