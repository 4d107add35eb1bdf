import Mathlib.Data.List.Basic
import Mathlib.Order.Basic

/-!
The acknowledgement window of the RPC client (`rpcc::update_xid_rep` in `rpc/rpc.cc`): a sorted list of
the calls that are over, whose front says that every call up to it is over.
-/
namespace CodeExercise.RpcClient
open List

/-- `xid_rep_window_.front()`. -/
def front (window : List Nat) : Nat := window.headD 0

/-- The insertion before the first larger number, or at the end. -/
def insertXid (xid : Nat) : List Nat → List Nat
  | [] => [xid]
  | y::rest => if y > xid then xid :: y::rest else y :: insertXid xid rest

/-- The loop under `compress`. The iterator stands between the numbers it has
passed, which lose their front while its successor is the current number,
and the rest. -/
def compressFrom (passed : List Nat) : List Nat → List Nat
  | [] => passed
  | x::rest => compressFrom (passed.dropWhile (fun p => p+1 == x) ++ [x]) rest

def compress : List Nat → List Nat
  | [] => []
  | x::rest => compressFrom [x] rest

/-- `rpcc::update_xid_rep`. -/
def updateXidRep (window : List Nat) (xid : Nat) : List Nat :=
  if xid ≤ front window then window else compress (insertXid xid window)

example : updateXidRep [2,4,5,8] 3 = [5,8] := by decide

/-- A sorted window of calls with the property, which every call up to the
front has; 0 stands for no call. -/
structure WindowOk (P : Nat → Prop) (window : List Nat) : Prop where
  nonempty : window ≠ []
  sorted : window.Pairwise (· ≤ ·)
  marked : ∀ x ∈ window, 0 < x → P x
  upTo : ∀ x, 0 < x → x ≤ front window → P x

section
variable {P : Nat → Prop}

lemma mem_insertXid : x ∈ insertXid xid window ↔ x = xid ∨ x ∈ window := by
  induction window with
  | nil => simp [insertXid]
  | cons y rest ih =>
    unfold insertXid
    split
    · simp
    · simp only [mem_cons,ih]
      tauto

lemma insertXid_sorted (sorted : window.Pairwise (· ≤ ·)) :
    (insertXid xid window).Pairwise (· ≤ ·) := by
  induction window with
  | nil => simp [insertXid]
  | cons y rest ih =>
    rw [pairwise_cons] at sorted
    unfold insertXid
    split
    · next larger =>
      rw [pairwise_cons,pairwise_cons]
      refine ⟨?_,sorted⟩
      intro z mem
      rcases mem_cons.mp mem with rfl | later
      · omega
      · have := sorted.1 z later
        omega
    · next small =>
      rw [pairwise_cons]
      refine ⟨?_,ih sorted.2⟩
      intro z mem
      rcases mem_insertXid.mp mem with rfl | later
      · omega
      · exact sorted.1 z later

lemma front_insertXid (nonempty : window ≠ []) (above : front window < xid) :
    front (insertXid xid window) = front window := by
  cases window with
  | nil => exact absurd rfl nonempty
  | cons y rest =>
    have small : ¬ y > xid := by
      simp only [front,headD_cons] at above
      omega
    simp [insertXid,small,front]

/-- Dropping the fronts whose successor is the next number moves the front only
over calls that have the property. -/
lemma dropWhile_ok (sorted : (passed++[x]).Pairwise (· ≤ ·))
    (marked : 0 < x → P x) (upTo : ∀ y, 0 < y → y ≤ front (passed++[x]) → P y) :
    ∀ y, 0 < y → y ≤ front (passed.dropWhile (fun p => p+1 == x) ++ [x]) → P y := by
  induction passed with
  | nil => exact upTo
  | cons p rest ih =>
    by_cases next : p+1 = x
    · rw [dropWhile_cons_of_pos (by simpa using next)]
      rw [cons_append,pairwise_cons] at sorted
      apply ih sorted.2
      intro y positive le
      -- The new front is at most the current number, the successor of the old one.
      have bounded : front (rest++[x]) ≤ x := by
        cases rest with
        | nil => exact Nat.le_refl x
        | cons q more =>
          have := (pairwise_cons.mp sorted.2).1 x (by simp)
          simpa [front] using this
      by_cases old : y ≤ p
      · exact upTo y positive (by simpa [front] using old)
      · have here : y = x := by omega
        exact here ▸ marked (here ▸ positive)
    · rwa [dropWhile_cons_of_neg (by simpa using next)]

lemma compressFrom_ok : ∀ (passed : List Nat), WindowOk P (passed++rest) → passed ≠ [] →
    WindowOk P (compressFrom passed rest) := by
  induction rest with
  | nil =>
    intro passed ok _
    simpa [compressFrom] using ok
  | cons x rest ih =>
    intro passed ok nonempty
    simp only [compressFrom]
    have shorter : (passed.dropWhile (fun p => p+1 == x)).Sublist passed := dropWhile_sublist _
    have kept : (passed.dropWhile (fun p => p+1 == x) ++ [x]++rest).Sublist (passed++x::rest) := by
      rw [append_assoc,singleton_append]
      exact shorter.append (List.Sublist.refl _)
    have start : (passed++[x]).Sublist (passed++x::rest) :=
      (List.Sublist.refl _).append (singleton_sublist.mpr (by simp))
    have fronts : front (passed++[x]) = front (passed++x::rest) := by
      cases passed with
      | nil => exact absurd rfl nonempty
      | cons p more => rfl
    apply ih
    · refine ⟨by simp,ok.sorted.sublist kept,fun y mem => ok.marked y (kept.subset mem),?_⟩
      have moved := dropWhile_ok (ok.sorted.sublist start) (ok.marked x (by simp))
        (fun y positive le => ok.upTo y positive (fronts ▸ le))
      intro y positive le
      apply moved y positive
      cases dropped : passed.dropWhile (fun p => p+1 == x) with
      | nil => simpa [dropped,front] using le
      | cons p more => simpa [dropped,front] using le
    · simp

lemma updateXidRep_ok (ok : WindowOk P window) (ended : P xid) :
    WindowOk P (updateXidRep window xid) := by
  unfold updateXidRep
  split
  · exact ok
  · next above =>
    have inserted : WindowOk P (insertXid xid window) := by
      refine ⟨?_,insertXid_sorted ok.sorted,?_,?_⟩
      · intro empty
        have : xid ∈ insertXid xid window := mem_insertXid.mpr (.inl rfl)
        simp [empty] at this
      · intro x mem positive
        rcases mem_insertXid.mp mem with rfl | old
        · exact ended
        · exact ok.marked x old positive
      · rw [front_insertXid ok.nonempty (by omega)]
        exact ok.upTo
    cases whole : insertXid xid window with
    | nil => exact absurd whole inserted.nonempty
    | cons x rest =>
      rw [whole] at inserted
      exact compressFrom_ok [x] inserted (by simp)

lemma compressFrom_sublist : ∀ passed : List Nat,
    (compressFrom passed rest).Sublist (passed++rest) := by
  induction rest with
  | nil =>
    intro passed
    simp [compressFrom]
  | cons x rest ih =>
    intro passed
    have shorter : (passed.dropWhile (fun p => p+1 == x)).Sublist passed := dropWhile_sublist _
    refine (ih _).trans ?_
    rw [append_assoc,singleton_append]
    exact shorter.append (List.Sublist.refl _)

lemma mem_updateXidRep (mem : x ∈ updateXidRep window xid) :
    x = xid ∨ x ∈ window := by
  unfold updateXidRep at mem
  split at mem
  · exact .inr mem
  · apply mem_insertXid.mp
    cases whole : insertXid xid window with
    | nil => simp [whole,compress] at mem
    | cons y rest =>
      rw [whole] at mem
      exact (compressFrom_sublist [y]).subset mem

lemma WindowOk.mono (ok : WindowOk P window) (imp : ∀ x, P x → Q x) :
    WindowOk Q window :=
  ⟨ok.nonempty,ok.sorted,fun x mem positive => imp x (ok.marked x mem positive),
    fun x positive le => imp x (ok.upTo x positive le)⟩

lemma WindowOk.front_mem (ok : WindowOk P window) : front window ∈ window := by
  cases window with
  | nil => exact absurd rfl ok.nonempty
  | cons x rest => simp [front]

end
end CodeExercise.RpcClient
