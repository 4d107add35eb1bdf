import CodeExercise.LockCacheRsm
import CodeExercise.Marshall
import CodeExercise.SortedMaps
import Mathlib.Data.Finset.Sort
import Mathlib.Data.List.Lex

/-! State transfer of `lock_server_cache_rsm`. -/
namespace CodeExercise.LockCacheRsmState
open Marshall SortedMaps List

/-- `client_info`, with its strings as bytes. -/
structure ClientInfo where
  cid : Bytes
  xid : Fin (2^64)
  available : Bool
  waitedClients : Finset Bytes
  deriving DecidableEq

/-- `lock_clients`. -/
abbrev LockClients := SortedMap (Fin (2^64)) ClientInfo

/-- `operator<<` for `client_info`; a set is passed in its order. -/
def putClientInfo (ci : ClientInfo) : Bytes :=
  putString ci.cid ++ (putULL ci.xid ++ (putBool ci.available ++
    (putUInt (ci.waitedClients.card%2^32) ++ (ci.waitedClients.sort (· ≤ ·)).flatMap putString)))

def putLock (lock : Fin (2^64) × ClientInfo) : Bytes := putULL lock.1 ++ putClientInfo lock.2

/-- `lock_server_cache_rsm::marshal_state`. -/
def marshalState (lockClients : LockClients) : Bytes :=
  putUInt (lockClients.entries.length%2^32) ++ lockClients.entries.flatMap putLock

/-- The loop of `operator>>` for `client_info`. -/
def getClients : Nat → Unmarshall → Finset Bytes → Finset Bytes × Unmarshall
  | 0,u,waitedClients => (waitedClients,u)
  | n+1,u,waitedClients =>
    let clt := u.string []
    getClients n clt.2 (insert clt.1 waitedClients)

/-- `operator>>` into a new `client_info`. The count is an `int`, and the loop does
not run when it is negative. -/
def getClientInfo (u : Unmarshall) : ClientInfo × Unmarshall :=
  let cid := u.string []
  let xid := cid.2.ull
  let available := xid.2.bool
  let size := available.2.uint
  let clients := getClients (if size.1 < 2^31 then size.1 else 0) size.2 ∅
  (⟨cid.1,Fin.ofNat (2^64) xid.1,available.1,clients.1⟩,clients.2)

/-- The loop of `unmarshal_state`. -/
def unmarshalLoop : Nat → Unmarshall → LockClients → LockClients
  | 0,_,lockClients => lockClients
  | n+1,rep,lockClients =>
    let lid := rep.ull
    let info := getClientInfo lid.2
    unmarshalLoop n info.2 (lockClients.set (Fin.ofNat (2^64) lid.1) info.1)

/-- `lock_server_cache_rsm::unmarshal_state`, into the table that the server has. -/
def unmarshalState (state : Bytes) (lockClients : LockClients) : LockClients :=
  let locksSize := (Unmarshall.takeContent state).uint
  unmarshalLoop locksSize.1 locksSize.2 lockClients

section
variable {u : Unmarshall} {rest : Bytes}

lemma getClients_at {clients : List Bytes} (waited : Finset Bytes)
    (at_bytes : u.At (clients.flatMap putString ++ rest)) :
    ∃ t, getClients clients.length u waited = (waited ∪ clients.toFinset,t) ∧ t.At rest := by
  induction clients generalizing u waited with
  | nil => exact ⟨u,by simp [getClients],at_bytes⟩
  | cons clt clients ih =>
    rw [flatMap_cons,append_assoc] at at_bytes
    obtain ⟨t,read,at_t⟩ := string_at [] at_bytes
    obtain ⟨v,rest_read,at_v⟩ := ih (insert clt waited) at_t
    refine ⟨v,?_,at_v⟩
    simp only [length_cons,getClients,read,rest_read]
    simp [Finset.insert_union]

lemma getClientInfo_at (at_bytes : u.At (putClientInfo ci ++ rest)) :
    ∃ t, getClientInfo u = (ci,t) ∧ t.At rest := by
  obtain ⟨cid,xid,available,waited⟩ := ci
  simp only [putClientInfo,append_assoc] at at_bytes
  obtain ⟨a,readA,at_a⟩ := string_at [] at_bytes
  obtain ⟨b,readB,at_b⟩ := ull_at xid.isLt at_a
  obtain ⟨c,readC,at_c⟩ := bool_at at_b
  -- Each name takes some bytes, so the count of names fits an `int`.
  have count : waited.card < 2^31 := by
    have size := at_c.length
    have small := at_c.small
    have names := length_le_flatMap putString (waited.sort (· ≤ ·)) (by simp)
    simp only [length_append,Finset.length_sort] at size names
    omega
  rw [Nat.mod_eq_of_lt (by omega)] at at_c
  obtain ⟨d,readD,at_d⟩ := uint_at (by omega) at_c
  obtain ⟨e,readE,at_e⟩ := getClients_at ∅ at_d
  refine ⟨e,?_,at_e⟩
  rw [Finset.length_sort] at readE
  simp only [getClientInfo,readA,readB,readC,readD,count,if_true,readE,Finset.sort_toFinset,Finset.empty_union,
    Prod.mk.injEq,and_true,ClientInfo.mk.injEq,true_and]
  exact Fin.ofNat_val_eq_self xid

lemma unmarshalLoop_at {locks : List (Fin (2^64) × ClientInfo)} {table : LockClients}
    (at_bytes : u.At (locks.flatMap putLock ++ rest)) : unmarshalLoop locks.length u table = table.setAll locks := by
  induction locks generalizing u table with
  | nil => rfl
  | cons lock locks ih =>
    rw [flatMap_cons,append_assoc,putLock,append_assoc] at at_bytes
    obtain ⟨a,readA,at_a⟩ := ull_at lock.1.isLt at_bytes
    obtain ⟨b,readB,at_b⟩ := getClientInfo_at at_a
    simp only [length_cons,unmarshalLoop,readA,readB,ih at_b]
    rw [Fin.ofNat_val_eq_self]
    rfl

end

lemma unmarshalState_marshalState (fits : rpcHeaderSz+(marshalState s).length < 2^31) :
    unmarshalState (marshalState s) t = t.setAll s.entries := by
  have at_start := takeContent_at fits
  have count : s.entries.length < 2^31 := by
    have names := length_le_flatMap putLock s.entries (fun lock => by simp [putLock]; omega)
    simp only [marshalState,length_append] at fits
    omega
  rw [marshalState,Nat.mod_eq_of_lt (by omega)] at at_start
  obtain ⟨a,read,at_a⟩ := uint_at (by omega) at_start
  rw [← append_nil (s.entries.flatMap putLock)] at at_a
  rw [unmarshalState,marshalState,Nat.mod_eq_of_lt (by omega),read]
  exact unmarshalLoop_at at_a

/-- The backup has the table of the primary if and only if it had no other lock. -/
theorem unmarshalState_marshalState_iff {s t : LockClients} (fits : rpcHeaderSz+(marshalState s).length ≤ 2^30) :
    unmarshalState (marshalState s) t = s ↔ ∀ lock ∈ t.entries, ∃ other ∈ s.entries, other.1 = lock.1 := by
  rw [unmarshalState_marshalState (by omega)]
  constructor
  · intro same lock mem
    by_contra none
    have kept : lock ∈ (t.setAll s.entries).entries :=
      (mem_setAll s.sorted).mpr (.inr ⟨mem,fun e inside equal => none ⟨e,inside,equal⟩⟩)
    rw [same] at kept
    exact none ⟨lock,kept,rfl⟩
  · intro covered
    apply SortedMap.ext_mem
    intro lock
    rw [mem_setAll s.sorted]
    constructor
    · rintro (sent | ⟨mem,others⟩)
      · exact sent
      · obtain ⟨other,inside,equal⟩ := covered lock mem
        exact absurd equal (others other inside)
    · exact .inl

/-- A lock table with one lock. -/
def oneLock (lid : Fin (2^64)) (info : ClientInfo) : LockClients := ⟨[(lid,info)],by simp⟩

theorem unmarshalState_marshalState_one :
    unmarshalState (marshalState (oneLock 1 ⟨[97],5,false,{[98,99]}⟩)) (oneLock 1 ⟨[98],4,true,{[97]}⟩) =
      oneLock 1 ⟨[97],5,false,{[98,99]}⟩ :=
  (unmarshalState_marshalState_iff (by simp [marshalState,oneLock,putLock,putClientInfo,rpcHeaderSz])).mpr
    (by simp [oneLock])

/-- A backup that has granted lock 1 keeps it when the primary has no locks. -/
theorem unmarshalState_keeps_own_lock :
    unmarshalState (marshalState .empty) (oneLock 1 ⟨[97],5,false,∅⟩) ≠ .empty := by
  intro same
  have entries := congrArg SortedMap.entries same
  revert entries
  decide +kernel

end CodeExercise.LockCacheRsmState
