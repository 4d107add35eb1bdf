import CodeExercise.BTreeMmapRuns

/-!
Closing the database and opening it again. The meta block, the tables and the bytes are
all in the file, but `OpenDB` always opens `test.db`, and its handle has no block manager:
`newBlock` panics there, so the reopened database works until a leaf has to be split
(`reopen_invisible`).
-/
namespace CodeExercise.BTreeMmap
open Slices Files Runs Option

/-- A database with or without a block manager. -/
structure Handle where
  db : DB
  blockMgr : Bool

namespace Handle

/-- The new leaf comes first in the split. -/
def splitLeaf (h : Handle) (node : Node) : Option (DB × Bytes × Nat) := if h.blockMgr then h.db.splitLeaf node else none

/-- The new node comes first in the split. -/
def splitInternal (h : Handle) (node : Node) : Option (DB × Bytes × Nat) :=
  if h.blockMgr then h.db.splitInternal node else none

def newNode (h : Handle) (isLeaf : Bool) : Option (DB × Node) := if h.blockMgr then h.db.newNode isLeaf else none

def insertKVInLeaf (h : Handle) (node : Node) (key val : Bytes) : Option (DB × Except Err (Option (Bytes × Nat))) := do
  let i ← node.seek h.db.mem (fun k => k = key || key < k) 0 node.nkeys
  if i < node.nkeys ∧ node.getKey h.db.mem i = some key then
    let (node,mem,enough) ← node.updateVal h.db.mem i val
    return (h.db.save node mem,if enough then .ok none else .error .notEnoughMemory)
  let (node,mem) ← node.insertNew h.db.mem i key val
  let db := h.db.save node mem
  if node.nkeys = db.degree then
    let (db,promotedKey,newSibling) ← splitLeaf ⟨db,h.blockMgr⟩ node
    return (db,.ok (some (promotedKey,newSibling)))
  return (db,.ok none)

def insert : Nat → Handle → Nat → Bytes → Bytes → Option (DB × Except Err (Option (Bytes × Nat)))
  | 0,_,_,_,_ => none
  | fuel+1,h,blockId,key,val => do
    let node ← h.db.loadNode blockId
    if node.isLeaf then
      h.insertKVInLeaf node key val
    else
      let i ← node.seek h.db.mem (fun k => key < k) 0 node.nkeys
      let childBlockId ← node.getChildBlockId i
      match ← insert fuel h childBlockId key val with
      | (db,.error err) => return (db,.error err)
      | (db,.ok none) => return (db,.ok none)
      | (db,.ok (some (childPromotedKey,newChild))) =>
        let node ← db.loadNode blockId
        let (node,mem) ← node.insertChild db.mem i childPromotedKey newChild
        let db := db.save node mem
        if node.nkeys = db.degree then
          let (db,pKey,rightSibling) ← splitInternal ⟨db,h.blockMgr⟩ node
          return (db,.ok (some (pKey,rightSibling)))
        return (db,.ok none)

def Insert (h : Handle) (key val : Bytes) : Option (DB × Option Err) := do
  let rootBlockId := h.db.rootBlockId
  match ← h.insert h.db.nusedBlocks rootBlockId key val with
  | (db,.error err) => return (db,some err)
  | (db,.ok none) => return (db,none)
  | (db,.ok (some (promotedKey,rightSibling))) =>
    let (db,newRoot) ← newNode ⟨db,h.blockMgr⟩ false
    let (newRoot,mem) ← newRoot.insertKeyInPos db.mem 0 promotedKey
    let newRoot := newRoot.setNKeys 1
    let newRoot ← newRoot.setChildBlockId 0 rootBlockId
    let newRoot ← newRoot.setChildBlockId 1 rightSibling
    return ({ db.save newRoot mem with rootBlockId := newRoot.blockId },none)

end Handle

inductive Call where
  | insert (key val : Bytes)
  | delete (key : Bytes)
  | find (key : Bytes)
  deriving DecidableEq

inductive Reply where
  | inserted (err : Option Err)
  | deleted
  | found (result : Except Err Bytes)
  deriving DecidableEq

/-- No result when the call panics. `recycleBlock`, which `Delete` calls, does nothing,
with or without a block manager. -/
def Handle.call (h : Handle) : Call → Option (Reply × Handle)
  | .insert key val => (h.Insert key val).map (fun r => (.inserted r.2,⟨r.1,h.blockMgr⟩))
  | .delete key => (h.db.Delete key).map (fun db => (.deleted,⟨db,h.blockMgr⟩))
  | .find key => (h.db.Find key).map (fun r => (.found r,h))

def step (h : Handle) (c : Call) : Option Handle := (h.call c).map Prod.snd

/-- What the calls return, up to the first panic. -/
def Handle.replies : Handle → List Call → List (Option Reply)
  | _,[] => []
  | h,c::rest =>
    match h.call c with
    | none => [none]
    | some (reply,h) => some reply :: h.replies rest

/-- What the files hold. -/
abbrev Disk := String → Option DB
def createHandle (degree : Nat) : Option Handle := (DB.createDB degree).map (fun db => ⟨db,true⟩)
/-- `Close`: the file keeps what was written through the map. -/
def close (disk : Disk) (path : String) (h : Handle) : Disk := Function.update disk path (some h.db)
/-- `OpenDB`, which does not look at its argument. -/
def openDB (disk : Disk) (_filePath : String) : Option Handle := (disk "test.db").map (fun db => ⟨db,false⟩)

/-- The replies when the database is closed and opened again between two sequences of calls. -/
def reopened (disk : Disk) (path : String) (h : Handle) (before after : List Call) : List (Option Reply) :=
  h.replies before ++
    match run step h before with
    | none => []
    | some h =>
      match openDB (close disk path h) path with
      | none => [none]
      | some h => h.replies after

/-- Whether the leaf of a key has to be split for it. -/
def DB.splits : Nat → DB → Nat → Bytes → Option Bool
  | 0,_,_,_ => none
  | fuel+1,db,blockId,key => do
    let node ← db.loadNode blockId
    if node.isLeaf then
      let i ← node.seek db.mem (fun k => k = key || key < k) 0 node.nkeys
      return !decide (i < node.nkeys ∧ node.getKey db.mem i = some key) && decide (uint16 (node.nkeys+1) = db.degree)
    else
      let i ← node.seek db.mem (fun k => key < k) 0 node.nkeys
      let childBlockId ← node.getChildBlockId i
      splits fuel db childBlockId key

/-- The call splits no leaf. -/
def Stays (h : Handle) : Call → Prop
  | .insert key _ => h.db.splits h.db.nusedBlocks h.db.rootBlockId key ≠ some true
  | _ => True
instance (h : Handle) : (c : Call) → Decidable (Stays h c)
  | .insert _ _ => decideAs (_ ≠ _)
  | .delete _ | .find _ => isTrue trivial

section
variable {node node' : Node} {mem mem' : Mem}

lemma compactLoop_nkeys
    (done : Node.compactLoop mem unused k i node tmp start = some (node',tmp',start')) : node'.nkeys = node.nkeys := by
  induction k generalizing i node tmp start with
  | zero =>
    cases done
    rfl
  | succ k ih =>
    simp only [Node.compactLoop,bind_eq_bind,bind_eq_some_iff] at done
    obtain ⟨_,_,⟨_,_⟩,_,_,_,done⟩ := done
    split at done
    · simp only [bind_eq_some_iff] at done
      obtain ⟨_,_,⟨_,_⟩,_,_,_,done⟩ := done
      have count := ih done
      exact count
    · have count := ih done
      exact count

lemma spaceIsEnough_nkeys (done : node.spaceIsEnough mem n = some (node',mem',enough)) :
    node'.nkeys = node.nkeys := by
  simp only [Node.spaceIsEnough] at done
  split at done
  · cases done
    rfl
  · split at done
    · simp only [Node.compactMem,bind_eq_bind,bind_eq_some_iff] at done
      obtain ⟨⟨_,_⟩,⟨⟨_,_,_⟩,loop,_,_,compacted⟩,done⟩ := done
      cases compacted
      cases done
      have count := compactLoop_nkeys loop
      exact count
    · cases done
      rfl

lemma insertKeyInPos_nkeys (done : node.insertKeyInPos mem i key = some (node',mem')) :
    node'.nkeys = node.nkeys := by
  simp only [Node.insertKeyInPos,bind_eq_bind,bind_eq_some_iff] at done
  obtain ⟨⟨_,_,_⟩,space,done⟩ := done
  split at done
  · simp only [Node.appendToFreeMem,Node.setKeyPtr,bind_eq_bind,bind_eq_some_iff] at done
    obtain ⟨⟨_,_,_⟩,⟨⟨_,_⟩,_,appended⟩,_,⟨_,_,set⟩,done⟩ := done
    cases appended
    cases set
    cases done
    have count := spaceIsEnough_nkeys space
    exact count
  · cases done

lemma insertValInPos_nkeys
    (done : node.insertValInPos mem i val = some (node',mem',enough)) : node'.nkeys = node.nkeys := by
  simp only [Node.insertValInPos,bind_eq_bind,bind_eq_some_iff] at done
  obtain ⟨⟨_,_,_⟩,space,done⟩ := done
  split at done
  · simp only [Node.appendToFreeMem,Node.setValPtr,bind_eq_bind,bind_eq_some_iff] at done
    obtain ⟨⟨_,_,_⟩,⟨⟨_,_⟩,_,appended⟩,_,⟨_,_,set⟩,done⟩ := done
    cases appended
    cases set
    cases done
    have count := spaceIsEnough_nkeys space
    exact count
  · cases done
    exact spaceIsEnough_nkeys space

/-- A new key is counted, whether or not there was space for it. -/
lemma insertNew_nkeys (done : node.insertNew mem i key val = some (node',mem')) :
    node'.nkeys = uint16 (node.nkeys+1) := by
  simp only [Node.insertNew,Node.insertKvInPos,bind_eq_bind,bind_eq_some_iff] at done
  obtain ⟨_,_,_,_,⟨after,_,_⟩,⟨⟨_,_,_⟩,space,inserted⟩,done⟩ := done
  cases done
  have count : after.nkeys = node.nkeys := by
    split at inserted
    · simp only [bind_eq_some_iff] at inserted
      obtain ⟨⟨_,_⟩,first,second⟩ := inserted
      rw [insertValInPos_nkeys second,insertKeyInPos_nkeys first,spaceIsEnough_nkeys space]
    · cases inserted
      have count := spaceIsEnough_nkeys space
      exact count
  simp only [Node.setNKeys,count]

end

section
variable {db : DB} {key val : Bytes}

lemma insertKVInLeaf_stays (found : node.seek db.mem (fun k => k = key || key < k) 0 node.nkeys = some i)
    (stays : ¬ (i < node.nkeys ∧ node.getKey db.mem i = some key) → uint16 (node.nkeys+1) ≠ db.degree) (b : Bool) :
    Handle.insertKVInLeaf ⟨db,b⟩ node key val = Handle.insertKVInLeaf ⟨db,true⟩ node key val ∧
      ∀ db' p, Handle.insertKVInLeaf ⟨db,true⟩ node key val ≠ some (db',.ok (some p)) := by
  by_cases present : i < node.nkeys ∧ node.getKey db.mem i = some key
  · simp only [Handle.insertKVInLeaf,found,bind_eq_bind,bind_some,if_pos present]
    refine ⟨trivial,fun db' p same => ?_⟩
    obtain ⟨⟨_,_,enough⟩,_,same⟩ := bind_eq_some_iff.mp same
    cases enough <;> cases same
  · simp only [Handle.insertKVInLeaf,found,bind_eq_bind,bind_some,if_neg present]
    cases inserted : node.insertNew db.mem i key val with
    | none => simp
    | some r =>
      obtain ⟨after,mem⟩ := r
      have few : ¬ after.nkeys = (db.save after mem).degree := by
        rw [insertNew_nkeys inserted]
        exact stays present
      simp only [bind_some,if_neg few]
      exact ⟨trivial,fun db' p same => by cases same⟩

lemma insert_stays (val : Bytes) (stays : db.splits fuel blockId key ≠ some true) (b : Bool) :
    Handle.insert fuel ⟨db,b⟩ blockId key val = Handle.insert fuel ⟨db,true⟩ blockId key val ∧
      ∀ db' p, Handle.insert fuel ⟨db,true⟩ blockId key val ≠ some (db',.ok (some p)) := by
  induction fuel generalizing blockId with
  | zero => exact ⟨rfl,fun _ _ same => by cases same⟩
  | succ fuel ih =>
    simp only [DB.splits,bind_eq_bind] at stays
    simp only [Handle.insert,bind_eq_bind]
    cases load : db.loadNode blockId with
    | none => simp
    | some node =>
      rw [load] at stays
      simp only [bind_some] at stays ⊢
      by_cases leaf : node.isLeaf = true
      · rw [if_pos leaf] at stays
        rw [if_pos leaf,if_pos leaf]
        cases found : node.seek db.mem (fun k => k = key || key < k) 0 node.nkeys with
        | none => simp [Handle.insertKVInLeaf,found]
        | some i =>
          refine insertKVInLeaf_stays found (fun absent full => stays ?_) b
          rw [found,bind_some,decide_eq_false absent,decide_eq_true full]
          rfl
      · rw [if_neg leaf] at stays
        rw [if_neg leaf,if_neg leaf]
        cases found : node.seek db.mem (fun k => key < k) 0 node.nkeys with
        | none => simp
        | some i =>
          rw [found] at stays
          simp only [bind_some] at stays ⊢
          cases down : node.getChildBlockId i with
          | none => simp
          | some child =>
            rw [down] at stays
            obtain ⟨same,never⟩ := ih stays
            simp only [bind_some,same]
            cases result : Handle.insert fuel ⟨db,true⟩ child key val with
            | none => simp
            | some r =>
              obtain ⟨db',r⟩ := r
              cases r with
              | error err => exact ⟨rfl,fun _ _ same => by cases same⟩
              | ok more =>
                cases more with
                | none => exact ⟨rfl,fun _ _ same => by cases same⟩
                | some p => exact absurd result (never db' p)

lemma call_stays (stays : Stays h c) (b : Bool) :
    Handle.call ⟨h.db,b⟩ c = (h.call c).map (fun r => (r.1,⟨r.2.db,b⟩)) := by
  cases c with
  | insert key val =>
    have without : ∀ b', Handle.Insert ⟨h.db,b'⟩ key val = Handle.Insert ⟨h.db,true⟩ key val := by
      intro b'
      obtain ⟨same,never⟩ := insert_stays val stays b'
      simp only [Handle.Insert,same]
      cases result : Handle.insert h.db.nusedBlocks ⟨h.db,true⟩ h.db.rootBlockId key val with
      | none => rfl
      | some r =>
        obtain ⟨db',r⟩ := r
        cases r with
        | error err => rfl
        | ok more =>
          cases more with
          | none => rfl
          | some p => exact absurd result (never db' p)
    simp only [Handle.call,without b,show h.Insert key val = _ from without h.blockMgr,map_map]
    rfl
  | delete key =>
    simp only [Handle.call,map_map]
    rfl
  | find key =>
    simp only [Handle.call,map_map]
    rfl

lemma replies_stays (stays : Meets step Stays h calls) (b : Bool) :
    Handle.replies ⟨h.db,b⟩ calls = h.replies calls := by
  induction calls generalizing h with
  | nil => rfl
  | cons c calls ih =>
    obtain ⟨first,rest⟩ := stays
    simp only [Handle.replies,call_stays first b]
    cases called : h.call c with
    | none => rfl
    | some r =>
      simp only [map_some]
      rw [step,called] at rest
      rw [ih rest]

end

lemma replies_append (h : Handle) (before after : List Call) : h.replies (before++after) = h.replies before ++
    match run step h before with
    | none => []
    | some h => h.replies after := by
  induction before generalizing h with
  | nil => rfl
  | cons c before ih =>
    simp only [List.cons_append,Handle.replies,run,step]
    cases h.call c with
    | none => rfl
    | some r => exact congrArg _ (ih r.2)

/-- Closing the database and opening it again is not noticed while no leaf is split. -/
theorem reopen_invisible {disk : Disk} {path : String} {h : Handle} {before after : List Call} (named : path = "test.db")
    (stays : ∀ closed, run step h before = some closed → Meets step Stays closed after) :
    reopened disk path h before after = h.replies (before++after) := by
  rw [reopened,replies_append]
  cases ran : run step h before with
  | none => rfl
  | some closed =>
    subst named
    have opened : openDB (close disk "test.db" closed) "test.db" = some ⟨closed.db,false⟩ := by
      simp [openDB,close]
    simp only [opened,replies_stays (stays closed ran) false]

theorem reopen_invisible_update : ∃ h, createHandle 3 = some h ∧
    reopened (fun _ => none) "test.db" h [.insert [97] [49],.insert [98] [50]] [.find [97],.insert [97] [51],.delete [98]] =
      h.replies [.insert [97] [49],.insert [98] [50],.find [97],.insert [97] [51],.delete [98]] := by
  obtain ⟨h,created,closed,ran,stays⟩ : ∃ h, createHandle 3 = some h ∧
      ∃ closed, run step h [.insert [97] [49],.insert [98] [50]] = some closed ∧
        Meets step Stays closed [.find [97],.insert [97] [51],.delete [98]] := by decide +kernel
  exact ⟨h,created,reopen_invisible rfl (fun _ ran' => some.inj (ran.symm.trans ran') ▸ stays)⟩

/-- A key for a full leaf after the database was opened again, and a file with another name. -/
theorem reopened_split_panics : ∃ h, createHandle 3 = some h ∧
    reopened (fun _ => none) "test.db" h [.insert [97] [49],.insert [98] [50]] [.insert [99] [51]] =
      [some (.inserted none),some (.inserted none),none] ∧
    h.replies [.insert [97] [49],.insert [98] [50],.insert [99] [51]] =
      [some (.inserted none),some (.inserted none),some (.inserted none)] ∧
    reopened (fun _ => none) "a.db" h [.insert [97] [49]] [.find [97]] = [some (.inserted none),none] ∧
    h.replies [.insert [97] [49],.find [97]] = [some (.inserted none),some (.found (.ok [49]))] := by
  decide +kernel

/-! ## Runs of insertions with new keys only -/
open SortedMaps Fences List

/-- An insertion that returns `nil`. -/
def insertNil (db : DB) (e : Bytes × Bytes) : Option DB :=
  match db.Insert e.1 e.2 with
  | some (db',none) => some db'
  | _ => none

/-- The file has a block for each node that a new key splits, and for a new root if the old one is split. -/
def BlocksLeft (db : DB) (e : Bytes × Bytes) : Prop :=
  (db.splitsOnPath db.nusedBlocks db.rootBlockId e.1).all (fun s => decide (db.nusedBlocks+(s.1+s.2.toNat) ≤ 5120)) = true
deriving Decidable

/-- The insertion returns `nil` and takes just these blocks, and there are as many compactions as splits. -/
def Paid (db : DB) (e : Bytes × Bytes) : Prop :=
  ∃ db' n top, insertNil db e = some db' ∧ db.splitsOnPath db.nusedBlocks db.rootBlockId e.1 = some (n,top) ∧
    db'.nusedBlocks = db.nusedBlocks+(n+top.toNat) ∧ db'.mem.compactions = db.mem.compactions+n

section
variable {d h n w : Nat} {db : DB} {v : View} {mem : Mem}
  {e : Bytes × Bytes} {es : List (Bytes × Bytes)}

lemma total_le (sizes : ∀ x ∈ xs, size x ≤ n) : total xs ≤ xs.length*n := by
  have bound := sum_le_card_nsmul (xs.map size) n (by simpa using sizes)
  simpa [total] using bound

/-- Where all memory is in use, a node that is not full has room for one more entry. -/
lemma Body.fits (body : Body d mem.mmap node ks vs) (tidy : node.Tidy) (few : ks.length < d) (fewer : vs.length ≤ ks.length)
    (keys : ∀ x ∈ ks, size x ≤ n) (vals : ∀ x ∈ vs, size x ≤ w) (i : Nat)
    (header : blockMagic.length+DB.tableSize d node.isLeaf+d*(n+w) ≤ blockSize) : node.Fits i (n+w) := by
  have entries : total ks+total vs+(n+w) ≤ d*(n+w) := calc
    total ks+total vs+(n+w) ≤ ks.length*n+ks.length*w+(n+w) := by
      have left := total_le keys
      have right := (total_le vals).trans (Nat.mul_le_mul_right w fewer)
      omega
    _ = (ks.length+1)*(n+w) := by ring
    _ ≤ d*(n+w) := Nat.mul_le_mul_right _ few
  refine .inl ?_
  rw [tidy,body.start,body.actual]
  omega

lemma Subtree.roomFits (tree : Subtree db n h lo hi v) (tidy : db.Tidy) (inside : Within lo hi e.1)
    (vals : ∀ x ∈ v.entries, size x.2 ≤ w) (short : size e.1 ≤ n ∧ size e.2 ≤ w)
    (leaf : blockMagic.length+DB.tableSize db.degree true+db.degree*(n+w) ≤ blockSize)
    (internal : blockMagic.length+DB.tableSize db.degree false+db.degree*n ≤ blockSize) (enough : h < fuel) :
    db.roomFits n fuel v.id e.1 e.2 = some true := by
  induction h generalizing lo hi v fuel with
  | zero =>
    obtain _ | fuel := fuel
    · omega
    obtain ⟨node,es,rfl,shape⟩ := tree
    obtain ⟨pre,post,_,sought,_⟩ := shape.holds.seekKey e.1 (fun k => decide (e.1 ≤ k)) (by simp)
    have fits := shape.holds.body.fits (tidy _ _ shape.stored) (by simpa using shape.room) (by simp)
      (by simpa using fun k x member => shape.sizes (k,x) member) (w := w) (by simpa [leafView] using fun x k member => vals (k,x) member)
      pre.length (by rw [shape.holds.leaf]; exact leaf)
    simp only [DB.roomFits,shape.load,shape.holds.leaf,sought,some_bind,if_true,Option.pure_def,
      some.injEq,decide_eq_true_eq]
    exact .inr (fits.less (by omega))
  | succ h ih =>
    obtain _ | fuel := fuel
    · omega
    obtain ⟨node,ks,cs,rfl,row⟩ := tree
    have fits : ∀ i, node.Fits i n := fun i => row.holds.body.fits (tidy _ _ row.stored) row.room (by simp) row.sizes
      (w := 0) (by simp) i (by rw [row.holds.internal]; exact internal)
    obtain ⟨pre,post,cs1,c,cs2,rfl,rfl,descent⟩ := row.descend inside
    obtain ⟨lo',hi',child,room,_⟩ := descent.bounds
    have rest := ih child room (fun x member => vals x (by simp [internalView,member])) (by omega : h < fuel)
    simp only [DB.roomFits,row.load,row.holds.internal,if_ff,descent.index,descent.read,child.load,rest,
      some_bind,Option.pure_def,some.injEq,Bool.and_true,decide_eq_true_eq]
    exact fun _ => fits pre.length

/-- The database holds these entries, and all its memory is in use. -/
def Filled (d n : Nat) (es : List (Bytes × Bytes)) (db : DB) : Prop :=
  ∃ h v, Stores d n db h v ∧ db.Tidy ∧ v.entries.Perm es

lemma createDB_tidy (created : DB.createDB d = some db) : db.Tidy := by
  simp only [DB.createDB,DB.newNode,bind_eq_bind,bind_eq_some_iff] at created
  obtain ⟨⟨db',node⟩,fresh,same⟩ := created
  split at fresh
  · simp only [some.injEq,Prod.mk.injEq,Option.pure_def] at fresh same
    rw [← same,← fresh.1]
    exact DB.Tidy.save (fun b node stored => by simp at stored) _ rfl
  · cases fresh

lemma createDB_filled (large : 2 ≤ d) (table : blockMagic.length+DB.tableSize d true ≤ blockSize)
    (created : DB.createDB d = some db) : Filled d n [] db := by
  obtain ⟨v,stores,empty⟩ := createDB_stores (m := n) large table created
  exact ⟨0,v,stores,createDB_tidy created,by rw [empty]⟩

lemma Filled.insertNil (large : 3 ≤ d) (leaf : blockMagic.length+DB.tableSize d true+d*(n+w) ≤ blockSize)
    (internal : blockMagic.length+DB.tableSize d false+d*n ≤ blockSize) (filled : Filled d n es db)
    (new : ∀ x ∈ es, x.1 ≠ e.1) (vals : ∀ x ∈ es, size x.2 ≤ w) (short : size e.1 ≤ n ∧ size e.2 ≤ w) (left : BlocksLeft db e) :
    ∃ db', BTreeMmap.insertNil db e = some db' ∧ Filled d n (e::es) db' ∧ Paid db e := by
  obtain ⟨h,v,stores,tidy,same⟩ := filled
  have degree := stores.degree
  subst degree
  have absent : ∀ x ∈ v.entries, x.1 ≠ e.1 := fun x member => new x (same.mem_iff.mp member)
  have rooms := stores.tree.roomFits tidy (within_unbounded e.1) (fun x member => vals x (same.mem_iff.mp member)) short leaf
    internal stores.height_lt
  obtain ⟨k,top,needs,_⟩ := stores.tree.splitsOnPath_le (within_unbounded e.1) stores.height_lt
  rw [stores.root] at rooms needs
  have blocks : db.nusedBlocks+(k+top.toNat) ≤ 5120 := by simpa [BlocksLeft,needs] using left
  have one : n+w ≤ db.degree*(n+w) ∧ n ≤ db.degree*n := ⟨Nat.le_mul_of_pos_left _ (by omega),Nat.le_mul_of_pos_left _ (by omega)⟩
  have small : size e.2 < 65536 := by
    simp only [blockSize] at leaf
    omega
  obtain ⟨_,_,⟨_,x,member,equal⟩ | ⟨db',h',v',done,stores',entries,_,cost⟩⟩ :=
    stores.outcome (by omega) short.1 small rooms needs (fun _ => blocks) (fun _ => by omega)
  · exact absurd equal (absent x member)
  obtain ⟨used,paid⟩ := cost absent
  obtain ⟨tidy',count⟩ := paid tidy
  have moved : BTreeMmap.insertNil db e = some db' := by simp [BTreeMmap.insertNil,done]
  refine ⟨db',moved,⟨h',v',stores',tidy',?_⟩,db',k,top,moved,needs,used,count⟩
  rw [entries]
  exact (setEntry_perm e.2 absent).trans (same.cons e)

lemma Filled.run (large : 3 ≤ d) (leaf : blockMagic.length+DB.tableSize d true+d*(n+w) ≤ blockSize)
    (internal : blockMagic.length+DB.tableSize d false+d*n ≤ blockSize) (filled : Filled d n old db)
    (distinct : ((old++es).map Prod.fst).Nodup) (vals : ∀ x ∈ old, size x.2 ≤ w) (short : ∀ x ∈ es, size x.1 ≤ n ∧ size x.2 ≤ w)
    (left : Meets BTreeMmap.insertNil BlocksLeft db es) :
    ∃ db', Runs.run BTreeMmap.insertNil db es = some db' ∧ (∃ all, Filled d n all db' ∧ all.Perm (old++es)) ∧
      Meets BTreeMmap.insertNil Paid db es := by
  induction es generalizing old db with
  | nil => exact ⟨db,rfl,⟨old,filled,by simp⟩,trivial⟩
  | cons e es ih =>
    have new : ∀ x ∈ old, x.1 ≠ e.1 := by
      rw [map_append,nodup_append] at distinct
      intro x member same
      exact distinct.2.2 x.1 (List.mem_map_of_mem member) e.1 (by simp) same
    obtain ⟨db1,moved,filled1,paid⟩ := filled.insertNil large leaf internal new vals (short e (by simp)) left.1
    have later := left.2
    rw [moved] at later
    have order : (e::old++es).Perm (old++e::es) := perm_middle.symm
    obtain ⟨db',ran,⟨all,holds,same⟩,rest⟩ := ih filled1 ((order.map Prod.fst).nodup_iff.mpr distinct)
      (fun x member => (mem_cons.mp member).elim (fun first => first ▸ (short e (by simp)).2) (vals x))
      (fun x member => short x (mem_cons_of_mem _ member)) later
    refine ⟨db',by simp only [Runs.run,moved,bind_some,ran],⟨all,holds,same.trans order⟩,paid,?_⟩
    rwa [moved]

end

/-- Insertions of distinct keys, where the header of a leaf leaves room for `d` entries and that of an internal node for `d` keys:
all return `nil`, the entries are found and no others, no two nodes share a block, and as many nodes are compacted as split. -/
theorem insert_only {d n w : Nat} (large : 3 ≤ d) (leaf : blockMagic.length+DB.tableSize d true+d*(n+w) ≤ blockSize)
    (internal : blockMagic.length+DB.tableSize d false+d*n ≤ blockSize) {db : DB} (created : DB.createDB d = some db)
    (es : List (Bytes × Bytes)) (distinct : (es.map Prod.fst).Nodup) (short : ∀ e ∈ es, size e.1 ≤ n ∧ size e.2 ≤ w)
    (left : Meets insertNil BlocksLeft db es) :
    ∃ db', Runs.run insertNil db es = some db' ∧ (∀ e ∈ es, db'.Find e.1 = some (.ok e.2)) ∧
      (∀ key, (∀ e ∈ es, e.1 ≠ key) → db'.Find key = some (.error .keyNotExist)) ∧
      (db'.nodes db'.nusedBlocks db'.rootBlockId).Nodup ∧ Meets insertNil Paid db es := by
  have start : Filled d n [] db := createDB_filled (by omega) (by omega) created
  obtain ⟨db',ran,⟨all,⟨h,v,stores,_,same⟩,order⟩,paid⟩ := start.run large leaf internal (by simpa using distinct) (by simp) short left
  have entries : ∀ e, e ∈ v.entries ↔ e ∈ es := fun e => (same.trans order).mem_iff
  refine ⟨db',ran,fun e member => ?_,fun key absent => ?_,?_,paid⟩
  · rw [stores.find,answer_of_mem stores.tree.ordered.1 ((entries e).mpr member)]
  · rw [stores.find,answer_of_not_mem (fun e member => absent e ((entries e).mp member))]
  · rw [← stores.root,stores.tree.nodes_eq stores.height_lt]
    exact stores.nodup

/-- Four keys in a tree of degree 3, whose root is split. -/
theorem insert_only_split : ∃ db, DB.createDB 3 = some db ∧
    Meets insertNil BlocksLeft db [([97],[49]),([98],[50]),([99],[51]),([100],[52])] ∧
    ∃ db', Runs.run insertNil db [([97],[49]),([98],[50]),([99],[51]),([100],[52])] = some db' ∧
      db'.Find [99] = some (.ok [51]) ∧ db'.Find [101] = some (.error .keyNotExist) ∧
      (db'.nodes db'.nusedBlocks db'.rootBlockId).Nodup := by
  obtain ⟨db,created,left⟩ : ∃ db, DB.createDB 3 = some db ∧
      Meets insertNil BlocksLeft db [([97],[49]),([98],[50]),([99],[51]),([100],[52])] := by decide +kernel
  obtain ⟨db',ran,found,absent,nodup,_⟩ := insert_only (n := 2) (w := 2) (by decide) (by decide) (by decide) created
    [([97],[49]),([98],[50]),([99],[51]),([100],[52])] (by decide) (by decide) left
  exact ⟨db,created,left,db',ran,found ([99],[51]) (by simp),absent [101] (by decide),nodup⟩

end CodeExercise.BTreeMmap
