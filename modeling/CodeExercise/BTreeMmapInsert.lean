import CodeExercise.BTreeMmapTree
import CodeExercise.BlockTrees
import Mathlib

/-!
Insertion keeps the shape of a subtree, when every node on the path of the key has room for what may
come to it (`DB.insertFits`), and writes only to the path of the key and to new blocks. A value that
does not fit in place of another is refused.
-/
namespace CodeExercise.BTreeMmap
open Slices Files SortedMaps Fences List Option

/-- A leaf with the key takes any value or refuses it. Another leaf needs unused memory
for the new entry, or to append it, and there must be blocks for a split of every
node on the path; an internal node with a full child needs the same for a key of
`m` bytes. `above` is the number of blocks for the nodes above and a new root. -/
def DB.insertFits (m : Nat) : Nat → DB → Nat → Nat → Bytes → Bytes → Option Bool
  | 0,_,_,_,_,_ => none
  | fuel+1,db,blockId,above,key,val => do
    let node ← db.loadNode blockId
    if node.isLeaf then
      let i ← node.seek db.mem (fun k => key ≤ k) 0 node.nkeys
      return decide (i < node.nkeys ∧ node.getKey db.mem i = some key ∨
        node.Fits i (size key+size val) ∧ db.nusedBlocks+above+1 ≤ 5120)
    else
      let i ← node.seek db.mem (fun k => key < k) 0 node.nkeys
      let childBlockId ← node.getChildBlockId i
      let childNode ← db.loadNode childBlockId
      let rest ← db.insertFits m fuel childBlockId (above+1) key val
      return decide (childNode.nkeys+1 = db.degree → node.Fits i m) && rest

/-- The same without a look at the blocks. -/
def DB.roomFits (m : Nat) : Nat → DB → Nat → Bytes → Bytes → Option Bool
  | 0,_,_,_,_ => none
  | fuel+1,db,blockId,key,val => do
    let node ← db.loadNode blockId
    if node.isLeaf then
      let i ← node.seek db.mem (fun k => key ≤ k) 0 node.nkeys
      return decide (i < node.nkeys ∧ node.getKey db.mem i = some key ∨ node.Fits i (size key+size val))
    else
      let i ← node.seek db.mem (fun k => key < k) 0 node.nkeys
      let childBlockId ← node.getChildBlockId i
      let childNode ← db.loadNode childBlockId
      let rest ← db.roomFits m fuel childBlockId key val
      return decide (childNode.nkeys+1 = db.degree → node.Fits i m) && rest

/-- How many nodes on the path of a new key are split, and whether the first one is. -/
def DB.splitsOnPath : Nat → DB → Nat → Bytes → Option (Nat × Bool)
  | 0,_,_,_ => none
  | fuel+1,db,blockId,key => do
    let node ← db.loadNode blockId
    if node.isLeaf then
      return if node.nkeys+1 = db.degree then (1,true) else (0,false)
    else
      let i ← node.seek db.mem (fun k => key < k) 0 node.nkeys
      let childBlockId ← node.getChildBlockId i
      let (n,top) ← db.splitsOnPath fuel childBlockId key
      return if top = true ∧ node.nkeys+1 = db.degree then (n+1,true) else (n,false)

/-- The blocks of the nodes that a search for the key reads. -/
def DB.searchPath : Nat → DB → Nat → Bytes → Option (List Nat)
  | 0,_,_,_ => none
  | fuel+1,db,blockId,key => do
    let node ← db.loadNode blockId
    if node.isLeaf then
      return [blockId]
    else
      let i ← node.seek db.mem (fun k => key < k) 0 node.nkeys
      let childBlockId ← node.getChildBlockId i
      let path ← db.searchPath fuel childBlockId key
      return blockId :: path

/-- A block on the path, or a new one. -/
def Touched (path : List Nat) (db db' : DB) (b : Nat) : Prop := b ∈ path ∨ db.nusedBlocks ≤ b ∧ b < db'.nusedBlocks

section
variable {db db' : DB} {node : Node}

lemma Changes.touched_trans (first : Changes (Touched path db db') db db') (second : Changes (Touched more db' db'') db' db'') :
    Changes (Touched (more++path) db db'') db db'' := by
  refine (first.mono fun b => ?_).trans (second.mono fun b => ?_)
  · rintro (member | ⟨new,less⟩)
    · exact .inl (mem_append_right _ member)
    · exact .inr ⟨new,less.trans_le second.used⟩
  · rintro (member | ⟨new,less⟩)
    · exact .inl (mem_append_left _ member)
    · exact .inr ⟨first.used.trans new,less⟩

lemma Changes.touched_save (block : node'.blockId = node.blockId) (only : Local node.blockId db.mem mem) :
    Changes (Touched [node.blockId] db (db.save node' mem)) db (db.save node' mem) :=
  (Changes.save (block.symm ▸ only)).mono (fun _ same => .inl (mem_singleton.mpr (same.trans block)))

lemma Split.touched (split : Split db node db' left right) : Changes (Touched [node.blockId] db db') db db' := by
  refine split.changes.mono fun b => ?_
  rintro (rfl | rfl)
  · exact .inl (mem_singleton.mpr rfl)
  · exact .inr ⟨le_rfl,by rw [split.used]; exact Nat.lt_succ_self _⟩

end

/-- The nodes an insertion leaves: one, or two with the promoted key between them. Their
blocks have the property `B`. -/
structure Grown (db : DB) (m h : Nat) (lo hi : Option Bytes) (b : Nat) (B : Nat → Prop) (es : List (Bytes × Bytes)) (v : View)
    (more : Option (Bytes × View)) : Prop where
  fenced : Fenced (Subtree db m h) lo hi (more.toList.map Prod.fst) (v::more.toList.map Prod.snd)
  id : v.id = b
  entries : (v::more.toList.map Prod.snd).flatMap View.entries = es
  nodup : ((v::more.toList.map Prod.snd).flatMap View.blocks).Nodup
  blocks : ∀ c ∈ (v::more.toList.map Prod.snd).flatMap View.blocks, B c ∧ c < db.nusedBlocks
  sizes : ∀ g ∈ more, size g.1 ≤ m

/-- The promoted key and the block id of the new node. -/
def promoted (more : Option (Bytes × View)) : Except Err (Option (Bytes × Nat)) := .ok (more.map (fun g => (g.1,g.2.id)))

section
variable {db : DB} {m h : Nat} {lo hi : Option Bytes} {node : Node} {B : Nat → Prop}

variable {es : List (Bytes × Bytes)} {i n fuel : Nat} {v : View}

lemma leaf_grown (large : 2 ≤ db.degree) (stored : db.blocks node.blockId = some node)
    (holds : Leaf db.degree db.mem.mmap node es) (sorted : Sorted es) (within : ∀ e ∈ es, Within lo hi e.1)
    (sizes : ∀ e ∈ es, size e.1 ≤ m) (length : es.length ≤ db.degree) (old : B node.blockId ∧ node.blockId < db.nusedBlocks)
    (new : ∀ b, db.nusedBlocks ≤ b → B b) (room : es.length = db.degree → db.nusedBlocks < 5120) :
    ∃ db' v more, (if es.length = db.degree then (db.splitLeaf node).bind (fun r => some (r.1,.ok (some r.2)))
        else some (db,.ok none)) = some (db',promoted more) ∧
      Changes (Touched [node.blockId] db db') db db' ∧ Grown db' m 0 lo hi node.blockId B es v more ∧
      more.isSome = decide (es.length = db.degree) ∧ Cost (if es.length = db.degree then 1 else 0) db db' := by
  by_cases full : es.length = db.degree
  · have enough := room full
    obtain ⟨pre,e,post,rfl,half⟩ := exists_cut es (n := db.degree/2) (by omega)
    obtain ⟨db',left,right,done,split,lower,upper,cost⟩ := holds.splitLeaf half full old.2 enough
    have degree := split.changes.degree
    have used := split.used
    rw [← degree] at lower upper
    have sum := full
    rw [length_append,length_cons] at sum
    refine ⟨db',leafView left pre,some (e.1,leafView right (e::post)),?_,split.touched,?_,
      by simp [full],by rw [if_pos full]; exact cost⟩
    · rw [if_pos full,done]
      rfl
    · refine ⟨leaf_pair sorted within sizes split.storedLeft lower split.storedRight upper ?_ ?_,split.blockLeft,
        by simp [leafView],?_,?_,?_⟩
      · rw [degree]
        omega
      · rw [degree,length_cons]
        omega
      · simp only [leafView,toList_some,map_cons,map_nil,flatMap_cons,flatMap_nil,
          append_nil,singleton_append,split.blockLeft,split.blockRight]
        simpa using old.2.ne
      · simp only [leafView,toList_some,map_cons,map_nil,flatMap_cons,flatMap_nil,
          append_nil,singleton_append,split.blockLeft,split.blockRight,mem_cons,not_mem_nil,or_false]
        rintro c (rfl | rfl)
        · exact ⟨old.1,by rw [used]; exact old.2.trans (Nat.lt_succ_self _)⟩
        · exact ⟨new _ le_rfl,by omega⟩
      · intro g same
        obtain rfl : (e.1,leafView right (e::post)) = g := by simpa using same
        exact sizes e (by simp)
  · refine ⟨db,leafView node es,none,if_neg full,.refl _ db,⟨⟨node,es,rfl,stored,holds,sorted,within,sizes,by omega⟩,rfl,
      by simp [leafView],by simp [leafView],?_,by simp⟩,by simp [full],by rw [if_neg full]; exact .refl db⟩
    simp only [leafView,toList_none,map_nil,flatMap_cons,flatMap_nil,append_nil,
      mem_singleton]
    rintro c rfl
    exact old

/-- An internal node that holds its new children, or the two halves it is split into. -/
lemma internal_grown (large : 2 ≤ db.degree)
    (stored : db.blocks node.blockId = some node) (holds : Internal db.degree db.mem.mmap node ks (cs.map View.id))
    (fenced : Fenced (Subtree db m h) lo hi ks cs) (sizes : ∀ k ∈ ks, size k ≤ m) (length : ks.length ≤ db.degree)
    (nodup : (node.blockId::cs.flatMap View.blocks).Nodup)
    (old : ∀ b ∈ node.blockId::cs.flatMap View.blocks, B b ∧ b < db.nusedBlocks) (new : ∀ b, db.nusedBlocks ≤ b → B b)
    (room : ks.length = db.degree → db.nusedBlocks < 5120) :
    ∃ db' v more, (if ks.length = db.degree then (db.splitInternal node).bind (fun r => some (r.1,.ok (some r.2)))
        else some (db,.ok none)) = some (db',promoted more) ∧
      Changes (Touched [node.blockId] db db') db db' ∧
      Grown db' m (h+1) lo hi node.blockId B (cs.flatMap View.entries) v more ∧
      more.isSome = decide (ks.length = db.degree) ∧ Cost (if ks.length = db.degree then 1 else 0) db db' := by
  by_cases full : ks.length = db.degree
  · have enough := room full
    obtain ⟨pre,k,post,rfl,half⟩ := exists_cut ks (n := db.degree/2) (by omega)
    have total := fenced.length
    obtain ⟨left,c,right,rfl,len⟩ := exists_cut cs (n := pre.length+1) (by simp at total; omega)
    simp only [length_append,length_cons] at total
    rw [map_append,map_cons] at holds
    obtain ⟨db',a,b,done,split,lower,upper,cost⟩ := holds.splitInternal (by simpa using len) (by rw [length_map]; omega)
      half full (old _ (by simp)).2 enough
    have degree := split.changes.degree
    have used := split.used
    -- neither of the two blocks belongs to a child
    have children : Fenced (Subtree db' m h) lo hi (pre++k::post) (left++c::right) := by
      refine fenced.imp fun lo hi x member tree => tree.frame split.changes (fun d inside => ?_)
      have below : d ∈ (left++c::right).flatMap View.blocks := mem_flatMap.mpr ⟨x,member,inside⟩
      rintro (rfl | rfl)
      · exact (nodup_cons.mp nodup).1 below
      · exact absurd (old _ (mem_cons_of_mem _ below)).2 (lt_irrefl _)
    rw [← degree] at lower upper
    have sum := full
    rw [length_append,length_cons] at sum
    have blocks : (internalView a left :: ((some (k,internalView b (c::right))).toList.map Prod.snd)).flatMap View.blocks =
        (node.blockId::left.flatMap View.blocks) ++ db.nusedBlocks::(c::right).flatMap View.blocks := by
      simp [internalView,split.blockLeft,split.blockRight]
    rw [flatMap_append] at nodup old
    refine ⟨db',internalView a left,some (k,internalView b (c::right)),?_,split.touched,?_,
      by simp [full],by rw [if_pos full]; exact cost⟩
    · rw [if_pos full,done]
      rfl
    · refine ⟨internal_pair children len sizes split.storedLeft lower split.storedRight upper ?_ ?_,split.blockLeft,
        by simp [internalView],?_,?_,?_⟩
      · rw [degree]
        omega
      · rw [degree]
        omega
      · rw [blocks,nodup_middle,nodup_cons]
        exact ⟨fun member => absurd (old _ member).2 (lt_irrefl _),nodup⟩
      · rw [blocks]
        intro d member
        rcases mem_append.mp member with early | late
        · obtain ⟨inside,less⟩ := old d (mem_append_left _ early)
          exact ⟨inside,by omega⟩
        rcases mem_cons.mp late with rfl | late
        · exact ⟨new _ le_rfl,by omega⟩
        · obtain ⟨inside,less⟩ := old d (mem_cons_of_mem _ (mem_append_right _ late))
          exact ⟨inside,by omega⟩
      · intro g same
        obtain rfl : (k,internalView b (c::right)) = g := by simpa using same
        exact sizes k (by simp)
  · refine ⟨db,internalView node cs,none,if_neg full,.refl _ db,⟨⟨node,ks,cs,rfl,stored,holds,fenced,sizes,by omega⟩,rfl,
      by simp [internalView],?_,?_,by simp⟩,by simp [full],by rw [if_neg full]; exact .refl db⟩
    · simpa [internalView] using nodup
    · simpa [internalView] using old

lemma compactions_note (node : Node) (mem : Mem) (after : Node) (mem' : Mem) (moved : Nat → Nat) (keyOut valOut : Option Nat) :
    (node.note mem after mem' moved keyOut valOut).compactions = mem'.compactions := by
  simp [Node.note,Mem.compactions,countP_append,Event.isCompact]

lemma Cost.save (tidy : db.Tidy → node.Tidy ∧ mem.compactions = db.mem.compactions) : Cost 0 db (db.save node mem) :=
  ⟨rfl,fun all => ⟨all.save mem (tidy all).1,(tidy all).2⟩⟩

lemma Node.Fits.free (fits : node.Fits i n) (tidy : node.Tidy) : node.unusedMemOffset+n ≤ blockSize := by
  simp only [Node.Fits,Node.Tidy] at fits tidy
  omega

lemma insertNew_tidy (room : Room (size key+size val) node mem)
    (tidy : node.Tidy) (done : node.insertNew mem i key val = some (node',mem')) :
    node'.Tidy ∧ mem'.compactions = mem.compactions := by
  simp only [Node.insertNew,bind_eq_bind,bind_eq_some_iff] at done
  obtain ⟨keyPtrArr,_,valPtrArr,_,⟨after,mem1,enough⟩,inserted,same⟩ := done
  cases same
  have room' : Room (size key+size val) { node with keyPtrArr, valPtrArr } mem := { room with }
  obtain ⟨appended,quiet⟩ := room'.insertKvInPos_history inserted
  exact ⟨appended.tidy tidy,by rw [compactions_note,Mem.compactions,quiet]; rfl⟩

lemma insertChild_tidy (room : Room (size key) node mem)
    (tidy : node.Tidy) (done : node.insertChild mem i key b = some (node',mem')) :
    node'.Tidy ∧ mem'.compactions = mem.compactions := by
  simp only [Node.insertChild,Node.setChildBlockId,bind_eq_bind,bind_eq_some_iff] at done
  obtain ⟨keyPtrArr,_,childNodeId,_,⟨after,mem1⟩,inserted,node1,⟨ptrs,_,placed⟩,same⟩ := done
  simp only [Option.pure_def,some.injEq,Prod.mk.injEq] at same placed
  obtain ⟨rfl,rfl⟩ := same
  subst placed
  have room' : Room (size key) { node with keyPtrArr, childNodeId } mem := { room with }
  obtain ⟨appended,quiet⟩ := room'.insertKeyInPos_history inserted
  exact ⟨appended.tidy tidy,by rw [compactions_note,Mem.compactions,quiet]; rfl⟩

/-- A leaf takes the entry, and is split when that fills it; a value for a key that is there may be refused. -/
lemma LeafNode.insertKVInLeaf (leaf : LeafNode db m lo hi node es) (key val : Bytes)
    (small : size val < 65536) (fits : ∀ i, node.seek db.mem (fun k => key ≤ k) 0 node.nkeys = some i →
      ¬ (i < node.nkeys ∧ node.getKey db.mem i = some key) → node.Fits i (size key+size val)) :
    db.insertKVInLeaf node key val = some (db,.error .notEnoughMemory) ∧ (∃ e ∈ es, e.1 = key) ∨
    ∃ node' mem', Leaf db.degree mem'.mmap node' (setEntry key val es) ∧ node'.blockId = node.blockId ∧
      Local node.blockId db.mem mem' ∧ (setEntry key val es).length ≤ es.length+1 ∧
      ((∃ e ∈ es, e.1 = key) → (setEntry key val es).length = es.length) ∧
      ((∀ e ∈ es, e.1 ≠ key) → (setEntry key val es).length = es.length+1 ∧ Cost 0 db (db.save node' mem')) ∧
      db.insertKVInLeaf node key val = if (setEntry key val es).length = db.degree then
          ((db.save node' mem').splitLeaf node').bind (fun r => some (r.1,.ok (some r.2)))
        else some (db.save node' mem',.ok none) := by
  have search : (fun k => decide (k = key) || decide (key < k)) = fun k => decide (key ≤ k) := by
    funext k
    simp [le_iff_eq_or_lt,eq_comm]
  obtain ⟨pre,post,rfl,sought,below,place⟩ := leaf.holds.seekKey key (fun k => decide (key ≤ k)) (by simp)
  rw [setEntry_append_left below]
  rcases place with ⟨found,w,rest,rfl⟩ | ⟨missing,above⟩
  · have present : ∃ e ∈ pre++(key,w)::rest, e.1 = key := ⟨(key,w),by simp,rfl⟩
    by_cases enough : node.unusedMemStart+node.actualMemRequired+size val ≤ blockSize
    · obtain ⟨node',mem',updated,holds,block,only⟩ := leaf.holds.updateVal enough
      have set : setEntry key val ((key,w)::rest) = (key,val)::rest := by simp [setEntry]
      have same : (pre++(key,val)::rest).length = (pre++(key,w)::rest).length := by simp
      rw [set]
      refine .inr ⟨node',mem',holds,block,only,by omega,fun _ => same,fun absent => absurd rfl (absent (key,w) (by simp)),?_⟩
      rw [if_neg (by rw [same]; exact leaf.room.ne)]
      simp only [DB.insertKVInLeaf,search,sought,some_bind,if_pos found,updated,if_true]
      rfl
    · refine .inl ⟨?_,present⟩
      have unchanged : db.save node db.mem = db := by
        simp only [DB.save,← leaf.stored,Function.update_eq_self]
      simp only [DB.insertKVInLeaf,search,sought,some_bind,if_pos found,
        leaf.holds.updateVal_refused small enough,unchanged]
      rfl
  · obtain ⟨node',mem',inserted,holds,block,only⟩ := leaf.holds.insertNew leaf.room (fits _ sought missing)
    rw [setEntry_of_head above]
    have count := holds.count
    refine .inr ⟨node',mem',holds,block,only,by simp; omega,?_,fun _ => ⟨by simp; omega,.save (fun tidy => ?_)⟩,?_⟩
    · rintro ⟨e,member,same⟩
      have kept := filter_ne_append leaf.sorted below above
      have other : e ∈ (pre++post).filter _ := kept.symm ▸ member
      exact absurd same (by simpa using (mem_filter.mp other).2)
    · have here := tidy _ _ leaf.stored
      exact insertNew_tidy (leaf.holds.body.room ((fits _ sought missing).free here)) here inserted
    · have degree : (db.save node' mem').degree = db.degree := rfl
      simp only [DB.insertKVInLeaf,search,sought,some_bind,if_neg missing,inserted,degree,← count]
      rfl

/-- What an insertion below a node does: the value of a key that is there may be refused, otherwise the entry is set; a new key
takes `n` splits, the last of them that of the node itself if `top`. -/
def Outcome (db : DB) (m h : Nat) (lo hi : Option Bytes) (v : View) (key val : Bytes) (n : Nat) (top : Bool) (db' : DB)
    (r : Except Err (Option (Bytes × Nat))) : Prop :=
  r = .error .notEnoughMemory ∧ db' = db ∧ (∃ e ∈ v.entries, e.1 = key) ∨
  ∃ v' more, r = promoted more ∧ Changes (fun b => b ∈ v.blocks ∨ db.nusedBlocks ≤ b) db db' ∧
    Grown db' m h lo hi v.id (fun b => b ∈ v.blocks ∨ db.nusedBlocks ≤ b) (setEntry key val v.entries) v' more ∧
    (more.isSome = true → v.node.nkeys+1 = db.degree) ∧ ((∃ e ∈ v.entries, e.1 = key) → more = none) ∧
    ((∀ e ∈ v.entries, e.1 ≠ key) → more.isSome = top ∧ Cost n db db')

lemma LeafNode.outcome (large : 2 ≤ db.degree)
    (leaf : LeafNode db m lo hi node es) (inside : Within lo hi key) (old : node.blockId < db.nusedBlocks)
    (short : size key ≤ m) (small : size val < 65536)
    (fits : ∀ i, node.seek db.mem (fun k => key ≤ k) 0 node.nkeys = some i → i < node.nkeys ∧ node.getKey db.mem i = some key ∨
      node.Fits i (size key+size val))
    (needs : (if node.nkeys+1 = db.degree then (1,true) else (0,false)) = (n,top))
    (room : (∀ e ∈ es, e.1 ≠ key) → db.nusedBlocks+n ≤ 5120) :
    ∃ db' r, db.insertKVInLeaf node key val = some (db',r) ∧
      Outcome db m 0 lo hi (leafView node es) key val n top db' r ∧ Changes (Touched [node.blockId] db db') db db' := by
  rcases leaf.insertKVInLeaf key val small (fun i sought missing => (fits i sought).resolve_left missing) with
    ⟨refused,present⟩ | ⟨node',mem',holds,block,only,more,same,added,result⟩
  · exact ⟨db,_,refused,.inl ⟨rfl,rfl,present⟩,.refl _ db⟩
  have within : ∀ e ∈ setEntry key val es, Within lo hi e.1 := by
    intro e member
    rcases mem_setEntry member with rfl | before
    · exact inside
    · exact leaf.within e before
  have sizes : ∀ e ∈ setEntry key val es, size e.1 ≤ m := by
    intro e member
    rcases mem_setEntry member with rfl | before
    · exact short
    · exact leaf.sizes e before
  have few := leaf.room
  have count : node.nkeys = es.length := leaf.holds.count
  have absent : (setEntry key val es).length = db.degree → ∀ e ∈ es, e.1 ≠ key := by
    intro full e member equal
    have kept := same ⟨e,member,equal⟩
    omega
  have blocks : (setEntry key val es).length = db.degree → db.nusedBlocks < 5120 := by
    intro full
    have new := absent full
    have last : node.nkeys+1 = db.degree := by
      have grown := (added new).1
      omega
    rw [if_pos last,Prod.mk.injEq] at needs
    have enough := room new
    omega
  have saved := Changes.touched_save block only
  obtain ⟨db',v,more',split,changes,grown,full,cost⟩ := leaf_grown
    (B := fun b => b ∈ (leafView node es).blocks ∨ db.nusedBlocks ≤ b)
    (show 2 ≤ (db.save node' mem').degree from large) (blocks_save db node' mem') holds
    (setEntry_sorted leaf.sorted) within sizes (show _ ≤ db.degree by omega)
    ⟨by simp [leafView,block],by rw [block]; exact old⟩ (fun b new => .inr new) blocks
  have degree : (db.save node' mem').degree = db.degree := rfl
  rw [block] at grown changes
  rw [degree] at full cost
  have touched : Changes (Touched [node.blockId] db db') db db' :=
    (saved.touched_trans changes).mono (fun b => Or.imp_left (by simp))
  refine ⟨db',_,result.trans split,.inr ⟨v,more',rfl,touched.mono (fun b => Or.imp id And.left),grown,fun some_ => ?_,
    fun present => ?_,fun new => ?_⟩,touched⟩
  · have filled : (setEntry key val es).length = db.degree := by simpa [some_] using full
    have grew := (added (absent filled)).1
    change node.nkeys+1 = db.degree
    omega
  · have kept := same present
    rw [decide_eq_false (by omega)] at full
    simpa using full
  · obtain ⟨grew,before⟩ := added new
    have whole := before.trans cost
    rw [Nat.zero_add] at whole
    rw [grew,← count] at full whole
    by_cases last : node.nkeys+1 = db.degree
    · rw [if_pos last,Prod.mk.injEq] at needs
      rw [if_pos last] at whole
      exact ⟨by rw [full,← needs.2]; exact decide_eq_true last,needs.1 ▸ whole⟩
    · rw [if_neg last,Prod.mk.injEq] at needs
      rw [if_neg last] at whole
      exact ⟨by rw [full,← needs.2]; exact decide_eq_false last,needs.1 ▸ whole⟩

lemma Row.replaceChild
    (row : Row db m (Subtree db m h) lo hi node (pre++post) (cs1++c::cs2))
    (nodup : (internalView node (cs1++c::cs2)).blocks.Nodup)
    (old : ∀ b ∈ (internalView node (cs1++c::cs2)).blocks, b < db.nusedBlocks)
    (replace : Replaces db m h lo hi pre post cs1 cs2 lo' hi')
    (changes : Changes (fun b => b ∈ c.blocks ∨ db.nusedBlocks ≤ b) db db')
    (grown : Grown db' m h lo' hi' c.id (fun b => b ∈ c.blocks ∨ db.nusedBlocks ≤ b) es c' more) :
    db'.blocks node.blockId = some node ∧
    Internal db'.degree db'.mem.mmap node (pre++post) ((cs1++c::cs2).map View.id) ∧
    Fenced (Subtree db' m h) lo hi (pre++(more.toList.map Prod.fst ++ post))
      (cs1++(c'::more.toList.map Prod.snd ++ cs2)) ∧
    (node.blockId::(cs1++(c'::more.toList.map Prod.snd ++ cs2)).flatMap View.blocks).Nodup ∧
    ∀ b ∈ node.blockId::(cs1++(c'::more.toList.map Prod.snd ++ cs2)).flatMap View.blocks,
      (b ∈ (internalView node (cs1++c::cs2)).blocks ∨ db.nusedBlocks ≤ b) ∧ b < db'.nusedBlocks := by
  have used := changes.used
  have all : (internalView node (cs1++c::cs2)).blocks =
      (node.blockId::cs1.flatMap View.blocks) ++ (c.blocks++cs2.flatMap View.blocks) := by simp [internalView]
  rw [all] at nodup old
  -- the blocks of the child are its own
  have apart : ∀ b ∈ (node.blockId::cs1.flatMap View.blocks)++cs2.flatMap View.blocks,
      ¬ (b ∈ c.blocks ∨ db.nusedBlocks ≤ b) := by
    obtain ⟨_,⟨_,_,between⟩,across⟩ := by simpa only [nodup_append] using nodup
    rintro b member (child | new)
    · rcases mem_append.mp member with before | behind
      · exact across b before b (mem_append_left _ child) rfl
      · exact between b child b behind rfl
    · rcases mem_append.mp member with before | behind
      · exact absurd (old b (mem_append_left _ before)) new.not_gt
      · exact absurd (old b (mem_append_right _ (mem_append_right _ behind))) new.not_gt
  have here := apart node.blockId (by simp)
  have whole : node.blockId::(cs1++(c'::more.toList.map Prod.snd ++ cs2)).flatMap View.blocks =
      (node.blockId::cs1.flatMap View.blocks) ++ ((c'::more.toList.map Prod.snd).flatMap View.blocks ++
        cs2.flatMap View.blocks) := by simp
  rw [whole,all]
  refine ⟨(changes.blocks _ here).trans row.stored,?_,replace _ _ _ (fun lo hi x member tree => ?_) grown.fenced,
    BlockTrees.nodup_replace nodup grown.nodup (fun b member => (grown.blocks b member).1) (fun b member => ?_),fun b member => ?_⟩
  · rw [changes.degree]
    exact row.holds.frame (changes.bytes _ here)
  · refine tree.frame changes fun b inside => apart b ?_
    rcases mem_append.mp member with before | behind
    · exact mem_append_left _ (mem_cons_of_mem _ (mem_flatMap.mpr ⟨x,before,inside⟩))
    · exact mem_append_right _ (mem_flatMap.mpr ⟨x,behind,inside⟩)
  · exact fun new => apart b member (.inr new)
  · rcases mem_append.mp member with before | rest
    · exact ⟨.inl (mem_append_left _ before),(old b (mem_append_left _ before)).trans_le used⟩
    rcases mem_append.mp rest with middle | behind
    · obtain ⟨origin,less⟩ := grown.blocks b middle
      exact ⟨origin.imp_left (fun child => mem_append_right _ (mem_append_left _ child)),less⟩
    · have last := mem_append_right (node.blockId::cs1.flatMap View.blocks) (mem_append_right c.blocks behind)
      exact ⟨.inl last,(old b last).trans_le used⟩

/-- A child was split: its new sibling gets a place, which may fill the node in turn. -/
lemma Internal.newChild (large : 2 ≤ db.degree)
    (holds : Internal db.degree db.mem.mmap node (pre++post) ((cs1++c::cs2).map View.id))
    (len : cs1.length = pre.length) (fenced : Fenced (Subtree db m h) lo hi (pre++k::post) (cs1++c'::r::cs2))
    (same : c'.id = c.id) (sizes : ∀ x ∈ pre++k::post, size x ≤ m) (few : (pre++post).length < db.degree)
    (fits : node.Fits pre.length (size k)) (nodup : (node.blockId::(cs1++c'::r::cs2).flatMap View.blocks).Nodup)
    (old : ∀ b ∈ node.blockId::(cs1++c'::r::cs2).flatMap View.blocks, B b ∧ b < db.nusedBlocks)
    (new : ∀ b, db.nusedBlocks ≤ b → B b) (room : (pre++post).length+1 = db.degree → db.nusedBlocks < 5120) :
    ∃ node' mem' db' v more, node.insertChild db.mem pre.length k r.id = some (node',mem') ∧
      (if node'.nkeys = db.degree then ((db.save node' mem').splitInternal node').bind (fun r => some (r.1,.ok (some r.2)))
        else some (db.save node' mem',.ok none)) = some (db',promoted more) ∧
      Changes (Touched [node.blockId] db db') db db' ∧
      Grown db' m (h+1) lo hi node.blockId B ((cs1++c'::r::cs2).flatMap View.entries) v more ∧
      more.isSome = decide ((pre++post).length+1 = db.degree) ∧
      (db.blocks node.blockId = some node → Cost (if (pre++post).length+1 = db.degree then 1 else 0) db db') := by
  have total := fenced.length
  simp only [length_append,length_cons] at total few
  have split : (cs1++c::cs2).map View.id = (cs1++[c]).map View.id ++ cs2.map View.id := by simp
  rw [split] at holds
  obtain ⟨node',mem',inserted,holds',block,only⟩ := holds.insertChild k r.id (by simp [len])
    (by rw [length_map]; omega) (by simpa using few) fits
  have ids : (cs1++[c]).map View.id ++ r.id::cs2.map View.id = (cs1++c'::r::cs2).map View.id := by simp [same]
  rw [ids] at holds'
  have saved : Changes (· = node'.blockId) db (db.save node' mem') := Changes.save (block.symm ▸ only)
  have here := Changes.touched_save block only
  rw [← block] at nodup old
  have children : Fenced (Subtree (db.save node' mem') m h) lo hi (pre++k::post) (cs1++c'::r::cs2) := by
    refine fenced.imp fun lo hi x member tree => tree.frame saved (fun d inside => ?_)
    rintro rfl
    exact (nodup_cons.mp nodup).1 (mem_flatMap.mpr ⟨x,member,inside⟩)
  have length : (pre++k::post).length = (pre++post).length+1 := by simp; omega
  obtain ⟨db',v,more,result,changes,grown,full,cost⟩ := internal_grown (B := B)
    (show 2 ≤ (db.save node' mem').degree from large) (blocks_save db node' mem') holds' children sizes
    (show _ ≤ db.degree by simp; omega) nodup old new (fun filled => room (length.symm.trans filled))
  rw [block] at changes grown
  rw [length] at full cost
  refine ⟨node',mem',db',v,more,inserted,?_,(here.touched_trans changes).mono (fun b => Or.imp_left (by simp)),grown,full,
    fun stored => ?_⟩
  · rwa [holds'.count]
  · have before : Cost 0 db (db.save node' mem') := .save (fun tidy =>
      insertChild_tidy (holds.body.room (fits.free (tidy _ _ stored))) (tidy _ _ stored) inserted)
    have whole := before.trans cost
    rwa [Nat.zero_add] at whole

lemma Subtree.outcome (large : 2 ≤ db.degree) (tree : Subtree db m h lo hi v)
    (inside : Within lo hi key) (nodup : v.blocks.Nodup) (old : ∀ b ∈ v.blocks, b < db.nusedBlocks)
    (short : size key ≤ m) (small : size val < 65536) (enough : h < fuel)
    (fits : db.roomFits m fuel v.id key val = some true) (needs : db.splitsOnPath fuel v.id key = some (n,top))
    (blocks : (∀ e ∈ v.entries, e.1 ≠ key) → db.nusedBlocks+n ≤ 5120) :
    ∃ db' r path, db.insert fuel v.id key val = some (db',r) ∧ Outcome db m h lo hi v key val n top db' r ∧
      db.searchPath fuel v.id key = some path ∧ Changes (Touched path db db') db db' := by
  induction h generalizing lo hi v fuel n top with
  | zero =>
    obtain _ | fuel := fuel
    · omega
    obtain ⟨node,es,rfl,leaf⟩ := tree
    obtain ⟨pre,post,_,sought,_⟩ := leaf.holds.seekKey key (fun k => decide (key ≤ k)) (by simp)
    simp only [DB.roomFits,DB.splitsOnPath,leaf.load,leaf.holds.leaf,sought,some_bind,if_true,Option.pure_def,
      some.injEq,decide_eq_true_eq] at fits needs
    simp only [DB.insert,DB.searchPath,leaf.load,leaf.holds.leaf,some_bind,if_true]
    obtain ⟨db',r,done,outcome,touched⟩ := leaf.outcome large inside (old _ (by simp [leafView])) short small (fun i found => by
      obtain rfl : pre.length = i := some.inj (sought.symm.trans found)
      exact fits) needs blocks
    exact ⟨db',r,_,done,outcome,rfl,touched⟩
  | succ h ih =>
    obtain _ | fuel := fuel
    · omega
    obtain ⟨node,ks,cs,rfl,row⟩ := tree
    obtain ⟨pre,post,cs1,c,cs2,rfl,rfl,descent⟩ := row.descend inside
    obtain ⟨lo',hi',child,room,replace⟩ := descent.bounds
    have childBlocks : ∀ b ∈ c.blocks, b ∈ (internalView node (cs1++c::cs2)).blocks := by
      intro b member
      simp [internalView,member]
    simp only [DB.roomFits,DB.splitsOnPath,row.load,row.holds.internal,if_ff,descent.index,descent.read,child.load,
      some_bind] at fits needs
    obtain ⟨rest,below,fits⟩ := bind_eq_some_iff.mp fits
    simp only [Option.pure_def,some.injEq,Bool.and_eq_true,decide_eq_true_eq] at fits
    obtain ⟨fits,rfl⟩ := fits
    obtain ⟨⟨n1,top1⟩,needs1,needs⟩ := bind_eq_some_iff.mp needs
    simp only [Option.pure_def,some.injEq] at needs
    have count : node.nkeys = (pre++post).length := row.holds.count
    have absent : (∀ e ∈ c.entries, e.1 ≠ key) → ∀ e ∈ (internalView node (cs1++c::cs2)).entries, e.1 ≠ key := by
      intro new e member
      simp only [internalView,flatMap_append,flatMap_cons,mem_append] at member
      rcases member with before | here | behind
      · exact ne_of_lt (descent.below e before)
      · exact new e here
      · exact ne_of_gt (descent.above e behind)
    have childEntries : ∀ e ∈ c.entries, e ∈ (internalView node (cs1++c::cs2)).entries := by
      intro e member
      simp [internalView,member]
    have fewer : n1 ≤ n := by
      split at needs <;> simp only [Prod.mk.injEq] at needs <;> omega
    have nodupChild : c.blocks.Nodup := by
      have parts := nodup
      simp only [internalView,flatMap_append,flatMap_cons,nodup_cons,nodup_append] at parts
      exact parts.2.2.1.1
    obtain ⟨db1,r,path,done,inserted,searched,touched⟩ := ih child room nodupChild (fun b member => old b (childBlocks b member))
      (by omega : h < fuel) below needs1 (fun new => (Nat.add_le_add_left fewer _).trans (blocks (absent new)))
    have sought : db.searchPath (fuel+1) (internalView node (cs1++c::cs2)).id key = some (node.blockId::path) := by
      simp only [DB.searchPath,row.load,row.holds.internal,if_ff,descent.index,descent.read,searched,
        some_bind]
      rfl
    have touched1 : Changes (Touched (node.blockId::path) db db1) db db1 :=
      touched.mono (fun b => Or.imp_left (mem_cons_of_mem _))
    simp only [DB.insert,row.load,row.holds.internal,if_ff,descent.index,descent.read,done,some_bind]
    rcases inserted with ⟨rfl,rfl,e,member,same⟩ | ⟨c',more,rfl,changes,grown,full,kept,cost⟩
    · exact ⟨db1,_,_,rfl,.inl ⟨rfl,rfl,e,childEntries e member,same⟩,sought,touched1⟩
    obtain ⟨stored1,holds1,fenced1,nodup1,old1⟩ := row.replaceChild nodup old replace changes grown
    have wider : Changes (fun b => b ∈ (internalView node (cs1++c::cs2)).blocks ∨ db.nusedBlocks ≤ b) db db1 :=
      changes.mono (fun b => Or.imp_left (childBlocks b))
    have entries : (cs1++(c'::more.toList.map Prod.snd ++ cs2)).flatMap View.entries =
        setEntry key val ((cs1++c::cs2).flatMap View.entries) := by
      rw [flatMap_append,flatMap_append,grown.entries,flatMap_append,flatMap_cons,
        setEntry_append_left descent.below,setEntry_append_right _ descent.above]
    cases more with
    | none =>
      have ids : (cs1++c'::cs2).map View.id = (cs1++c::cs2).map View.id := by simp [grown.id]
      have room := row.room
      refine ⟨db1,_,_,rfl,.inr ⟨internalView node (cs1++c'::cs2),none,rfl,wider,⟨?_,rfl,by simpa [internalView] using entries,
        by simpa [internalView] using nodup1,by simpa [internalView] using old1,by simp⟩,by simp,fun _ => rfl,fun new => ?_⟩,
        sought,touched1⟩
      · exact ⟨node,pre++post,_,rfl,stored1,by rw [ids]; exact holds1,by simpa using fenced1,row.sizes,
          by rw [changes.degree]; exact room⟩
      · obtain ⟨top1,cost⟩ := cost (fun e member => new e (childEntries e member))
        rw [if_neg (by simp [← top1]),Prod.mk.injEq] at needs
        exact ⟨needs.2,needs.1 ▸ cost⟩
    | some g =>
      obtain ⟨k,r⟩ := g
      have filled := full rfl
      have new : ∀ e ∈ c.entries, e.1 ≠ key := fun e member same => some_ne_none _ (kept ⟨e,member,same⟩)
      obtain ⟨rfl,cost1⟩ := cost new
      have enough := blocks (absent new)
      have used := cost1.used
      have short := grown.sizes (k,r) rfl
      have sizes : ∀ x ∈ pre++k::post, size x ≤ m := by
        obtain ⟨before,behind⟩ := forall_mem_append.mp row.sizes
        exact forall_mem_append.mpr ⟨before,forall_mem_cons.mpr ⟨short,behind⟩⟩
      obtain ⟨node',mem',db2,v',more',inserted,result,changes2,grown2,full2,cost2⟩ := holds1.newChild
        (B := fun b => b ∈ (internalView node (cs1++c::cs2)).blocks ∨ db.nusedBlocks ≤ b)
        (by rw [changes.degree]; exact large) descent.len (by simpa using fenced1) grown.id sizes
        (by rw [changes.degree]; exact row.room) ((fits filled).less short) (by simpa using nodup1) (by simpa using old1)
        (fun b new => .inr (changes.used.trans new)) (fun last => by
          rw [changes.degree,← count] at last
          rw [if_pos ⟨rfl,last⟩,Prod.mk.injEq] at needs
          omega)
      have whole : (cs1++c'::r::cs2).flatMap View.entries =
          setEntry key val (internalView node (cs1++c::cs2)).entries := by simpa [internalView] using entries
      rw [changes.degree,← count] at full2 cost2
      refine ⟨db2,_,_,?_,.inr ⟨v',more',rfl,wider.trans (changes2.mono ?_),whole ▸ grown2,fun more => ?_,fun present => ?_,
        fun _ => ?_⟩,sought,touched.touched_trans changes2⟩
      · have load1 : db1.loadNode (internalView node (cs1++c::cs2)).id = some node := stored1
        simp only [promoted,map_some,load1,inserted,some_bind]
        exact result
      · rintro b (here | new)
        · exact .inl (by simp [internalView,mem_singleton.mp here])
        · exact .inr (changes.used.trans new.1)
      · rw [full2] at more
        exact of_decide_eq_true more
      · obtain ⟨e,member,same⟩ := present
        exact absurd same (absent new e member)
      · have whole := cost1.trans (cost2 stored1)
        by_cases last : node.nkeys+1 = db.degree
        · rw [if_pos ⟨rfl,last⟩,Prod.mk.injEq] at needs
          rw [if_pos last] at whole
          exact ⟨by rw [full2,← needs.2]; exact decide_eq_true last,needs.1 ▸ whole⟩
        · rw [if_neg (fun both => last both.2),Prod.mk.injEq] at needs
          rw [if_neg last] at whole
          exact ⟨by rw [full2,← needs.2]; exact decide_eq_false last,needs.1 ▸ whole⟩

lemma Subtree.splitsOnPath_le (tree : Subtree db m h lo hi v) (inside : Within lo hi key)
    (enough : h < fuel) : ∃ n top, db.splitsOnPath fuel v.id key = some (n,top) ∧ n ≤ h+1 := by
  induction h generalizing lo hi v fuel with
  | zero =>
    obtain _ | fuel := fuel
    · omega
    obtain ⟨node,es,rfl,leaf⟩ := tree
    simp only [DB.splitsOnPath,leaf.load,leaf.holds.leaf,some_bind,if_true,Option.pure_def]
    split
    · exact ⟨1,true,rfl,le_rfl⟩
    · exact ⟨0,false,rfl,by omega⟩
  | succ h ih =>
    obtain _ | fuel := fuel
    · omega
    obtain ⟨node,ks,cs,rfl,row⟩ := tree
    obtain ⟨pre,post,cs1,c,cs2,rfl,rfl,descent⟩ := row.descend inside
    obtain ⟨lo',hi',child,room,_⟩ := descent.bounds
    obtain ⟨n,top,below,bound⟩ := ih child room (by omega : h < fuel)
    simp only [DB.splitsOnPath,row.load,row.holds.internal,if_ff,descent.index,descent.read,below,
      some_bind,Option.pure_def]
    split
    · exact ⟨n+1,true,rfl,by omega⟩
    · exact ⟨n,false,rfl,by omega⟩

lemma Subtree.insertFits (tree : Subtree db m h lo hi v) (inside : Within lo hi key)
    (enough : h < fuel) (fits : db.insertFits m fuel v.id above key val = some true) :
    db.roomFits m fuel v.id key val = some true ∧
      ((∀ e ∈ v.entries, e.1 ≠ key) → db.nusedBlocks+above+(h+1) ≤ 5120) := by
  induction h generalizing lo hi v fuel above with
  | zero =>
    obtain _ | fuel := fuel
    · omega
    obtain ⟨node,es,rfl,leaf⟩ := tree
    obtain ⟨pre,post,rfl,sought,_,place⟩ := leaf.holds.seekKey key (fun k => decide (key ≤ k)) (by simp)
    simp only [DB.insertFits,DB.roomFits,leaf.load,leaf.holds.leaf,sought,some_bind,if_true,
      Option.pure_def,some.injEq,decide_eq_true_eq] at fits ⊢
    refine ⟨fits.imp_right And.left,fun absent => ?_⟩
    rcases place with ⟨_,w,rest,rfl⟩ | ⟨missing,_⟩
    · exact absurd rfl (absent (key,w) (by simp [leafView]))
    · exact (fits.resolve_left missing).2
  | succ h ih =>
    obtain _ | fuel := fuel
    · omega
    obtain ⟨node,ks,cs,rfl,row⟩ := tree
    obtain ⟨pre,post,cs1,c,cs2,rfl,rfl,descent⟩ := row.descend inside
    obtain ⟨lo',hi',child,room,_⟩ := descent.bounds
    simp only [DB.insertFits,row.load,row.holds.internal,if_ff,descent.index,descent.read,child.load,
      some_bind] at fits
    obtain ⟨rest,below,fits⟩ := bind_eq_some_iff.mp fits
    simp only [Option.pure_def,some.injEq,Bool.and_eq_true,decide_eq_true_eq] at fits
    obtain ⟨fits,rfl⟩ := fits
    obtain ⟨rooms,blocks⟩ := ih child room (by omega : h < fuel) below
    refine ⟨?_,fun absent => ?_⟩
    · simpa only [DB.roomFits,row.load,row.holds.internal,if_ff,descent.index,descent.read,child.load,rooms,
        some_bind,Option.pure_def,some.injEq,Bool.and_true,decide_eq_true_eq] using fits
    · have left := blocks (fun e member => absent e (by simp [internalView,member]))
      omega

end
end CodeExercise.BTreeMmap
