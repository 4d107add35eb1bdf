import CodeExercise.BTreeMmapInsert

/-!
Deletion keeps the shape of a subtree, when some key of the leaf is not below the one to delete and a
child that may lose too many keys finds room in its parent and siblings (`DB.deleteFits`).
-/
namespace CodeExercise.BTreeMmap
open Slices Files SortedMaps Fences List Option

/-- The node `a`, which may lose a key, can exchange keys with its sibling `b` or merge
with it: each has unused memory for what the other holds, with two keys of `m` bytes
to spare. The last condition holds for every odd degree. -/
def Node.Joins (m degree : Nat) (a b : Node) : Prop :=
  a.unusedMemOffset+b.actualMemRequired+2*m ≤ blockSize ∧ b.unusedMemOffset+a.actualMemRequired+2*m ≤ blockSize ∧
  (a.isLeaf = false → b.nkeys ≤ degree/2 → min a.nkeys (degree/2-1)+b.nkeys+1 < degree)
deriving Decidable

/-- The children next to the one at `i`. -/
def DB.siblings (db : DB) (node : Node) (i : Nat) : List Node :=
  (if i+1 ≤ node.nkeys then db.child node (i+1) else none).toList ++
    (if 0 < i then db.child node (i-1) else none).toList

/-- Some key of the leaf is not below the key, and the parent of a child that may lose
too many keys can replace a key of `m` bytes and has children that can exchange keys. -/
def DB.deleteFits (m : Nat) : Nat → DB → Nat → Bytes → Option Bool
  | 0,_,_,_ => none
  | fuel+1,db,blockId,key => do
    let node ← db.loadNode blockId
    if node.isLeaf then
      let i ← node.seek db.mem (fun k => key ≤ k) 0 node.nkeys
      return decide (i < node.nkeys)
    else
      let i ← node.seek db.mem (fun k => key < k) 0 node.nkeys
      let childBlockId ← node.getChildBlockId i
      let childNode ← db.loadNode childBlockId
      let rest ← db.deleteFits m fuel childBlockId key
      return decide (childNode.nkeys ≤ db.degree/2 → node.unusedMemStart+node.actualMemRequired+m ≤ blockSize ∧
        ∀ sibling ∈ db.siblings node i, childNode.Joins m db.degree sibling) && rest

section
variable {db : DB} {m h : Nat} {lo hi : Option Bytes} {a b : View} {k : Bytes}

lemma pair_ordered (pair : Fenced (Subtree db m h) lo hi [k] [a,b]) :
    Sorted (a.entries++b.entries) ∧ ∀ e ∈ a.entries++b.entries, Within lo hi e.1 := by
  have contents := pair.contents (f := View.entries) (fun _ _ _ tree => tree.ordered)
  simpa [Sorted] using contents

/-- Two neighbours with the same content as before. -/
structure Evened (db : DB) (m h : Nat) (lo hi : Option Bytes) (a b : View) (k : Bytes) (a' b' : View) : Prop where
  fenced : Fenced (Subtree db m h) lo hi [k] [a',b']
  short : size k ≤ m
  left : a'.id = a.id
  right : b'.id = b.id
  entries : a'.entries++b'.entries = a.entries++b.entries
  blocks : (a'.blocks++b'.blocks).Perm (a.blocks++b.blocks)

lemma children_apart
    (nodup : ((internalView n cs).blocks++(internalView r ds).blocks).Nodup) (mem : x ∈ cs++ds)
    (inside : c ∈ x.blocks) : ¬ (c = n.blockId ∨ c = r.blockId) := by
  have all : c ∈ cs.flatMap View.blocks ∨ c ∈ ds.flatMap View.blocks := by
    rw [← mem_append,← flatMap_append]
    exact mem_flatMap.mpr ⟨x,mem,inside⟩
  simp only [internalView,cons_append,nodup_cons,nodup_middle,mem_append,mem_cons,not_or] at nodup
  rintro (rfl | rfl)
  · exact all.elim nodup.1.1 nodup.1.2.2
  · exact all.elim nodup.2.1.1 nodup.2.1.2

/-- A node and its neighbour are saved, and only the second one has other bytes. -/
lemma Changes.savePair {n n' r r' : Node} {mem' : Mem} (only : Local r.blockId db.mem mem') (block : r'.blockId = r.blockId)
    (block' : n'.blockId = n.blockId) :
    Changes (fun c => c = n.blockId ∨ c = r.blockId) db ((db.save n' mem').save r' mem') := by
  refine (Changes.saveTwo db n' r' (fun c _ second => only.sameBlock (block ▸ second)) only.kept).mono ?_
  rintro c (rfl | rfl)
  · exact .inl block'
  · exact .inr block

section
variable (pair : Fenced (Subtree db m h) lo hi [k] [a,b])
include pair

lemma pair_stealFromRight (short : size k ≤ m)
    (nodup : (a.blocks++b.blocks).Nodup) (few : a.node.nkeys < db.degree/2) (spare : db.degree/2 < b.node.nkeys)
    (free : a.node.unusedMemOffset+b.node.actualMemRequired+m ≤ blockSize) :
    ∃ db' a' b' k', db.stealFromRight a.node b.node k = some (db',k') ∧ Evened db' m h lo hi a b k' a' b' ∧
      Changes (fun c => c = a.id ∨ c = b.id) db db' := by
  cases h with
  | zero =>
    obtain ⟨sorted,within⟩ := pair_ordered pair
    obtain ⟨⟨n,es,rfl,left⟩,_,r,fs,rfl,right⟩ := pair
    have count : r.nkeys = fs.length := right.holds.count
    have count' : n.nkeys = es.length := left.holds.count
    simp only [leafView] at few spare free
    rcases fs with _ | ⟨e,_ | ⟨first,post⟩⟩
    · simp at count
      omega
    · simp at count
      omega
    have other : r.blockId ≠ n.blockId := by
      rintro same
      simp [leafView,same] at nodup
    have size := right.room
    have need := right.holds.body.actual
    simp only [map_cons,total_cons,length_cons] at need size
    obtain ⟨r',removed,taken,block',offset⟩ := right.holds.removeMinKeyVal
    obtain ⟨n',mem',appended,given,block,only⟩ := left.holds.appendMaxKeyVal e.1 e.2 left.room (by omega)
    have taken' : Leaf db.degree mem'.mmap r' ([]++(first.1,first.2)::post) :=
      taken.frame (only.sameBlock (block'.symm ▸ other))
    have next : r'.getKey mem' 0 = some first.1 := taken'.get.1
    have cut : es++e::first::post = (es++[e])++first::post := by simp
    rw [show (leafView n es).entries ++ (leafView r (e::first::post)).entries = (es++[e])++first::post
      from cut] at sorted within
    have sizes : ∀ x ∈ (es++[e])++first::post, BTreeMmap.size x.1 ≤ m :=
      cut ▸ forall_mem_append.mpr ⟨left.sizes,right.sizes⟩
    have apart : r'.blockId ≠ n'.blockId := by
      rwa [block,block']
    refine ⟨(db.save r' mem').save n' mem',leafView n' (es++[e]),leafView r' (first::post),first.1,?_,
      ⟨leaf_pair sorted within sizes (blocks_save _ _ _) given (blocks_saveTwo db mem' mem' apart) taken' ?_ ?_,
        sizes first (by simp),block,block',cut.symm,?_⟩,?_⟩
    · simp only [leafView,DB.stealFromRight,right.holds.leaf,if_true,removed,appended,next,
        some_bind]
      rfl
    · show _ < db.degree
      rw [length_append,length_singleton]
      omega
    · show _ < db.degree
      rw [length_cons]
      omega
    · simp [leafView,block,block']
    · exact (Changes.savePair only block block').mono fun c => Or.symm
  | succ h =>
    obtain ⟨⟨n,ks,cs,rfl,left⟩,sep,r,rs,ds,rfl,right⟩ := pair
    have count : r.nkeys = rs.length := right.holds.count
    have count' : n.nkeys = ks.length := left.holds.count
    have len := left.fenced.length
    have len' := right.fenced.length
    simp only [internalView] at few spare free
    obtain ⟨k',rs,rfl⟩ : ∃ k' rest, rs = k'::rest := exists_cons_of_ne_nil (fun none => by simp [none] at count; omega)
    obtain ⟨c,ds,rfl⟩ : ∃ c rest, ds = c::rest := exists_cons_of_ne_nil (fun none => by simp [none] at len')
    have room := left.room
    have room' := right.room
    simp only [length_cons] at len' room'
    have other : r.blockId ≠ n.blockId := by
      rintro same
      simp [internalView,same] at nodup
    have held := right.holds
    rw [map_cons] at held
    obtain ⟨r',removed,taken,block',offset⟩ := held.removeMinKeyAndBlockId (by rw [length_map]; omega)
    obtain ⟨n',mem',appended,given,block,only⟩ := left.holds.appendMaxKeyAndBlockId
      (by rw [length_map]; omega) k c.id left.room (by omega)
    have taken' := taken.frame (only.sameBlock (block'.symm ▸ other))
    have given' : Internal db.degree mem'.mmap n' (ks++[k]) ((cs++[c]).map View.id) := by simpa using given
    have apart : r'.blockId ≠ n'.blockId := by
      rwa [block,block']
    have changes := (Changes.savePair only block block').mono (fun c => Or.symm)
    have whole : Fenced (Subtree db m h) lo hi (ks++k::k'::rs) (cs++c::ds) :=
      (fenced_append len).mpr ⟨left.fenced,sep,right.fenced⟩
    -- the children have blocks of their own
    have children : Fenced (Subtree ((db.save r' mem').save n' mem') m h) lo hi ((ks++[k])++k'::rs)
        ((cs++[c])++ds) := by
      rw [append_assoc,append_assoc]
      exact whole.imp fun lo hi x mem tree => tree.frame changes (fun b => children_apart nodup mem)
    have sizes : ∀ x ∈ (ks++[k])++k'::rs, size x ≤ m := by
      rw [← append_cons]
      exact forall_mem_append.mpr ⟨left.sizes,forall_mem_cons.mpr ⟨short,right.sizes⟩⟩
    refine ⟨_,internalView n' (cs++[c]),internalView r' ds,k',?_,⟨internal_pair children (by simp [len]) sizes
      (blocks_save _ _ _) given' (blocks_saveTwo db mem' mem' apart) taken' ?_ ?_,right.sizes k' (by simp),block,
      block',by simp [internalView],?_⟩,changes⟩
    · simp only [internalView,DB.stealFromRight,right.holds.internal,if_ff,removed,appended,
        some_bind]
      rfl
    · show _ < db.degree
      rw [length_append,length_singleton]
      omega
    · show _ < db.degree
      omega
    · simp only [internalView,block,block',flatMap_append,flatMap_cons,flatMap_nil,append_nil,
        cons_append,append_assoc]
      exact ((perm_middle).append_left _).cons _

lemma pair_stealFromLeft (short : size k ≤ m)
    (nodup : (a.blocks++b.blocks).Nodup) (few : b.node.nkeys < db.degree/2) (spare : db.degree/2 < a.node.nkeys)
    (free : b.node.unusedMemOffset+a.node.actualMemRequired+m ≤ blockSize) :
    ∃ db' a' b' k', db.stealFromLeft b.node a.node k = some (db',k') ∧ Evened db' m h lo hi a b k' a' b' ∧
      Changes (fun c => c = a.id ∨ c = b.id) db db' := by
  cases h with
  | zero =>
    obtain ⟨sorted,within⟩ := pair_ordered pair
    obtain ⟨⟨n,es,rfl,left⟩,_,r,fs,rfl,right⟩ := pair
    have count : r.nkeys = fs.length := right.holds.count
    have count' : n.nkeys = es.length := left.holds.count
    simp only [leafView] at few spare free
    rcases eq_nil_or_concat' es with rfl | ⟨es,e,rfl⟩
    · simp at count'
      omega
    have other : n.blockId ≠ r.blockId := by
      rintro same
      simp [leafView,same] at nodup
    have room := left.room
    have need := left.holds.body.actual
    simp only [map_append,map_cons,map_nil,total_append,total_cons,total_nil,length_append,
      length_singleton] at need room
    obtain ⟨n',removed,taken,block',offset⟩ := left.holds.removeMaxKeyVal
    have saved : Changes (· = n.blockId) db (db.save n' db.mem) := block' ▸ Changes.save (.refl _ _)
    have right1 : LeafNode (db.save n' db.mem) m (some k) hi r fs :=
      { right with stored := (saved.blocks _ other.symm).trans right.stored }
    have above : ∀ x ∈ fs, e.1 < x.1 := fun x mem => (pairwise_append.mp sorted).2.2 e (by simp [leafView]) x mem
    obtain ⟨r',mem',given,block,only,result⟩ : ∃ r' mem', Leaf db.degree mem'.mmap r' (e::fs) ∧
        r'.blockId = r.blockId ∧ Local r.blockId db.mem mem' ∧
        (db.save n' db.mem).insertKVInLeaf r e.1 e.2 = some ((db.save n' db.mem).save r' mem',.ok none) := by
      have set : setEntry e.1 e.2 fs = e::fs := setEntry_of_head (fun x first => above x (mem_of_mem_head? first))
      have degree : (db.save n' db.mem).degree = db.degree := rfl
      rcases right1.insertKVInLeaf e.1 e.2 (by simp only [blockSize] at free; omega)
        (fun i _ _ => .inl (by omega)) with ⟨_,x,mem,same⟩ | ⟨r',mem',given,block,only,_,_,_,result⟩
      · exact absurd same (above x mem).ne'
      · rw [set] at given result
        rw [if_neg (by rw [degree,length_cons]; omega)] at result
        exact ⟨r',mem',given,block,only,result⟩
    have taken' := taken.frame (only.sameBlock (block'.symm ▸ other))
    have apart : n'.blockId ≠ r'.blockId := by
      rwa [block,block']
    have cut : (es++[e])++fs = es++e::fs := by simp
    rw [show (leafView n (es++[e])).entries ++ (leafView r fs).entries = es++e::fs from cut] at sorted within
    have sizes : ∀ x ∈ es++e::fs, size x.1 ≤ m := cut ▸ forall_mem_append.mpr ⟨left.sizes,right.sizes⟩
    refine ⟨(db.save n' db.mem).save r' mem',leafView n' es,leafView r' (e::fs),e.1,?_,
      ⟨leaf_pair sorted within sizes (blocks_saveTwo db db.mem mem' apart) taken' (blocks_save _ _ _) given ?_ ?_,
        sizes e (by simp),block',block,cut.symm,?_⟩,?_⟩
    · simp only [leafView,DB.stealFromLeft,left.holds.leaf,if_true,removed,result,some_bind]
      rfl
    · show _ < db.degree
      omega
    · show _ < db.degree
      rw [length_cons]
      omega
    · simp [leafView,block,block']
    · refine (saved.mono (fun c => .inl)).trans (Changes.mono (S := (· = r'.blockId)) (Changes.save (block.symm ▸ only)) ?_)
      exact fun c same => .inr (same.trans block)
  | succ h =>
    obtain ⟨⟨n,ks,cs,rfl,left⟩,sep,r,rs,ds,rfl,right⟩ := pair
    have count : r.nkeys = rs.length := right.holds.count
    have count' : n.nkeys = ks.length := left.holds.count
    have len := left.fenced.length
    have len' := right.fenced.length
    simp only [internalView] at few spare free
    rcases eq_nil_or_concat' ks with rfl | ⟨ks,k',rfl⟩
    · simp at count'
      omega
    rcases eq_nil_or_concat' cs with rfl | ⟨cs,c,rfl⟩
    · simp at len
    have room := left.room
    have room' := right.room
    simp only [length_append,length_singleton] at len room count'
    have other : n.blockId ≠ r.blockId := by
      rintro same
      simp [internalView,same] at nodup
    have held : Internal db.degree db.mem.mmap n (ks++[k']) (cs.map View.id ++ [c.id]) := by simpa using left.holds
    obtain ⟨n',removed,taken,block',offset⟩ := held.removeMaxKeyAndBlockId (by rw [length_map]; omega)
    obtain ⟨r',mem',appended,given,block,only⟩ := right.holds.appendMinKeyAndBlockId
      (by rw [length_map]; omega) k c.id right.room (by omega)
    have taken' := taken.frame (only.sameBlock (block'.symm ▸ other))
    have apart : n'.blockId ≠ r'.blockId := by
      rwa [block,block']
    have changes := Changes.savePair only block block'
    have whole : Fenced (Subtree db m h) lo hi ((ks++[k'])++k::rs) ((cs++[c])++ds) :=
      (fenced_append (by simp [len])).mpr ⟨left.fenced,sep,right.fenced⟩
    have children : Fenced (Subtree ((db.save n' mem').save r' mem') m h) lo hi (ks++k'::k::rs) (cs++c::ds) := by
      rw [append_assoc,append_assoc] at whole
      exact whole.imp (fun lo hi x mem tree => tree.frame changes
        (fun b => children_apart nodup (by simpa using mem)))
    have sizes : ∀ x ∈ ks++k'::k::rs, size x ≤ m := by
      rw [append_cons]
      exact forall_mem_append.mpr ⟨left.sizes,forall_mem_cons.mpr ⟨short,right.sizes⟩⟩
    refine ⟨_,internalView n' cs,internalView r' (c::ds),k',?_,⟨internal_pair children (by omega) sizes
      (blocks_saveTwo db mem' mem' apart) taken' (blocks_save _ _ _) given ?_ ?_,left.sizes k' (by simp),block',block,
      by simp [internalView],?_⟩,changes⟩
    · simp only [internalView,DB.stealFromLeft,left.holds.internal,if_ff,removed,appended,
        some_bind]
      rfl
    · show _ < db.degree
      omega
    · show _ < db.degree
      rw [length_cons]
      omega
    · simp only [internalView,block,block',flatMap_append,flatMap_cons,flatMap_nil,append_nil,
        cons_append,append_assoc]
      exact ((perm_middle.symm).append_left _).cons _

lemma pair_mergeWithRight (short : size k ≤ m)
    (nodup : (a.blocks++b.blocks).Nodup) (small : a.node.nkeys+b.node.nkeys < db.degree)
    (small' : a.node.isLeaf = false → a.node.nkeys+b.node.nkeys+1 < db.degree)
    (free : a.node.unusedMemOffset+b.node.actualMemRequired+m ≤ blockSize) :
    ∃ db' v, db.mergeWithRight a.node b.node k = some db' ∧ Subtree db' m h lo hi v ∧ v.id = a.id ∧
      v.entries = a.entries++b.entries ∧ v.blocks.Sublist (a.blocks++b.blocks) ∧ Changes (· = a.id) db db' := by
  cases h with
  | zero =>
    obtain ⟨sorted,within⟩ := pair_ordered pair
    obtain ⟨⟨n,es,rfl,left⟩,_,r,fs,rfl,right⟩ := pair
    have count : r.nkeys = fs.length := right.holds.count
    have count' : n.nkeys = es.length := left.holds.count
    simp only [leafView] at small free sorted within
    have other : r.blockId ≠ n.blockId := by
      rintro same
      simp [leafView,same] at nodup
    obtain ⟨n',mem',merged,holds,block,only⟩ := left.holds.mergeWithRightLeaf right.holds other (by omega) (by omega)
    refine ⟨db.save n' mem',leafView n' (es++fs),?_,⟨n',es++fs,rfl,blocks_save _ _ _,holds,sorted,within,?_,?_⟩,block,
      rfl,?_,?_⟩
    · simp only [leafView,DB.mergeWithRight,left.holds.leaf,if_true,merged,some_bind]
      rfl
    · exact forall_mem_append.mpr ⟨left.sizes,right.sizes⟩
    · show _ < db.degree
      rw [length_append]
      omega
    · simp [leafView,block]
    · exact (Changes.save (block.symm ▸ only)).mono fun c same => same.trans block
  | succ h =>
    obtain ⟨⟨n,ks,cs,rfl,left⟩,sep,r,rs,ds,rfl,right⟩ := pair
    have count : r.nkeys = rs.length := right.holds.count
    have count' : n.nkeys = ks.length := left.holds.count
    have less := small' left.holds.internal
    have len := left.fenced.length
    simp only [internalView] at free less
    have other : r.blockId ≠ n.blockId := by
      rintro same
      simp [internalView,same] at nodup
    obtain ⟨n',mem',merged,holds,block,only⟩ := left.holds.mergeInternal (by rw [length_map]; exact len)
      right.holds (by rw [length_map]; exact right.fenced.length) other k (by omega) (by omega)
    rw [← map_append] at holds
    have changes : Changes (· = n.blockId) db (db.save n' mem') :=
      (Changes.save (block.symm ▸ only)).mono (fun c same => same.trans block)
    have children : Fenced (Subtree (db.save n' mem') m h) lo hi (ks++k::rs) (cs++ds) :=
      ((fenced_append len).mpr ⟨left.fenced,sep,right.fenced⟩).imp (fun lo hi x mem tree =>
        tree.frame changes (fun b inside same => children_apart nodup mem inside (.inl same)))
    refine ⟨db.save n' mem',internalView n' (cs++ds),?_,⟨n',ks++k::rs,cs++ds,rfl,blocks_save _ _ _,
      holds,children,?_,?_⟩,block,by simp [internalView],?_,changes⟩
    · simp only [internalView,DB.mergeWithRight,left.holds.internal,if_ff,merged,some_bind]
      rfl
    · exact forall_mem_append.mpr ⟨left.sizes,forall_mem_cons.mpr ⟨short,right.sizes⟩⟩
    · show _ < db.degree
      rw [length_append,length_cons]
      omega
    · simp only [internalView,block,flatMap_append,cons_append]
      exact ((sublist_cons_self _ _).append_left _).cons_cons _

end
end

section
variable {db db' : DB} {m h : Nat} {lo hi : Option Bytes} {node node' : Node} {ks pre post : List Bytes} {k : Bytes}
  {cs1 cs2 mid : List View} {a b c : View}

lemma Row.child (row : Row db m (Subtree db m h) lo hi node ks (cs1++c::cs2)) :
    db.child node cs1.length = some c.node := by
  obtain ⟨_,_,tree,_⟩ := row.fenced.mem (show c ∈ cs1++c::cs2 by simp)
  have held := row.holds
  rw [map_append,map_cons] at held
  have read := held.getChildBlockId
  rw [length_map] at read
  simp only [DB.child,read,some_bind]
  exact tree.stored

lemma row_blocks (mid' : List View) (nodup : (internalView node (cs1++(mid++cs2))).blocks.Nodup)
    (block : node'.blockId = node.blockId)
    (distinct : (mid'.flatMap View.blocks).Nodup)
    (origin : ∀ b ∈ mid'.flatMap View.blocks, b ∈ mid.flatMap View.blocks) :
    (internalView node' (cs1++(mid'++cs2))).blocks.Nodup ∧
      ∀ b ∈ (internalView node' (cs1++(mid'++cs2))).blocks, b ∈ (internalView node (cs1++(mid++cs2))).blocks := by
  simp only [internalView,flatMap_append,block,← cons_append] at nodup ⊢
  refine ⟨BlockTrees.nodup_replace (P := fun _ => False) nodup distinct (fun b mem => .inl (origin b mem)) (fun _ _ => id),
    fun b mem => ?_⟩
  rcases mem_append.mp mem with before | rest
  · exact mem_append_left _ before
  rcases mem_append.mp rest with middle | behind
  · exact mem_append_right _ (mem_append_left _ (origin b middle))
  · exact mem_append_right _ (mem_append_right _ behind)

lemma row_segment (nodup : (internalView node (cs1++(mid++cs2))).blocks.Nodup) :
    (mid.flatMap View.blocks).Nodup ∧ node.blockId ∉ mid.flatMap View.blocks := by
  simp only [internalView,flatMap_append,nodup_cons,nodup_append,mem_append,not_or] at nodup
  exact ⟨nodup.2.2.1.1,nodup.1.2.1⟩

lemma row_outer (nodup : (internalView node (cs1++(mid++cs2))).blocks.Nodup)
    (changes : Changes (fun b => b = node.blockId ∨ b ∈ mid.flatMap View.blocks) db db') (lo hi : Option Bytes) (x : View)
    (mem : x ∈ cs1++cs2) (tree : Subtree db m h lo hi x) : Subtree db' m h lo hi x := by
  refine tree.frame changes fun b inside => ?_
  simp only [internalView,flatMap_append,nodup_cons,nodup_append,mem_append,not_or] at nodup
  obtain ⟨⟨notLeft,_,notRight⟩,_,⟨_,_,between⟩,across⟩ := nodup
  rcases mem_append.mp mem with before | behind
  · have here : b ∈ cs1.flatMap View.blocks := mem_flatMap.mpr ⟨x,before,inside⟩
    rintro (rfl | middle)
    · exact notLeft here
    · exact across b here b (.inl middle) rfl
  · have here : b ∈ cs2.flatMap View.blocks := mem_flatMap.mpr ⟨x,behind,inside⟩
    rintro (rfl | middle)
    · exact notRight here
    · exact between b middle b here rfl

/-- What the parent has made of its row: the same content, at most one key fewer and
data of at most `m` bytes more. -/
structure Mended (db : DB) (m h : Nat) (lo hi : Option Bytes) (node : Node) (ks : List Bytes) (cs : List View) (db' : DB)
    (node' : Node) (ks' : List Bytes) (cs' : List View) : Prop where
  row : Row db' m (Subtree db' m h) lo hi node' ks' cs'
  block : node'.blockId = node.blockId
  nodup : (internalView node' cs').blocks.Nodup
  blocks : ∀ b ∈ (internalView node' cs').blocks, b ∈ (internalView node cs).blocks
  entries : cs'.flatMap View.entries = cs.flatMap View.entries
  loss : ks.length ≤ ks'.length+1
  less : ks'.length ≤ ks.length
  offset : node'.unusedMemOffset ≤ node.unusedMemOffset+m
  actual : node'.actualMemRequired ≤ node.actualMemRequired+m
  changes : Changes (· ∈ (internalView node cs).blocks) db db'

lemma row_focus (len : cs1.length = pre.length)
    (fenced : Fenced (Subtree db m h) lo hi (pre++k::post) (cs1++a::b::cs2)) :
    ∃ lo' hi', Fenced (Subtree db m h) lo' hi' [k] [a,b] ∧
      ∀ (S : Option Bytes → Option Bytes → View → Prop) (ks : List Bytes) (cs : List View),
        (∀ lo hi, ∀ x ∈ cs1++cs2, Subtree db m h lo hi x → S lo hi x) → Fenced S lo' hi' ks cs →
          Fenced S lo hi (pre++(ks++post)) (cs1++(cs++cs2)) := by
  have segment : Fenced (Subtree db m h) lo hi (pre++([k]++post)) (cs1++([a,b]++cs2)) := fenced
  exact segment.focus len rfl

section

section
variable (row : Row db m (Subtree db m h) lo hi node (pre++k::post) (cs1++a::b::cs2))
include row

lemma mended_of_evened
    (nodup : (internalView node (cs1++a::b::cs2)).blocks.Nodup)
    (fits : node.unusedMemStart+node.actualMemRequired+m ≤ blockSize)
    (replace : Replaces db m h lo hi pre post cs1 cs2 lo' hi')
    (even : Evened db1 m h lo' hi' a b k' a' b') (changes : Changes (fun c => c = a.id ∨ c = b.id) db db1)
    (left : a.id ∈ a.blocks) (right : b.id ∈ b.blocks) :
    ∃ node' mem', node.updateKey db1.mem pre.length k' = some (node',mem') ∧
      Mended db m h lo hi node (pre++k::post) (cs1++a::b::cs2) (db1.save node' mem') node' (pre++k'::post)
        (cs1++a'::b'::cs2) := by
  have short := even.short
  have segment : (internalView node (cs1++([a,b]++cs2))).blocks.Nodup := nodup
  have inner : ∀ c, c = a.id ∨ c = b.id → c ∈ [a,b].flatMap View.blocks := by
    rintro c (rfl | rfl)
    · simp [left]
    · simp [right]
  obtain ⟨distinct,outside⟩ := row_segment segment
  have here : ¬ (node.blockId = a.id ∨ node.blockId = b.id) := fun same => outside (inner _ same)
  have moved : ∀ c ∈ [a',b'].flatMap View.blocks, c ∈ [a,b].flatMap View.blocks := by
    intro c mem
    simpa using even.blocks.subset (by simpa using mem)
  have holds := row.holds.frame (changes.bytes _ here)
  rw [← changes.degree] at holds
  obtain ⟨node',mem',updated,holds',block,offset,actual,only⟩ := holds.updateKey k' (by omega)
  have saved : Changes (· = node.blockId) db1 (db1.save node' mem') :=
    (Changes.save (block.symm ▸ only)).mono (fun c same => same.trans block)
  have all : Changes (fun c => c = node.blockId ∨ c ∈ [a,b].flatMap View.blocks) db (db1.save node' mem') :=
    (changes.mono (fun c same => .inr (inner c same))).trans (saved.mono (fun c => .inl))
  obtain ⟨nodup',blocks⟩ := row_blocks [a',b'] segment block
    (by simpa using even.blocks.nodup_iff.mpr (by simpa using distinct)) moved
  have pair : Fenced (Subtree (db1.save node' mem') m h) lo' hi' [k'] [a',b'] := by
    refine even.fenced.imp fun lo hi x mem tree => tree.frame saved (fun c inside same => outside ?_)
    exact same ▸ moved c (mem_flatMap.mpr ⟨x,mem,inside⟩)
  have ids : (cs1++a'::b'::cs2).map View.id = (cs1++a::b::cs2).map View.id := by simp [even.left,even.right]
  refine ⟨node',mem',updated,⟨⟨blocks_save db1 node' mem',by rw [ids]; exact holds',replace _ _ _ (row_outer segment all) pair,
    ?_,?_⟩,block,nodup',blocks,?_,by simp,by simp,by omega,by omega,?_⟩⟩
  · obtain ⟨before,behind⟩ := forall_mem_append.mp row.sizes
    exact forall_mem_append.mpr ⟨before,forall_mem_cons.mpr ⟨short,(forall_mem_cons.mp behind).2⟩⟩
  · show _ < db1.degree
    rw [changes.degree]
    simpa using row.room
  · simp only [flatMap_append,flatMap_cons]
    rw [← append_assoc a'.entries,even.entries,append_assoc]
  · refine all.mono ?_
    rintro c (rfl | mem)
    · simp [internalView]
    · simp only [internalView,flatMap_append,flatMap_cons,flatMap_nil,append_nil,mem_cons,
        mem_append] at mem ⊢
      exact .inr (.inr (mem.imp_right .inl))

section
variable (len : cs1.length = pre.length)
include len

lemma Row.neighbours
    : db.child node pre.length = some a.node ∧
      db.child node (pre.length+1) = some b.node ∧ node.getKey db.mem pre.length = some k ∧ size k ≤ m := by
  have right : Row db m (Subtree db m h) lo hi node (pre++k::post) ((cs1++[a])++b::cs2) := by simpa using row
  have second := right.child
  rw [length_append,length_singleton,len] at second
  exact ⟨len ▸ row.child,second,row.holds.body.getKey.1,row.sizes k (by simp)⟩

section
variable (nodup : (internalView node (cs1++a::b::cs2)).blocks.Nodup)
include nodup

lemma row_stealRight
    (fits : node.unusedMemStart+node.actualMemRequired+m ≤ blockSize) (few : a.node.nkeys < db.degree/2)
    (spare : db.degree/2 < b.node.nkeys) (free : a.node.unusedMemOffset+b.node.actualMemRequired+m ≤ blockSize) :
    ∃ db' node' ks' cs', db.stealRight node pre.length = some db' ∧
      Mended db m h lo hi node (pre++k::post) (cs1++a::b::cs2) db' node' ks' cs' := by
  obtain ⟨first,second,read,short⟩ := row.neighbours len
  obtain ⟨lo',hi',pair,replace⟩ := row_focus len row.fenced
  have segment : (internalView node (cs1++([a,b]++cs2))).blocks.Nodup := nodup
  obtain ⟨db1,a',b',k',stolen,even,changes⟩ := pair_stealFromRight pair short (by simpa using (row_segment segment).1) few
    spare free
  obtain ⟨node',mem',updated,mended⟩ := mended_of_evened row nodup fits replace even changes pair.1.id_mem pair.2.2.id_mem
  refine ⟨db1.save node' mem',node',_,_,?_,mended⟩
  simp only [DB.stealRight,first,second,read,stolen,updated,some_bind]
  rfl

lemma row_stealLeft
    (fits : node.unusedMemStart+node.actualMemRequired+m ≤ blockSize) (few : b.node.nkeys < db.degree/2)
    (spare : db.degree/2 < a.node.nkeys) (free : b.node.unusedMemOffset+a.node.actualMemRequired+m ≤ blockSize) :
    ∃ db' node' ks' cs', db.stealLeft node pre.length = some db' ∧
      Mended db m h lo hi node (pre++k::post) (cs1++a::b::cs2) db' node' ks' cs' := by
  obtain ⟨first,second,read,short⟩ := row.neighbours len
  obtain ⟨lo',hi',pair,replace⟩ := row_focus len row.fenced
  have segment : (internalView node (cs1++([a,b]++cs2))).blocks.Nodup := nodup
  obtain ⟨db1,a',b',k',stolen,even,changes⟩ := pair_stealFromLeft pair short (by simpa using (row_segment segment).1) few
    spare free
  obtain ⟨node',mem',updated,mended⟩ := mended_of_evened row nodup fits replace even changes pair.1.id_mem pair.2.2.id_mem
  refine ⟨db1.save node' mem',node',_,_,?_,mended⟩
  simp only [DB.stealLeft,first,second,read,stolen,updated,some_bind]
  rfl

/-- After a merge the parent drops the key and the right one of the two children. -/
lemma row_mergeChildren
    (small : a.node.nkeys+b.node.nkeys < db.degree)
    (small' : a.node.isLeaf = false → a.node.nkeys+b.node.nkeys+1 < db.degree)
    (free : a.node.unusedMemOffset+b.node.actualMemRequired+m ≤ blockSize) :
    ∃ db' node' ks' cs', db.mergeChildren node pre.length = some db' ∧
      Mended db m h lo hi node (pre++k::post) (cs1++a::b::cs2) db' node' ks' cs' := by
  obtain ⟨first,second,read,short⟩ := row.neighbours len
  obtain ⟨lo',hi',pair,replace⟩ := row_focus len row.fenced
  have segment : (internalView node (cs1++([a,b]++cs2))).blocks.Nodup := nodup
  obtain ⟨distinct,outside⟩ := row_segment segment
  obtain ⟨db1,v,merged,tree,id,entries,sub,changes⟩ := pair_mergeWithRight pair short (by simpa using distinct) small small'
    free
  have total := row.fenced.length
  simp only [length_append,length_cons] at total
  have inner : a.id ∈ [a,b].flatMap View.blocks := by simp [pair.1.id_mem]
  have here : node.blockId ≠ a.id := fun same => outside (same ▸ inner)
  have moved : ∀ c ∈ [v].flatMap View.blocks, c ∈ [a,b].flatMap View.blocks := by
    intro c mem
    simpa using sub.subset (by simpa using mem)
  have holds := row.holds.frame (changes.bytes _ here)
  rw [← changes.degree,show (cs1++a::b::cs2).map View.id = (cs1++[a]).map View.id ++ b.id::cs2.map View.id by simp]
    at holds
  obtain ⟨node',removed,holds',block,offset,actual⟩ := holds.delKeyandBlockIdByIndex (by simp; omega)
  rw [show ((cs1++[a]).map View.id).length = pre.length+1 by simp [len]] at removed
  have saved : Changes (· = node.blockId) db1 (db1.save node' db1.mem) :=
    (Changes.save (.refl _ db1.mem)).mono (fun c same => same.trans block)
  have all : Changes (fun c => c = node.blockId ∨ c ∈ [a,b].flatMap View.blocks) db (db1.save node' db1.mem) :=
    (changes.mono (fun c same => .inr (same ▸ inner))).trans (saved.mono (fun c => .inl))
  obtain ⟨nodup',blocks⟩ := row_blocks [v] segment block
    (by simpa using sub.nodup (by simpa using distinct)) moved
  have tree' : Subtree (db1.save node' db1.mem) m h lo' hi' v :=
    tree.frame saved (fun c inside same => outside (same ▸ moved c (by simpa using inside)))
  have ids : (cs1++[a]).map View.id ++ cs2.map View.id = (cs1++([v]++cs2)).map View.id := by simp [id]
  rw [ids] at holds'
  refine ⟨db1.save node' db1.mem,node',pre++post,cs1++([v]++cs2),?_,⟨⟨blocks_save db1 node' db1.mem,holds',
    replace _ [] [v] (row_outer segment all) tree',?_,?_⟩,block,nodup',blocks,?_,?_,?_,by omega,by omega,?_⟩⟩
  · simp only [DB.mergeChildren,first,second,read,merged,removed,some_bind]
    rfl
  · exact fun x mem => row.sizes x (mem_of_mem_rest mem)
  · show _ < db1.degree
    have := row.room
    rw [changes.degree]
    simp only [length_append,length_cons] at this ⊢
    omega
  · simp [entries]
  · simp
    omega
  · simp
  · refine all.mono ?_
    rintro c (rfl | mem)
    · simp [internalView]
    · simp only [internalView,flatMap_append,flatMap_cons,flatMap_nil,append_nil,mem_cons,
        mem_append] at mem ⊢
      exact .inr (.inr (mem.imp_right .inl))

end
end
end
end

section
variable (row : Row db m (Subtree db m h) lo hi node (pre++post) (cs1++c::cs2))
include row

section
variable (len : cs1.length = pre.length)
include len

lemma Row.childRight
    :
    (if pre.length+1 ≤ node.nkeys then db.child node (pre.length+1) else none) = cs2.head?.map View.node := by
  have total := row.fenced.length
  have count := row.holds.count
  simp only [length_append,length_cons] at total count
  cases cs2 with
  | nil =>
    rw [if_neg (by simp at total; omega)]
    rfl
  | cons b cs2 =>
    have right : Row db m (Subtree db m h) lo hi node (pre++post) ((cs1++[c])++b::cs2) := by simpa using row
    have read := right.child
    rw [length_append,length_singleton,len] at read
    rw [if_pos (by simp at total; omega),read]
    rfl

lemma Row.childLeft
    :
    (if 0 < pre.length then db.child node (pre.length-1) else none) = cs1.getLast?.map View.node := by
  rw [← len]
  rcases eq_nil_or_concat' cs1 with rfl | ⟨cs1,a,rfl⟩
  · rfl
  · have left : Row db m (Subtree db m h) lo hi node (pre++post) (cs1++a::c::cs2) := by simpa using row
    have read := left.child
    simp [read]

lemma Row.spareRight
    (n : Nat) :
    db.spareRight node pre.length n = some (cs2.head?.any (fun x => decide (n < x.node.nkeys))) := by
  have read := row.childRight len
  rw [DB.spareRight]
  by_cases behind : pre.length+1 ≤ node.nkeys
  · have total := row.fenced.length
    have count := row.holds.count
    simp only [length_append,length_cons] at total count
    obtain ⟨b,cs2,rfl⟩ : ∃ b rest, cs2 = b::rest :=
      exists_cons_of_ne_nil (fun none => by simp [none] at total; omega)
    rw [if_pos behind] at read ⊢
    rw [read]
    rfl
  · rw [if_neg behind] at read ⊢
    have none : cs2.head? = none := by simpa using read.symm
    rw [none]
    rfl

lemma Row.spareLeft
    (n : Nat) :
    db.spareLeft node pre.length n = some (cs1.getLast?.any (fun x => decide (n < x.node.nkeys))) := by
  have read := row.childLeft len
  rw [DB.spareLeft]
  rcases eq_nil_or_concat' cs1 with rfl | ⟨cs1,a,rfl⟩
  · rw [if_neg (by rw [← len]; simp)]
    rfl
  · rw [if_pos (by rw [← len]; simp)] at read ⊢
    rw [read]
    simp

end
end

/-- What an exchange of keys with a sibling needs once the child has lost a key. -/
def Node.Near (m degree : Nat) (a b : Node) : Prop :=
  a.unusedMemOffset+b.actualMemRequired+m ≤ blockSize ∧ b.unusedMemOffset+a.actualMemRequired+m ≤ blockSize ∧
  (a.isLeaf = false → b.nkeys ≤ degree/2 → a.nkeys+b.nkeys+1 < degree)

lemma Node.Joins.near {a a' b : Node} (joins : a.Joins m degree b)
    (offset : a'.unusedMemOffset ≤ a.unusedMemOffset+m) (actual : a'.actualMemRequired ≤ a.actualMemRequired+m)
    (kind : a'.isLeaf = a.isLeaf) (less : a'.nkeys ≤ a.nkeys) (few : a'.nkeys < degree/2) : a'.Near m degree b := by
  obtain ⟨first,second,third⟩ := joins
  refine ⟨by omega,by omega,fun internal poor => ?_⟩
  have small := third (kind ▸ internal) poor
  omega

lemma rebalance_row (row : Row db m (Subtree db m h) lo hi node (pre++post) (cs1++c::cs2))
    (len : cs1.length = pre.length) (nodup : (internalView node (cs1++c::cs2)).blocks.Nodup)
    (fits : node.unusedMemStart+node.actualMemRequired+m ≤ blockSize) (few : c.node.nkeys < db.degree/2)
    (right : ∀ s ∈ cs2.head?, c.node.Near m db.degree s.node) (left : ∀ s ∈ cs1.getLast?, c.node.Near m db.degree s.node)
    (kinds : ∀ s ∈ cs1.getLast?, s.node.isLeaf = c.node.isLeaf) :
    ∃ db' node' ks' cs', db.rebalance node pre.length (db.degree/2) = some db' ∧
      Mended db m h lo hi node (pre++post) (cs1++c::cs2) db' node' ks' cs' := by
  have total := row.fenced.length
  have count := row.holds.count
  simp only [length_append,length_cons] at total count
  have spareRight := row.spareRight len (db.degree/2)
  have spareLeft := row.spareLeft len (db.degree/2)
  simp only [DB.rebalance,spareRight,spareLeft,some_bind]
  by_cases spare : cs2.head?.any (fun x => decide (db.degree/2 < x.node.nkeys)) = true
  · rw [if_pos spare]
    rcases cs2 with _ | ⟨b,cs2⟩
    · simp at spare
    rcases post with _ | ⟨k,post⟩
    · simp at total
      omega
    exact row_stealRight row len nodup fits few (by simpa using spare) (right b rfl).1
  rw [if_neg spare]
  by_cases spare' : cs1.getLast?.any (fun x => decide (db.degree/2 < x.node.nkeys)) = true
  · rw [if_pos spare']
    rcases eq_nil_or_concat' cs1 with rfl | ⟨cs1,a,rfl⟩
    · simp at spare'
    rcases eq_nil_or_concat' pre with rfl | ⟨pre,k,rfl⟩
    · simp at len
    simp only [append_assoc,singleton_append] at row nodup ⊢
    rw [length_append,length_singleton,Nat.add_sub_cancel]
    exact row_stealLeft row (by simpa using len) nodup fits few (by simpa using spare') (left a (by simp)).1
  rw [if_neg spare']
  by_cases behind : pre.length+1 ≤ node.nkeys
  · rw [if_pos behind]
    rcases post with _ | ⟨k,post⟩
    · simp at count
      omega
    rcases cs2 with _ | ⟨b,cs2⟩
    · simp at total
      omega
    have poor : b.node.nkeys ≤ db.degree/2 := by simpa using spare
    have near := right b rfl
    exact row_mergeChildren row len nodup (by omega) (fun kind => near.2.2 kind poor) near.1
  rw [if_neg behind]
  rcases eq_nil_or_concat' pre with rfl | ⟨pre,k,rfl⟩
  · rw [if_neg (by simp)]
    exact ⟨db,node,[]++post,cs1++c::cs2,rfl,row,rfl,nodup,fun _ => id,rfl,by omega,le_rfl,by omega,by omega,.refl _ db⟩
  · rcases eq_nil_or_concat' cs1 with rfl | ⟨cs1,a,rfl⟩
    · simp at len
    simp only [append_assoc,singleton_append] at row nodup ⊢
    rw [length_append,length_singleton,if_pos (Nat.succ_pos _),Nat.add_sub_cancel]
    have poor : a.node.nkeys ≤ db.degree/2 := by simpa using spare'
    have near := left a (by simp)
    have kind := kinds a (by simp)
    exact row_mergeChildren row (by simpa using len) nodup (by omega)
      (fun internal => by have := near.2.2 (kind ▸ internal) poor; omega) near.2.1

lemma Subtree.kind (tree : Subtree db m h lo hi v) : v.node.isLeaf = (h == 0) := by
  cases h with
  | zero =>
    obtain ⟨node,es,rfl,leaf⟩ := tree
    exact leaf.holds.leaf
  | succ h =>
    obtain ⟨node,ks,cs,rfl,row⟩ := tree
    exact row.holds.internal

/-- What a deletion below a node does. -/
structure Deleted (db : DB) (m h : Nat) (lo hi : Option Bytes) (v : View) (key : Bytes) (db' : DB) (v' : View) : Prop where
  tree : Subtree db' m h lo hi v'
  id : v'.id = v.id
  entries : v'.entries = dropEntry key v.entries
  nodup : v'.blocks.Nodup
  blocks : ∀ b ∈ v'.blocks, b ∈ v.blocks
  loss : v.node.nkeys ≤ v'.node.nkeys+1
  less : v'.node.nkeys ≤ v.node.nkeys
  offset : v'.node.unusedMemOffset ≤ v.node.unusedMemOffset+m
  actual : v'.node.actualMemRequired ≤ v.node.actualMemRequired+m
  changes : Changes (· ∈ v.blocks) db db'

lemma LeafNode.deleted (leaf : LeafNode db m lo hi node es)
    (below : ∃ e ∈ es, key ≤ e.1) : ∃ db' v', (node.deleteInLeaf db.mem key).bind (fun node => some (db.save node db.mem)) =
      some db' ∧ Deleted db m 0 lo hi (leafView node es) key db' v' := by
  obtain ⟨node',removed,holds,block,offset,actual⟩ := leaf.holds.deleteInLeaf leaf.sorted below
  have fewer : (dropEntry key es).length ≤ es.length := length_filter_le _ _
  have loss : es.length ≤ (dropEntry key es).length+1 := length_le_filter leaf.sorted key
  have room := leaf.room
  have count := leaf.holds.count
  have count' := holds.count
  refine ⟨db.save node' db.mem,leafView node' (dropEntry key es),by rw [removed]; rfl,
    ⟨⟨node',_,rfl,blocks_save _ _ _,holds,leaf.sorted.filter _,?_,?_,?_⟩,block,rfl,by simp [leafView],?_,?_,?_,?_,?_,?_⟩⟩
  · exact fun e mem => leaf.within e (mem_of_mem_filter mem)
  · exact fun e mem => leaf.sizes e (mem_of_mem_filter mem)
  · show _ < db.degree
    omega
  · simp [leafView,block]
  · simp only [leafView]
    omega
  · simp only [leafView]
    omega
  · simp only [leafView]
    omega
  · simp only [leafView]
    omega
  · refine (Changes.save (.refl _ db.mem)).mono fun c same => ?_
    simp [leafView,same,block]

lemma Deleted.parent
    (row : Row db m (Subtree db m h) lo hi node (pre++post) (cs1++c::cs2))
    (descent : Descent db m h lo hi node key pre post cs1 c cs2)
    (nodup : (internalView node (cs1++c::cs2)).blocks.Nodup)
    (old : ∀ b ∈ (internalView node (cs1++c::cs2)).blocks, b < db.nusedBlocks)
    (replace : Replaces db m h lo hi pre post cs1 cs2 lo' hi')
    (deleted : Deleted db m h lo' hi' c key db' c') :
    Row db' m (Subtree db' m h) lo hi node (pre++post) (cs1++c'::cs2) ∧
      Deleted db m (h+1) lo hi (internalView node (cs1++c::cs2)) key db' (internalView node (cs1++c'::cs2)) := by
  have childBlocks : ∀ b ∈ c.blocks, b ∈ (internalView node (cs1++c::cs2)).blocks := by
    intro b mem
    simp [internalView,mem]
  have grown : Grown db' m h lo' hi' c.id (fun b => b ∈ c.blocks ∨ db.nusedBlocks ≤ b) c'.entries c' none := by
    refine ⟨deleted.tree,deleted.id,by simp,by simpa using deleted.nodup,fun b mem => ?_,by simp⟩
    have inside := deleted.blocks b (by simpa using mem)
    exact ⟨.inl inside,(old b (childBlocks b inside)).trans_le deleted.changes.used⟩
  obtain ⟨stored,holds,fenced,nodup',_⟩ := row.replaceChild nodup old replace (deleted.changes.mono (fun b => .inl)) grown
  have ids : (cs1++c'::cs2).map View.id = (cs1++c::cs2).map View.id := by simp [deleted.id]
  have row' : Row db' m (Subtree db' m h) lo hi node (pre++post) (cs1++c'::cs2) :=
    ⟨stored,by rw [ids]; exact holds,by simpa using fenced,row.sizes,by rw [deleted.changes.degree]; exact row.room⟩
  have segment : (internalView node (cs1++([c]++cs2))).blocks.Nodup := nodup
  refine ⟨row',⟨node,pre++post,_,rfl,row'⟩,rfl,?_,by simpa [internalView] using nodup',?_,Nat.le_succ _,le_rfl,
    Nat.le_add_right _ _,Nat.le_add_right _ _,deleted.changes.mono childBlocks⟩
  · simp only [internalView,dropEntry,flatMap_append,flatMap_cons,filter_append]
    rw [filter_ne_self (fun e mem => (descent.below e mem).ne),
      filter_ne_self (fun e mem => (descent.above e mem).ne'),deleted.entries]
    rfl
  · exact (row_blocks [c'] segment rfl (by simpa using deleted.nodup)
      (by simpa using deleted.blocks)).2

lemma Subtree.delete {key : Bytes} (tree : Subtree db m h lo hi v) (inside : Within lo hi key)
    (nodup : v.blocks.Nodup) (old : ∀ b ∈ v.blocks, b < db.nusedBlocks) {fuel : Nat} (enough : h < fuel)
    (fits : db.deleteFits m fuel v.id key = some true) :
    ∃ db' v', db.delete fuel v.id key = some db' ∧ Deleted db m h lo hi v key db' v' := by
  induction h generalizing lo hi v fuel with
  | zero =>
    obtain _ | fuel := fuel
    · omega
    obtain ⟨node,es,rfl,leaf⟩ := tree
    obtain ⟨pre,post,cut,sought,_,hit⟩ := leaf.holds.seek (fun k => decide (key ≤ k))
    simp only [DB.deleteFits,leaf.load,leaf.holds.leaf,sought,some_bind,if_true,Option.pure_def,
      some.injEq,decide_eq_true_eq] at fits
    rw [leaf.holds.count,cut,length_append] at fits
    obtain ⟨e,post,rfl⟩ : ∃ e rest, post = e::rest := exists_cons_of_ne_nil (fun none => by simp [none] at fits)
    simp only [DB.delete,leaf.load,leaf.holds.leaf,if_true,some_bind]
    exact leaf.deleted ⟨e,by simp [cut],by simpa using hit e rfl⟩
  | succ h ih =>
    obtain _ | fuel := fuel
    · omega
    obtain ⟨node,ks,cs,rfl,row⟩ := tree
    obtain ⟨pre,post,cs1,c,cs2,rfl,rfl,descent⟩ := row.descend inside
    obtain ⟨lo',hi',child,room,replace⟩ := descent.bounds
    have siblings : db.siblings node pre.length = (cs2.head?.map View.node).toList++(cs1.getLast?.map View.node).toList := by
      rw [DB.siblings,row.childRight descent.len,row.childLeft descent.len]
    simp only [DB.deleteFits,row.load,row.holds.internal,if_ff,descent.index,descent.read,child.load,
      siblings,some_bind] at fits
    obtain ⟨rest,below,fits⟩ := bind_eq_some_iff.mp fits
    simp only [Option.pure_def,some.injEq,Bool.and_eq_true,decide_eq_true_eq] at fits
    obtain ⟨fits,rfl⟩ := fits
    have segment : (internalView node (cs1++([c]++cs2))).blocks.Nodup := nodup
    obtain ⟨db1,c',done,deleted⟩ := ih child room (by simpa using (row_segment segment).1)
      (fun b mem => old b (by simp [internalView,mem])) (by omega : h < fuel) below
    obtain ⟨row1,parent⟩ := deleted.parent row descent nodup old replace
    have load1 : db1.loadNode (internalView node (cs1++c::cs2)).id = some node := row1.stored
    have loadChild1 : db1.loadNode c.id = some c'.node := deleted.id ▸ deleted.tree.stored
    simp only [DB.delete,row.load,row.holds.internal,if_ff,descent.index,descent.read,done,loadChild1,load1,
      some_bind]
    by_cases few : c'.node.nkeys < db1.degree/2
    · have loss := deleted.loss
      have degree := deleted.changes.degree
      obtain ⟨space,joins⟩ := fits (by rw [← degree]; omega)
      have near : ∀ s : View, s.node ∈ (cs2.head?.map View.node).toList++(cs1.getLast?.map View.node).toList →
          c'.node.Near m db1.degree s.node := by
        intro s mem
        have joined := joins s.node mem
        rw [← degree] at joined
        exact joined.near deleted.offset deleted.actual (by rw [deleted.tree.kind,child.kind]) deleted.less few
      have kinds : ∀ s ∈ cs1.getLast?, s.node.isLeaf = c'.node.isLeaf := by
        intro s last
        obtain ⟨_,_,tree,_⟩ := row1.fenced.mem (show s ∈ cs1++c'::cs2 from
          mem_append_left _ (mem_of_getLast? last))
        rw [tree.kind,deleted.tree.kind]
      obtain ⟨db2,node2,ks2,cs',mended,result⟩ := rebalance_row row1 descent.len parent.nodup space few
        (fun s first => near s (by simp [mem_def.mp first])) (fun s last => near s (by simp [mem_def.mp last]))
        kinds
      rw [if_pos few]
      refine ⟨db2,internalView node2 cs',mended,⟨node2,ks2,cs',rfl,result.row⟩,result.block,
        result.entries.trans parent.entries,result.nodup,fun b mem => parent.blocks b (result.blocks b mem),?_,?_,
        result.offset,result.actual,parent.changes.trans (result.changes.mono parent.blocks)⟩
      · have loss := result.loss
        rwa [← row.holds.count,← result.row.holds.count] at loss
      · have less := result.less
        rwa [← row.holds.count,← result.row.holds.count] at less
    · rw [if_neg few]
      exact ⟨db1,_,rfl,parent⟩

end
end CodeExercise.BTreeMmap
