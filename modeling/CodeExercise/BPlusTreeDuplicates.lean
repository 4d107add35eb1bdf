import CodeExercise.BPlusTreeRefines

/-!
The tree of `b+tree.c` only compares keys. `Node.mapKeys f` replaces every key in the arrays of a
tree; the operations do the same on the result when the keys compare alike before and after. Slots
that are not in use are replaced as well, which is why `f` has to keep the `0` a new node is filled
with.
-/
namespace CodeExercise.BPlusTree
open Slices SortedMaps Fences List Option Function

@[simps] def LeafNode.mapKeys (f : Int → Int) (bp : LeafNode) : LeafNode := { bp with keys := bp.keys.map f }

namespace Node

mutual

def mapKeys (f : Int → Int) : Node → Node
  | leaf bp => leaf (bp.mapKeys f)
  | index ⟨nkeys,keys,child⟩ => index ⟨nkeys,keys.map f,mapPtrs f child⟩

def mapPtrs (f : Int → Int) : List (Option Node) → List (Option Node)
  | [] => []
  | none::rest => none :: mapPtrs f rest
  | some c :: rest => some (c.mapKeys f) :: mapPtrs f rest

end

lemma mapPtrs_eq (f : Int → Int) (ptrs : List (Option Node)) : mapPtrs f ptrs = ptrs.map (Option.map (mapKeys f)) := by
  induction ptrs with
  | nil => rfl
  | cons p ptrs ih => cases p <;> simp [mapPtrs,ih]

end Node

@[simps] def IndexNode.mapKeys (f : Int → Int) (bp : IndexNode Node) : IndexNode Node :=
  ⟨bp.nkeys,bp.keys.map f,bp.child.map (Option.map (Node.mapKeys f))⟩

@[simps] def BTree.mapKeys (f : Int → Int) (bt : BTree) : BTree := { bt with root := bt.root.mapKeys f }

section
variable (f : Int → Int)

@[simp] lemma mapKeys_cells (nkeys : Nat) (keys : List Int) (child : List (Option Node)) :
    IndexNode.mapKeys f ⟨nkeys,keys,child⟩ = ⟨nkeys,keys.map f,child.map (Option.map (Node.mapKeys f))⟩ := rfl

@[simp] lemma mapKeys_leaf (bp : LeafNode) : (Node.leaf bp).mapKeys f = .leaf (bp.mapKeys f) := by
  rw [Node.mapKeys]

@[simp] lemma mapKeys_index (bp : IndexNode Node) : (Node.index bp).mapKeys f = .index (bp.mapKeys f) := by
  rw [Node.mapKeys,Node.mapPtrs_eq]
  rfl

@[simp] lemma nkeys_mapKeys (node : Node) : (node.mapKeys f).nkeys = node.nkeys := by
  cases node <;> simp <;> rfl

@[simp] lemma keys_mapKeys (node : Node) : (node.mapKeys f).keys = node.keys.map f := by
  cases node <;> simp <;> rfl

@[simp] lemma setNkeys_mapKeys (n : Nat) (node : Node) : (node.mapKeys f).setNkeys n = (node.setNkeys n).mapKeys f := by
  cases node <;> simp [Node.setNkeys,LeafNode.mapKeys]

mutual

lemma height_mapKeys : ∀ node : Node, (node.mapKeys f).height = node.height
  | .leaf _ => by simp [Node.mapKeys,Node.height]
  | .index ⟨_,_,child⟩ => by simp [Node.mapKeys,Node.height,heights_mapPtrs child]

lemma heights_mapPtrs : ∀ ptrs : List (Option Node), Node.heights (Node.mapPtrs f ptrs) = Node.heights ptrs
  | [] => rfl
  | none::rest => by simp [Node.mapPtrs,Node.heights,heights_mapPtrs rest]
  | some c :: rest => by simp [Node.mapPtrs,Node.heights,heights_mapPtrs rest,height_mapKeys c]

end

mutual

lemma mapKeys_mapKeys (g : Int → Int) : ∀ node : Node, (node.mapKeys f).mapKeys g = node.mapKeys (g ∘ f)
  | .leaf _ => by simp [Node.mapKeys,LeafNode.mapKeys]
  | .index ⟨_,_,child⟩ => by simp only [Node.mapKeys,mapPtrs_mapPtrs g child,List.map_map]

lemma mapPtrs_mapPtrs (g : Int → Int) : ∀ ptrs : List (Option Node),
    Node.mapPtrs g (Node.mapPtrs f ptrs) = Node.mapPtrs (g ∘ f) ptrs
  | [] => rfl
  | none::rest => by simp [Node.mapPtrs,mapPtrs_mapPtrs g rest]
  | some c :: rest => by simp [Node.mapPtrs,mapPtrs_mapPtrs g rest,mapKeys_mapKeys g c]

end

lemma childAt_map (bp : IndexNode Node) (i : Nat) : (bp.mapKeys f).childAt i = (bp.childAt i).map (Node.mapKeys f) := by
  simp only [IndexNode.childAt,IndexNode.mapKeys,getElem?_map]
  cases bp.child[i]? <;> rfl

lemma putPtr_map (a : List (Option Node)) (i : Nat) (c : Node) : put (a.map (Option.map (Node.mapKeys f))) i (some (c.mapKeys f)) =
    (put a i (some c)).map (List.map (Option.map (Node.mapKeys f))) := put_map (Option.map (Node.mapKeys f)) a i (some c)

lemma setChild_map (bp : IndexNode Node) (i : Nat) (c : Node) :
    (bp.mapKeys f).setChild i (c.mapKeys f) = (bp.setChild i c).map (IndexNode.mapKeys f) := by
  simp only [IndexNode.setChild,IndexNode.mapKeys,putPtr_map,Option.map_map,comp_def]

variable {f} (zero : f 0 = 0)
include zero

lemma memmove_blank (n i : Nat) (src : List Int) (j k : Nat) :
    memmove (List.replicate n 0) i (src.map f) j k = (memmove (List.replicate n 0) i src j k).map (List.map f) := by
  rw [← memmove_map,map_replicate,zero]

lemma upperHalf_map (t : Nat) (links : Links) (node : Node) :
    upperHalf t links (node.mapKeys f) = (upperHalf t links node).map (Prod.map id (Node.mapKeys f)) := by
  cases node with
  | leaf snodep =>
    simp [upperHalf,allocLeafNode,LeafNode.mapKeys,memmove_blank zero,bind_map,Option.map_bind]
  | index snodep =>
    have pointers : ∀ i j k, memmove (List.replicate (2*t) none) i (snodep.child.map (Option.map (Node.mapKeys f))) j k =
        (memmove (List.replicate (2*t) none) i snodep.child j k).map (List.map (Option.map (Node.mapKeys f))) := by
      intro i j k
      rw [← memmove_map,map_replicate,map_none]
    simp [upperHalf,allocIndexNode,IndexNode.mapKeys,memmove_blank zero,pointers,bind_map,Option.map_bind]

lemma btreeSplit_map (t : Nat) (links : Links) (bp : IndexNode Node) (ci : Nat) :
    btreeSplit t links (bp.mapKeys f) ci = (btreeSplit t links bp ci).map (Prod.map id (IndexNode.mapKeys f)) := by
  simp [btreeSplit,childAt_map,upperHalf_map zero,setChild_map,shiftUp_map,put_map,putPtr_map,bind_map,Option.map_bind,
    bind_assoc,comp_def]

omit zero

variable {key : Int} (alike : ∀ x, f key < f x ↔ key < x)
include alike

lemma insertLeaf_map (bp : LeafNode) (val : Int) :
    insertLeaf (bp.mapKeys f) (f key) val = (insertLeaf bp key val).map (LeafNode.mapKeys f) := by
  simp [insertLeaf,seekDown_map,alike,shiftUp_map,put_map,bind_map,Option.map_bind,bind_assoc,comp_def,
    LeafNode.mapKeys]

include zero

lemma splitFull_map (t : Nat) (links : Links) (bp : IndexNode Node) (i : Nat) :
    splitFull t links (bp.mapKeys f) i (f key) =
      (splitFull t links bp i key).map (Prod.map id (Prod.map (IndexNode.mapKeys f) id)) := by
  have alike' : ∀ x, f x ≤ f key ↔ x ≤ key := fun x => by rw [← not_lt,alike,not_lt]
  simp only [splitFull,bind_eq_bind,childAt_map,bind_map,Option.map_bind,comp_def,nkeys_mapKeys]
  refine Option.bind_congr fun c _ => ?_
  by_cases full : c.nkeys = 2*t-1
  · simp [full,btreeSplit_map zero,alike',bind_map,Option.map_bind]
  · simp [full]

lemma btreeInsertInternal_map (t fuel : Nat) (links : Links) (node : Node) (val : Int) :
    btreeInsertInternal t fuel links (node.mapKeys f) (f key) val =
      (btreeInsertInternal t fuel links node key val).map (Prod.map id (Node.mapKeys f)) := by
  induction fuel generalizing links node with
  | zero => rfl
  | succ fuel ih =>
    cases node with
    | leaf bp => simp [btreeInsertInternal,insertLeaf_map alike,comp_def]
    | index bp =>
      simp [btreeInsertInternal,seekDown_map,alike,splitFull_map zero alike,childAt_map,ih,setChild_map,bind_map,
        Option.map_bind]

lemma btreeInsert_map (bt : BTree) (val : Int) :
    (bt.mapKeys f).btreeInsert (f key) val = (bt.btreeInsert key val).map (BTree.mapKeys f) := by
  have fresh : (allocIndexNode bt.t 0).mapKeys f = allocIndexNode bt.t 0 := by simp [allocIndexNode,zero]
  have placed : (allocIndexNode bt.t 0).setChild 0 (bt.root.mapKeys f) =
      ((allocIndexNode bt.t 0).setChild 0 bt.root).map (IndexNode.mapKeys f) := by rw [← setChild_map,fresh]
  have inserted := btreeInsertInternal_map zero alike
  by_cases full : bt.root.nkeys = 2*bt.t-1
  · have below : ∀ fuel links bp, btreeInsertInternal bt.t fuel links (.index (bp.mapKeys f)) (f key) val =
        (btreeInsertInternal bt.t fuel links (.index bp) key val).map (Prod.map id (Node.mapKeys f)) :=
      fun fuel links bp => by rw [← mapKeys_index,inserted]
    simp [BTree.btreeInsert,full,placed,btreeSplit_map zero,height_mapKeys,below,bind_map,Option.map_bind,comp_def,
      BTree.mapKeys]
  · simp [BTree.btreeInsert,full,height_mapKeys,inserted,bind_map,Option.map_bind,comp_def,BTree.mapKeys]

end

section
variable (f : Int → Int)

lemma putKey_map (i : Nat) (key : Int) (node : Node) :
    (node.mapKeys f).putKey i (f key) = (node.putKey i key).map (Node.mapKeys f) := by
  cases node <;> simp [Node.putKey,put_map,comp_def,LeafNode.mapKeys]

lemma ptr_map (i : Nat) (node : Node) : (node.mapKeys f).ptr i = (node.ptr i).map (Option.map (Node.mapKeys f)) := by
  cases node <;> simp [Node.ptr]

lemma movePtr_map (i : Nat) (p : Option Node) (node : Node) :
    (node.mapKeys f).putPtr i (p.map (Node.mapKeys f)) = (node.putPtr i p).map (Node.mapKeys f) := by
  cases node <;> simp [Node.putPtr,put_map,comp_def]

lemma moveCell_map (dest : Node) (i : Nat) (src : Node) (j n : Nat) :
    moveCell (dest.mapKeys f) i (src.mapKeys f) j n = (moveCell dest i src j n).map (Node.mapKeys f) := by
  cases dest <;> cases src <;>
    simp [moveCell,memmove_map,bind_map,Option.map_bind,LeafNode.mapKeys]

lemma borrowCells_map (me borrow : Node) (nborrow : Nat) (fromRight : Bool) (pkey : Int) :
    borrowCells (me.mapKeys f) (borrow.mapKeys f) nborrow fromRight (f pkey) =
      (borrowCells me borrow nborrow fromRight pkey).map (Prod.map (Node.mapKeys f) (Prod.map (Node.mapKeys f) f)) := by
  cases me with
  | leaf me =>
    cases fromRight <;> simp only [mapKeys_leaf,borrowCells,bind_eq_bind] <;>
      simp only [← mapKeys_leaf,moveCell_map,bind_map,Option.map_bind,comp_def,nkeys_mapKeys,keys_mapKeys,
        getElem?_map] <;> rfl
  | index me =>
    cases fromRight with
    | true =>
      simp only [mapKeys_index,borrowCells,bind_eq_bind]
      simp only [← mapKeys_index,moveCell_map,putKey_map,ptr_map,movePtr_map,bind_map,Option.map_bind,comp_def,
        nkeys_mapKeys,keys_mapKeys,getElem?_map]
      rfl
    | false =>
      by_cases several : nborrow-1 > 0 <;> simp only [mapKeys_index,borrowCells,bind_eq_bind,several,if_true,if_false] <;>
        simp only [← mapKeys_index,moveCell_map,putKey_map,ptr_map,movePtr_map,bind_map,Option.map_bind,comp_def,
          nkeys_mapKeys,keys_mapKeys,getElem?_map] <;> rfl

lemma redistribute_map (t : Nat) (bp : IndexNode Node) (me borrowFrom : Nat) :
    redistribute t (bp.mapKeys f) me borrowFrom = (redistribute t bp me borrowFrom).map (IndexNode.mapKeys f) := by
  simp only [redistribute,bind_eq_bind,childAt_map,bind_map,Option.map_bind,comp_def,nkeys_mapKeys]
  refine Option.bind_congr fun meNode _ => Option.bind_congr (fun borrowNode _ => ?_)
  by_cases wanting : meNode.nkeys < t-1 ∧ t-1 < borrowNode.nkeys
  · by_cases enough : (meNode.nkeys+borrowNode.nkeys)/2-meNode.nkeys < borrowNode.nkeys
    · simp [wanting,enough,borrowCells_map,put_map,setChild_map,bind_map,Option.map_bind,comp_def]
    · simp [wanting,enough]
  · simp [wanting]

lemma mergeNodes_map (links : Links) (pkey : Int) (l r : Node) :
    mergeNodes links (f pkey) (l.mapKeys f) (r.mapKeys f) = (mergeNodes links pkey l r).map (Prod.map id (Node.mapKeys f)) := by
  cases l with
  | leaf l =>
    cases r with
    | leaf r =>
      simp only [mapKeys_leaf,mergeNodes,bind_eq_bind]
      simp only [← mapKeys_leaf,moveCell_map,bind_map,Option.map_bind,comp_def,setNkeys_mapKeys]
      rfl
    | index r => simp [mergeNodes]
  | index l =>
    cases r with
    | leaf r => simp [mergeNodes]
    | index r =>
      simp only [mapKeys_index,mergeNodes,bind_eq_bind]
      simp only [← mapKeys_index,putKey_map,moveCell_map,ptr_map,movePtr_map,bind_map,Option.map_bind,comp_def,
        setNkeys_mapKeys]
      rfl

lemma merge_map (links : Links) (bp : IndexNode Node) (me toMerge : Nat) :
    merge links (bp.mapKeys f) me toMerge = (merge links bp me toMerge).map (Prod.map id (IndexNode.mapKeys f)) := by
  simp [merge,childAt_map,mergeNodes_map,setChild_map,shiftDown_map,bind_map,Option.map_bind,comp_def]

lemma balance_map (t : Nat) (links : Links) (bp : IndexNode Node) (ci : Nat) :
    balance t links (bp.mapKeys f) ci = (balance t links bp ci).map (Prod.map id (IndexNode.mapKeys f)) := by
  have branch := @apply_ite _ _ (Option.map (Prod.map (id : Links → Links) (IndexNode.mapKeys f)))
  by_cases hasLeft : ci > 0 <;> by_cases hasRight : ci < bp.nkeys <;>
    simp [balance,hasLeft,hasRight,childAt_map,redistribute_map,merge_map,branch,bind_map,Option.map_bind,comp_def]

lemma deleteEntry_map (bp : LeafNode) (idx : Nat) :
    deleteEntry (bp.mapKeys f) idx = (deleteEntry bp idx).map (LeafNode.mapKeys f) := by
  simp [deleteEntry,shiftDown_map,bind_map,Option.map_bind,comp_def,LeafNode.mapKeys]

lemma pairs_map (bp : LeafNode) : (bp.mapKeys f).pairs = bp.pairs.map (Prod.map f id) := by
  simp [LeafNode.pairs,zip_map_left,map_take]

lemma leaves_map (fuel : Nat) (node : Node) : leaves fuel (node.mapKeys f) = (leaves fuel node).map (LeafNode.mapKeys f) := by
  induction fuel generalizing node with
  | zero => rfl
  | succ fuel ih =>
    cases node with
    | leaf bp => simp [leaves]
    | index bp =>
      simp only [mapKeys_index,leaves,IndexNode.mapKeys_child,IndexNode.mapKeys_nkeys,← map_take,flatMap_map,map_flatMap]
      refine flatMap_congr fun p _ => ?_
      cases p with
      | none => rfl
      | some c => simp [ih]

end

def View.mapKeys (f : Int → Int) (v : View) : View :=
  ⟨v.node.mapKeys f,v.entries.map (Prod.map f id),v.leaves.map (LeafNode.mapKeys f)⟩

section
variable {f : Int → Int}

lemma leafView_map (node : LeafNode) (es : List (Int × Int)) :
    (leafView node es).mapKeys f = leafView (node.mapKeys f) (es.map (Prod.map f id)) := by
  simp [leafView,View.mapKeys]

lemma indexView_map (node : IndexNode Node) (cs : List View) :
    (indexView node cs).mapKeys f = indexView (node.mapKeys f) (cs.map (View.mapKeys f)) := by
  simp [indexView,View.mapKeys,map_flatMap,flatMap_map]

lemma leaf_holds_map {node : LeafNode} (holds : node.Holds es) :
    (node.mapKeys f).Holds (es.map (Prod.map f id)) := by
  refine ⟨by simpa using holds.count,?_,?_⟩
  · simpa [comp_def] using holds.keys.map f
  · simpa [comp_def] using holds.values

lemma index_holds_map {cs : List View} {node : IndexNode Node} (holds : node.Holds ks (cs.map View.node)) :
    (node.mapKeys f).Holds (ks.map f) ((cs.map (View.mapKeys f)).map View.node) := by
  refine ⟨by simpa using holds.count,holds.keys.map f,?_⟩
  simpa [comp_def,View.mapKeys] using holds.child.map (Option.map (Node.mapKeys f))

variable (increasing : StrictMono f)
include increasing

lemma Subtree.mapKeys (tree : Subtree h lo hi v) :
    Subtree h (lo.map f) (hi.map f) (v.mapKeys f) := by
  induction h generalizing lo hi v with
  | zero =>
    obtain ⟨node,es,rfl,shape⟩ := tree
    refine ⟨_,_,leafView_map node es,leaf_holds_map shape.holds,?_,?_,by simpa using shape.room⟩
    · exact pairwise_map.mpr (shape.sorted.imp (fun less => increasing less))
    · intro e mem
      obtain ⟨e,given,rfl⟩ := List.mem_map.mp mem
      exact (shape.within e given).map increasing
  | succ h ih =>
    obtain ⟨node,ks,cs,rfl,row⟩ := tree
    refine ⟨_,ks.map f,_,indexView_map node cs,index_holds_map row.holds,row.fenced.map increasing (fun _ _ _ child => ih child),?_,
      by simpa using row.room⟩
    intro c mem
    obtain ⟨c,given,rfl⟩ := List.mem_map.mp mem
    simpa [View.nkeys,View.mapKeys] using row.fill c given

lemma Refined.mapKeys (refined : Refined bt m h v) :
    Refined (bt.mapKeys f) (m.mapKeys f increasing) h (v.mapKeys f) := by
  refine ⟨refined.degree,?_,refined.tree.mapKeys increasing,?_,?_,?_⟩
  · rw [BTree.mapKeys_root,refined.root]
    rfl
  · simpa [View.nkeys,View.mapKeys] using refined.filled
  · rw [View.mapKeys,refined.entries]
    rfl
  · have same : (v.mapKeys f).ids = v.ids := by simp [View.ids,View.mapKeys,comp_def]
    rw [same]
    exact refined.linked

end

/-! ## Equal keys in the tree of `b+tree.c` -/
open Runs

section
variable {f : Int → Int} {key : Int} (alike : ∀ x, f key < f x ↔ key < x)
include alike

omit alike in
/-- The test for the key has the same result if the key is there whenever one with its name is. -/
lemma foundBefore_map {node : LeafNode} (holds : node.Holds (pre++post))
    (sorted : Sorted (pre++post)) (low : ∀ e ∈ pre, e.1 ≤ key) (high : ∀ e ∈ post, key < e.1)
    (last : ∀ e ∈ pre++post, f e.1 = f key → ∃ e' ∈ pre++post, e'.1 = key) :
    (pre.length > 0 ∧ (node.keys.map f)[pre.length-1]? = some (f key)) ↔ pre.length > 0 ∧ node.keys[pre.length-1]? = some key := by
  rw [getElem?_map]
  refine ⟨fun found => ?_,fun ⟨some_,read⟩ => ⟨some_,by rw [read]; rfl⟩⟩
  rcases holds.foundBefore sorted low high with ⟨some_,read,_⟩ | ⟨_,absent⟩
  · exact ⟨some_,read⟩
  · obtain ⟨some_,read⟩ := found
    obtain ⟨x,there,name⟩ := map_eq_some_iff.mp read
    obtain ⟨front,e,rfl⟩ : ∃ front e, pre = front++[e] :=
      ⟨pre.dropLast,pre.getLast (by rintro rfl; simp at some_),(dropLast_concat_getLast _).symm⟩
    have stored : Slices.Holds 3 (front.map Prod.fst ++ e.1::post.map Prod.fst) node.keys := by simpa using holds.keys
    have here := stored.get (i := (front++[e]).length-1) (by simp)
    obtain rfl : e.1 = x := some.inj (here.symm.trans there)
    obtain ⟨e',mem,same⟩ := last e (by simp) name
    exact absurd same (absent e' mem)

lemma deleteLeaf_map {node : LeafNode} (holds : node.Holds es) (sorted : Sorted es)
    (last : ∀ e ∈ es, f e.1 = f key → ∃ e' ∈ es, e'.1 = key) :
    deleteLeaf 2 (node.mapKeys f) (f key) = (deleteLeaf 2 node key).map (Prod.map (LeafNode.mapKeys f) id) := by
  obtain ⟨pre,post,rfl,sought,low,high⟩ := holds.seekDown sorted key
  have test := foundBefore_map holds sorted low high last
  simp only [deleteLeaf,LeafNode.mapKeys_keys,LeafNode.mapKeys_nkeys,seekDown_map,alike,sought,some_bind,
    test]
  by_cases found : pre.length > 0 ∧ node.keys[pre.length-1]? = some key
  · simp [found,deleteEntry_map,bind_map,Option.map_bind]
  · rw [if_neg found,if_neg found]
    rfl

lemma getLeaf_map {node : LeafNode} (holds : node.Holds es) (sorted : Sorted es)
    (last : ∀ e ∈ es, f e.1 = f key → ∃ e' ∈ es, e'.1 = key) (fuel : Nat) :
    btreeGet (fuel+1) (.leaf (node.mapKeys f)) (f key) =
      (btreeGet (fuel+1) (.leaf node) key).map (Option.map (Prod.map (LeafNode.mapKeys f) id)) := by
  obtain ⟨pre,post,rfl,sought,low,high⟩ := holds.seek sorted key
  have test := foundBefore_map holds sorted low high last
  simp only [ge_iff_le,not_le] at sought
  simp only [btreeGet,LeafNode.mapKeys_keys,LeafNode.mapKeys_nkeys,seek_map,ge_iff_le,not_le,alike,sought,bind_eq_bind,
    bind_some,test]
  by_cases found : pre.length > 0 ∧ node.keys[pre.length-1]? = some key
  · rw [if_pos found,if_pos found]
    rfl
  · rw [if_neg found,if_neg found]
    rfl

omit alike in
lemma Descent.last
    (descent : Descent h lo hi key pre post cs1 c cs2)
    (last : ∀ e ∈ (cs1++c::cs2).flatMap View.entries, f e.1 = f key → ∃ e' ∈ (cs1++c::cs2).flatMap View.entries, e'.1 = key) :
    ∀ e ∈ c.entries, f e.1 = f key → ∃ e' ∈ c.entries, e'.1 = key := by
  rw [flatMap_append,flatMap_cons] at last
  intro e mem name
  obtain ⟨e',stored,same⟩ := last e (by simp [mem]) name
  simp only [mem_append] at stored
  rcases stored with before | here | behind
  · exact absurd same (descent.below e' before).ne
  · exact ⟨e',here,same⟩
  · exact absurd same (descent.above e' behind).ne'

lemma Subtree.delete_map (tree : Subtree h lo hi v) (inside : Within lo hi key)
    (last : ∀ e ∈ v.entries, f e.1 = f key → ∃ e' ∈ v.entries, e'.1 = key) (fuel : Nat) (links : Links) :
    btreeDeleteInternal 2 fuel links (v.node.mapKeys f) (f key) =
      (btreeDeleteInternal 2 fuel links v.node key).map (Prod.map id (Prod.map (Node.mapKeys f) id)) := by
  induction h generalizing lo hi v fuel links with
  | zero =>
    obtain ⟨node,es,rfl,shape⟩ := tree
    cases fuel with
    | zero => rfl
    | succ fuel =>
      simp [leafView,btreeDeleteInternal,deleteLeaf_map alike shape.holds shape.sorted last,comp_def]
  | succ h ih =>
    obtain ⟨node,ks,cs,rfl,row⟩ := tree
    cases fuel with
    | zero => rfl
    | succ fuel =>
      obtain ⟨pre,post,rfl,sought,low,high⟩ := row.seekDown key
      obtain ⟨cs1,c,cs2,rfl,descent⟩ := descend row.fenced inside low high
      obtain ⟨lo',hi',child,within,_⟩ := descent.bounds
      have held := row.holds
      rw [map_append,map_cons] at held
      have read := held.childAt
      rw [length_map,descent.left] at read
      have below := ih child within (descent.last last) fuel links
      simp only [indexView,mapKeys_index,btreeDeleteInternal,IndexNode.mapKeys_keys,IndexNode.mapKeys_nkeys,seekDown_map,alike,
        sought,childAt_map,read,below,bind_eq_bind,bind_some,bind_map,Option.map_bind,
        comp_def]
      refine Option.bind_congr fun out _ => ?_
      obtain ⟨links',c',tmp⟩ := out
      cases tmp <;> simp [setChild_map,balance_map,bind_map,Option.map_bind]

lemma Subtree.get_map (tree : Subtree h lo hi v) (inside : Within lo hi key)
    (last : ∀ e ∈ v.entries, f e.1 = f key → ∃ e' ∈ v.entries, e'.1 = key) (fuel : Nat) :
    BPlusTree.btreeGet fuel (v.node.mapKeys f) (f key) =
      (BPlusTree.btreeGet fuel v.node key).map (Option.map (Prod.map (LeafNode.mapKeys f) id)) := by
  induction h generalizing lo hi v fuel with
  | zero =>
    obtain ⟨node,es,rfl,shape⟩ := tree
    cases fuel with
    | zero => rfl
    | succ fuel =>
      simp only [leafView,mapKeys_leaf]
      exact getLeaf_map alike shape.holds shape.sorted last fuel
  | succ h ih =>
    obtain ⟨node,ks,cs,rfl,row⟩ := tree
    cases fuel with
    | zero => rfl
    | succ fuel =>
      obtain ⟨pre,post,rfl,sought,low,high⟩ := row.holds.keys.seek (fun x => decide (key < x)) row.holds.count
      obtain ⟨cs1,c,cs2,rfl,descent⟩ := descend row.fenced inside (by simpa using low) (by simpa using high)
      obtain ⟨lo',hi',child,within,_⟩ := descent.bounds
      have held := row.holds
      rw [map_append,map_cons] at held
      have read := held.childAt
      rw [length_map,descent.left] at read
      have below := ih child within (descent.last last) fuel
      simp only [indexView,mapKeys_index,BPlusTree.btreeGet,IndexNode.mapKeys_keys,IndexNode.mapKeys_nkeys,seek_map,ge_iff_le,not_le,
        alike,sought,childAt_map,read,below,map_some,some_bind]

lemma Refined.delete_map (refined : Refined bt m h v)
    (last : ∀ e ∈ m.entries, f e.1 = f key → ∃ e' ∈ m.entries, e'.1 = key) :
    (bt.mapKeys f).btreeDelete (f key) = (bt.btreeDelete key).map (BTree.mapKeys f) := by
  rw [← refined.entries] at last
  have deleted := refined.tree.delete_map alike (within_unbounded key) last bt.root.height bt.links
  rw [← refined.root] at deleted
  simp only [BTree.btreeDelete,BTree.mapKeys_root,BTree.mapKeys_t,BTree.mapKeys_links,height_mapKeys,refined.degree,deleted,
    bind_eq_bind,bind_map,Option.map_bind,comp_def]
  refine Option.bind_congr fun out _ => ?_
  obtain ⟨links,root,flag⟩ := out
  cases root with
  | leaf bp => simp [BTree.mapKeys]
  | index bp =>
    by_cases single : bp.nkeys = 0
    · simp [single,childAt_map,bind_map,Option.map_bind,comp_def,BTree.mapKeys]
    · simp [single,BTree.mapKeys]

lemma Refined.get_map (refined : Refined bt m h v)
    (last : ∀ e ∈ m.entries, f e.1 = f key → ∃ e' ∈ m.entries, e'.1 = key) :
    (bt.mapKeys f).get (f key) = some (m.get key) := by
  rw [← refined.entries] at last
  have sought := refined.tree.get_map alike (within_unbounded key) last bt.root.height
  rw [← refined.root] at sought
  rw [← refined.get key]
  simp only [BTree.get,BTree.mapKeys_root,height_mapKeys,sought,bind_eq_bind,bind_map,comp_def]
  refine Option.bind_congr fun found _ => ?_
  cases found <;> simp

end

/-- The entries in the leaves, from left to right. -/
def BTree.stored (bt : BTree) : List (Int × Int) := (leaves bt.root.height bt.root).flatMap LeafNode.pairs

/-- The tree is that of a map over labels; `u key` is the last label of a key and of those below it. -/
structure Named (bt : BTree) (f u : Int → Int) (labels : BTree) (m : SortedMap Int Int) : Prop where
  last : GaloisConnection f u
  zero : f 0 = 0
  image : bt = labels.mapKeys f
  refined : ∃ h v, Refined labels m h v

/-- The last label of a key that is stored belongs to an entry. -/
def Tight (f u : Int → Int) (m : SortedMap Int Int) : Prop := ∀ e ∈ m.entries, ∃ e' ∈ m.entries, e'.1 = u (f e.1)

section
variable {bt labels : BTree} {f u : Int → Int} {m : SortedMap Int Int} {key : Int}

section
variable (named : Named bt f u labels m)
include named

lemma Named.stored_eq : bt.stored = m.entries.map (Prod.map f id) := by
  obtain ⟨h,v,refined⟩ := named.refined
  have listed := refined.tree.leaves_eq (refined.root ▸ refined.tree.height_lt : h < labels.root.height)
  rw [← refined.root] at listed
  rw [named.image,BTree.stored,BTree.mapKeys_root,height_mapKeys,leaves_map,listed,flatMap_map,← refined.entries,
    ← refined.tree.pairs,map_flatMap]
  exact flatMap_congr fun bp _ => pairs_map f bp

lemma Named.mem_stored : (∃ e ∈ bt.stored, e.1 = key) ↔ ∃ e ∈ m.entries, f e.1 = key := by
  rw [named.stored_eq]
  constructor
  · rintro ⟨_,mem,rfl⟩
    obtain ⟨e,given,rfl⟩ := List.mem_map.mp mem
    exact ⟨e,given,rfl⟩
  · rintro ⟨e,given,rfl⟩
    exact ⟨_,List.mem_map_of_mem given,rfl⟩

lemma Named.alike (name : f (u key) = key) (x : Int) : f (u key) < f x ↔ u key < x := by
  rw [name,← not_le,named.last,not_le]

lemma Named.name (stored : ∃ e ∈ m.entries, f e.1 = key) : f (u key) = key := by
  obtain ⟨e,_,rfl⟩ := stored
  exact named.last.l_u_l_eq_l e.1

end

lemma Tight.last (tight : Tight f u m) (stored : ∃ e ∈ m.entries, f e.1 = key) : ∃ e ∈ m.entries, e.1 = u key := by
  obtain ⟨e,mem,rfl⟩ := stored
  exact tight e mem

/-- The labels are spread out, and the gap behind those of a key and all below becomes a label of the key. -/
lemma Named.fresh (named : Named bt f u labels m) (tight : Tight f u m) (key : Int) :
    ∃ f' u' labels' m', Named bt f' u' labels' m' ∧ f' (u' key) = key ∧ (∀ e ∈ m'.entries, e.1 ≠ u' key) ∧
      ∀ e ∈ m'.entries, f' e.1 ≠ key → ∃ e' ∈ m'.entries, e'.1 = u' (f' e.1) := by
  obtain ⟨last,zero,image,h,v,refined⟩ := named
  have increasing : StrictMono (fun x : Int => 2*x) := fun x y less => by
    change 2*x < 2*y
    omega
  let f' : Int → Int := fun y => if y = 2*u key+1 then key else f ((y+1)/2)
  let u' : Int → Int := fun j => if u j = u key ∧ key ≤ j then 2*u key+1 else 2*u j
  have even : ∀ x, f' (2*x) = f x := by
    intro x
    have apart : 2*x ≠ 2*u key+1 := by omega
    have half : (2*x+1)/2 = x := by omega
    simp only [f',if_neg apart,half]
  have here : u' key = 2*u key+1 := by simp [u']
  refine ⟨f',u',labels.mapKeys (fun x => 2*x),m.mapKeys _ increasing,⟨?_,?_,?_,h,_,refined.mapKeys increasing⟩,?_,?_,?_⟩
  · intro y j
    have below := last ((y+1)/2) j
    have up : key ≤ j → u key ≤ u j := fun le => last.monotone_u le
    have down : j ≤ key → u j ≤ u key := fun le => last.monotone_u le
    simp only [f',u']
    split <;> split <;> omega
  · exact (even 0).trans zero
  · have undone : f' ∘ (fun x => 2*x) = f := funext even
    rw [image,BTree.mapKeys,BTree.mapKeys,BTree.mapKeys,mapKeys_mapKeys,undone]
  · rw [here]
    simp [f']
  · intro e mem
    obtain ⟨e,_,rfl⟩ := List.mem_map.mp mem
    rw [here]
    change 2*e.1 ≠ _
    omega
  · intro e mem other
    obtain ⟨e,given,rfl⟩ := List.mem_map.mp mem
    change f' (2*e.1) ≠ key at other
    rw [even] at other
    obtain ⟨e',stored,same⟩ := tight e given
    refine ⟨_,List.mem_map_of_mem stored,?_⟩
    change 2*e'.1 = u' (f' (2*e.1))
    have apart : ¬ (u (f e.1) = u key ∧ key ≤ f e.1) := by
      rintro ⟨together,le⟩
      have name := last.l_u_l_eq_l e.1
      have bound := last.l_u_le key
      rw [together] at name
      omega
    rw [even,same]
    simp only [u',if_neg apart]

end

/-- A key is deleted only while it is stored at most once. -/
def DeletesSingle (bt : BTree) : Op → Prop
  | .insert _ _ => True
  | .delete key => bt.stored.countP (fun e => e.1 = key) ≤ 1
instance (bt : BTree) : ∀ op, Decidable (DeletesSingle bt op)
  | .insert _ _ => isTrue trivial
  | .delete _ => decideAs (_ ≤ _)

/-- The tree is that of a map over labels in which every stored key can be found. -/
def Labelled (bt : BTree) : Prop := ∃ f u labels m, Named bt f u labels m ∧ Tight f u m

section
variable {bt : BTree} {key : Int}

lemma labelled_new : Labelled (btreeNew 2) := by
  obtain ⟨v,refined⟩ := refined_new
  refine ⟨id,id,btreeNew 2,SortedMap.empty,⟨GaloisConnection.id,rfl,?_,0,v,refined⟩,by simp [Tight,SortedMap.empty]⟩
  simp [BTree.mapKeys,btreeNew,allocLeafNode,LeafNode.mapKeys]

section
variable (labelled : Labelled bt)
include labelled

lemma Labelled.insert (key val : Int) :
    ∃ bt', bt.btreeInsert key val = some bt' ∧ Labelled bt' ∧ bt'.stored.Perm ((key,val)::bt.stored) := by
  obtain ⟨f0,u0,labels0,m0,named0,tight0⟩ := labelled
  obtain ⟨f,u,labels,m,named,name,absent,tight⟩ := named0.fresh tight0 key
  obtain ⟨h,v,refined⟩ := named.refined
  obtain ⟨labels',h',v',done,refined'⟩ := refined.insert val (get_eq_none absent)
  have named' : Named (labels'.mapKeys f) f u labels' (m.set (u key) val) := ⟨named.last,named.zero,rfl,h',v',refined'⟩
  refine ⟨labels'.mapKeys f,?_,⟨f,u,labels',_,named',?_⟩,?_⟩
  · have inserted := btreeInsert_map named.zero (named.alike name) labels val
    rwa [name,done,← named.image] at inserted
  · have there : (u key,val) ∈ (m.set (u key) val).entries := (mem_setEntry_iff m.sorted).mpr (.inl rfl)
    intro e mem
    rcases (mem_setEntry_iff m.sorted).mp mem with rfl | ⟨given,_⟩
    · exact ⟨_,there,by rw [name]⟩
    · by_cases same : f e.1 = key
      · exact ⟨_,there,by rw [same]⟩
      · obtain ⟨e',stored,label⟩ := tight e given same
        exact ⟨e',(mem_setEntry_iff m.sorted).mpr (.inr ⟨stored,absent e' stored⟩),label⟩
  · have added := (setEntry_perm val absent).map (Prod.map f id)
    rw [map_cons,Prod.map_apply,name] at added
    rwa [named'.stored_eq,named.stored_eq]

lemma Labelled.delete_missing (missing : ∀ e ∈ bt.stored, e.1 ≠ key) :
    ∃ bt', bt.btreeDelete key = some bt' ∧ Labelled bt' ∧ bt'.stored = bt.stored := by
  obtain ⟨f0,u0,labels0,m0,named0,tight0⟩ := labelled
  obtain ⟨f,u,labels,m,named,name,absent,tight⟩ := named0.fresh tight0 key
  obtain ⟨h,v,refined⟩ := named.refined
  have other : ∀ e ∈ m.entries, f e.1 ≠ key := by
    intro e mem same
    obtain ⟨e',stored,same'⟩ := named.mem_stored.mpr ⟨e,mem,same⟩
    exact missing e' stored same'
  obtain ⟨labels',h',v',done,refined'⟩ := refined.delete (u key)
  have kept : (m.erase (u key)).entries = m.entries := filter_ne_self absent
  have named' : Named (labels'.mapKeys f) f u labels' (m.erase (u key)) := ⟨named.last,named.zero,rfl,h',v',refined'⟩
  refine ⟨labels'.mapKeys f,?_,⟨f,u,labels',_,named',?_⟩,by rw [named'.stored_eq,named.stored_eq,kept]⟩
  · have deleted := refined.delete_map (named.alike name) (fun e mem same => absurd (same.trans name) (other e mem))
    rwa [name,done,← named.image] at deleted
  · rw [Tight,kept]
    exact fun e mem => tight e mem (other e mem)

/-- One entry is taken out; what is left can all be found if there was no other one with the key. -/
lemma Labelled.delete_stored (stored : ∃ e ∈ bt.stored, e.1 = key) :
    ∃ bt' pre val post, bt.btreeDelete key = some bt' ∧ bt.stored = pre++(key,val)::post ∧ bt'.stored = pre++post ∧
      (bt.stored.countP (fun e => e.1 = key) ≤ 1 → Labelled bt') := by
  obtain ⟨f,u,labels,m,named,tight⟩ := labelled
  have labelled := named.mem_stored.mp stored
  have name := named.name labelled
  obtain ⟨⟨label,val⟩,mem,rfl⟩ := tight.last labelled
  obtain ⟨pre,post,cut⟩ := append_of_mem mem
  have sorted := m.sorted
  rw [cut] at sorted
  have erased : (m.erase (u key)).entries = pre++post := by
    change m.entries.filter _ = _
    rw [cut]
    exact filter_ne_cons sorted
  obtain ⟨h,v,refined⟩ := named.refined
  obtain ⟨labels',h',v',done,refined'⟩ := refined.delete (u key)
  have named' : Named (labels'.mapKeys f) f u labels' (m.erase (u key)) := ⟨named.last,named.zero,rfl,h',v',refined'⟩
  have before : bt.stored = pre.map (Prod.map f id) ++ (key,val)::post.map (Prod.map f id) := by
    rw [named.stored_eq,cut,map_append,map_cons,Prod.map_apply,name]
    rfl
  refine ⟨labels'.mapKeys f,_,val,_,?_,before,?_,fun single => ⟨f,u,labels',_,named',?_⟩⟩
  · have deleted := refined.delete_map (named.alike name) (fun _ _ _ => ⟨_,mem,rfl⟩)
    rwa [name,done,← named.image] at deleted
  · rw [named'.stored_eq,erased,map_append]
  · have other : ∀ e ∈ pre++post, f e.1 ≠ key := by
      rw [before,countP_append,countP_cons_of_pos (by simp)] at single
      have none_ : (pre++post).countP (fun e => f e.1 = key) = 0 := by
        rw [countP_append]
        simp only [countP_map,comp_def,Prod.map_fst] at single
        omega
      simpa using countP_eq_zero.mp none_
    rw [Tight,erased]
    intro e given
    have whole : e ∈ m.entries := by
      rw [cut]
      simp only [mem_append,mem_cons] at given ⊢
      tauto
    obtain ⟨e',there,last⟩ := tight e whole
    have apart : e' ≠ (u key,val) := by
      rintro rfl
      have same := named.last.l_u_l_eq_l e.1
      rw [← last,name] at same
      exact other e given same.symm
    rw [cut] at there
    simp only [mem_append,mem_cons] at there ⊢
    exact ⟨e',by tauto,last⟩

lemma Labelled.get (key : Int) :
    ∃ found, bt.get key = some found ∧ (found ≠ none ↔ ∃ e ∈ bt.stored, e.1 = key) := by
  obtain ⟨f,u,labels,m,named,tight⟩ := labelled
  by_cases stored : ∃ e ∈ bt.stored, e.1 = key
  · have labelled := named.mem_stored.mp stored
    have name := named.name labelled
    obtain ⟨⟨label,val⟩,mem,rfl⟩ := tight.last labelled
    obtain ⟨h,v,refined⟩ := named.refined
    have sought := refined.get_map (named.alike name) (fun _ _ _ => ⟨_,mem,rfl⟩)
    rw [name,← named.image,get_eq_some_iff.mpr mem] at sought
    exact ⟨some val,sought,by simpa using stored⟩
  · obtain ⟨f',u',labels',m',named',name,absent,_⟩ := named.fresh tight key
    obtain ⟨h,v,refined⟩ := named'.refined
    have other : ∀ e ∈ m'.entries, f' e.1 ≠ key := fun e mem same => stored (named'.mem_stored.mpr ⟨e,mem,same⟩)
    have sought := refined.get_map (named'.alike name) (fun e mem same => absurd (same.trans name) (other e mem))
    rw [name,← named'.image,get_eq_none absent] at sought
    exact ⟨none,sought,by simpa using stored⟩

lemma Labelled.step (meets : DeletesSingle bt op) :
    ∃ bt', bt.step op = some bt' ∧ Labelled bt' := by
  cases op with
  | insert key val =>
    obtain ⟨bt',done,labelled',_⟩ := labelled.insert key val
    exact ⟨bt',done,labelled'⟩
  | delete key =>
    by_cases stored : ∃ e ∈ bt.stored, e.1 = key
    · obtain ⟨bt',_,_,_,done,_,_,labelled'⟩ := labelled.delete_stored stored
      exact ⟨bt',done,labelled' meets⟩
    · obtain ⟨bt',done,labelled',_⟩ := labelled.delete_missing (fun e mem same => stored ⟨e,mem,same⟩)
      exact ⟨bt',done,labelled'⟩

end

lemma labelled_reached (reached : Reach (· = btreeNew 2) DeletesSingle BTree.step bt) : Labelled bt := by
  refine Reach.invariant (fun s first => first ▸ labelled_new) (fun s op t labelled meets moved => ?_) bt reached
  obtain ⟨bt',done,labelled'⟩ := labelled.step meets
  obtain rfl : bt' = t := some.inj (done.symm.trans moved)
  exact labelled'

end

/-- While keys are deleted only when they are stored once, a key is found exactly when a leaf stores it, an insertion adds its
entry, a deletion of any stored key takes out one entry with that key, and one of another key nothing. -/
theorem duplicates_found (bt : BTree) (reached : Reach (· = btreeNew 2) DeletesSingle BTree.step bt) :
    (∀ key, ∃ found, bt.get key = some found ∧ (found ≠ none ↔ ∃ e ∈ bt.stored, e.1 = key)) ∧
    (∀ key val, ∃ bt', bt.btreeInsert key val = some bt' ∧ bt'.stored.Perm ((key,val)::bt.stored)) ∧
    (∀ key, (∃ e ∈ bt.stored, e.1 = key) → ∃ bt' pre val post, bt.btreeDelete key = some bt' ∧
      bt.stored = pre++(key,val)::post ∧ bt'.stored = pre++post) ∧
    ∀ key, (∀ e ∈ bt.stored, e.1 ≠ key) → ∃ bt', bt.btreeDelete key = some bt' ∧ bt'.stored = bt.stored := by
  have labelled := labelled_reached reached
  refine ⟨labelled.get,fun key val => ?_,fun key stored => ?_,fun key missing => ?_⟩
  · obtain ⟨bt',done,_,added⟩ := labelled.insert key val
    exact ⟨bt',done,added⟩
  · obtain ⟨bt',pre,val,post,done,before,after,_⟩ := labelled.delete_stored stored
    exact ⟨bt',pre,val,post,done,before,after⟩
  · obtain ⟨bt',done,_,same⟩ := labelled.delete_missing missing
    exact ⟨bt',done,same⟩

/-- Three copies of a key are split between two leaves, and a key stored once is deleted. -/
theorem duplicates_found_copies : ∃ bt, Reach (· = btreeNew 2) DeletesSingle BTree.step bt ∧
    bt.stored = [(1,10),(1,11),(1,12)] ∧ (∃ val, bt.get 1 = some (some val)) ∧ bt.get 2 = some none := by
  obtain ⟨bt,reached,stored⟩ : ∃ bt, Reach (· = btreeNew 2) DeletesSingle BTree.step bt ∧ bt.stored = [(1,10),(1,11),(1,12)] :=
    exists_reach_from rfl [.insert 1 10,.insert 1 11,.insert 1 12,.insert 2 20,.delete 2] (by decide +kernel)
  have served := (duplicates_found bt reached).1
  refine ⟨bt,reached,stored,?_,?_⟩
  · obtain ⟨found,sought,there⟩ := served 1
    obtain ⟨val,rfl⟩ := ne_none_iff_exists'.mp (there.mpr (by simp [stored]))
    exact ⟨val,sought⟩
  · obtain ⟨found,sought,there⟩ := served 2
    obtain rfl : found = none := by
      by_contra some_
      have present := there.mp some_
      simp [stored] at present
    exact sought

/-- Of three copies the two on the right of the separator are deleted; the one on the left is still stored, but it is not found,
and a third deletion leaves it there. -/
theorem duplicates_lost : ∃ bt, Reach (· = btreeNew 2) anyStep BTree.step bt ∧ bt.stored = [(1,10),(2,20)] ∧ bt.get 1 = some none ∧
    (bt.btreeDelete 1).map BTree.stored = some [(1,10),(2,20)] :=
  exists_reach_from rfl [.insert 1 10,.insert 1 11,.insert 1 12,.insert 2 20,.delete 1,.delete 1] (by decide +kernel)

end CodeExercise.BPlusTree
