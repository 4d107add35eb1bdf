import CodeExercise.BPlusTreeNodes
import Mathlib

/-!
Insertion keeps the shape of a subtree that has room for a key (`Subtree.insert`): every full
child is split before the descent.
-/
namespace CodeExercise.BPlusTree
open Slices SortedMaps Fences List

/-- What one change does to the links and to the leaves of a tree in order. -/
inductive LinkStep : Links × List Nat → Links × List Nat → Prop
  | split (links : Links) (pre : List Nat) (id : Nat) (post : List Nat) :
      LinkStep (links,pre++id::post)
        ((allocLeafNode links 2 2).1.linkAfter id (links.id+1),pre++id::(links.id+1)::post)
  | merge (links : Links) (pre : List Nat) (left right : Nat) (post : List Nat) :
      LinkStep (links,pre++left::right::post) (links.unlink left right,pre++left::post)

def Relinked : Links × List Nat → Links × List Nat → Prop := Relation.ReflTransGen LinkStep
lemma Relinked.refl (s : Links × List Nat) : Relinked s s := Relation.ReflTransGen.refl

lemma Relinked.trans (first : Relinked s t) (second : Relinked t u) : Relinked s u :=
  Relation.ReflTransGen.trans first second

lemma Relinked.inside (relinked : Relinked (links,ids) (links',ids'))
    (pre post : List Nat) : Relinked (links,pre++(ids++post)) (links',pre++(ids'++post)) := by
  refine Relation.ReflTransGen.lift (fun s : Links × List Nat => (s.1,pre++(s.2++post))) ?_ _ _ relinked
  intro s t step
  simp only [Function.onFun]
  cases step with
  | split links left id right => simpa using LinkStep.split links (pre++left) id (right++post)
  | merge links left a b right => simpa using LinkStep.merge links (pre++left) a b (right++post)

/-- What is below a row of nodes. -/
def entriesOf (cs : List View) : List (Int × Int) := cs.flatMap View.entries
def idsOf (cs : List View) : List Nat := cs.flatMap View.ids

lemma ids_indexView (node : IndexNode Node) (cs : List View) : (indexView node cs).ids = idsOf cs := by
  simp only [indexView,View.ids,idsOf,map_flatMap]
  rfl

lemma Relinked.row (cs1 cs cs' cs2 : List View)
    (relinked : Relinked (links,idsOf cs) (links',idsOf cs')) : Relinked (links,idsOf (cs1++(cs++cs2))) (links',idsOf (cs1++(cs'++cs2))) := by
  simp only [idsOf,flatMap_append]
  exact relinked.inside _ _

section
variable {h : Nat} {lo hi : Option Int} {c : View}

/-- A full node in two halves with the key between them. -/
structure Halves (h : Nat) (lo hi : Option Int) (c : View) (k : Int) (l r : View) : Prop where
  fenced : Fenced (Subtree h) lo hi [k] [l,r]
  left : l.nkeys = 1
  right : 1 ≤ r.nkeys ∧ r.nkeys < 3
  entries : l.entries++r.entries = c.entries

lemma Subtree.split (tree : Subtree h lo hi c) (full : c.nkeys = 3) (links : Links) :
    ∃ links' k l r, upperHalf 2 links c.node = some (links',r.node) ∧ c.node.keys[1]? = some k ∧
      c.node.setNkeys 1 = l.node ∧ Halves h lo hi c k l r ∧ Relinked (links,c.ids) (links',l.ids++r.ids) := by
  cases h with
  | zero =>
    obtain ⟨node,es,rfl,shape⟩ := tree
    rw [nkeys_leaf shape.holds] at full
    obtain ⟨a,b,c,rfl⟩ : ∃ a b c, es = [a,b,c] := length_eq_three.mp full
    obtain ⟨new,done,upper,id,lower⟩ := shape.holds.upperHalf links
    have up : node.keys[1]? = some b.1 := (show Slices.Holds 3 ([a.1]++b.1::[c.1]) node.keys from shape.holds.keys).get rfl
    have pair := leaf_pair [a] shape.sorted shape.within lower upper (by simp) (by simp)
    refine ⟨_,b.1,leafView { node with nkeys := 1 } [a],leafView new [b,c],done,up,rfl,⟨pair,rfl,?_,rfl⟩,?_⟩
    · rw [nkeys_leaf upper]
      simp
    · have step := LinkStep.split links [] node.id []
      exact .single (by simpa [leafView,View.ids,id] using step)
  | succ h =>
    obtain ⟨node,ks,cs,rfl,row⟩ := tree
    rw [nkeys_index row.holds] at full
    have total := row.fenced.length
    obtain ⟨k0,k1,k2,rfl⟩ : ∃ a b c, ks = [a,b,c] := length_eq_three.mp full
    obtain ⟨c0,c1,c2,c3,rfl⟩ : ∃ a b c d, cs = [a,b,c,d] := length_eq_four.mp total
    obtain ⟨new,done,upper,lower⟩ := row.holds.upperHalf links
    have up : node.keys[1]? = some k1 := (show Slices.Holds 3 ([k0]++k1::[k2]) node.keys from row.holds.keys).get rfl
    have pair := index_pair [k0] [c0,c1] [c2,c3] row.fenced rfl row.fill lower upper (by simp)
      (by simp)
    refine ⟨links,k1,indexView { node with nkeys := 1 } [c0,c1],indexView new [c2,c3],done,up,rfl,⟨pair,rfl,?_,?_⟩,?_⟩
    · rw [nkeys_index upper]
      simp
    · simp [indexView]
    · rw [ids_indexView,ids_indexView,ids_indexView]
      simpa [idsOf] using Relinked.refl _

/-- A child with room below an index node, and what may take its place. -/
structure Slot (h : Nat) (lo hi : Option Int) (key : Int) (bp : IndexNode Node) (ks : List Int) (cs1 : List View) (x : View)
    (cs2 : List View) : Prop where
  holds : bp.Holds ks ((cs1++x::cs2).map View.node)
  room : ks.length ≤ 3
  fill : ∀ c ∈ cs1++x::cs2, 1 ≤ c.nkeys
  bounds : ∃ lo' hi', Subtree h lo' hi' x ∧ Within lo' hi' key ∧
    ∀ x', Subtree h lo' hi' x' → Fenced (Subtree h) lo hi ks (cs1++x'::cs2)
  below : ∀ e ∈ entriesOf cs1, e.1 < key
  above : ∀ e ∈ entriesOf cs2, key < e.1

lemma Descent.slot
    (descent : Descent h lo hi key pre post cs1 c cs2) (row : Row (Subtree h) lo hi bp (pre++post) (cs1++c::cs2)) :
    Slot h lo hi key bp (pre++post) cs1 c cs2 := by
  obtain ⟨lo',hi',child,room,replace⟩ := descent.bounds
  exact ⟨row.holds,row.room,row.fill,⟨lo',hi',child,room,fun x' tree => replace [] [x'] tree⟩,descent.below,descent.above⟩

lemma Halves.slot
    (halves : Halves h lo' hi' c k l r) (inside : Within lo' hi' key)
    (replace : ∀ ks cs, Fenced (Subtree h) lo' hi' ks cs → Fenced (Subtree h) lo hi (pre++(ks++post)) (cs1++(cs++cs2)))
    (holds : bp.Holds (pre++k::post) ((cs1++l::r::cs2).map View.node)) (room : (pre++k::post).length ≤ 3)
    (fill : ∀ c ∈ cs1++cs2, 1 ≤ c.nkeys) (below : ∀ e ∈ entriesOf cs1, e.1 < key) (above : ∀ e ∈ entriesOf cs2, key < e.1) :
    (key < k → Slot h lo hi key bp (pre++k::post) cs1 l (r::cs2)) ∧
      (k ≤ key → Slot h lo hi key bp (pre++k::post) (cs1++[l]) r cs2) := by
  obtain ⟨left,sep,right⟩ := halves.fenced
  have filled : ∀ c ∈ cs1++l::r::cs2, 1 ≤ c.nkeys := by
    intro c mem
    simp only [mem_append,mem_cons] at mem
    rcases mem with mem | rfl | rfl | mem
    · exact fill c (mem_append_left _ mem)
    · exact halves.left.ge
    · exact halves.right.1
    · exact fill c (mem_append_right _ mem)
  constructor
  · intro less
    refine ⟨holds,room,filled,⟨lo',some k,left,⟨inside.1,?_⟩,fun x' tree => replace [k] [x',r] ⟨tree,sep,right⟩⟩,below,?_⟩
    · intro u bound
      obtain rfl : k = u := by simpa using bound
      exact less
    · intro e mem
      rcases mem_append.mp (show e ∈ r.entries++entriesOf cs2 from mem) with here | behind
      · have low := (Subtree.ordered right).2 e here
        exact less.trans_le (low.1 k rfl)
      · exact above e behind
  · intro less
    have shifted : ∀ x : View, cs1 ++ l::x::cs2 = (cs1++[l])++x::cs2 := by simp
    rw [shifted] at holds filled
    refine ⟨holds,room,filled,⟨some k,hi',right,⟨?_,inside.2⟩,fun x' tree => ?_⟩,?_,above⟩
    · intro u bound
      obtain rfl : k = u := by simpa using bound
      exact less
    · rw [← shifted]
      exact replace [k] [l,x'] ⟨left,sep,tree⟩
    · intro e mem
      simp only [entriesOf,flatMap_append,flatMap_cons,flatMap_nil,append_nil,mem_append] at mem
      rcases mem with before | here
      · exact below e before
      · have high := (Subtree.ordered left).2 e here
        exact (high.2 k rfl).trans_le less

/-- A slot with the same entries, behind the search and a split if the child was full. -/
structure Prepared (h : Nat) (lo hi : Option Int) (key : Int) (links : Links) (bp : IndexNode Node) (ks : List Int)
    (cs : List View) (links' : Links) (bp' : IndexNode Node) (ks' : List Int) (cs1 : List View) (x : View)
    (cs2 : List View) : Prop where
  slot : Slot h lo hi key bp' ks' cs1 x cs2
  small : x.nkeys < 3
  grows : ks.length ≤ ks'.length
  entries : entriesOf (cs1++x::cs2) = entriesOf cs
  relinked : Relinked (links,idsOf cs) (links',idsOf (cs1++x::cs2))

lemma Row.splitFull
    (row : Row (Subtree h) lo hi bp ks cs) (inside : Within lo hi key) (small : ks.length < 3) (links : Links) :
    ∃ i links' bp' ks' cs1 x cs2, Slices.seekDown (fun x => key < x) bp.keys bp.nkeys = some i ∧
      splitFull 2 links bp i key = some (links',bp',cs1.length) ∧
      Prepared h lo hi key links bp ks cs links' bp' ks' cs1 x cs2 := by
  obtain ⟨pre,post,rfl,sought,low,high⟩ := row.seekDown key
  obtain ⟨cs1,c,cs2,rfl,descent⟩ := descend row.fenced inside low high
  have left : (cs1.map View.node).length = pre.length := by simpa using descent.left
  have held := row.holds
  rw [map_append,map_cons] at held
  have read := held.childAt
  rw [left] at read
  by_cases full : c.nkeys = 3
  · obtain ⟨lo',hi',child,room,replace⟩ := descent.bounds
    obtain ⟨links',k,l,r,half,up,lower,halves,relinked⟩ := child.split full links
    obtain ⟨bp',done,held'⟩ := held.btreeSplit left (by simpa using descent.right) small half up
    have above : bp'.keys[pre.length]? = some k := held'.keyAt
    rw [lower] at held'
    have fill : ∀ c ∈ cs1++cs2, 1 ≤ c.nkeys := fun c mem => row.fill c (mem_of_mem_rest mem)
    have size : (pre++k::post).length ≤ 3 := by
      simp only [length_append,length_cons] at small ⊢
      omega
    obtain ⟨lesser,greater⟩ := halves.slot room replace (by simpa using held') size fill descent.below descent.above
    have entries : entriesOf (cs1++l::r::cs2) = entriesOf (cs1++c::cs2) := by
      simp only [entriesOf,flatMap_append,flatMap_cons,← halves.entries,append_assoc]
    have chain : Relinked (links,idsOf (cs1++c::cs2)) (links',idsOf (cs1++l::r::cs2)) :=
      Relinked.row cs1 [c] [l,r] cs2 (by simpa [idsOf] using relinked)
    have grows : (pre++post).length ≤ (pre++k::post).length := by simp
    have isFull : c.node.nkeys = 2*2-1 := full
    by_cases upper : key ≥ k
    · refine ⟨_,links',bp',_,_,r,cs2,sought,?_,greater upper,halves.right.2,grows,by simpa using entries,by simpa using chain⟩
      simp only [BPlusTree.splitFull,read,some_bind,isFull,if_true,done,above,upper,
        length_append,length_singleton,descent.left]
      rfl
    · refine ⟨_,links',bp',_,cs1,l,_,sought,?_,lesser (by omega),by rw [halves.left]; omega,grows,entries,chain⟩
      simp only [BPlusTree.splitFull,read,some_bind,isFull,if_true,done,above,upper,if_false,
        descent.left]
      rfl
  · have notFull : ¬ c.node.nkeys = 2*2-1 := full
    obtain ⟨lo',hi',child,_⟩ := descent.bounds
    have bound := child.nkeys_le
    refine ⟨_,links,bp,_,cs1,c,cs2,sought,?_,descent.slot row,by omega,le_rfl,rfl,.refl _⟩
    simp only [BPlusTree.splitFull,read,some_bind,notFull,if_false,descent.left]
    rfl

lemma Subtree.insert (tree : Subtree h lo hi v) (val : Int) (inside : Within lo hi key)
    (absent : ∀ e ∈ v.entries, e.1 ≠ key) (small : v.nkeys < 3) (links : Links) (enough : h < fuel) :
    ∃ links' v', btreeInsertInternal 2 fuel links v.node key val = some (links',v'.node) ∧ Subtree h lo hi v' ∧
      v.nkeys ≤ v'.nkeys ∧ v'.entries = setEntry key val v.entries ∧ Relinked (links,v.ids) (links',v'.ids) := by
  induction h generalizing lo hi v links fuel with
  | zero =>
    obtain _ | fuel := fuel
    · omega
    obtain ⟨node,es,rfl,shape⟩ := tree
    rw [nkeys_leaf shape.holds] at small ⊢
    obtain ⟨node',done,holds,id⟩ := shape.holds.insertLeaf val shape.sorted small absent
    have within : ∀ e ∈ setEntry key val es, Within lo hi e.1 := by
      intro e mem
      rcases mem_setEntry mem with rfl | old
      · exact inside
      · exact shape.within e old
    have size := (setEntry_subperm key val es).length_le
    rw [length_cons] at size
    refine ⟨links,leafView node' (setEntry key val es),?_,
      ⟨node',_,rfl,holds,setEntry_sorted shape.sorted,within,by omega⟩,?_,rfl,?_⟩
    · simp only [leafView,btreeInsertInternal,done,Option.map_some]
    · rw [nkeys_leaf holds]
      exact length_le_setEntry key val es
    · simpa [leafView,View.ids,id] using Relinked.refl _
  | succ h ih =>
    obtain _ | fuel := fuel
    · omega
    obtain ⟨node,ks,cs,rfl,row⟩ := tree
    rw [nkeys_index row.holds] at small ⊢
    obtain ⟨i,links1,bp,ks',cs1,x,cs2,sought,split,prepared⟩ := row.splitFull inside small links
    obtain ⟨slot,room,grows,entries,relinked⟩ := prepared
    obtain ⟨lo',hi',child,within,replace⟩ := slot.bounds
    have here : ∀ e ∈ x.entries, e.1 ≠ key := by
      intro e mem
      refine absent e ?_
      change e ∈ entriesOf cs
      rw [← entries]
      simp [entriesOf,mem]
    obtain ⟨links2,x',done,tree',kept,entries',relinked'⟩ := ih child within here room links1 (by omega : h < fuel)
    have held := slot.holds
    rw [map_append,map_cons] at held
    have read := held.childAt
    obtain ⟨bp',written,held',_⟩ := held.setChild x'.node
    rw [length_map] at read written
    have fill : ∀ c ∈ cs1++x'::cs2, 1 ≤ c.nkeys := by
      intro c mem
      simp only [mem_append,mem_cons] at mem
      rcases mem with before | rfl | behind
      · exact slot.fill c (by simp [before])
      · exact (slot.fill x (by simp)).trans kept
      · exact slot.fill c (by simp [behind])
    have held2 : bp'.Holds ks' ((cs1++x'::cs2).map View.node) := by simpa using held'
    refine ⟨links2,indexView bp' (cs1++x'::cs2),?_,⟨bp',ks',_,rfl,held2,replace x' tree',fill,slot.room⟩,?_,?_,?_⟩
    · simp only [indexView,btreeInsertInternal,sought,split,read,done,written,some_bind]
      rfl
    · rwa [nkeys_index held2]
    · change entriesOf (cs1++x'::cs2) = setEntry key val (entriesOf cs)
      have below := slot.below
      have above := slot.above
      rw [← entries]
      simp only [entriesOf,flatMap_append,flatMap_cons] at below above ⊢
      rw [entries',setEntry_append_left below,setEntry_append_right _ above]
    · rw [ids_indexView,ids_indexView]
      exact relinked.trans (Relinked.row cs1 [x] [x'] cs2 (by simpa [idsOf] using relinked'))

end

/-! ## `redistribute` for every minimum degree `t` -/
open Option

/-- The keys in use, and the values or the pointers that belong to them. -/
def Node.used : Node → List Int × List Int × List (Option Node)
  | .leaf bp => (bp.keys.take bp.nkeys,bp.values.take bp.nkeys,[])
  | .index bp => (bp.keys.take bp.nkeys,[],bp.child.take (bp.nkeys+1))

def Node.isIndex : Node → Bool
  | .leaf _ => false
  | .index _ => true

/-- The arrays have their sizes. -/
def Node.Formed (t : Nat) : Node → Prop
  | .leaf bp => bp.keys.length = 2*t-1 ∧ bp.values.length = 2*t-1 ∧ bp.nkeys ≤ 2*t-1
  | .index bp => bp.keys.length = 2*t-1 ∧ bp.child.length = 2*t ∧ bp.nkeys ≤ 2*t-1

/-- What two neighbours hold in order; the key between index nodes is one of theirs. -/
def inOrder (l : Node) (k : Int) (r : Node) : List Int × List Int × List (Option Node) :=
  (l.used.1++(if l.isIndex then [k] else [])++r.used.1,l.used.2.1++r.used.2.1,l.used.2.2++r.used.2.2)

/-- Neighbours of one kind below an index node: their keys are in order and the key between them
separates them. -/
structure Neighbours (t : Nat) (bp : IndexNode Node) (i : Nat) (l r : Node) (k : Int) : Prop where
  left : bp.childAt i = some l
  right : bp.childAt (i+1) = some r
  key : bp.keys[i]? = some k
  kind : l.isIndex = r.isIndex
  formed : l.Formed t ∧ r.Formed t
  sorted : (inOrder l k r).1.Pairwise (· < ·)
  below : ∀ x ∈ l.used.1, x < k
  above : ∀ x ∈ r.used.1, k ≤ x

/-- The pair holds what it held, both nodes have enough keys, and the key between them separates them. -/
structure Preserved (t : Nat) (l r : Node) (k : Int) (l' r' : Node) (k' : Int) : Prop where
  same : inOrder l' k' r' = inOrder l k r
  enough : t-1 ≤ l'.nkeys ∧ t-1 ≤ r'.nkeys
  below : ∀ x ∈ l'.used.1, x < k'
  above : ∀ x ∈ r'.used.1, k' ≤ x

/-- The index node with other neighbours at `i` and `i+1` and another key between them. -/
def IndexNode.replaced (bp : IndexNode Node) (i : Nat) (l r : Node) (k : Int) : IndexNode Node :=
  { bp with keys := bp.keys.set i k, child := (bp.child.set i (some l)).set (i+1) (some r) }

section

lemma moveCell_leaf_eq (keys : memmove a.keys i b.keys j n = some ks) (values : memmove a.values i b.values j n = some vs) :
    moveCell (.leaf a) i (.leaf b) j n = some (.leaf { a with keys := ks, values := vs }) := by
  simp only [moveCell,keys,values,some_bind]
  rfl

end

section

lemma moveCell_index_eq (keys : memmove a.keys i b.keys j n = some ks) (child : memmove a.child i b.child j n = some ps) :
    moveCell (.index a) i (.index b) j n = some (.index { a with keys := ks, child := ps }) := by
  simp only [moveCell,keys,child,some_bind]
  rfl

end

variable {t : Nat}

lemma Node.Formed.leaf (formed : (Node.leaf bp).Formed t) :
    ∃ ks vs, Slices.Holds (2*t-1) ks bp.keys ∧ Slices.Holds (2*t-1) vs bp.values ∧ ks.length = bp.nkeys ∧
      vs.length = bp.nkeys ∧ (Node.leaf bp).used = (ks,vs,[]) := by
  obtain ⟨keys,values,count⟩ := formed
  refine ⟨bp.keys.take bp.nkeys,bp.values.take bp.nkeys,⟨bp.keys.drop bp.nkeys,?_,keys⟩,⟨bp.values.drop bp.nkeys,?_,values⟩,
    ?_,?_,rfl⟩
  · exact (take_append_drop _ _).symm
  · exact (take_append_drop _ _).symm
  · rw [length_take]
    omega
  · rw [length_take]
    omega

lemma Node.Formed.index (large : 2 ≤ t) (formed : (Node.index bp).Formed t) :
    ∃ ks ps, Slices.Holds (2*t-1) ks bp.keys ∧ Slices.Holds (2*t) ps bp.child ∧ ks.length = bp.nkeys ∧
      ps.length = bp.nkeys+1 ∧ (Node.index bp).used = (ks,[],ps) := by
  obtain ⟨keys,child,count⟩ := formed
  refine ⟨bp.keys.take bp.nkeys,bp.child.take (bp.nkeys+1),⟨bp.keys.drop bp.nkeys,?_,keys⟩,
    ⟨bp.child.drop (bp.nkeys+1),?_,child⟩,?_,?_,rfl⟩
  · exact (take_append_drop _ _).symm
  · exact (take_append_drop _ _).symm
  · rw [length_take]
    omega
  · rw [length_take]
    omega

lemma used_leaf (bp : LeafNode) (n : Nat) (keys : Slices.Holds c ks bp.keys)
    (values : Slices.Holds c vs bp.values) (len : ks.length = n) (len' : vs.length = n) :
    (Node.leaf { bp with nkeys := n }).used = (ks,vs,[]) := by
  obtain ⟨krest,keys,_⟩ := keys
  obtain ⟨vrest,values,_⟩ := values
  simp only [Node.used,keys,values,take_left' len,take_left' len']

lemma used_index (bp : IndexNode Node) (n : Nat)
    (keys : Slices.Holds c ks bp.keys) (child : Slices.Holds e ps bp.child) (len : ks.length = n) (len' : ps.length = n+1) :
    (Node.index { bp with nkeys := n }).used = (ks,[],ps) := by
  obtain ⟨krest,keys,_⟩ := keys
  obtain ⟨prest,child,_⟩ := child
  simp only [Node.used,keys,child,take_left' len,take_left' len']

lemma cut_at {α : Type} {n : Nat} {xs : List α} (inside : n ≤ xs.length) :
    ∃ pre post, xs = pre++post ∧ pre.length = n ∧ post.length = xs.length-n := by
  refine ⟨xs.take n,xs.drop n,(take_append_drop n xs).symm,?_,length_drop⟩
  rw [length_take]
  omega

lemma exists_last {α : Type} {xs : List α} (some_ : xs ≠ []) : ∃ pre x, xs = pre++[x] :=
  ⟨xs.dropLast,xs.getLast some_,(dropLast_concat_getLast some_).symm⟩

/-- The node `me` and the one it borrows from after `n` cells have moved, as left and right neighbour. -/
structure Moved (l r : Node) (k : Int) (l' r' : Node) (k' : Int) : Prop where
  same : inOrder l' k' r' = inOrder l k r
  first : l'.isIndex = false → r'.used.1.head? = some k'

lemma Moved.preserved (moved : Moved l r k l' r' k')
    (sorted : (inOrder l k r).1.Pairwise (· < ·)) (left : t-1 ≤ l'.nkeys) (right : t-1 ≤ r'.nkeys) :
    Preserved t l r k l' r' k' := by
  obtain ⟨same,first⟩ := moved
  rw [← same] at sorted
  cases kind : l'.isIndex with
  | true =>
    simp only [inOrder,kind,if_true,append_assoc,singleton_append] at sorted
    obtain ⟨_,behind,across⟩ := pairwise_append.mp sorted
    refine ⟨same,⟨left,right⟩,fun x mem => across x mem k' (by simp),fun x mem => ?_⟩
    exact ((pairwise_cons.mp behind).1 x mem).le
  | false =>
    have head := first kind
    simp only [inOrder,kind,if_ff,append_nil] at sorted
    obtain ⟨_,behind,across⟩ := pairwise_append.mp sorted
    refine ⟨same,⟨left,right⟩,fun x mem => across x mem k' (mem_of_mem_head? head),fun x mem => ?_⟩
    obtain ⟨rest,cut⟩ := head?_eq_some_iff.mp head
    rw [cut] at behind mem
    rcases mem_cons.mp mem with rfl | later
    · exact le_rfl
    · exact ((pairwise_cons.mp behind).1 x later).le

section
variable {t n : Nat} (k : Int)

lemma borrow_leaf_right {a b : LeafNode} (left : (Node.leaf a).Formed t) (right : (Node.leaf b).Formed t)
    (spare : n < b.nkeys) (room : a.nkeys+n ≤ 2*t-1) :
    ∃ l' r' k', borrowCells (.leaf a) (.leaf b) n true k = some (l',r',k') ∧
      Moved (.leaf a) (.leaf b) k (l'.setNkeys (a.nkeys+n)) (r'.setNkeys (b.nkeys-n)) k' := by
  obtain ⟨ks,vs,keys,values,len,len',used⟩ := left.leaf
  obtain ⟨js,ws,keys',values',size,size',used'⟩ := right.leaf
  obtain ⟨jx,jy,rfl,jn,jm⟩ := cut_at (show n ≤ js.length by omega)
  obtain ⟨wx,wy,rfl,wn,wm⟩ := cut_at (show n ≤ ws.length by omega)
  rw [size] at jm
  rw [size'] at wm
  obtain ⟨k',jz,rfl⟩ := exists_cons_of_ne_nil (show jy ≠ [] by rintro rfl; simp at jm; omega)
  obtain ⟨keys1,moved1,held1⟩ := keys.extend keys' (by omega)
  obtain ⟨values1,moved1',held1'⟩ := values.extend values' (by omega)
  obtain ⟨keys2,moved2,held2⟩ := keys'.dropFront
  obtain ⟨values2,moved2',held2'⟩ := values'.dropFront
  rw [len,jn] at moved1
  rw [len',wn] at moved1'
  rw [jn,jm] at moved2
  rw [wn,wm] at moved2'
  have up : b.keys[n]? = some k' := keys'.get jn
  have lower := used_leaf { a with keys := keys1, values := values1 } (a.nkeys+n) held1 held1'
    (by rw [length_append]; omega) (by rw [length_append]; omega)
  have upper := used_leaf { b with keys := keys2, values := values2 } (b.nkeys-n) held2 held2' jm wm
  refine ⟨.leaf { a with keys := keys1, values := values1 },.leaf { b with keys := keys2, values := values2 },k',?_,?_,?_⟩
  · simp only [borrowCells,Node.nkeys,Node.keys,moveCell_leaf_eq moved1 moved1',up,moveCell_leaf_eq moved2 moved2',
      some_bind]
    rfl
  · simp only [inOrder,Node.setNkeys,Node.isIndex,lower,upper,used,used']
    simp
  · simp only [Node.setNkeys,upper]
    simp

lemma borrow_leaf_left {a b : LeafNode} (left : (Node.leaf a).Formed t) (right : (Node.leaf b).Formed t)
    (some_ : 0 < n) (spare : n < a.nkeys) (room : b.nkeys+n ≤ 2*t-1) :
    ∃ l' r' k', borrowCells (.leaf b) (.leaf a) n false k = some (r',l',k') ∧
      Moved (.leaf a) (.leaf b) k (l'.setNkeys (a.nkeys-n)) (r'.setNkeys (b.nkeys+n)) k' := by
  obtain ⟨ks,vs,keys,values,len,len',used⟩ := left.leaf
  obtain ⟨js,ws,keys',values',size,size',used'⟩ := right.leaf
  obtain ⟨kx,ky,rfl,kn,km⟩ := cut_at (show a.nkeys-n ≤ ks.length by omega)
  obtain ⟨vx,vy,rfl,vn,vm⟩ := cut_at (show a.nkeys-n ≤ vs.length by omega)
  replace km : ky.length = n := by omega
  replace vm : vy.length = n := by omega
  obtain ⟨k',kz,rfl⟩ := exists_cons_of_ne_nil (show ky ≠ [] by rintro rfl; simp at km; omega)
  obtain ⟨keys1,keys2,raised,placed,held⟩ := keys'.extendFront keys (by omega)
  obtain ⟨values1,values2,raised',placed',held'⟩ := values'.extendFront values (by omega)
  rw [km,size] at raised
  rw [vm,size'] at raised'
  rw [kn,km] at placed
  rw [vn,vm] at placed'
  have up : keys2[0]? = some k' := (show Slices.Holds (2*t-1) ([]++k'::(kz++js)) keys2 from held).get rfl
  have lower := used_leaf a (a.nkeys-n) keys.take values.take kn vn
  have upper := used_leaf { b with keys := keys2, values := values2 } (b.nkeys+n) held held'
    (by rw [length_append]; omega) (by rw [length_append]; omega)
  refine ⟨.leaf a,.leaf { b with keys := keys2, values := values2 },k',?_,?_,?_⟩
  · have second := moveCell_leaf_eq (a := { b with keys := keys1, values := values1 }) placed placed'
    simp only [borrowCells,Node.nkeys,Node.keys,moveCell_leaf_eq raised raised',second,up,some_bind]
    rfl
  · simp only [inOrder,Node.setNkeys,Node.isIndex,lower,upper,used,used']
    simp
  · simp only [Node.setNkeys,upper]
    simp

variable {a b : IndexNode Node}

lemma borrow_index_right (large : 2 ≤ t) (left : (Node.index a).Formed t)
    (right : (Node.index b).Formed t) (some_ : 0 < n) (spare : n < b.nkeys) (room : a.nkeys+n ≤ 2*t-1) :
    ∃ l' r' k', borrowCells (.index a) (.index b) n true k = some (l',r',k') ∧
      Moved (.index a) (.index b) k (l'.setNkeys (a.nkeys+n)) (r'.setNkeys (b.nkeys-n)) k' := by
  obtain ⟨ks,ps,keys,child,len,len',used⟩ := left.index large
  obtain ⟨js,qs,keys',child',size,size',used'⟩ := right.index large
  obtain ⟨jx,jy,rfl,jn,jm⟩ := cut_at (show n-1 ≤ js.length by omega)
  rw [size] at jm
  obtain ⟨k',jz,rfl⟩ := exists_cons_of_ne_nil (show jy ≠ [] by rintro rfl; simp at jm; omega)
  obtain ⟨qx,qy,rfl,qn,qm⟩ := cut_at (show n-1 ≤ qs.length by omega)
  rw [size'] at qm
  obtain ⟨q,qz,rfl⟩ := exists_cons_of_ne_nil (show qy ≠ [] by rintro rfl; simp at qm; omega)
  obtain ⟨qw,last,rfl⟩ := exists_last (show qz ≠ [] by rintro rfl; simp at qm; omega)
  simp only [length_cons,length_append,length_nil] at jm qm
  -- the key of the parent, then a batch of whole cells, then one more pointer
  obtain ⟨keys1,put1,held1⟩ := keys.push (y := k) (by omega)
  obtain ⟨keys2,moved2,held2⟩ := held1.extend keys' (by rw [length_append,length_singleton]; omega)
  obtain ⟨child2,moved2',held2'⟩ := child.extend child' (by omega)
  obtain ⟨child3,put3,held3⟩ := held2'.push (y := q) (by rw [length_append]; omega)
  rw [len] at put1
  rw [length_append,length_singleton,len,jn] at moved2
  rw [len',qn] at moved2'
  rw [length_append,len',qn] at put3
  -- what is left of the neighbour moves down, its last pointer apart
  have cells : Slices.Holds (2*t-1) ((jx++[k'])++jz) b.keys := by simpa using keys'
  have rest : Slices.Holds (2*t) ((qx++[q])++(qw++[last])) b.child := by simpa using child'
  obtain ⟨keys4,moved4,held4⟩ := cells.dropFront
  obtain ⟨child4,child5,moved4',read4,put5,held5⟩ := rest.dropFront_last
  have taken : (jx++[k']).length = n := by
    simp only [length_append,length_singleton]
    omega
  have taken' : (qx++[q]).length = n := by
    simp only [length_append,length_singleton]
    omega
  have kept : jz.length = b.nkeys-n := by omega
  have kept' : qw.length = b.nkeys-n := by omega
  have total : (qx++[q]).length+qw.length = b.nkeys := by omega
  rw [taken,kept] at moved4
  rw [taken',kept'] at moved4'
  rw [total] at read4
  rw [kept'] at put5
  have readQ : b.child[n-1]? = some q := child'.get qn
  have up : b.keys[n-1]? = some k' := keys'.get jn
  have lower := used_index { a with keys := keys2, child := child3 } (a.nkeys+n) held2 held3
    (by simp only [length_append,length_singleton]; omega) (by simp only [length_append,length_singleton]; omega)
  have upper := used_index { b with keys := keys4, child := child5 } (b.nkeys-n) held4 held5 kept (by simp [kept'])
  refine ⟨.index { a with keys := keys2, child := child3 },.index { b with keys := keys4, child := child5 },k',?_,?_,?_⟩
  · have second := moveCell_index_eq (a := { a with keys := keys1 }) moved2 moved2'
    simp only [borrowCells,Node.nkeys,Node.keys,Node.putKey,put1,Node.ptr,readQ,second,Node.putPtr,put3,up,
      moveCell_index_eq moved4 moved4',read4,put5,map_some,some_bind]
    rfl
  · simp only [inOrder,Node.setNkeys,Node.isIndex,lower,upper,used,used']
    simp
  · simp [Node.setNkeys,Node.isIndex]

lemma borrow_index_left (large : 2 ≤ t) (left : (Node.index a).Formed t)
    (right : (Node.index b).Formed t) (spare : 1 < a.nkeys) (room : b.nkeys+1 ≤ 2*t-1) :
    ∃ l' r' k', borrowCells (.index b) (.index a) 1 false k = some (r',l',k') ∧
      Moved (.index a) (.index b) k (l'.setNkeys (a.nkeys-1)) (r'.setNkeys (b.nkeys+1)) k' := by
  obtain ⟨ks,ps,keys,child,len,len',used⟩ := left.index large
  obtain ⟨js,qs,keys',child',size,size',used'⟩ := right.index large
  obtain ⟨kx,k',rfl⟩ := exists_last (show ks ≠ [] by rintro rfl; simp at len; omega)
  obtain ⟨px,p,rfl⟩ := exists_last (show ps ≠ [] by rintro rfl; simp at len')
  obtain ⟨qx,last,rfl⟩ := exists_last (show qs ≠ [] by rintro rfl; simp at size')
  simp only [length_append,length_singleton] at len len' size'
  have few : qx.length = b.nkeys := by omega
  -- the last pointer moves first, the others with their keys; the free cell is filled last
  obtain ⟨keys1,keys2,raised,put1,held⟩ := keys'.raise k (by omega)
  obtain ⟨child0,child1,child2,put0,raised',put2,held'⟩ := child'.raise_last p (by omega)
  rw [size] at raised
  rw [few] at put0 raised'
  have readLast : b.child[b.nkeys]? = some last := child'.get few
  have readP : a.child[a.nkeys]? = some p := child.get (by omega)
  have up : a.keys[a.nkeys-1]? = some k' := keys.get (by omega)
  have lower := used_index a (a.nkeys-1) keys.take child.take (by omega) (by omega)
  have upper := used_index { b with keys := keys2, child := child2 } (b.nkeys+1) held held'
    (by rw [length_cons]; omega) (by simp only [length_cons,length_append,length_nil]; omega)
  refine ⟨.index a,.index { b with keys := keys2, child := child2 },k',?_,?_,?_⟩
  · have second := moveCell_index_eq (a := { b with child := child0 }) (b := { b with child := child0 }) raised raised'
    simp only [borrowCells,Node.nkeys,Node.keys,Node.ptr,readLast,Node.putPtr,put0,second,Node.putKey,put1,readP,put2,up,
      map_some,some_bind,Nat.sub_self,gt_iff_lt,Nat.lt_irrefl,if_false]
    rfl
  · simp only [inOrder,Node.setNkeys,Node.isIndex,lower,upper,used,used']
    simp
  · simp [Node.setNkeys,Node.isIndex]

/-- A batch of a left index node: the key that goes up is the last of those that stay. -/
lemma borrow_index_left_batch (batch : 2 ≤ n) (spare : n < a.nkeys)
    (done : borrowCells (.index b) (.index a) n false k = some (r',l',k')) :
    k' ∈ (l'.setNkeys (a.nkeys-n)).used.1 := by
  have more : n-1 > 0 := by omega
  simp only [borrowCells,if_pos more,bind_eq_bind,bind_eq_some_iff,Node.nkeys,Node.keys] at done
  obtain ⟨_,_,_,_,_,_,_,_,_,_,_,_,_,_,up,read,same⟩ := done
  obtain ⟨rfl,rfl,rfl⟩ : _ ∧ Node.index a = l' ∧ up = k' := by
    have parts := some.inj same
    simp only [Prod.mk.injEq] at parts
    exact parts
  have last : (a.keys.take (a.nkeys-n))[a.nkeys-n-1]? = some up := by
    rwa [getElem?_take_of_lt (by omega)]
  exact mem_of_getElem? last

end

section
variable {t i : Nat} {bp : IndexNode Node} {l r : Node} {k : Int}

lemma childAt_lt (found : bp.childAt i = some c) : i < bp.child.length := by
  by_contra outside
  rw [IndexNode.childAt,getElem?_eq_none (Nat.not_lt.mp outside)] at found
  simp at found

lemma put_child (bp : IndexNode Node) (inside : i < bp.child.length) :
    bp.setChild i c = some { bp with child := bp.child.set i (some c) } := by
  rw [IndexNode.setChild,put,if_pos inside]
  rfl

lemma replaced_inj (left : i < bp.child.length) (right : i+1 < bp.child.length)
    (key : i < bp.keys.length) (same : bp.replaced i l r k = bp.replaced i l' r' k') : l = l' ∧ r = r' ∧ k = k' := by
  have keys := congrArg (fun bp => bp.keys[i]?) same
  have first := congrArg (fun bp => bp.child[i]?) same
  have second := congrArg (fun bp => bp.child[i+1]?) same
  simp only [IndexNode.replaced,getElem?_set,length_set,if_pos key,if_pos left,if_pos right,if_true,
    if_neg (Nat.succ_ne_self i),some.injEq] at keys first second
  exact ⟨first,second,keys⟩

lemma Neighbours.redistribute_right (pair : Neighbours t bp i l r k) (few : l.nkeys = t-2) (large : 2 ≤ t)
    (many : t ≤ r.nkeys) (count : n = (l.nkeys+r.nkeys)/2-l.nkeys) :
    redistribute t bp i (i+1) = (borrowCells l r n true k).map (fun cells =>
      bp.replaced i (cells.1.setNkeys (l.nkeys+n)) (cells.2.1.setNkeys (r.nkeys-n)) cells.2.2) := by
  have keyInside : i < bp.keys.length := (List.getElem?_eq_some_iff.mp pair.key).1
  have before : ¬ ¬ (l.nkeys < t-1 ∧ t-1 < r.nkeys) := by omega
  have fewer : ¬ ¬ n < r.nkeys := by omega
  have next : i < i+1 := Nat.lt_succ_self i
  simp only [redistribute,pair.left,pair.right,some_bind,if_neg before,← count,if_neg fewer,
    if_pos next,decide_eq_true next,pair.key]
  cases borrowCells l r n true k with
  | none => rfl
  | some cells =>
    have second : i+1 < (bp.child.set i (some (cells.1.setNkeys (l.nkeys+n)))).length := by
      rw [length_set]
      exact childAt_lt pair.right
    simp only [some_bind,put,if_pos keyInside,put_child bp (childAt_lt pair.left)]
    rw [put_child { bp with child := bp.child.set i (some (cells.1.setNkeys (l.nkeys+n))) } second]
    rfl

lemma Neighbours.redistribute_left (pair : Neighbours t bp i l r k) (few : r.nkeys = t-2) (large : 2 ≤ t)
    (many : t ≤ l.nkeys) (count : n = (r.nkeys+l.nkeys)/2-r.nkeys) :
    redistribute t bp (i+1) i = (borrowCells r l n false k).map (fun cells =>
      bp.replaced i (cells.2.1.setNkeys (l.nkeys-n)) (cells.1.setNkeys (r.nkeys+n)) cells.2.2) := by
  have keyInside : i < bp.keys.length := (List.getElem?_eq_some_iff.mp pair.key).1
  have before : ¬ ¬ (r.nkeys < t-1 ∧ t-1 < l.nkeys) := by omega
  have fewer : ¬ ¬ n < l.nkeys := by omega
  have next : ¬ i+1 < i := by omega
  simp only [redistribute,pair.left,pair.right,some_bind,if_neg before,← count,if_neg fewer,
    if_neg next,decide_eq_false next,pair.key]
  cases borrowCells r l n false k with
  | none => rfl
  | some cells =>
    have second : i < (bp.child.set (i+1) (some (cells.1.setNkeys (r.nkeys+n)))).length := by
      rw [length_set]
      exact childAt_lt pair.left
    simp only [some_bind,put,if_pos keyInside,put_child bp (childAt_lt pair.right)]
    rw [put_child { bp with child := bp.child.set (i+1) (some (cells.1.setNkeys (r.nkeys+n))) } second]
    simp only [IndexNode.replaced,set_comm (some (cells.1.setNkeys (r.nkeys+n))) _ (show i+1 ≠ i by omega)]
    rfl

end

section
variable {t i : Nat} {bp : IndexNode Node} {l r : Node} {k : Int}

@[simp] lemma nkeys_setNkeys (bp : Node) (n : Nat) : (bp.setNkeys n).nkeys = n := by
  cases bp <;> rfl

lemma Node.Formed.nkeys_le {bp : Node} (formed : bp.Formed t) : bp.nkeys ≤ 2*t-1 := by
  cases bp with
  | leaf bp => exact formed.2.2
  | index bp => exact formed.2.2

section
variable (pair : Neighbours t bp i l r k)
include pair

lemma Neighbours.from_right (large : 2 ≤ t) (few : l.nkeys = t-2) (many : t ≤ r.nkeys) :
    ∃ l' r' k', redistribute t bp i (i+1) = some (bp.replaced i l' r' k') ∧ Preserved t l r k l' r' k' := by
  obtain ⟨n,count⟩ : ∃ n, n = (l.nkeys+r.nkeys)/2-l.nkeys := ⟨_,rfl⟩
  have most := pair.formed.2.nkeys_le
  have done := pair.redistribute_right few large many count
  obtain ⟨l',r',k',borrowed,moved⟩ : ∃ l' r' k', borrowCells l r n true k = some (l',r',k') ∧
      Moved l r k (l'.setNkeys (l.nkeys+n)) (r'.setNkeys (r.nkeys-n)) k' := by
    have kind := pair.kind
    have formed := pair.formed
    cases l with
    | leaf a =>
      cases r with
      | leaf b =>
        exact borrow_leaf_right k formed.1 formed.2 (show n < (Node.leaf b).nkeys by omega)
          (show (Node.leaf a).nkeys+n ≤ 2*t-1 by omega)
      | index b => exact nomatch kind
    | index a =>
      cases r with
      | leaf b => exact nomatch kind
      | index b =>
        exact borrow_index_right k large formed.1 formed.2 (by omega) (show n < (Node.index b).nkeys by omega)
          (show (Node.index a).nkeys+n ≤ 2*t-1 by omega)
  rw [borrowed,map_some] at done
  refine ⟨_,_,_,done,moved.preserved pair.sorted ?_ ?_⟩
  · rw [nkeys_setNkeys]
    omega
  · rw [nkeys_setNkeys]
    omega

/-- From the left neighbour a batch of leaf cells, or one cell of an index node, moves as it should. -/
lemma Neighbours.from_left (large : 2 ≤ t) (few : r.nkeys = t-2) (many : t ≤ l.nkeys)
    (single : l.isIndex = true → l.nkeys < t+2) :
    ∃ l' r' k', redistribute t bp (i+1) i = some (bp.replaced i l' r' k') ∧ Preserved t l r k l' r' k' := by
  obtain ⟨n,count⟩ : ∃ n, n = (r.nkeys+l.nkeys)/2-r.nkeys := ⟨_,rfl⟩
  have most := pair.formed.1.nkeys_le
  have done := pair.redistribute_left few large many count
  obtain ⟨l',r',k',borrowed,moved⟩ : ∃ l' r' k', borrowCells r l n false k = some (r',l',k') ∧
      Moved l r k (l'.setNkeys (l.nkeys-n)) (r'.setNkeys (r.nkeys+n)) k' := by
    have kind := pair.kind
    have formed := pair.formed
    cases l with
    | leaf a =>
      cases r with
      | leaf b =>
        exact borrow_leaf_left k formed.1 formed.2 (by omega) (show n < (Node.leaf a).nkeys by omega)
          (show (Node.leaf b).nkeys+n ≤ 2*t-1 by omega)
      | index b => exact nomatch kind
    | index a =>
      cases r with
      | leaf b => exact nomatch kind
      | index b =>
        have limit := single rfl
        obtain rfl : n = 1 := by omega
        exact borrow_index_left k large formed.1 formed.2 (show 1 < (Node.index a).nkeys by omega)
          (show (Node.index b).nkeys+1 ≤ 2*t-1 by omega)
  rw [borrowed,map_some] at done
  refine ⟨_,_,_,done,moved.preserved pair.sorted ?_ ?_⟩
  · rw [nkeys_setNkeys]
    omega
  · rw [nkeys_setNkeys]
    omega

/-- A batch of cells of a left index node: the new key of the parent does not separate the two. -/
lemma Neighbours.batch_from_left (large : 2 ≤ t) (few : r.nkeys = t-2)
    (index : l.isIndex = true) (many : t+2 ≤ l.nkeys)
    (result : redistribute t bp (i+1) i = some (bp.replaced i l' r' k')) : ¬ Preserved t l r k l' r' k' := by
  obtain ⟨n,count⟩ : ∃ n, n = (r.nkeys+l.nkeys)/2-r.nkeys := ⟨_,rfl⟩
  have done := pair.redistribute_left few large (by omega) count
  rw [result] at done
  obtain ⟨⟨r1,l1,k1⟩,borrowed,same⟩ := map_eq_some_iff.mp done.symm
  obtain ⟨rfl,rfl,rfl⟩ := replaced_inj (childAt_lt pair.left) (childAt_lt pair.right)
    (List.getElem?_eq_some_iff.mp pair.key).1 same
  intro kept
  have kind := pair.kind
  cases l with
  | leaf a => exact nomatch index
  | index a =>
    cases r with
    | leaf b => exact nomatch kind
    | index b =>
      have mem := borrow_index_left_batch k (show 2 ≤ n by omega) (show n < (Node.index a).nkeys by omega) borrowed
      exact lt_irrefl _ (kept.below _ mem)

end

/-- `redistribute` keeps the two neighbours' keys, values and pointers in order, leaves both with enough keys and
puts a separating key between them, unless two or more cells of a left index node move. -/
theorem redistribute_iff (large : 2 ≤ t) (pair : Neighbours t bp i l r k) (fromRight : Bool)
    (few : (if fromRight then l else r).nkeys = t-2) (many : t ≤ (if fromRight then r else l).nkeys) :
    (∃ l' r' k', redistribute t bp (if fromRight then i else i+1) (if fromRight then i+1 else i) =
        some (bp.replaced i l' r' k') ∧ Preserved t l r k l' r' k') ↔
      ¬ (fromRight = false ∧ l.isIndex = true ∧ t+2 ≤ l.nkeys) := by
  cases fromRight with
  | true =>
    refine ⟨fun _ bad => Bool.noConfusion bad.1,fun _ => ?_⟩
    exact pair.from_right large few many
  | false =>
    simp only [if_ff] at few many ⊢
    constructor
    · rintro ⟨l',r',k',result,kept⟩ ⟨_,index,batch⟩
      exact pair.batch_from_left large few index batch result kept
    · intro single
      refine pair.from_left large few many fun index => ?_
      by_contra batch
      exact single ⟨trivial,index,by omega⟩

end

/-- Neighbours of minimum degree 3 with 5 keys and 1 key, over leaves that each hold one key. -/
def oneKey (id : Nat) (key : Int) : Option Node := some (.leaf ⟨id,1,[key,0,0,0,0],[key,0,0,0,0]⟩)
def wide : Node := .index ⟨5,[10,20,30,40,50],[oneKey 0 5,oneKey 1 15,oneKey 2 25,oneKey 3 35,oneKey 4 45,oneKey 5 55]⟩
def narrow (key : Int) : Node := .index ⟨1,[key,0,0,0,0],[oneKey 6 (key-5),oneKey 7 (key+5),none,none,none,none]⟩
def parent (key : Int) (l r : Node) : IndexNode Node := ⟨1,[key,0,0,0,0],[some l,some r,none,none,none,none]⟩

theorem redistribute_iff_wide : ∃ l' r' k', redistribute 3 (parent 5 (narrow 0) wide) 0 1 =
    some ((parent 5 (narrow 0) wide).replaced 0 l' r' k') ∧
      Preserved 3 (narrow 0) wide 5 l' r' k' := by
  have pair : Neighbours 3 (parent 5 (narrow 0) wide) 0 (narrow 0) wide 5 :=
    ⟨rfl,rfl,rfl,rfl,⟨⟨rfl,rfl,by decide⟩,rfl,rfl,by decide⟩,by decide,by decide,by decide⟩
  exact (redistribute_iff (by decide) pair true rfl (by decide)).mpr (by decide)

/-- The key 50 and its child are lost, the key 30 and a child are there twice. -/
theorem redistribute_drops : Neighbours 3 (parent 60 wide (narrow 70)) 0 wide (narrow 70) 60 ∧
    (narrow 70).nkeys = 3-2 ∧ wide.nkeys = 5 ∧
    ∃ l' r' k', redistribute 3 (parent 60 wide (narrow 70)) 1 0 =
      some ((parent 60 wide (narrow 70)).replaced 0 l' r' k') ∧
      (inOrder wide 60 (narrow 70)).1 = [10,20,30,40,50,60,70] ∧ (inOrder l' k' r').1 = [10,20,30,30,40,60,70] ∧
      (inOrder l' k' r').2.2 = [oneKey 0 5,oneKey 1 15,oneKey 2 25,oneKey 3 35,oneKey 3 35,oneKey 5 55,oneKey 6 65,oneKey 7 75] ∧
      ¬ Preserved 3 wide (narrow 70) 60 l' r' k' := by
  refine ⟨⟨rfl,rfl,rfl,rfl,⟨⟨rfl,rfl,by decide⟩,rfl,rfl,by decide⟩,by decide,by decide,by decide⟩,rfl,rfl,?_⟩
  refine ⟨.index ⟨3,[10,20,30,40,50],[oneKey 0 5,oneKey 1 15,oneKey 2 25,oneKey 3 35,oneKey 4 45,oneKey 5 55]⟩,
    .index ⟨3,[40,60,70,0,0],[oneKey 3 35,oneKey 5 55,oneKey 6 65,oneKey 7 75,none,none]⟩,30,rfl,rfl,rfl,rfl,?_⟩
  intro kept
  exact absurd (kept.below 30 (by decide)) (by decide)

end CodeExercise.BPlusTree
