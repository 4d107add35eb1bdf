import CodeExercise.BTreeUpdate
import CodeExercise.Chains
import Mathlib.Algebra.Order.Group.Nat

/-!
What the shape of a tree means for its nodes: those reached from the root along the pointers in use
are not nil, the leaves are on one level, every node below the root is at least half full and none is
full, and each key of an internal node separates the keys below it.
-/
set_option linter.unusedSectionVars false

namespace CodeExercise.BTree
open Slices SortedMaps Fences List

variable {K V : Type} [LinearOrder K] [Inhabited K] [Inhabited V]

namespace Node

def keysInUse : Node K V → List K
  | leaf node => node.keys.take node.nkeys
  | internal node => node.keys.take node.nkeys

def IsChild (p c : Node K V) : Prop := ∃ node i, p = internal node ∧ i ≤ node.nkeys ∧ node.child i = some c
/-- The node itself or a node below it. -/
def Reaches : Node K V → Node K V → Prop := Relation.ReflTransGen IsChild

/-- There is a leaf that many levels below the node. -/
inductive LeafAt : Node K V → Nat → Prop
  | leaf (node : LeafNode K V) : LeafAt (leaf node) 0
  | child {p c : Node K V} {n : Nat} (step : p.IsChild c) (below : LeafAt c n) : LeafAt p (n+1)

end Node

structure Balanced (d : Nat) (root : Node K V) : Prop where
  pointers : ∀ node, root.Reaches (.internal node) → ∀ i ≤ node.nkeys, ∃ c, node.child i = some c
  level : ∃ n, ∀ m, root.LeafAt m → m = n
  most : ∀ n, root.Reaches n → n.getNKeys ≤ d-1
  least : ∀ p c, root.Reaches p → p.IsChild c → d/2 ≤ c.getNKeys
  separators : ∀ node, root.Reaches (.internal node) → ∀ i < node.nkeys, ∃ k, node.keys[i]? = some k ∧
    ∀ j ≤ node.nkeys, ∀ c, node.child j = some c → ∀ n, c.Reaches n → ∀ x ∈ n.keysInUse,
      (j ≤ i → x < k) ∧ (i < j → k ≤ x)

lemma take_holds {α : Type} {d : Nat} {xs a : List α} (holds : Slices.Holds d xs a) : a.take xs.length = xs := by
  obtain ⟨rest,rfl,_⟩ := holds
  simp

lemma InternalNode.Holds.child_eq {d : Nat} {ks : List K} {cs : List P} {node : InternalNode K P}
    (holds : node.Holds d ks cs) {i : Nat} (inside : i < cs.length) : node.child i = cs[i]? := by
  obtain ⟨pre,c,post,rfl,rfl⟩ := exists_cut cs inside
  rw [holds.child]
  simp

section
variable {d h : Nat} {lo hi : Option K} {v : View K V}

variable {ks : List K} {cs : List (View K V)}

lemma Row.isChild
    (row : Row d (Subtree d h) lo hi node ks cs) {p : Node K V} (child : (Node.internal node).IsChild p) :
    ∃ c ∈ cs, c.node = p := by
  obtain ⟨_,i,same,inside,read⟩ := child
  cases same
  have total := row.fenced.length
  rw [row.holds.count] at inside
  rw [row.holds.child_eq (by simp; omega)] at read
  obtain ⟨c,mem,rfl⟩ := mem_map.mp (mem_of_getElem? read)
  exact ⟨c,mem,rfl⟩

/-- Every node below the root of a subtree is the root of one, within the same bounds. -/
lemma Subtree.reaches (tree : Subtree d h lo hi v) (reaches : v.node.Reaches n) :
    ∃ h' lo' hi' v', v'.node = n ∧ Subtree d h' lo' hi' v' ∧ ∀ x, Within lo' hi' x → Within lo hi x := by
  induction h generalizing lo hi v with
  | zero =>
    rcases Relation.ReflTransGen.cases_head reaches with rfl | ⟨p,⟨_,_,same,_⟩,_⟩
    · exact ⟨0,lo,hi,v,rfl,tree,fun _ inside => inside⟩
    · obtain ⟨node,es,rfl,_⟩ := tree
      cases same
  | succ h ih =>
    rcases Relation.ReflTransGen.cases_head reaches with rfl | ⟨p,child,below⟩
    · exact ⟨h+1,lo,hi,v,rfl,tree,fun _ inside => inside⟩
    · obtain ⟨node,ks,cs,rfl,row⟩ := tree
      obtain ⟨c,mem,rfl⟩ := row.isChild child
      obtain ⟨lo1,hi1,shape,inside⟩ := row.fenced.mem mem
      obtain ⟨h',lo',hi',v',same,found,within⟩ := ih shape below
      exact ⟨h',lo',hi',v',same,found,fun x room => inside x (within x room)⟩

lemma Subtree.leafAt (tree : Subtree d h lo hi v) (leaf : v.node.LeafAt n) : n = h := by
  induction h generalizing lo hi v n with
  | zero =>
    obtain ⟨node,es,rfl,_⟩ := tree
    cases leaf with
    | leaf => rfl
    | child step _ =>
      obtain ⟨_,_,same,_⟩ := step
      cases same
  | succ h ih =>
    obtain ⟨node,ks,cs,rfl,row⟩ := tree
    cases leaf with
    | child step below =>
      obtain ⟨c,mem,rfl⟩ := row.isChild step
      obtain ⟨lo',hi',shape,_⟩ := row.fenced.mem mem
      rw [ih shape below]

lemma Subtree.entries_ne_nil (large : 3 ≤ d) (tree : Subtree d h lo hi v) (keys : 1 ≤ v.nkeys) : ∃ e, e ∈ v.entries := by
  induction h generalizing lo hi v with
  | zero =>
    obtain ⟨node,es,rfl,shape⟩ := tree
    rw [nkeys_leaf shape.holds] at keys
    exact exists_mem_of_length_pos keys
  | succ h ih =>
    obtain ⟨node,ks,cs,rfl,row⟩ := tree
    obtain ⟨c,mem⟩ := exists_mem_of_length_pos (by rw [row.fenced.length]; omega : 0 < cs.length)
    obtain ⟨lo',hi',shape,_⟩ := row.fenced.mem mem
    have filled := row.fill c mem
    obtain ⟨e,inside⟩ := ih shape (by omega)
    exact ⟨e,mem_flatMap.mpr ⟨c,mem,inside⟩⟩

lemma Row.separator (large : 3 ≤ d)
    (row : Row d (Subtree d h) lo hi node ks cs) (mem : k ∈ ks) : Within lo hi k := by
  obtain ⟨ks1,ks2,rfl⟩ := append_of_mem mem
  have total := row.fenced.length
  rw [length_append,length_cons] at total
  have whole := row.fenced
  rw [← take_append_drop (ks1.length+1) cs] at whole
  obtain ⟨_,fits,behind⟩ := (fenced_append (by rw [length_take]; omega)).mp whole
  obtain ⟨c,later⟩ := exists_mem_of_length_pos
    (by rw [length_drop]; omega : 0 < (cs.drop (ks1.length+1)).length)
  obtain ⟨lo',hi',shape,inside⟩ := behind.mem later
  have filled := row.fill c (mem_of_mem_drop later)
  obtain ⟨e,entry⟩ := shape.entries_ne_nil large (by omega)
  have within := inside _ (shape.ordered.2 e entry)
  exact ⟨fits.1,fun u bound => lt_of_le_of_lt (within.1 k rfl) (within.2 u bound)⟩

lemma Subtree.keysInUse (large : 3 ≤ d) (tree : Subtree d h lo hi v) : ∀ x ∈ v.node.keysInUse, Within lo hi x := by
  intro x mem
  cases h with
  | zero =>
    obtain ⟨node,es,rfl,shape⟩ := tree
    have used := take_holds shape.holds.keys
    rw [length_map,← shape.holds.count] at used
    simp only [leafView,Node.keysInUse,used] at mem
    obtain ⟨e,entry,rfl⟩ := mem_map.mp mem
    exact shape.within e entry
  | succ h =>
    obtain ⟨node,ks,cs,rfl,row⟩ := tree
    have used := take_holds row.holds.keys
    rw [← row.holds.count] at used
    simp only [internalView,Node.keysInUse,used] at mem
    exact row.separator large mem

lemma Subtree.row (tree : Subtree d h lo hi v) (same : v.node = .internal node) :
    ∃ h' ks cs, Row d (Subtree d h') lo hi node ks cs := by
  cases h with
  | zero =>
    obtain ⟨_,_,rfl,_⟩ := tree
    cases same
  | succ h =>
    obtain ⟨node,ks,cs,rfl,row⟩ := tree
    cases same
    exact ⟨h,ks,cs,row⟩

lemma fenced_keys (large : 3 ≤ d) (fenced : Fenced (Subtree d h) lo hi ks cs)
    (mem : c ∈ cs) (reaches : c.node.Reaches n) :
    ∀ x ∈ n.keysInUse, Within lo hi x := by
  intro x used
  obtain ⟨lo1,hi1,shape,outer⟩ := fenced.mem mem
  obtain ⟨h',lo2,hi2,v',rfl,found,inner⟩ := shape.reaches reaches
  exact outer x (inner x (found.keysInUse large x used))

lemma Row.separates (large : 3 ≤ d)
    (row : Row d (Subtree d h) lo hi node ks cs) {i : Nat} (inside : i < node.nkeys) :
    ∃ k, node.keys[i]? = some k ∧ ∀ j ≤ node.nkeys, ∀ c, node.child j = some c → ∀ n, c.Reaches n →
      ∀ x ∈ n.keysInUse, (j ≤ i → x < k) ∧ (i < j → k ≤ x) := by
  rw [row.holds.count] at inside ⊢
  obtain ⟨ks1,k,ks2,rfl,rfl⟩ := exists_cut ks inside
  refine ⟨k,row.holds.keys.get rfl,?_⟩
  intro j last c read n reaches x used
  have total := row.fenced.length
  obtain ⟨left,right,rfl,len⟩ : ∃ left right, cs = left++right ∧ left.length = ks1.length+1 := by
    refine ⟨cs.take (ks1.length+1),cs.drop (ks1.length+1),(take_append_drop _ _).symm,?_⟩
    rw [length_take]
    omega
  obtain ⟨before,_,behind⟩ := (fenced_append len).mp row.fenced
  rw [row.holds.child_eq (by rw [length_map]; omega),getElem?_map] at read
  obtain ⟨c,at_j,rfl⟩ := Option.map_eq_some_iff.mp read
  constructor
  · intro lower
    rw [getElem?_append_left (by omega)] at at_j
    exact (fenced_keys large before (mem_of_getElem? at_j) reaches x used).2 k rfl
  · intro upper
    rw [getElem?_append_right (by omega)] at at_j
    exact (fenced_keys large behind (mem_of_getElem? at_j) reaches x used).1 k rfl

lemma Subtree.balanced (large : 3 ≤ d) (tree : Subtree d h lo hi v) : Balanced d v.node := by
  refine ⟨?_,⟨h,fun _ leaf => tree.leafAt leaf⟩,?_,?_,?_⟩
  · intro node reaches i last
    obtain ⟨h',lo',hi',v',same,found,_⟩ := tree.reaches reaches
    obtain ⟨_,ks,cs,row⟩ := found.row same
    have total := row.fenced.length
    rw [row.holds.count] at last
    rw [row.holds.child_eq (by rw [length_map]; omega),getElem?_map]
    exact ⟨_,by rw [getElem?_eq_getElem (by omega)]; rfl⟩
  · intro n reaches
    obtain ⟨h',lo',hi',v',rfl,found,_⟩ := tree.reaches reaches
    exact Nat.le_pred_of_lt found.nkeys_lt
  · intro p c reaches child
    obtain ⟨h',lo',hi',v',rfl,found,_⟩ := tree.reaches reaches
    obtain ⟨node,_,same,_⟩ := id child
    obtain ⟨_,ks,cs,row⟩ := found.row same
    rw [same] at child
    obtain ⟨c,mem,rfl⟩ := row.isChild child
    exact row.fill c mem
  · intro node reaches i inside
    obtain ⟨h',lo',hi',v',same,found,_⟩ := tree.reaches reaches
    obtain ⟨_,ks,cs,row⟩ := found.row same
    exact row.separates large inside

end

/-! ## The tree refines a map -/
open Option Function

variable {K V : Type} [LinearOrder K] [Inhabited K] [Inhabited V]

section
variable {v : View K V}

lemma Subtree.find (tree : Subtree d h lo hi v) (inside : Within lo hi key) (enough : h < fuel) :
    v.node.find fuel key = some none ∧ (∀ e ∈ v.entries, e.1 ≠ key) ∨
      ∃ leaf i, ∃ e ∈ v.entries, v.node.find fuel key = some (some (leaf,i)) ∧ leaf.keys[i]? = some e.1 ∧
        leaf.vals[i]? = some e.2 ∧ ∀ x ∈ v.entries, x.1 = key → x = e := by
  induction h generalizing lo hi v fuel with
  | zero =>
    obtain _ | fuel := fuel
    · omega
    obtain ⟨node,es,rfl,shape⟩ := tree
    obtain ⟨pre,post,rfl,done,below,above⟩ := shape.holds.find key
    cases post with
    | nil =>
      refine .inl ⟨?_,fun e mem => (below e (by simpa [leafView] using mem)).ne⟩
      simp only [leafView,Node.find,done,some_bind]
      rfl
    | cons e post =>
      obtain ⟨readKey,readVal⟩ := shape.holds.get
      refine .inr ⟨node,pre.length,e,by simp [leafView],?_,readKey,readVal,?_⟩
      · simp only [leafView,Node.find,done,some_bind]
        rfl
      · intro x mem same
        rcases mem_append.mp mem with before | behind
        · exact absurd same (below x before).ne
        · rcases mem_cons.mp behind with rfl | later
          · rfl
          · have less := (pairwise_cons.mp (pairwise_append.mp shape.sorted).2.1).1 x later
            exact absurd same (lt_of_le_of_lt (above e rfl) less).ne'
  | succ h ih =>
    obtain _ | fuel := fuel
    · omega
    obtain ⟨node,ks,cs,rfl,row⟩ := tree
    obtain ⟨pre,post,cs1,c,cs2,rfl,rfl,descent⟩ := row.descend inside
    obtain ⟨lo',hi',child,room,_⟩ := descent.bounds
    have descend : (internalView node (cs1++c::cs2)).node.find (fuel+1) key = c.node.find fuel key := by
      simp only [internalView,Node.find,descent.index,descent.read,some_bind]
    -- the other children have no entry under the key
    have only : ∀ x ∈ (internalView node (cs1++c::cs2)).entries, x.1 = key → x ∈ c.entries := by
      intro x mem same
      simp only [internalView,flatMap_append,flatMap_cons,mem_append] at mem
      rcases mem with before | mem | behind
      · exact absurd same (descent.below x before).ne
      · exact mem
      · exact absurd same (descent.above x behind).ne'
    rw [descend]
    rcases ih child room (by omega : h < fuel) with ⟨done,absent⟩ | ⟨leaf,i,e,mem,done,readKey,readVal,unique⟩
    · exact .inl ⟨done,fun e mem same => absent e (only e mem same) same⟩
    · refine .inr ⟨leaf,i,e,?_,done,readKey,readVal,fun x inTree same => unique x (only x inTree same) same⟩
      simp [internalView,mem]

end

/-- What the operation does to a map. -/
def Op.apply (m : K → Option V) : Op K V → K → Option V
  | .insert key val => update m key (some val)
  | .delete key => update m key none

def contents (ops : List (Op K V)) : K → Option V := ops.foldl Op.apply (fun _ => none)

/-- The result of a lookup: the value and whether there is one. -/
def lookup (m : K → Option V) (key : K) : V × Bool :=
  match m key with
  | some val => (val,true)
  | none => (default,false)

/-- The tree of a state has the shape of height `h` and holds exactly what the map does. -/
structure Stores (d : Nat) (m : K → Option V) (s : Heap × Tree K V) (h : Nat) (v : View K V) : Prop where
  degree : s.2.degree = d
  root : v.node = s.2.root
  shape : Subtree d h none none v
  some_key : 0 < h → 1 ≤ v.nkeys
  holds : ∀ k x, (k,x) ∈ v.entries ↔ m k = some x

section
variable {d h : Nat} {m : K → Option V} {s : Heap × Tree K V} {v : View K V}

lemma newBTree_stores (large : 3 ≤ d) (heap : Heap) : Stores (K := K) (V := V) d (fun _ => none) (newBTree heap d) 0
    (leafView (newLeafNode heap d).2 []) := by
  have empty : LeafNode.Holds d ([] : List (K × V)) (newLeafNode heap d).2 :=
    ⟨rfl,holds_nil length_replicate,holds_nil length_replicate⟩
  refine ⟨rfl,rfl,⟨_,_,rfl,empty,.nil,by simp,by simp; omega⟩,by simp,?_⟩
  simp [leafView]

lemma Stores.find (stores : Stores d m s h v) (key : K) : s.2.find key = some (lookup m key) := by
  have enough := stores.shape.height_lt
  rw [stores.root] at enough
  have found := stores.shape.find (within_unbounded key) enough
  rw [stores.root] at found
  rcases found with ⟨done,absent⟩ | ⟨leaf,i,e,mem,done,readKey,readVal,unique⟩
  · have none : m key = none := by
      refine eq_none_iff_forall_ne_some.mpr fun x stored => ?_
      exact absent (key,x) ((stores.holds key x).mpr stored) rfl
    simp only [Tree.find,done,some_bind,lookup,none]
    rfl
  · by_cases same : e.1 = key
    · have stored : m key = some e.2 := (stores.holds key e.2).mp (same ▸ mem)
      simp only [Tree.find,done,readKey,readVal,some_bind,if_pos same,lookup,stored]
      rfl
    · have none : m key = none := by
        refine eq_none_iff_forall_ne_some.mpr fun x stored => ?_
        have entry := unique (key,x) ((stores.holds key x).mpr stored) rfl
        exact same (by rw [← entry])
      simp only [Tree.find,done,readKey,some_bind,if_neg same,lookup,none]
      rfl

lemma newRoot_holds (large : 3 ≤ d) (heap : Heap) (k : K) (a b : Node K V) :
    ∃ keys ptrs ptrs', put (newInternalNode (K := K) (P := Node K V) heap d).2.keys 0 k = some keys ∧
      put (newInternalNode (K := K) (P := Node K V) heap d).2.ptrs 0 (some a) = some ptrs ∧
      put ptrs 1 (some b) = some ptrs' ∧
      InternalNode.Holds d [k] [a,b] ⟨heap.id+1,1,keys,ptrs'⟩ := by
  have noKeys : Slices.Holds d [] (newInternalNode (K := K) (P := Node K V) heap d).2.keys :=
    holds_nil length_replicate
  have noPtrs : Slices.Holds (d+1) [] (newInternalNode (K := K) (P := Node K V) heap d).2.ptrs :=
    holds_nil length_replicate
  obtain ⟨keys,keyed,holdsKeys⟩ := noKeys.push (y := k) (by simp; omega)
  obtain ⟨ptrs,first,holdsPtrs⟩ := noPtrs.push (y := some a) (by simp)
  obtain ⟨ptrs',second,holdsPtrs'⟩ := holdsPtrs.push (y := some b) (by simp; omega)
  exact ⟨keys,ptrs,ptrs',keyed,first,second,rfl,holdsKeys,holdsPtrs'⟩

lemma Stores.insert (odd : d%2 = 1) (large : 3 ≤ d) (stores : Stores d m s h v) (key : K) (val : V) :
    ∃ t h' v', s.2.insert s.1 key val = some t ∧ Stores d (update m key (some val)) t h' v' ∧
      Relinked (s.1,v.leaves) (t.1,v'.leaves) := by
  have enough := stores.shape.height_lt
  obtain ⟨heap',v',more,done,grown,relinked⟩ :=
    stores.shape.insertKV odd large val (within_unbounded key) s.1 enough
  rw [stores.root] at done
  have holds : ∀ k x, (k,x) ∈ setEntry key val v.entries ↔ update m key (some val) k = some x := by
    intro k x
    rw [mem_setEntry_iff stores.shape.ordered.1,stores.holds]
    by_cases same : k = key
    · subst same
      simp [eq_comm]
    · simp [same]
  cases more with
  | none =>
    refine ⟨(heap',{ s.2 with root := v'.node }),h,v',?_,⟨stores.degree,rfl,grown.fenced,?_,?_⟩,by simpa using relinked⟩
    · simp only [Tree.insert,done,some_bind,map_none]
      rfl
    · exact fun deep => (stores.some_key deep).trans (grown.kept rfl)
    · rwa [show v'.entries = setEntry key val v.entries by simpa using grown.entries]
  | some g =>
    obtain ⟨k,r⟩ := g
    obtain ⟨left,right⟩ := grown.halves (k,r) rfl
    obtain ⟨keys,ptrs,ptrs',keyed,first,second,held⟩ := newRoot_holds large heap' k v'.node r.node
    have fill : ∀ c ∈ [v',r], d/2 ≤ c.nkeys := by simpa using ⟨left,right⟩
    refine ⟨({ heap' with id := heap'.id+1 },{ s.2 with root := .internal ⟨heap'.id+1,1,keys,ptrs'⟩ }),h+1,
      internalView ⟨heap'.id+1,1,keys,ptrs'⟩ [v',r],?_,
      ⟨stores.degree,rfl,⟨_,[k],[v',r],rfl,held,grown.fenced,fill,by simp; omega⟩,fun _ => le_rfl,?_⟩,?_⟩
    · simp only [Tree.insert,done,some_bind,map_some,stores.degree,keyed,first,second]
      rfl
    · rw [show (internalView ⟨heap'.id+1,1,keys,ptrs'⟩ [v',r]).entries = setEntry key val v.entries from grown.entries]
      exact holds
    · exact relinked.trans (.single (.alloc heap' _))

lemma Stores.delete (odd : d%2 = 1) (large : 3 ≤ d) (stores : Stores d m s h v) (key : K) :
    ∃ t h' v', s.2.delete s.1 key = some t ∧ Stores d (update m key none) t h' v' ∧
      Relinked (s.1,v.leaves) (t.1,v'.leaves) := by
  have enough := stores.shape.height_lt
  obtain ⟨heap',v',done,shape,entries,loss,relinked⟩ :=
    stores.shape.delete odd large (within_unbounded key) s.1 enough stores.some_key
  rw [stores.root] at done
  have holds : ∀ k x, (k,x) ∈ v'.entries ↔ update m key none k = some x := by
    intro k x
    rw [entries,mem_filter,stores.holds]
    by_cases same : k = key
    · subst same
      simp
    · simp [same]
  cases h with
  | zero =>
    obtain ⟨node,es,rfl,leaf⟩ := shape
    refine ⟨(heap',{ s.2 with root := .leaf node }),0,leafView node es,?_,
      ⟨stores.degree,rfl,⟨node,es,rfl,leaf⟩,by simp,holds⟩,relinked⟩
    simp only [Tree.delete,done,some_bind,leafView]
    rfl
  | succ h =>
    obtain ⟨node,ks,cs,rfl,row⟩ := shape
    by_cases empty : node.nkeys = 0
    · -- the root has one child left
      rw [row.holds.count] at empty
      obtain rfl : ks = [] := length_eq_zero_iff.mp empty
      obtain ⟨c,rfl⟩ : ∃ c, cs = [c] := length_eq_one_iff.mp row.fenced.length
      have filled := row.fill c (by simp)
      have read : node.child 0 = some c.node := by
        have only : node.Holds d [] ([]++c.node::[]) := row.holds
        exact only.child
      refine ⟨(heap',{ s.2 with root := c.node }),h,c,?_,
        ⟨stores.degree,rfl,row.fenced,fun _ => by omega,by simpa [internalView] using holds⟩,
        by simpa [internalView] using relinked⟩
      simp only [Tree.delete,done,some_bind,internalView,row.holds.count,length_nil,
        if_true,read]
      rfl
    · refine ⟨(heap',{ s.2 with root := .internal node }),h+1,internalView node cs,?_,
        ⟨stores.degree,rfl,⟨node,ks,cs,rfl,row⟩,fun _ => Nat.pos_of_ne_zero empty,holds⟩,relinked⟩
      simp only [Tree.delete,done,some_bind,internalView,if_neg empty]
      rfl

lemma Stores.next (odd : d%2 = 1) (large : 3 ≤ d) (stores : Stores d m s h v) (op : Op K V) :
    ∃ t h' v', BTree.next s op = some t ∧ Stores d (op.apply m) t h' v' ∧ Relinked (s.1,v.leaves) (t.1,v'.leaves) := by
  cases op with
  | insert key val => exact stores.insert odd large key val
  | delete key => exact stores.delete odd large key

lemma Stores.run (odd : d%2 = 1) (large : 3 ≤ d) (stores : Stores d m s h v) (ops : List (Op K V)) :
    ∃ t h' v', Runs.run BTree.next s ops = some t ∧ Stores d (ops.foldl Op.apply m) t h' v' ∧
      Relinked (s.1,v.leaves) (t.1,v'.leaves) := by
  induction ops generalizing m s h v with
  | nil => exact ⟨s,h,v,rfl,stores,.refl _⟩
  | cons op ops ih =>
    obtain ⟨t,h1,v1,moved,after,relinked⟩ := stores.next odd large op
    obtain ⟨u,h2,v2,ran,final,relinked'⟩ := ih after
    exact ⟨u,h2,v2,by rw [Runs.run,moved,bind_some,ran],final,relinked.trans relinked'⟩

end

/-- For an odd degree, insertions and deletions never panic, the tree answers every lookup as the map they
build does, and it stays balanced. -/
theorem btree_refines (heap : Heap) {d : Nat} (odd : d%2 = 1) (large : 3 ≤ d) (ops : List (Op K V)) :
    ∃ s, Runs.run next (newBTree heap d) ops = some s ∧ (∀ key, s.2.find key = some (lookup (contents ops) key)) ∧
      Balanced d s.2.root := by
  obtain ⟨s,h,v,ran,stores,_⟩ := (newBTree_stores large heap).run odd large ops
  exact ⟨s,ran,stores.find,stores.root ▸ stores.shape.balanced large⟩

/-- Five keys make a tree of three levels, and deletions bring it back to two. -/
theorem btree_refines_three : ∃ s, Runs.run next (newBTree ⟨0,fun _ => none,fun _ => none⟩ 3)
      ([.insert 1 10,.insert 2 20,.insert 3 30,.insert 4 40,.insert 5 50,.insert 3 31,.delete 1,.delete 2,.delete 9] :
        List (Op Nat Nat)) = some s ∧
    s.2.find 3 = some (31,true) ∧ s.2.find 1 = some (0,false) ∧ Balanced 3 s.2.root := by
  obtain ⟨s,ran,finds,balanced⟩ := btree_refines ⟨0,fun _ => none,fun _ => none⟩ (d := 3) rfl (le_refl 3)
    ([.insert 1 10,.insert 2 20,.insert 3 30,.insert 4 40,.insert 5 50,.insert 3 31,.delete 1,.delete 2,.delete 9] :
      List (Op Nat Nat))
  exact ⟨s,ran,finds 3,finds 1,balanced⟩

/-- For an odd degree no index is ever out of range, and no node is left full. -/
theorem no_overfull_node (heap : Heap) {d : Nat} (odd : d%2 = 1) (large : 3 ≤ d) (ops : List (Op K V)) :
    ∃ s, Runs.run next (newBTree heap d) ops = some s ∧ ∀ n, s.2.root.Reaches n → n.getNKeys ≤ d-1 := by
  obtain ⟨s,h,v,ran,stores,_⟩ := (newBTree_stores large heap).run odd large ops
  have balanced : Balanced d s.2.root := stores.root ▸ stores.shape.balanced large
  exact ⟨s,ran,balanced.most⟩

theorem no_overfull_node_five : ∃ s, Runs.run next (newBTree ⟨0,fun _ => none,fun _ => none⟩ 5)
      ([.insert 1 10,.insert 2 20,.insert 3 30,.insert 4 40,.insert 5 50,.delete 1,.insert 6 60] : List (Op Nat Nat)) = some s ∧
    ∀ n, s.2.root.Reaches n → n.getNKeys ≤ 4 :=
  no_overfull_node ⟨0,fun _ => none,fun _ => none⟩ (by decide) (by decide) _

/-- Ten insertions split an internal node of degree 4 into nodes with two keys and one key. -/
def ten : List (Op Nat Nat) := [.insert 1 0,.insert 2 0,.insert 3 0,.insert 4 0,.insert 5 0,.insert 6 0,.insert 7 0,
  .insert 8 0,.insert 9 0,.insert 10 0]

/-- With degree 4 a deletion, even of a missing key, merges these nodes into one with four keys; two insertions
later a child of it is split, and the index is out of range. -/
theorem overfull_node : (∃ s, Runs.run next (newBTree ⟨0,fun _ => none,fun _ => none⟩ 4) (ten++[.delete 99]) = some s ∧
      s.2.root.getNKeys = 4) ∧
    Runs.run next (newBTree ⟨0,fun _ => none,fun _ => none⟩ 4) (ten++[.delete 99,.insert 11 0,.insert 12 0]) = none := by
  refine ⟨by decide +kernel,?_⟩
  rw [← isNone_iff_eq_none]
  decide +kernel

/-! ## The links between the leaves -/
open Chains

variable {K V : Type} [LinearOrder K] [Inhabited K] [Inhabited V]

section
variable (h : Heap) (node left right x : Nat)

lemma Heap.newLeaf_next : h.newLeaf.next x = if x = h.id+1 then none else h.next x :=
  update_apply h.next (h.id+1) none x

lemma Heap.newLeaf_prev : h.newLeaf.prev x = if x = h.id+1 then none else h.prev x :=
  update_apply h.prev (h.id+1) none x

lemma Heap.linkAfter_next : (h.linkAfter node right).next x =
    if x = node then some right else if x = right then h.next node else h.next x := by
  simp only [Heap.linkAfter,update_apply]

lemma Heap.linkAfter_prev : (h.linkAfter node right).prev x =
    if some x = h.next node then some right else if x = right then some node else h.prev x := by
  unfold Heap.linkAfter
  cases h.next node with
  | none => simp [update_apply]
  | some after => simp [update_apply]

lemma Heap.unlink_next : (h.unlink left right).next x = if x = left then h.next right else h.next x := by
  simp only [Heap.unlink,update_apply]

lemma Heap.unlink_prev : (h.unlink left right).prev x = if some x = h.next right then some left else h.prev x := by
  unfold Heap.unlink
  cases h.next right with
  | none => simp
  | some after => simp [update_apply]

end

/-- The leaves are linked in their order, and their ids were all given out. -/
structure Linked (s : Heap × List Nat) : Prop where
  chain : Chain s.1.prev s.1.next none s.2 none
  nodup : s.2.Nodup
  old : ∀ id ∈ s.2, id ≤ s.1.id

lemma Linked.step (linked : Linked s) (step : LinkStep s t) : Linked t := by
  obtain ⟨chain,nodup,old⟩ := linked
  cases step with
  | alloc heap ids => exact ⟨chain,nodup,fun id mem => Nat.le_succ_of_le (old id mem)⟩
  | split heap pre id post =>
    have fresh : heap.id+1 ∉ pre ++ id::post := fun mem => Nat.not_succ_le_self _ (old _ mem)
    have notNew : id ≠ heap.id+1 := fun equal => fresh (by simp [← equal])
    have nextId : heap.newLeaf.next id = heap.next id := by rw [heap.newLeaf_next,if_neg notNew]
    refine ⟨chain.insertAfter nodup fresh ?_ ?_,?_,?_⟩
    · intro x
      rw [Heap.linkAfter_next,nextId,heap.newLeaf_next]
      split
      · rfl
      · split
        · rfl
        · rfl
    · intro x
      rw [Heap.linkAfter_prev,nextId,heap.newLeaf_prev]
      split
      · rfl
      · split
        · rfl
        · rfl
    · have moved : ((pre++[id])++(heap.id+1)::post).Perm ((heap.id+1)::((pre++[id])++post)) :=
        List.perm_middle
      simp only [List.append_assoc,List.cons_append,List.nil_append] at moved
      exact moved.nodup_iff.mpr (List.nodup_cons.mpr ⟨fresh,nodup⟩)
    · intro x mem
      simp only [List.mem_append,List.mem_cons] at mem old
      show x ≤ heap.id+1
      rcases mem with before | rfl | rfl | behind
      · exact Nat.le_succ_of_le (old x (.inl before))
      · exact Nat.le_succ_of_le (old x (.inr (.inl rfl)))
      · exact le_rfl
      · exact Nat.le_succ_of_le (old x (.inr (.inr behind)))
  | merge heap pre left right post =>
    have kept : (pre++left::post).Sublist (pre++left::right::post) :=
      (List.Sublist.refl pre).append ((List.sublist_cons_self right post).cons_cons left)
    refine ⟨chain.removeAfter nodup (heap.unlink_next left right) (heap.unlink_prev left right),kept.nodup nodup,?_⟩
    exact fun id mem => old id (kept.subset mem)

lemma Linked.relinked (linked : Linked s) (relinked : Relinked s t) : Linked t := by
  induction relinked with
  | refl => exact linked
  | tail _ step ih => exact ih.step step

lemma run_linked (heap : Heap) (odd : d%2 = 1) (large : 3 ≤ d) (ops : List (Op K V)) :
    ∃ s h v, Runs.run next (newBTree heap d) ops = some s ∧ Stores d (contents ops) s h v ∧ Linked (s.1,v.leaves) := by
  obtain ⟨s,h,v,ran,stores,relinked⟩ := (newBTree_stores large heap).run odd large ops
  refine ⟨s,h,v,ran,stores,Linked.relinked ⟨?_,by simp [leafView],?_⟩ relinked⟩
  · refine ⟨?_,?_,trivial⟩
    · exact (heap.newLeaf_prev _).trans (if_pos rfl)
    · exact (heap.newLeaf_next _).trans (if_pos rfl)
  · intro id mem
    obtain rfl : id = heap.id+1 := by simpa [leafView,newLeafNode,Heap.newLeaf] using mem
    exact le_rfl

end CodeExercise.BTree
