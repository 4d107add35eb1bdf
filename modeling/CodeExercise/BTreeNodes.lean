import CodeExercise.BTree
import CodeExercise.Fences
import Mathlib.Logic.Relation

/-!
What the operations on a single node do. None of them panics when there is room for what it adds and
something to take for what it removes.
-/
set_option linter.unusedSectionVars false

namespace CodeExercise.BTree
open Slices SortedMaps List Option

variable {K V P : Type} [LinearOrder K] [Inhabited K] [Inhabited V]

structure LeafNode.Holds (d : Nat) (es : List (K × V)) (node : LeafNode K V) : Prop where
  count : node.nkeys = es.length
  keys : Slices.Holds d (es.map Prod.fst) node.keys
  vals : Slices.Holds d (es.map Prod.snd) node.vals

structure InternalNode.Holds (d : Nat) (ks : List K) (cs : List P) (node : InternalNode K P) : Prop where
  count : node.nkeys = ks.length
  keys : Slices.Holds d ks node.keys
  ptrs : Slices.Holds (d+1) (cs.map some) node.ptrs

namespace LeafNode

variable {d : Nat} {es pre post : List (K × V)} {node : LeafNode K V} {key : K} {val : V}

lemma Holds.degree (holds : Holds d es node) : node.degree = d := holds.keys.length

lemma Holds.seek (p : K → Bool) (holds : Holds d es node) : ∃ pre post, es = pre++post ∧
    Slices.seek p node.keys 0 node.nkeys = some pre.length ∧
    (∀ e ∈ pre, p e.1 = false) ∧ ∀ e ∈ post.head?, p e.1 = true := by
  obtain ⟨left,right,cut,sought,misses,hit⟩ := holds.keys.seek p (by simpa using holds.count)
  exact exists_entries_cut cut sought misses hit

lemma Holds.get (holds : Holds d (pre++(key,val)::post) node) :
    node.keys[pre.length]? = some key ∧ node.vals[pre.length]? = some val := by
  obtain ⟨_,keys,vals⟩ := holds
  rw [map_append,map_cons] at keys vals
  exact ⟨keys.get (by simp),vals.get (by simp)⟩

lemma Holds.find (holds : Holds d es node) (key : K) : ∃ pre post, es = pre++post ∧
    node.find key = some (if post = [] then none else some pre.length) ∧
    (∀ e ∈ pre, e.1 < key) ∧ ∀ e ∈ post.head?, key ≤ e.1 := by
  obtain ⟨pre,post,rfl,sought,misses,hit⟩ := holds.seek (fun x => decide (key ≤ x))
  refine ⟨pre,post,rfl,?_,by simpa using misses,by simpa using hit⟩
  have behind : pre.length = node.nkeys ↔ post = [] := by
    rw [holds.count,length_append]
    constructor
    · intro same
      exact length_eq_zero_iff.mp (by omega)
    · rintro rfl
      rfl
  simp only [LeafNode.find,sought,some_bind,behind]
  split <;> rfl

lemma Holds.insertAt (holds : Holds d (pre++post) node) (room : (pre++post).length < d) (key : K) (val : V) :
    ∃ keys vals,
      (shiftUp pre.length (node.nkeys-pre.length) node.keys).bind (fun keys => put keys pre.length key) = some keys ∧
      (shiftUp pre.length (node.nkeys-pre.length) node.vals).bind (fun vals => put vals pre.length val) = some vals ∧
      Holds d (pre++(key,val)::post) { node with nkeys := node.nkeys+1, keys, vals } := by
  obtain ⟨count,keys,vals⟩ := holds
  have moved : node.nkeys-pre.length = post.length := by
    rw [count,length_append]
    omega
  rw [map_append] at keys vals
  obtain ⟨keys',placed,keyed⟩ := keys.insert (by simpa using room) (i := pre.length) (y := key) (by simp)
  obtain ⟨vals',valued,filled⟩ := vals.insert (by simpa using room) (i := pre.length) (y := val) (by simp)
  rw [length_map] at placed valued
  rw [moved]
  refine ⟨keys',vals',placed,valued,?_,?_,?_⟩
  · simp [count,Nat.add_assoc]
  · simpa using keyed
  · simpa using filled

variable {e : K × V}

/-- A full leaf gives its upper half to a new leaf, whose first key is promoted. -/
lemma Holds.split (h : Heap) (holds : Holds d (pre++e::post) node) (half : pre.length = d/2)
    (full : (pre++e::post).length = d) : ∃ node' right,
      node.split h = some (h.newLeaf.linkAfter node.id right.id,node',some (e.1,right)) ∧
      Holds d pre node' ∧ Holds d (e::post) right ∧ node'.id = node.id ∧ right.id = h.id+1 := by
  have degree := holds.degree
  obtain ⟨count,keys,vals⟩ := holds
  have upper : d-d/2 = (e::post).length := by
    rw [length_append] at full
    omega
  have base : node.nkeys-(d-d/2) = pre.length := by
    rw [count,length_append]
    omega
  rw [map_append] at keys vals
  obtain ⟨keys',rightKeys,movedKeys,keptKeys,newKeys⟩ := keys.moveTail default
    (length_replicate : (List.replicate d (default : K)).length = d) (by rw [length_map]; omega)
  obtain ⟨vals',rightVals,movedVals,keptVals,newVals⟩ := vals.moveTail default
    (length_replicate : (List.replicate d (default : V)).length = d) (by rw [length_map]; omega)
  rw [length_map,length_map,← upper,← base] at movedKeys movedVals
  have first : rightKeys[0]? = some e.1 := by
    have front : Slices.Holds d ([]++e.1::post.map Prod.fst) rightKeys := newKeys
    exact front.get rfl
  refine ⟨{ node with nkeys := d/2, keys := keys', vals := vals' },⟨h.id+1,d-d/2,rightKeys,rightVals⟩,?_,?_,?_,rfl,rfl⟩
  · simp only [LeafNode.split,degree,newLeafNode,movedKeys,movedVals,LeafNode.getLeftMostKey,first,some_bind]
    rfl
  · exact ⟨half.symm,keptKeys,keptVals⟩
  · exact ⟨upper,newKeys,newVals⟩

/-- A search for the place of a key finds its entry, or the place between the smaller and the greater keys. -/
lemma Holds.seekKey (holds : Holds d es node) (key : K) (p : K → Bool) (stops : ∀ x, p x = true ↔ key ≤ x) :
    ∃ pre post, es = pre++post ∧ Slices.seek p node.keys 0 node.nkeys = some pre.length ∧ (∀ e ∈ pre, e.1 < key) ∧
      ((pre.length < node.nkeys ∧ node.keys[pre.length]? = some key) ∧ (∃ w rest, post = (key,w)::rest) ∨
        ¬ (pre.length < node.nkeys ∧ node.keys[pre.length]? = some key) ∧ ∀ e ∈ post.head?, key < e.1) := by
  obtain ⟨pre,post,rfl,sought,misses,hit⟩ := holds.seek p
  refine ⟨pre,post,rfl,sought,place_of_stop stops misses hit holds.count (fun e head => ?_)⟩
  rw [eq_cons_of_mem_head? head] at holds
  exact holds.get.1

lemma Holds.insertKV (h : Heap) (holds : Holds d es node) (room : es.length < d) (key : K) (val : V) :
    ∃ node', Holds d (setEntry key val es) node' ∧ node'.id = node.id ∧ (setEntry key val es).length ≤ d ∧
      node.insertKV h key val =
        if (setEntry key val es).length = d then node'.split h else some (h,node',none) := by
  obtain ⟨pre,post,rfl,sought,below,place⟩ := holds.seekKey key (fun x => decide (x = key ∨ key < x))
    (fun x => by rw [decide_eq_true_eq,le_iff_eq_or_lt,eq_comm])
  rw [setEntry_append_left below]
  rcases place with ⟨found,w,rest,rfl⟩ | ⟨missing,above⟩
  · obtain ⟨count,keys,vals⟩ := holds
    rw [map_append,map_cons] at vals
    obtain ⟨vals',written,filled⟩ := vals.put (i := pre.length) (y := val) (by simp)
    have updated : setEntry key val ((key,w)::rest) = (key,val)::rest := by simp [setEntry]
    have same : (pre++(key,val)::rest).length = (pre++(key,w)::rest).length := by simp
    rw [updated]
    refine ⟨{ node with vals := vals' },⟨?_,?_,?_⟩,rfl,by omega,?_⟩
    · rw [count,same]
    · simpa using keys
    · simpa using filled
    · rw [if_neg (by omega)]
      simp only [LeafNode.insertKV,sought,some_bind,if_pos found,written]
      rfl
  · obtain ⟨keys,vals,placed,valued,placing⟩ := holds.insertAt room key val
    rw [setEntry_of_head above]
    refine ⟨_,placing,rfl,by simp at room ⊢; omega,?_⟩
    have full : node.nkeys+1 = keys.length ↔ (pre++(key,val)::post).length = d := by
      rw [placing.keys.length,holds.count]
      simp [Nat.add_assoc]
    simp only [LeafNode.insertKV,sought,some_bind,if_neg missing,placed,valued,
      LeafNode.needSplit,full,decide_eq_true_eq]
    rfl

lemma Holds.delKeyValByIndex (holds : Holds d (pre++e::post) node) :
    ∃ node', node.delKeyValByIndex pre.length = some node' ∧ Holds d (pre++post) node' ∧ node'.id = node.id := by
  obtain ⟨count,keys,vals⟩ := holds
  have last : lastIndex node.nkeys = some (pre.length+post.length) := by
    rw [count,length_append,length_cons,← Nat.add_assoc]
    rfl
  have moved : node.nkeys-(pre.length+1) = post.length := by
    rw [count,length_append,length_cons]
    omega
  rw [map_append,map_cons] at keys vals
  obtain ⟨keys',shifted,kept⟩ := keys.delete (i := pre.length) (j := pre.length+post.length) (y := default)
    (by simp) (by simp)
  obtain ⟨vals',valued,left⟩ := vals.delete (i := pre.length) (j := pre.length+post.length) (y := default)
    (by simp) (by simp)
  rw [length_map] at shifted valued
  refine ⟨{ node with nkeys := pre.length+post.length, keys := keys', vals := vals' },?_,⟨?_,?_,?_⟩,rfl⟩
  · simp only [LeafNode.delKeyValByIndex,last,moved,some_bind,shifted,valued]
    rfl
  · simp
  · simpa using kept
  · simpa using left

lemma Holds.delete (holds : Holds d es node) (sorted : es.Pairwise (fun a b => a.1 < b.1)) (key : K) :
    ∃ node', node.delete key = some node' ∧ Holds d (es.filter (fun e => e.1 ≠ key)) node' ∧ node'.id = node.id := by
  obtain ⟨pre,post,rfl,sought,below,place⟩ := holds.seekKey key (fun x => decide (key < x ∨ key = x))
    (fun x => by rw [decide_eq_true_eq,le_iff_lt_or_eq])
  rcases place with ⟨found,w,rest,rfl⟩ | ⟨missing,above⟩
  · rw [filter_ne_cons sorted]
    simp only [LeafNode.delete,sought,some_bind,if_pos found]
    exact holds.delKeyValByIndex
  · rw [filter_ne_append sorted below above]
    refine ⟨node,?_,holds,rfl⟩
    simp only [LeafNode.delete,sought,some_bind,if_neg missing]
    rfl

/-- A leaf takes the last entry of its left sibling, whose key becomes the separator. -/
lemma Holds.stealFromLeft (h : Heap) (holds : Holds d es node)
    (sibling : Holds d (pre++[e]) left) (room : es.length+1 < d) (below : ∀ x ∈ es, e.1 < x.1) :
    ∃ node' left', node.stealFromLeft h left = some (h,node',left',e.1) ∧
      Holds d (e::es) node' ∧ Holds d pre left' ∧ node'.id = node.id ∧ left'.id = left.id := by
  obtain ⟨node',holds',id',_,inserted⟩ := holds.insertKV h (by omega) e.1 e.2
  rw [setEntry_of_head (fun x first => below x (mem_of_mem_head? first))] at holds' inserted
  rw [if_neg (by simp; omega)] at inserted
  have read := sibling.get
  obtain ⟨count,keys,vals⟩ := sibling
  have last : lastIndex left.nkeys = some pre.length := by
    rw [count,length_append]
    rfl
  rw [map_append] at keys vals
  obtain ⟨keys',cleared,keyed⟩ := keys.put (i := pre.length) (y := default) (by simp)
  obtain ⟨vals',emptied,filled⟩ := vals.put (i := pre.length) (y := default) (by simp)
  refine ⟨node',{ left with nkeys := pre.length, keys := keys', vals := vals' },?_,holds',⟨rfl,keyed.take,filled.take⟩,
    id',rfl⟩
  simp only [LeafNode.stealFromLeft,LeafNode.removeMaxKeyVal,last,some_bind,read.1,read.2,
    cleared,emptied,Option.pure_def,inserted]

/-- A leaf takes the first entry of its right sibling; the next one gives the separator. -/
lemma Holds.stealFromRight (holds : Holds d es node)
    (sibling : Holds d (e::first::post) right) (room : es.length < d) :
    ∃ node' right', node.stealFromRight right = some (node',right',first.1) ∧
      Holds d (es++[e]) node' ∧ Holds d (first::post) right' ∧ node'.id = node.id ∧ right'.id = right.id := by
  have front : Holds d ([]++e::first::post) right := sibling
  have read := front.get
  obtain ⟨right',removed,rest,id'⟩ := front.delKeyValByIndex
  have front' : Holds d ([]++first::post) right' := rest
  obtain ⟨count,keys,vals⟩ := holds
  obtain ⟨keys',added,keyed⟩ := keys.push (y := e.1) (by simpa using room)
  obtain ⟨vals',valued,filled⟩ := vals.push (y := e.2) (by simpa using room)
  rw [length_map,← count] at added valued
  rw [length_nil] at read removed
  refine ⟨{ node with nkeys := node.nkeys+1, keys := keys', vals := vals' },right',?_,⟨?_,?_,?_⟩,rest,rfl,id'⟩
  · simp only [LeafNode.stealFromRight,LeafNode.removeMinKeyVal,LeafNode.appendMaxKeyVal,LeafNode.getLeftMostKey,
      some_bind,read.1,read.2,removed,added,valued,Option.pure_def]
    rw [show right'.keys[0]? = some first.1 from front'.get.1]
    rfl
  · simp [count]
  · simpa using keyed
  · simpa using filled

lemma Holds.mergeWithRight (h : Heap) (holds : Holds d pre node) (sibling : Holds d post right)
    (room : pre.length+post.length ≤ d) : ∃ node',
      node.mergeWithRight h right = some (h.unlink node.id right.id,node') ∧
      Holds d (pre++post) node' ∧ node'.id = node.id := by
  obtain ⟨keys',copied,keyed⟩ := holds.keys.copyTo sibling.keys (by simpa using room)
  obtain ⟨vals',valued,filled⟩ := holds.vals.copyTo sibling.vals (by simpa using room)
  rw [length_map,length_map,← holds.count,← sibling.count] at copied valued
  refine ⟨{ node with nkeys := node.nkeys+right.nkeys, keys := keys', vals := vals' },?_,⟨?_,?_,?_⟩,rfl⟩
  · simp only [LeafNode.mergeWithRight,some_bind,copied,valued]
    rfl
  · simp [holds.count,sibling.count]
  · simpa using keyed
  · simpa using filled

end LeafNode

namespace InternalNode

variable {d : Nat} {ks pre post : List K} {cs left right : List P} {node : InternalNode K P} {key : K} {c : P}

lemma Holds.degree (holds : Holds d ks cs node) : node.degree = d := holds.keys.length

lemma Holds.child (holds : Holds d ks (left++c::right) node) : node.child left.length = some c := by
  have ptrs := holds.ptrs
  rw [map_append,map_cons] at ptrs
  rw [InternalNode.child,ptrs.get (by simp)]
  rfl

lemma Holds.setChild (holds : Holds d ks (left++c::right) node) (c' : P) :
    ∃ node', node.setChild left.length c' = some node' ∧ Holds d ks (left++c'::right) node' := by
  obtain ⟨count,keys,ptrs⟩ := holds
  rw [map_append,map_cons] at ptrs
  obtain ⟨ptrs',written,held⟩ := ptrs.put (i := left.length) (y := some c') (by simp)
  refine ⟨{ node with ptrs := ptrs' },?_,count,keys,by simpa using held⟩
  simp only [InternalNode.setChild,written,some_bind]
  rfl

lemma Holds.childIndex (holds : Holds d ks cs node) (key : K) : ∃ pre post, ks = pre++post ∧
    node.childIndex key = some pre.length ∧ (∀ x ∈ pre, x ≤ key) ∧ ∀ x ∈ post.head?, key < x := by
  obtain ⟨pre,post,rfl,sought,misses,hit⟩ := holds.keys.seek (fun x => decide (key < x)) holds.count
  exact ⟨pre,post,rfl,sought,by simpa using misses,by simpa using hit⟩

lemma Holds.delKeyandPtrByIndex (holds : Holds d (pre++key::post) (left++c::right) node)
    (len : left.length+right.length = pre.length+post.length+1) : ∃ node',
      node.delKeyandPtrByIndex pre.length left.length = some node' ∧ Holds d (pre++post) (left++right) node' := by
  obtain ⟨count,keys,ptrs⟩ := holds
  have total : node.nkeys = pre.length+post.length+1 := by
    rw [count,length_append,length_cons,← Nat.add_assoc]
  have last : lastIndex node.nkeys = some (pre.length+post.length) := by rw [total]; rfl
  have movedKeys : node.nkeys-(pre.length+1) = post.length := by omega
  have movedPtrs : node.nkeys-left.length = right.length := by omega
  rw [map_append,map_cons] at ptrs
  obtain ⟨keys',shifted,kept⟩ := keys.delete (i := pre.length) (j := pre.length+post.length) (y := default) rfl rfl
  obtain ⟨ptrs',closed,rest⟩ := ptrs.delete (i := left.length) (j := node.nkeys) (y := none) (by simp) (by simp; omega)
  rw [length_map] at closed
  refine ⟨{ node with nkeys := pre.length+post.length, keys := keys', ptrs := ptrs' },?_,?_,kept,?_⟩
  · simp only [InternalNode.delKeyandPtrByIndex,last,movedKeys,movedPtrs,some_bind,shifted,
      closed]
    rfl
  · simp
  · simpa using rest

variable {sibling : InternalNode K P}

/-- A node takes the last child of its left sibling: the separator comes down, the last key of the sibling goes up. -/
lemma Holds.stealFromLeft (holds : Holds d ks cs node) (parentKey : K)
    (other : Holds d (pre++[key]) (left++[c]) sibling) (len : left.length = pre.length+1) (full : cs.length = ks.length+1)
    (room : ks.length < d) : ∃ node' sibling', node.stealFromLeft sibling parentKey = some (node',sibling',key) ∧
      Holds d (parentKey::ks) (c::cs) node' ∧ Holds d pre left sibling' := by
  obtain ⟨count,keys,ptrs⟩ := holds
  obtain ⟨count',keys',ptrs'⟩ := other
  have last : lastIndex sibling.nkeys = some pre.length := by
    rw [count',length_append]
    rfl
  have lastPtr : left.length = sibling.nkeys := by
    rw [count',len]
    simp
  rw [map_append] at ptrs'
  have read : sibling.keys[pre.length]? = some key := keys'.get rfl
  have readPtr : sibling.ptrs[sibling.nkeys]? = some (some c) := ptrs'.get (by simpa using lastPtr)
  obtain ⟨keysL,cleared,keyed⟩ := keys'.put (i := pre.length) (y := default) rfl
  obtain ⟨ptrsL,nilled,pointed⟩ := ptrs'.put (i := sibling.nkeys) (y := none) (by simpa using lastPtr)
  have front : Slices.Holds d ([]++ks) node.keys := keys
  have frontPtrs : Slices.Holds (d+1) ([]++cs.map some) node.ptrs := ptrs
  obtain ⟨keysN,shifted,taken⟩ := front.insert (i := 0) (y := parentKey) room rfl
  obtain ⟨ptrsN,moved,filled⟩ := frontPtrs.insert (i := 0) (y := some c) (by simp; omega) rfl
  rw [← count] at shifted
  rw [length_map,full,← count] at moved
  refine ⟨{ node with nkeys := node.nkeys+1, keys := keysN, ptrs := ptrsN },
    { sibling with nkeys := pre.length, keys := keysL, ptrs := ptrsL },?_,⟨?_,taken,filled⟩,rfl,keyed.take,pointed.take⟩
  · simp only [InternalNode.stealFromLeft,InternalNode.removeMaxKeyAndPtr,InternalNode.appendMinKeyAndPtr,last,
      some_bind,read,readPtr,cleared,nilled,shifted,moved,Option.pure_def]
  · simp [count]

/-- A node takes the first child of its right sibling: the separator comes down, the first key of the sibling goes up. -/
lemma Holds.stealFromRight (holds : Holds d ks cs node) (parentKey : K)
    (other : Holds d (key::post) (c::right) sibling) (len : right.length = post.length+1)
    (full : cs.length = ks.length+1) (room : ks.length < d) : ∃ node' sibling',
      node.stealFromRight sibling parentKey = some (node',sibling',key) ∧
      Holds d (ks++[parentKey]) (cs++[c]) node' ∧ Holds d post right sibling' := by
  have front : Holds d ([]++key::post) ([]++c::right) sibling := other
  have read : sibling.keys[0]? = some key := front.keys.get rfl
  have readPtr : sibling.ptrs[0]? = some (some c) := by
    have first : Slices.Holds (d+1) ([]++some c :: right.map some) sibling.ptrs := front.ptrs
    exact first.get rfl
  obtain ⟨sibling',removed,rest⟩ := front.delKeyandPtrByIndex (by simp [len])
  rw [length_nil,length_nil] at removed
  obtain ⟨count,keys,ptrs⟩ := holds
  obtain ⟨keys',added,keyed⟩ := keys.push (y := parentKey) room
  obtain ⟨ptrs',pushed,pointed⟩ := ptrs.push (y := some c) (by simp; omega)
  rw [← count] at added
  rw [length_map,full,← count] at pushed
  refine ⟨{ node with nkeys := node.nkeys+1, keys := keys', ptrs := ptrs' },sibling',?_,⟨?_,keyed,?_⟩,rest⟩
  · simp only [InternalNode.stealFromRight,InternalNode.removeMinKeyAndPtr,InternalNode.appendMaxKeyAndPtr,
      some_bind,read,readPtr,removed,added,pushed,Option.pure_def]
  · simp [count]
  · simpa using pointed

lemma Holds.mergeWithRight (holds : Holds d pre left node) (parentKey : K)
    (other : Holds d post right sibling) (len : left.length = pre.length+1) (len' : right.length = post.length+1)
    (room : pre.length+1+post.length ≤ d) : ∃ node', node.mergeWithRight sibling parentKey = some node' ∧
      Holds d (pre++parentKey::post) (left++right) node' := by
  obtain ⟨count,keys,ptrs⟩ := holds
  obtain ⟨keys1,added,keyed⟩ := keys.push (y := parentKey) (by omega)
  obtain ⟨keys2,copied,merged⟩ := keyed.copyTo other.keys (by simp; omega)
  obtain ⟨ptrs1,pointed,joined⟩ := ptrs.copyTo other.ptrs (by simp; omega)
  rw [← count] at added
  rw [length_append,← count,← other.count,length_singleton] at copied
  rw [length_map,length_map,len,len',← count,← other.count] at pointed
  refine ⟨{ node with nkeys := node.nkeys+1+sibling.nkeys, keys := keys2, ptrs := ptrs1 },?_,?_,?_,?_⟩
  · simp only [InternalNode.mergeWithRight,some_bind,added,copied,pointed]
    rfl
  · simp [count,other.count]
    omega
  · simpa using merged
  · simpa using joined

/-- A full node gives its upper children to a new node and promotes the key between the halves. -/
lemma Holds.split (h : Heap) (holds : Holds d (pre++key::post) (left++right) node) (half : pre.length = d/2)
    (full : (pre++key::post).length = d) (len : left.length = pre.length+1) (len' : right.length = post.length+1) :
    ∃ node' sibling, node.split h = some ({ h with id := h.id+1 },node',some (key,sibling)) ∧
      Holds d pre left node' ∧ Holds d post right sibling := by
  have degree := holds.degree
  obtain ⟨count,keys,ptrs⟩ := holds
  rw [length_append,length_cons] at full
  have upper : d-d/2-1 = post.length := by omega
  have base : node.nkeys-post.length = pre.length+1 := by
    rw [count,length_append,length_cons]
    omega
  rw [show pre ++ key::post = (pre++[key])++post by simp] at keys
  rw [map_append] at ptrs
  obtain ⟨keys1,rightKeys,movedKeys,keptKeys,newKeys⟩ := keys.moveTail default
    (length_replicate : (List.replicate d (default : K)).length = d) (by omega)
  obtain ⟨ptrs1,rightPtrs,movedPtrs,keptPtrs,newPtrs⟩ := ptrs.moveTail none
    (length_replicate : (List.replicate (d+1) (none : Option P)).length = d+1) (by rw [length_map]; omega)
  rw [length_append,length_singleton] at movedKeys
  rw [length_map,length_map,len,len'] at movedPtrs
  have read : keys1[pre.length]? = some key := keptKeys.get rfl
  obtain ⟨keys2,cleared,keyed⟩ := keptKeys.put (i := pre.length) (y := default) rfl
  refine ⟨{ node with nkeys := d/2, keys := keys2, ptrs := ptrs1 },⟨h.id+1,post.length,rightKeys,rightPtrs⟩,?_,
    ⟨half.symm,keyed.take,keptPtrs⟩,⟨rfl,newKeys,newPtrs⟩⟩
  simp only [InternalNode.split,degree,newInternalNode,upper,base,movedKeys,movedPtrs,lastIndex,some_bind,read,cleared]
  rfl

/-- The new child comes behind the one that was split; the node is split when that fills it. -/
lemma Holds.insertChild (h : Heap) (holds : Holds d (pre++post) (left++c::right) node)
    (len : left.length = pre.length) (len' : right.length = post.length) (room : (pre++post).length < d)
    (promotedKey : K) (newChild : P) :
    ∃ node', Holds d (pre++promotedKey::post) (left++c::newChild::right) node' ∧
      node.insertChild h pre.length promotedKey newChild =
        if (pre++promotedKey::post).length = d then node'.split h else some (h,node',none) := by
  obtain ⟨count,keys,ptrs⟩ := holds
  have moved : node.nkeys-pre.length = post.length := by
    rw [count,length_append]
    omega
  rw [show left ++ c::right = (left++[c])++right by simp,map_append] at ptrs
  obtain ⟨keys',placed,keyed⟩ := keys.insert (i := pre.length) (y := promotedKey) room rfl
  obtain ⟨ptrs',pointed,linked⟩ := ptrs.insert (i := pre.length+1) (y := some newChild)
    (by simp at room ⊢; omega) (by simpa using len)
  rw [length_map,len'] at pointed
  refine ⟨{ node with nkeys := node.nkeys+1, keys := keys', ptrs := ptrs' },⟨?_,keyed,by simpa using linked⟩,?_⟩
  · simp [count,Nat.add_assoc]
  · have full : node.nkeys+1 = keys'.length ↔ (pre++promotedKey::post).length = d := by
      rw [keyed.length,count]
      simp [Nat.add_assoc]
    simp only [InternalNode.insertChild,moved,some_bind,placed,pointed,InternalNode.needSplit,
      full,decide_eq_true_eq]
    rfl

end InternalNode

/-! ## The shape of a subtree -/
open Fences

variable {K V : Type} [LinearOrder K] [Inhabited K] [Inhabited V]

/-- A node with what is below it. -/
structure View (K V : Type) where
  node : Node K V
  entries : List (K × V)
  leaves : List Nat

def View.nkeys (v : View K V) : Nat := v.node.getNKeys
def leafView (node : LeafNode K V) (es : List (K × V)) : View K V := ⟨.leaf node,es,[node.id]⟩

def internalView (node : InternalNode K (Node K V)) (cs : List (View K V)) : View K V :=
  ⟨.internal node,cs.flatMap View.entries,cs.flatMap View.leaves⟩

def Sorted (es : List (K × V)) : Prop := es.Pairwise (fun a b => a.1 < b.1)

structure Leaf (d : Nat) (lo hi : Option K) (node : LeafNode K V) (es : List (K × V)) : Prop where
  holds : node.Holds d es
  sorted : Sorted es
  within : ∀ e ∈ es, Within lo hi e.1
  room : es.length < d

/-- An internal node whose children are fenced by its keys and have enough keys themselves. -/
structure Row (d : Nat) (S : Option K → Option K → View K V → Prop) (lo hi : Option K)
    (node : InternalNode K (Node K V)) (ks : List K) (cs : List (View K V)) : Prop where
  holds : node.Holds d ks (cs.map View.node)
  fenced : Fenced S lo hi ks cs
  fill : ∀ c ∈ cs, d/2 ≤ c.nkeys
  room : ks.length < d

def Subtree (d : Nat) : Nat → Option K → Option K → View K V → Prop
  | 0,lo,hi,v => ∃ node es, v = leafView node es ∧ Leaf d lo hi node es
  | h+1,lo,hi,v => ∃ node ks cs, v = internalView node cs ∧ Row d (Subtree d h) lo hi node ks cs

section
variable {d h : Nat} {lo hi : Option K} {v : View K V}

lemma Subtree.ordered (tree : Subtree d h lo hi v) : Sorted v.entries ∧ ∀ e ∈ v.entries, Within lo hi e.1 := by
  induction h generalizing lo hi v with
  | zero =>
    obtain ⟨node,es,rfl,shape⟩ := tree
    exact ⟨shape.sorted,shape.within⟩
  | succ h ih =>
    obtain ⟨node,ks,cs,rfl,row⟩ := tree
    exact row.fenced.contents fun _ _ _ child => ih child

lemma Subtree.degree (tree : Subtree d h lo hi v) : v.node.degree = d := by
  cases h with
  | zero =>
    obtain ⟨node,es,rfl,shape⟩ := tree
    exact shape.holds.degree
  | succ h =>
    obtain ⟨node,ks,cs,rfl,row⟩ := tree
    exact row.holds.degree

lemma nkeys_leaf {node : LeafNode K V} {es : List (K × V)} (holds : node.Holds d es) :
    (leafView node es).nkeys = es.length := holds.count

lemma nkeys_internal {node : InternalNode K (Node K V)} {ks : List K} {cs : List (View K V)} {ps : List (Node K V)}
    (holds : node.Holds d ks ps) : (internalView node cs).nkeys = ks.length := holds.count

lemma Subtree.nkeys_lt (tree : Subtree d h lo hi v) : v.nkeys < d := by
  cases h with
  | zero =>
    obtain ⟨node,es,rfl,shape⟩ := tree
    exact (nkeys_leaf shape.holds).trans_lt shape.room
  | succ h =>
    obtain ⟨node,ks,cs,rfl,row⟩ := tree
    exact (nkeys_internal row.holds).trans_lt row.room

lemma height_le_heights {c : Node K V} {ptrs : List (Option (Node K V))} (mem : some c ∈ ptrs) :
    c.height ≤ Node.heights ptrs := by
  induction ptrs with
  | nil => cases mem
  | cons p ptrs ih =>
    rcases mem_cons.mp mem with rfl | later
    · exact le_max_left _ _
    · cases p with
      | none => exact ih later
      | some c' => exact (ih later).trans (le_max_right _ _)

lemma Subtree.height_lt (tree : Subtree d h lo hi v) : h < v.node.height := by
  induction h generalizing lo hi v with
  | zero =>
    obtain ⟨node,es,rfl,_⟩ := tree
    simp [leafView,Node.height]
  | succ h ih =>
    obtain ⟨node,ks,cs,rfl,row⟩ := tree
    match cs,row.fenced.length with
    | c::cs,_ =>
      obtain ⟨lo',hi',child,_⟩ := row.fenced.mem (mem_cons_self : c ∈ c::cs)
      obtain ⟨rest,stored,_⟩ := row.holds.ptrs
      have mem : some c.node ∈ node.ptrs := by
        rw [stored]
        simp
      have deeper := (ih child).trans_le (height_le_heights mem)
      exact Nat.succ_lt_succ deeper

/-- The child a key belongs to, how a row takes its place, and where the other entries are. -/
structure Descent (d h : Nat) (lo hi : Option K) (node : InternalNode K (Node K V)) (key : K) (pre post : List K)
    (cs1 : List (View K V)) (c : View K V) (cs2 : List (View K V)) : Prop where
  index : node.childIndex key = some pre.length
  read : node.child pre.length = some c.node
  len : cs1.length = pre.length
  write : ∀ c' : View K V, ∃ node', node.setChild pre.length c'.node = some node' ∧
    node'.Holds d (pre++post) ((cs1++c'::cs2).map View.node)
  bounds : ∃ lo' hi', Subtree d h lo' hi' c ∧ Within lo' hi' key ∧ ∀ ks cs, Fenced (Subtree d h) lo' hi' ks cs →
    Fenced (Subtree d h) lo hi (pre++(ks++post)) (cs1++(cs++cs2))
  below : ∀ e ∈ cs1.flatMap View.entries, e.1 < key
  above : ∀ e ∈ cs2.flatMap View.entries, key < e.1

lemma Row.descend {ks : List K} {cs : List (View K V)} {key : K}
    (row : Row d (Subtree d h) lo hi node ks cs) (inside : Within lo hi key) :
    ∃ pre post cs1 c cs2, ks = pre++post ∧ cs = cs1++c::cs2 ∧ Descent d h lo hi node key pre post cs1 c cs2 := by
  obtain ⟨pre,post,rfl,index,low,high⟩ := row.holds.childIndex key
  obtain ⟨cs1,c,cs2,lo',hi',rfl,len,child,room,replace,left,right⟩ := row.fenced.route inside low high
  have held := row.holds
  rw [map_append,map_cons] at held
  have at_pre : (cs1.map View.node).length = pre.length := by simpa using len
  refine ⟨pre,post,cs1,c,cs2,rfl,rfl,index,at_pre ▸ held.child,len,?_,
    ⟨lo',hi',child,room,fun ks cs => replace _ ks cs (fun _ _ _ _ part => part)⟩,
    forall_mem_parts (fun _ _ _ tree => tree.ordered.2) left,forall_mem_parts (fun _ _ _ tree => tree.ordered.2) right⟩
  intro c'
  obtain ⟨node',written,held'⟩ := held.setChild c'.node
  exact ⟨node',at_pre ▸ written,by simpa using held'⟩

lemma leaf_pair {e : K × V} {pre post : List (K × V)} (sorted : Sorted (pre++e::post))
    (within : ∀ x ∈ pre++e::post, Within lo hi x.1) (left : l.Holds d pre) (right : r.Holds d (e::post))
    (room : pre.length < d) (room' : (e::post).length < d) :
    Fenced (Subtree d 0) lo hi [e.1] [leafView l pre,leafView r (e::post)] := by
  obtain ⟨before,behind,_⟩ := pairwise_append.mp sorted
  obtain ⟨lower,sep,upper⟩ := within_cut sorted within
  exact ⟨⟨l,pre,rfl,left,before,lower,room⟩,sep,r,e::post,rfl,right,behind,upper,room'⟩

lemma internal_pair {l r : InternalNode K (Node K V)} {k : K} {ks1 ks2 : List K} {cs1 cs2 : List (View K V)}
    (fenced : Fenced (Subtree d h) lo hi (ks1++k::ks2) (cs1++cs2)) (len : cs1.length = ks1.length+1)
    (fill : ∀ c ∈ cs1++cs2, d/2 ≤ c.nkeys) (left : l.Holds d ks1 (cs1.map View.node))
    (right : r.Holds d ks2 (cs2.map View.node)) (room : ks1.length < d) (room' : ks2.length < d) :
    Fenced (Subtree d (h+1)) lo hi [k] [internalView l cs1,internalView r cs2] := by
  obtain ⟨before,sep,behind⟩ := (fenced_append len).mp fenced
  refine ⟨⟨l,ks1,cs1,rfl,left,before,?_,room⟩,sep,r,ks2,cs2,rfl,right,behind,?_,room'⟩
  · exact fun c mem => fill c (mem_append_left _ mem)
  · exact fun c mem => fill c (mem_append_right _ mem)

end
end CodeExercise.BTree
