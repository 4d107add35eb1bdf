import CodeExercise.BPlusTree
import CodeExercise.Fences

/-!
What the operations do to single nodes for `t = 2`, in terms of the entries a leaf holds
and of the keys and children an index node holds.
-/
namespace CodeExercise.BPlusTree
open Slices SortedMaps List Option

structure LeafNode.Holds (es : List (Int × Int)) (node : LeafNode) : Prop where
  count : node.nkeys = es.length
  keys : Slices.Holds 3 (es.map Prod.fst) node.keys
  values : Slices.Holds 3 (es.map Prod.snd) node.values

structure IndexNode.Holds (ks : List Int) (cs : List Node) (node : IndexNode Node) : Prop where
  count : node.nkeys = ks.length
  keys : Slices.Holds 3 ks node.keys
  child : Slices.Holds 4 (cs.map some) node.child

def Sorted (es : List (Int × Int)) : Prop := es.Pairwise (fun a b => a.1 < b.1)

namespace LeafNode

variable {es pre post : List (Int × Int)} {node : LeafNode} {key : Int}

lemma Holds.seekDown (holds : Holds es node) (sorted : Sorted es) (key : Int) : ∃ pre post, es = pre++post ∧
    Slices.seekDown (fun x => key < x) node.keys node.nkeys = some pre.length ∧
    (∀ e ∈ pre, e.1 ≤ key) ∧ ∀ e ∈ post, key < e.1 := by
  obtain ⟨left,right,split,sought,misses,hits⟩ := holds.keys.seekDown (fun x => decide (key < x)) (by simpa using holds.count)
  obtain ⟨pre,post,rfl,rfl,rfl⟩ := map_eq_append_iff.mp split
  refine ⟨pre,post,rfl,by simpa using sought,?_,fun e mem => by simpa using hits e.1 (List.mem_map_of_mem mem)⟩
  intro e mem
  rcases eq_nil_or_concat' pre with rfl | ⟨front,last,rfl⟩
  · cases mem
  · have bound : last.1 ≤ key := by simpa using misses last.1 (by simp)
    rcases mem_append.mp mem with before | here
    · have less := (pairwise_append.mp (pairwise_append.mp sorted).1).2.2 e before last (by simp)
      omega
    · obtain rfl := mem_singleton.mp here
      exact bound

lemma Holds.insertLeaf (holds : Holds es node) (val : Int) (sorted : Sorted es) (room : es.length < 3) (absent : ∀ e ∈ es, e.1 ≠ key) :
    ∃ node', insertLeaf node key val = some node' ∧ Holds (setEntry key val es) node' ∧ node'.id = node.id := by
  obtain ⟨pre,post,rfl,sought,low,high⟩ := holds.seekDown sorted key
  have below : ∀ e ∈ pre, e.1 < key := fun e mem => lt_of_le_of_ne (low e mem) (absent e (by simp [mem]))
  have placed : setEntry key val (pre++post) = pre++(key,val)::post := by
    rw [setEntry_append_left below,setEntry_of_head (fun e first => high e (mem_of_mem_head? first))]
  obtain ⟨count,keys,values⟩ := holds
  have moved : node.nkeys-pre.length = post.length := by
    rw [count,length_append]
    omega
  rw [map_append] at keys values
  obtain ⟨keys',keyed,holdsKeys⟩ := keys.insert (i := pre.length) (y := key) (by simpa using room) (by simp)
  obtain ⟨values',valued,holdsValues⟩ := values.insert (i := pre.length) (y := val) (by simpa using room) (by simp)
  rw [length_map] at keyed valued
  refine ⟨{ node with nkeys := node.nkeys+1, keys := keys', values := values' },?_,?_,rfl⟩
  · simp only [BPlusTree.insertLeaf,sought,some_bind,moved,keyed,valued]
    rfl
  · rw [placed]
    refine ⟨?_,by simpa using holdsKeys,by simpa using holdsValues⟩
    simp only [count,length_append,length_cons]
    omega

lemma Holds.deleteEntry (holds : Holds (pre++e::post) node) :
    ∃ node', deleteEntry node pre.length = some node' ∧ Holds (pre++post) node' ∧ node'.id = node.id := by
  obtain ⟨count,keys,values⟩ := holds
  have moved : node.nkeys-(pre.length+1) = post.length := by
    rw [count,length_append,length_cons]
    omega
  rw [map_append,map_cons] at keys values
  obtain ⟨keys',keyed,holdsKeys⟩ := keys.remove (i := pre.length) (by simp)
  obtain ⟨values',valued,holdsValues⟩ := values.remove (i := pre.length) (by simp)
  rw [length_map] at keyed valued
  refine ⟨{ node with nkeys := node.nkeys-1, keys := keys', values := values' },?_,⟨?_,?_,?_⟩,rfl⟩
  · simp only [BPlusTree.deleteEntry,moved,keyed,valued,some_bind]
    rfl
  · simp only [count,length_append,length_cons]
    omega
  · simpa using holdsKeys
  · simpa using holdsValues

lemma Holds.foundBefore (holds : Holds (pre++post) node) (sorted : Sorted (pre++post)) (low : ∀ e ∈ pre, e.1 ≤ key)
    (high : ∀ e ∈ post, key < e.1) :
    (pre.length > 0 ∧ node.keys[pre.length-1]? = some key ∧ ∃ front w, pre = front++[(key,w)]) ∨
    (¬ (pre.length > 0 ∧ node.keys[pre.length-1]? = some key) ∧ ∀ e ∈ pre++post, e.1 ≠ key) := by
  rcases eq_nil_or_concat' pre with rfl | ⟨front,⟨k,w⟩,rfl⟩
  · exact .inr ⟨by simp,fun e mem => (high e (by simpa using mem)).ne'⟩
  · have read : node.keys[(front++[(k,w)]).length-1]? = some k := by
      have keys := holds.keys
      rw [append_assoc,map_append] at keys
      exact keys.get (by simp)
    rw [read]
    by_cases same : k = key
    · subst same
      exact .inl ⟨by simp,rfl,front,w,rfl⟩
    · refine .inr ⟨fun both => same (some.inj both.2),fun e mem => ?_⟩
      rcases mem_append.mp mem with before | behind
      · rcases mem_append.mp before with early | here
        · have less : e.1 < k := (pairwise_append.mp (pairwise_append.mp sorted).1).2.2 e early (k,w) (by simp)
          have bound : k ≤ key := low (k,w) (by simp)
          omega
        · obtain rfl := mem_singleton.mp here
          exact same
      · exact (high e behind).ne'

/-- The flag says that a leaf that had an entry lost its last one. -/
lemma Holds.deleteLeaf (holds : Holds es node) (sorted : Sorted es) (key : Int) :
    ∃ node' flag, deleteLeaf 2 node key = some (node',flag) ∧ Holds (dropEntry key es) node' ∧ node'.id = node.id ∧
      (0 < es.length → flag = decide (node'.nkeys < 1)) := by
  obtain ⟨pre,post,rfl,sought,low,high⟩ := holds.seekDown sorted key
  rcases holds.foundBefore sorted low high with ⟨some_,read,front,w,rfl⟩ | ⟨missing,absent⟩
  · have split : front++[(key,w)]++post = front++(key,w)::post := by simp
    have last : (front++[(key,w)]).length-1 = front.length := by simp
    rw [split] at holds sorted ⊢
    obtain ⟨node',deleted,held,id⟩ := holds.deleteEntry
    rw [dropEntry,filter_ne_cons sorted]
    refine ⟨node',_,?_,held,id,fun _ => rfl⟩
    rw [last] at read
    simp only [BPlusTree.deleteLeaf,sought,some_bind,last]
    rw [if_pos ⟨some_,read⟩,deleted]
    rfl
  · rw [dropEntry,filter_ne_self absent]
    refine ⟨node,false,?_,holds,rfl,fun nonempty => ?_⟩
    · simp only [BPlusTree.deleteLeaf,sought,some_bind,if_neg missing]
      rfl
    · have filled : ¬ node.nkeys < 1 := by
        rw [holds.count]
        omega
      exact (decide_eq_false filled).symm

lemma Holds.upperHalf (links : Links) (holds : Holds [a,b,c] node) :
    ∃ new, upperHalf 2 links (.leaf node) = some ((allocLeafNode links 2 2).1.linkAfter node.id (links.id+1),.leaf new) ∧
      Holds [b,c] new ∧ new.id = links.id+1 ∧ Holds [a] { node with nkeys := 1 } := by
  obtain ⟨count,keys,values⟩ := holds
  have empty : Slices.Holds 3 [] (List.replicate 3 (0 : Int)) := holds_nil rfl
  have splitKeys : Slices.Holds 3 ([a.1]++[b.1,c.1]++[]) node.keys := keys
  have splitValues : Slices.Holds 3 ([a.2]++[b.2,c.2]++[]) node.values := values
  obtain ⟨keys',movedKeys,newKeys⟩ := empty.memmove splitKeys (by simp)
  obtain ⟨values',movedValues,newValues⟩ := empty.memmove splitValues (by simp)
  refine ⟨⟨links.id+1,2,keys',values'⟩,?_,⟨rfl,newKeys,newValues⟩,rfl,⟨rfl,?_,?_⟩⟩
  · have keyed : memmove (List.replicate 3 0) 0 node.keys 1 2 = some keys' := movedKeys
    have valued : memmove (List.replicate 3 0) 0 node.values 1 2 = some values' := movedValues
    simp only [BPlusTree.upperHalf,allocLeafNode]
    rw [show 2*2-1 = 3 from rfl,show 2-1 = 1 from rfl,keyed,valued]
    rfl
  · exact (show Slices.Holds 3 ([a.1]++[b.1,c.1]) node.keys from keys).take
  · exact (show Slices.Holds 3 ([a.2]++[b.2,c.2]) node.values from values).take

end LeafNode

namespace IndexNode

variable {ks pre post : List Int} {cs cs1 cs2 : List Node} {c r : Node} {bp : IndexNode Node} {key : Int}

lemma Holds.childAt (holds : Holds ks (cs1++c::cs2) bp) : bp.childAt cs1.length = some c := by
  have child := holds.child
  rw [map_append,map_cons] at child
  rw [IndexNode.childAt,child.get (by simp)]
  rfl

lemma Holds.setChild (holds : Holds ks (cs1++c::cs2) bp) (c' : Node) :
    ∃ bp', bp.setChild cs1.length c' = some bp' ∧ Holds ks (cs1++c'::cs2) bp' ∧ bp'.keys = bp.keys := by
  obtain ⟨count,keys,child⟩ := holds
  rw [map_append,map_cons] at child
  obtain ⟨child',written,held⟩ := child.put (i := cs1.length) (y := some c') (by simp)
  refine ⟨{ bp with child := child' },?_,⟨count,keys,by simpa using held⟩,rfl⟩
  rw [IndexNode.setChild,written]
  rfl

lemma Holds.keyAt (holds : Holds (pre++k::post) cs bp) : bp.keys[pre.length]? = some k :=
  holds.keys.get rfl

/-- The lower keys and children stay, the upper ones go to a new node, the key between them goes up. -/
lemma Holds.upperHalf (links : Links) (holds : Holds [k0,k1,k2] [c0,c1,c2,c3] bp) :
    ∃ new, upperHalf 2 links (.index bp) = some (links,.index new) ∧ Holds [k2] [c2,c3] new ∧
      Holds [k0] [c0,c1] { bp with nkeys := 1 } := by
  obtain ⟨count,keys,child⟩ := holds
  have noKeys : Slices.Holds 3 [] (List.replicate 3 (0 : Int)) := holds_nil rfl
  have noChild : Slices.Holds 4 [] (List.replicate 4 (none : Option Node)) := holds_nil rfl
  have splitKeys : Slices.Holds 3 ([k0,k1]++[k2]++[]) bp.keys := keys
  have splitChild : Slices.Holds 4 ([some c0,some c1] ++ [some c2,some c3] ++ []) bp.child := child
  obtain ⟨keys',movedKeys,newKeys⟩ := noKeys.memmove splitKeys (by simp)
  obtain ⟨child',movedChild,newChild⟩ := noChild.memmove splitChild (by simp)
  refine ⟨⟨1,keys',child'⟩,?_,⟨rfl,newKeys,newChild⟩,⟨rfl,?_,?_⟩⟩
  · have keyed : memmove (List.replicate 3 0) 0 bp.keys 2 1 = some keys' := movedKeys
    have given : memmove (List.replicate 4 none) 0 bp.child 2 2 = some child' := movedChild
    simp only [BPlusTree.upperHalf,allocIndexNode]
    rw [show 2*2-1 = 3 from rfl,show 2*2 = 4 from rfl,show 2-1 = 1 from rfl,keyed,given]
    rfl
  · exact (show Slices.Holds 3 ([k0]++[k1,k2]) bp.keys from keys).take
  · exact (show Slices.Holds 4 ([some c0,some c1] ++ [some c2,some c3]) bp.child from child).take

lemma Holds.btreeSplit (holds : Holds (pre++post) (cs1++c::cs2) bp)
    (left : cs1.length = pre.length) (right : cs2.length = post.length) (room : (pre++post).length < 3)
    (half : BPlusTree.upperHalf 2 links c = some (links',r)) (up : c.keys[1]? = some k) :
    ∃ bp', btreeSplit 2 links bp pre.length = some (links',bp') ∧
      Holds (pre++k::post) (cs1++c.setNkeys 1 :: r::cs2) bp' := by
  obtain ⟨bp1,replaced,holds1,_⟩ := holds.setChild (c.setNkeys 1)
  have read := holds.childAt
  rw [left] at read replaced
  obtain ⟨count,keys,child⟩ := holds1
  have moved : bp1.nkeys-pre.length = post.length := by
    rw [count,length_append]
    omega
  obtain ⟨keys',keyed,holdsKeys⟩ := keys.insert (i := pre.length) (y := k) room rfl
  rw [show cs1 ++ c.setNkeys 1 :: cs2 = (cs1++[c.setNkeys 1])++cs2 by simp,map_append] at child
  rw [length_append] at room
  obtain ⟨child',given,holdsChild⟩ := child.insert (i := pre.length+1) (y := some r)
    (by simp only [length_append,length_map,length_singleton]; omega) (by simp [left])
  rw [length_map,right] at given
  refine ⟨{ bp1 with nkeys := bp1.nkeys+1, keys := keys', child := child' },?_,⟨?_,holdsKeys,by simpa using holdsChild⟩⟩
  · simp only [BPlusTree.btreeSplit,read,half,bind_eq_bind,bind_some]
    rw [show 2-1 = 1 from rfl,up,bind_some,replaced,bind_some,moved,keyed,bind_some,given]
    rfl
  · simp only [count,length_append,length_cons]
    omega

end IndexNode

section
variable {me b : LeafNode} {es pre : List (Int × Int)} {e f : Int × Int}

lemma moveCell_leaf (xs ys front back : List (Int × Int)) (keys : Slices.Holds 3 (xs.map Prod.fst) me.keys)
    (values : Slices.Holds 3 (xs.map Prod.snd) me.values) (source : b.Holds (front++ys++back))
    (room : xs.length+ys.length ≤ 3) :
    ∃ me', moveCell (.leaf me) xs.length (.leaf b) front.length ys.length = some (.leaf me') ∧ me'.id = me.id ∧
      ∀ n, n = xs.length+ys.length → LeafNode.Holds (xs++ys) { me' with nkeys := n } := by
  obtain ⟨_,keys',values'⟩ := source
  simp only [map_append] at keys' values'
  obtain ⟨keys2,keyed,newKeys⟩ := keys.memmove keys' (by simpa using room)
  obtain ⟨values2,valued,newValues⟩ := values.memmove values' (by simpa using room)
  simp only [length_map] at keyed valued
  refine ⟨{ me with keys := keys2, values := values2 },?_,rfl,fun n count => ⟨?_,?_,?_⟩⟩
  · simp only [moveCell,keyed,valued,some_bind]
    rfl
  · simpa using count
  · simpa using newKeys
  · simpa using newValues

lemma borrowCells_leaf_right (pkey : Int) (empty : me.Holds []) (holds : b.Holds (e::f::es)) (room : es.length ≤ 1) :
    ∃ me' b', borrowCells (.leaf me) (.leaf b) 1 true pkey = some (.leaf me',.leaf b',f.1) ∧
      LeafNode.Holds [e] { me' with nkeys := 1 } ∧ me'.id = me.id ∧
      LeafNode.Holds (f::es) { b' with nkeys := b.nkeys-1 } ∧ b'.id = b.id := by
  have none : (Node.leaf me).nkeys = 0 := empty.count
  have count : (Node.leaf b).nkeys-1 = es.length+1 := by
    rw [Node.nkeys,holds.count]
    rfl
  have whole : b.Holds ([e]++(f::es)++[]) := by simpa using holds
  obtain ⟨me',taken,id,held⟩ := moveCell_leaf [] [e] [] (f::es) empty.keys empty.values holds (by simp)
  obtain ⟨b',kept,id',held'⟩ := moveCell_leaf [] (f::es) [e] [] (holds_nil holds.keys.length)
    (holds_nil holds.values.length) whole (by simp only [length_nil,length_cons]; omega)
  have up : (Node.leaf b).keys[1]? = some f.1 :=
    (show Slices.Holds 3 ([e.1]++f.1::es.map Prod.fst) b.keys from holds.keys).get rfl
  refine ⟨me',b',?_,held 1 rfl,id,held' _ (by simpa [Node.nkeys] using count),id'⟩
  simp only [length_nil,length_cons,Nat.zero_add] at taken kept
  simp only [borrowCells,none,taken,up,count,kept,some_bind]
  rfl

lemma borrowCells_leaf_left (pkey : Int) (empty : me.Holds []) (holds : b.Holds (pre++[e])) :
    ∃ me', borrowCells (.leaf me) (.leaf b) 1 false pkey = some (.leaf me',.leaf b,e.1) ∧
      LeafNode.Holds [e] { me' with nkeys := 1 } ∧ me'.id = me.id ∧ LeafNode.Holds pre { b with nkeys := b.nkeys-1 } := by
  have none : (Node.leaf me).nkeys = 0 := empty.count
  have count : b.nkeys-1 = pre.length := by
    rw [holds.count]
    simp
  have count' : (Node.leaf b).nkeys-1 = pre.length := count
  have whole : b.Holds (pre++[e]++[]) := by simpa using holds
  have still : moveCell (.leaf me) 1 (.leaf me) 0 0 = some (.leaf me) := by
    have keys := empty.keys.length
    have values := empty.values.length
    simp only [moveCell,memmove_zero (show 1 ≤ me.keys.length by omega) (Nat.zero_le _),
      memmove_zero (show 1 ≤ me.values.length by omega) (Nat.zero_le _),some_bind]
    rfl
  obtain ⟨me',taken,id,held⟩ := moveCell_leaf [] [e] pre [] empty.keys empty.values whole (by simp)
  have up : (Node.leaf me').keys[0]? = some e.1 :=
    (show Slices.Holds 3 ([]++e.1::[]) me'.keys from (held 1 rfl).keys).get rfl
  refine ⟨me',?_,held 1 rfl,id,⟨count,?_,?_⟩⟩
  · simp only [length_nil,length_cons,Nat.zero_add] at taken
    simp only [borrowCells,none,still,taken,up,count',some_bind]
    rfl
  · have keys := holds.keys
    rw [map_append] at keys
    exact keys.take
  · have values := holds.values
    rw [map_append] at values
    exact values.take

end

section
variable {me b : IndexNode Node} {ks ks1 ks2 : List Int} {cs1 cs2 ds : List Node} {c d : Node} {k : Int}

lemma IndexNode.Holds.ptr (cs1 : List Node) (holds : b.Holds ks (cs1++d::cs2)) : (Node.index b).ptr cs1.length = some (some d) := by
  have child := holds.child
  rw [map_append,map_cons] at child
  exact child.get (by simp)

lemma moveCell_none (dest : me.keys.length = 3) (child : me.child.length = 4) (inside : i ≤ 3) :
    moveCell (.index me) i (.index b) 0 0 = some (.index me) := by
  simp only [moveCell,memmove_zero (show i ≤ me.keys.length by omega) (Nat.zero_le _),
    memmove_zero (show i ≤ me.child.length by omega) (Nat.zero_le _),some_bind]
  rfl

lemma borrowCells_index_left (pkey : Int) (empty : me.Holds [] [c]) (holds : b.Holds (ks++[k]) (ds++[d]))
    (len : ds.length = ks.length+1) :
    ∃ me', borrowCells (.index me) (.index b) 1 false pkey = some (.index me',.index b,k) ∧
      IndexNode.Holds [pkey] [d,c] { me' with nkeys := 1 } ∧ IndexNode.Holds ks ds { b with nkeys := b.nkeys-1 } := by
  have none : (Node.index me).nkeys = 0 := empty.count
  have count : b.nkeys = ks.length+1 := by
    rw [holds.count]
    simp
  have count' : (Node.index b).nkeys = ds.length := count.trans len.symm
  have first : (Node.index me).ptr 0 = some (some c) := IndexNode.Holds.ptr [] empty
  obtain ⟨child1,pushed,held1⟩ := empty.child.push (y := some c) (by simp)
  obtain ⟨keys1,keyed,heldKeys⟩ := empty.keys.push (y := pkey) (by simp)
  obtain ⟨child2,placed,held2⟩ := (show Slices.Holds 4 ([]++some c :: [some c]) child1 from held1).put (i := 0) (y := some d) rfl
  have still : moveCell (.index { me with child := child1 }) 1 (.index { me with child := child1 }) 0 0 =
      some (.index { me with child := child1 }) := moveCell_none empty.keys.length held1.length (by omega)
  have up : (Node.index b).keys[ds.length-1]? = some k := by
    rw [len,Nat.add_sub_cancel]
    exact holds.keys.get rfl
  refine ⟨{ me with keys := keys1, child := child2 },?_,⟨rfl,heldKeys,held2⟩,⟨?_,holds.keys.take,?_⟩⟩
  · have last := holds.ptr
    simp only [map_cons,map_nil,length_cons,length_nil,Nat.zero_add] at pushed keyed
    simp only [borrowCells,none,first,Node.putPtr,Node.putKey,Nat.zero_add,Nat.sub_self,pushed,keyed,still,count',last,up,
      placed,map_some,some_bind,gt_iff_lt,Nat.lt_irrefl,if_false]
    rfl
  · simp [count]
  · have child := holds.child
    rw [map_append] at child
    exact child.take

/-- The first key and the first child of an index node go, the others move down. -/
lemma shift_index (holds : b.Holds (k::ks) (d::ds)) (len : ds.length = ks.length+1) :
    ∃ b' p b2, moveCell (.index b) 0 (.index b) 1 ks.length = some b' ∧ b'.ptr (ks.length+1) = some p ∧
      b'.putPtr ks.length p = some (.index b2) ∧ IndexNode.Holds ks ds { b2 with nkeys := ks.length } := by
  obtain ⟨count,keys,rest,child,total⟩ := holds
  obtain ⟨init,last,rfl⟩ := (eq_nil_or_concat' ds).resolve_left (by rintro rfl; simp at len)
  have size : init.length = ks.length := by simpa using len
  have whole : Slices.Holds 3 ([k]++ks++[]) b.keys := by simpa using keys
  obtain ⟨keys',keyed,held⟩ := (holds_nil keys.length : Slices.Holds 3 [] b.keys).memmove whole (by
    obtain ⟨more,same,three⟩ := keys
    simp only [same,length_append,length_cons,length_nil] at three ⊢
    omega)
  have array : b.child = some d :: init.map some ++ some last :: rest := by simpa using child
  obtain ⟨w,moved⟩ := memmove_down (some d) (some last) (init.map some) rest
  rw [← array,length_map,size] at moved
  have read : (init.map some ++ w::some last :: rest)[ks.length+1]? = some (some last) := by
    rw [show init.map some ++ w::some last :: rest = (init.map some ++ [w])++some last :: rest by simp]
    simp [← size]
  have placed : put (init.map some ++ w::some last :: rest) ks.length (some last) =
      some (init.map some ++ some last :: some last :: rest) := put_append (by simpa using size)
  refine ⟨.index { b with keys := keys', child := init.map some ++ w::some last :: rest },some last,
    { b with keys := keys', child := init.map some ++ some last :: some last :: rest },?_,read,?_,⟨rfl,held,?_⟩⟩
  · have keyed' : memmove b.keys 0 b.keys 1 ks.length = some keys' := keyed
    simp only [moveCell,keyed',moved,some_bind]
    rfl
  · simp only [Node.putPtr,placed]
    rfl
  · refine ⟨some last :: rest,by simp,?_⟩
    rw [array] at total
    simp only [length_append,length_cons] at total ⊢
    omega

lemma borrowCells_index_right (pkey : Int) (empty : me.Holds [] [c]) (holds : b.Holds (k::ks) (d::ds))
    (len : ds.length = ks.length+1) :
    ∃ me' b', borrowCells (.index me) (.index b) 1 true pkey = some (.index me',.index b',k) ∧
      IndexNode.Holds [pkey] [c,d] { me' with nkeys := 1 } ∧ IndexNode.Holds ks ds { b' with nkeys := b.nkeys-1 } := by
  have none : (Node.index me).nkeys = 0 := empty.count
  have count : (Node.index b).nkeys = ks.length+1 := holds.count
  obtain ⟨keys1,keyed,heldKeys⟩ := empty.keys.push (y := pkey) (by simp)
  obtain ⟨child1,pushed,held1⟩ := empty.child.push (y := some d) (by simp)
  have still : moveCell (.index { me with keys := keys1 }) 1 (.index b) 0 0 = some (.index { me with keys := keys1 }) :=
    moveCell_none heldKeys.length empty.child.length (by omega)
  have first : (Node.index b).ptr 0 = some (some d) := IndexNode.Holds.ptr [] holds
  have up : (Node.index b).keys[0]? = some k := (show Slices.Holds 3 ([]++k::ks) b.keys from holds.keys).get rfl
  obtain ⟨b1,p,b2,moved,read,placed,held2⟩ := shift_index holds len
  have rest : b.nkeys-1 = ks.length := by
    rw [holds.count]
    rfl
  refine ⟨{ me with keys := keys1, child := child1 },b2,?_,⟨rfl,heldKeys,held1⟩,rest ▸ held2⟩
  simp only [map_cons,map_nil,length_cons,length_nil,Nat.zero_add] at pushed keyed
  simp only [borrowCells,none,Node.putKey,keyed,Nat.zero_add,Nat.sub_self,still,first,Nat.add_zero,up,count,
    Nat.add_sub_cancel,moved,read,placed,map_some,some_bind]
  simp only [Node.putPtr,pushed,map_some]
  rfl

lemma mergeNodes_index (links : Links) (left : l.Holds ks1 cs1) (right : r.Holds ks2 cs2)
    (len : cs1.length = ks1.length+1) (len' : cs2.length = ks2.length+1) (room : ks1.length+1+ks2.length ≤ 3) :
    ∃ m, mergeNodes links k (.index l) (.index r) = some (links,.index m) ∧
      IndexNode.Holds (ks1++k::ks2) (cs1++cs2) m := by
  obtain ⟨init,last,rfl⟩ := (eq_nil_or_concat' cs2).resolve_left (by rintro rfl; simp at len')
  have size : init.length = ks2.length := by simpa using len'
  obtain ⟨keys1,keyed,held1⟩ := left.keys.push (y := k) (by omega)
  obtain ⟨keys2,moved,held2⟩ := held1.memmove (show Slices.Holds 3 ([]++ks2++[]) r.keys by simpa using right.keys)
    (by simp only [length_append,length_singleton]; omega)
  obtain ⟨child1,given,held3⟩ := left.child.memmove
    (show Slices.Holds 4 ([]++init.map some ++ [some last]) r.child by simpa using right.child)
    (by simp only [length_map]; omega)
  obtain ⟨child2,pushed,held4⟩ := held3.push (y := some last)
    (by simp only [length_append,length_map]; omega)
  have read : (Node.index r).ptr r.nkeys = some (some last) := by
    have found := right.ptr
    rwa [size,← right.count] at found
  refine ⟨{ l with nkeys := l.nkeys+1+r.nkeys, keys := keys2, child := child2 },?_,⟨?_,by simpa using held2,by simpa using held4⟩⟩
  · rw [← left.count] at keyed
    rw [length_append,length_singleton,← left.count,← right.count] at moved
    rw [length_map,len,length_map,size,← left.count,← right.count] at given
    rw [length_append,length_map,length_map,len,size,← left.count,← right.count] at pushed
    have moved' : memmove keys1 (l.nkeys+1) r.keys 0 r.nkeys = some keys2 := moved
    have given' : memmove l.child (l.nkeys+1) r.child 0 r.nkeys = some child1 := given
    simp only [mergeNodes,Node.putKey,keyed,map_some,some_bind,moveCell,moved',given',read]
    change (Node.putPtr (l.nkeys+1+r.nkeys) (some last) (.index { l with keys := keys2, child := child1 })).bind _ = _
    simp only [Node.putPtr,pushed]
    rfl
  · simp only [left.count,right.count,length_append,length_cons]
    omega

end

lemma mergeNodes_leaf (links : Links) (pkey : Int) (left : l.Holds es1)
    (right : r.Holds es2) (room : es1.length+es2.length ≤ 3) :
    ∃ m, mergeNodes links pkey (.leaf l) (.leaf r) = some (links.unlink l.id r.id,.leaf m) ∧
      LeafNode.Holds (es1++es2) m ∧ m.id = l.id := by
  obtain ⟨m,moved,id,held⟩ := moveCell_leaf es1 es2 [] [] left.keys left.values (by simpa using right) room
  rw [← left.count,← right.count] at moved held
  have moved' : moveCell (.leaf l) l.nkeys (.leaf r) 0 r.nkeys = some (.leaf m) := moved
  refine ⟨{ m with nkeys := l.nkeys+r.nkeys },?_,held _ rfl,id⟩
  simp only [mergeNodes,moved',some_bind]
  rfl

namespace IndexNode

variable {pre post : List Int} {cs1 cs2 : List Node} {l r l' r' m : Node} {bp : IndexNode Node} {k k' : Int}

section
variable (holds : Holds (pre++k::post) (cs1++l::r::cs2) bp)
include holds

lemma Holds.children (len : cs1.length = pre.length) :
    bp.childAt pre.length = some l ∧ bp.childAt (pre.length+1) = some r ∧ bp.keys[pre.length]? = some k := by
  have right : Holds (pre++k::post) ((cs1++[l])++r::cs2) bp := by simpa using holds
  have second := right.childAt
  rw [length_append,length_singleton,len] at second
  exact ⟨len ▸ holds.childAt,second,holds.keyAt⟩

lemma Holds.setChildren (len : cs1.length = pre.length)
    (l' r' : Node) (k' : Int) :
    ∃ keys, put bp.keys pre.length k' = some keys ∧
      (∃ bp1 bp2, bp.setChild pre.length l' = some bp1 ∧ bp1.setChild (pre.length+1) r' = some bp2 ∧
        Holds (pre++k'::post) (cs1++l'::r'::cs2) { bp2 with keys := keys }) ∧
      ∃ bp1 bp2, bp.setChild (pre.length+1) r' = some bp1 ∧ bp1.setChild pre.length l' = some bp2 ∧
        Holds (pre++k'::post) (cs1++l'::r'::cs2) { bp2 with keys := keys } := by
  obtain ⟨keys,keyed,heldKeys⟩ := holds.keys.put (y := k') rfl
  have shifted : ∀ {x : Node} {bq : IndexNode Node}, Holds (pre++k::post) (cs1++x::r::cs2) bq →
      ∃ bp2, bq.setChild (pre.length+1) r' = some bp2 ∧ Holds (pre++k::post) (cs1++x::r'::cs2) bp2 := by
    intro x bq held
    have split : Holds (pre++k::post) ((cs1++[x])++r::cs2) bq := by simpa using held
    obtain ⟨bp2,written,held2,_⟩ := split.setChild r'
    rw [length_append,length_singleton,len] at written
    exact ⟨bp2,written,by simpa using held2⟩
  have first : ∀ {y : Node} {bq : IndexNode Node}, Holds (pre++k::post) (cs1++l::y::cs2) bq →
      ∃ bp2, bq.setChild pre.length l' = some bp2 ∧ Holds (pre++k::post) (cs1++l'::y::cs2) bp2 := by
    intro y bq held
    obtain ⟨bp2,written,held2,_⟩ := held.setChild l'
    exact ⟨bp2,len ▸ written,held2⟩
  have finish : ∀ {bq : IndexNode Node}, Holds (pre++k::post) (cs1++l'::r'::cs2) bq →
      Holds (pre++k'::post) (cs1++l'::r'::cs2) { bq with keys := keys } := by
    intro bq held
    exact ⟨by simpa using held.count,heldKeys,held.child⟩
  refine ⟨keys,keyed,?_,?_⟩
  · obtain ⟨bp1,left,held1⟩ := first holds
    obtain ⟨bp2,right,held2⟩ := shifted held1
    exact ⟨bp1,bp2,left,right,finish held2⟩
  · obtain ⟨bp1,right,held1⟩ := shifted holds
    obtain ⟨bp2,left,held2⟩ := first held1
    exact ⟨bp1,bp2,right,left,finish held2⟩

lemma Holds.redistribute_right (len : cs1.length = pre.length)
    (empty : l.nkeys = 0) (spare : 2 ≤ r.nkeys) (room : r.nkeys ≤ 3)
    (borrowed : borrowCells l r 1 true k = some (l',r',k')) :
    ∃ bp', redistribute 2 bp pre.length (pre.length+1) = some bp' ∧
      Holds (pre++k'::post) (cs1++l'.setNkeys 1 :: r'.setNkeys (r.nkeys-1) :: cs2) bp' := by
  obtain ⟨read,read',key⟩ := holds.children len
  obtain ⟨keys,keyed,⟨bp1,bp2,left,right,held⟩,_⟩ := holds.setChildren len (l'.setNkeys 1) (r'.setNkeys (r.nkeys-1)) k'
  have average : r.nkeys/2-0 = 1 := by omega
  have checks : ¬ ¬ (0 < 2-1 ∧ 2-1 < r.nkeys) := by omega
  have enough : ¬ ¬ 1 < r.nkeys := by omega
  have before : pre.length < pre.length+1 := Nat.lt_succ_self _
  refine ⟨{ bp2 with keys := keys },?_,held⟩
  simp only [redistribute,read,read',some_bind,empty,checks,if_false,average,enough,before,if_true,
    key,decide_true,borrowed,keyed,Nat.zero_add,left,right]
  rfl

lemma Holds.redistribute_left (len : cs1.length = pre.length)
    (empty : r.nkeys = 0) (spare : 2 ≤ l.nkeys) (room : l.nkeys ≤ 3)
    (borrowed : borrowCells r l 1 false k = some (r',l',k')) :
    ∃ bp', redistribute 2 bp (pre.length+1) pre.length = some bp' ∧
      Holds (pre++k'::post) (cs1++l'.setNkeys (l.nkeys-1) :: r'.setNkeys 1 :: cs2) bp' := by
  obtain ⟨read,read',key⟩ := holds.children len
  obtain ⟨keys,keyed,_,bp1,bp2,right,left,held⟩ := holds.setChildren len (l'.setNkeys (l.nkeys-1)) (r'.setNkeys 1) k'
  have average : l.nkeys/2-0 = 1 := by omega
  have checks : ¬ ¬ (0 < 2-1 ∧ 2-1 < l.nkeys) := by omega
  have enough : ¬ ¬ 1 < l.nkeys := by omega
  have behind : ¬ pre.length+1 < pre.length := by omega
  refine ⟨{ bp2 with keys := keys },?_,held⟩
  simp only [redistribute,read,read',some_bind,empty,checks,if_false,average,enough,behind,
    key,decide_false,borrowed,keyed,Nat.zero_add,left,right]
  rfl

lemma Holds.merge
    (len : cs1.length = pre.length) (len' : cs2.length = post.length)
    (merged : mergeNodes links k l r = some (links',m)) :
    ∃ bp', BPlusTree.merge links bp pre.length (pre.length+1) = some (links',bp') ∧
      BPlusTree.merge links bp (pre.length+1) pre.length = some (links',bp') ∧ Holds (pre++post) (cs1++m::cs2) bp' := by
  obtain ⟨read,read',key⟩ := holds.children len
  obtain ⟨bp1,written,held,_⟩ := holds.setChild m
  rw [len] at written
  obtain ⟨count,keys,child⟩ := held
  have moved : bp1.nkeys-(pre.length+1) = post.length := by
    rw [count,length_append,length_cons]
    omega
  obtain ⟨keys',keyed,heldKeys⟩ := keys.remove rfl
  rw [show cs1 ++ m::r::cs2 = (cs1++[m])++r::cs2 by simp,map_append,map_cons] at child
  obtain ⟨child',given,heldChild⟩ := child.remove (i := pre.length+1) (by simp [len])
  rw [length_map,len'] at given
  have below : ¬ pre.length > pre.length+1 := by omega
  have above : pre.length+1 > pre.length := by omega
  refine ⟨{ bp1 with nkeys := bp1.nkeys-1, keys := keys', child := child' },?_,?_,⟨?_,heldKeys,by simpa using heldChild⟩⟩
  · simp only [BPlusTree.merge,below,if_false,read,read',key,merged,written,moved,keyed,given,some_bind]
    rfl
  · simp only [BPlusTree.merge,above,if_true,read,read',key,merged,written,moved,keyed,given,some_bind]
    rfl
  · simp only [count,length_append,length_cons]
    omega

end
end IndexNode

/-! ## The shape of a subtree for `t = 2` -/
open Fences

/-- A node with what is below it. -/
structure View where
  node : Node
  entries : List (Int × Int)
  leaves : List LeafNode

def View.nkeys (v : View) : Nat := v.node.nkeys
/-- The ids of the leaves. -/
def View.ids (v : View) : List Nat := v.leaves.map LeafNode.id
def leafView (node : LeafNode) (es : List (Int × Int)) : View := ⟨.leaf node,es,[node]⟩

def indexView (node : IndexNode Node) (cs : List View) : View :=
  ⟨.index node,cs.flatMap View.entries,cs.flatMap View.leaves⟩

structure Leaf (lo hi : Option Int) (node : LeafNode) (es : List (Int × Int)) : Prop where
  holds : node.Holds es
  sorted : Sorted es
  within : ∀ e ∈ es, Within lo hi e.1
  room : es.length ≤ 3

/-- An index node whose children are fenced by its keys and have keys themselves. -/
structure Row (S : Option Int → Option Int → View → Prop) (lo hi : Option Int) (node : IndexNode Node) (ks : List Int)
    (cs : List View) : Prop where
  holds : node.Holds ks (cs.map View.node)
  fenced : Fenced S lo hi ks cs
  fill : ∀ c ∈ cs, 1 ≤ c.nkeys
  room : ks.length ≤ 3

def Subtree : Nat → Option Int → Option Int → View → Prop
  | 0,lo,hi,v => ∃ node es, v = leafView node es ∧ Leaf lo hi node es
  | h+1,lo,hi,v => ∃ node ks cs, v = indexView node cs ∧ Row (Subtree h) lo hi node ks cs

section
variable {h : Nat} {lo hi : Option Int} {v : View}

lemma Subtree.ordered (tree : Subtree h lo hi v) : Sorted v.entries ∧ ∀ e ∈ v.entries, Within lo hi e.1 := by
  induction h generalizing lo hi v with
  | zero =>
    obtain ⟨node,es,rfl,shape⟩ := tree
    exact ⟨shape.sorted,shape.within⟩
  | succ h ih =>
    obtain ⟨node,ks,cs,rfl,row⟩ := tree
    exact row.fenced.contents fun _ _ _ child => ih child

lemma nkeys_leaf (holds : node.Holds es) :
    (leafView node es).nkeys = es.length := holds.count

lemma nkeys_index (holds : node.Holds ks ps) :
    (indexView node cs).nkeys = ks.length := holds.count

lemma Subtree.nkeys_le (tree : Subtree h lo hi v) : v.nkeys ≤ 3 := by
  cases h with
  | zero =>
    obtain ⟨node,es,rfl,shape⟩ := tree
    exact (nkeys_leaf shape.holds).trans_le shape.room
  | succ h =>
    obtain ⟨node,ks,cs,rfl,row⟩ := tree
    exact (nkeys_index row.holds).trans_le row.room

lemma height_le_heights (mem : some c ∈ ptrs) :
    c.height ≤ Node.heights ptrs := by
  induction ptrs with
  | nil => cases mem
  | cons p ptrs ih =>
    rcases mem_cons.mp mem with rfl | later
    · exact le_max_left _ _
    · cases p with
      | none => exact ih later
      | some c' => exact (ih later).trans (le_max_right _ _)

lemma Subtree.height_lt (tree : Subtree h lo hi v) : h < v.node.height := by
  induction h generalizing lo hi v with
  | zero =>
    obtain ⟨node,es,rfl,_⟩ := tree
    simp [leafView,Node.height]
  | succ h ih =>
    obtain ⟨node,ks,cs,rfl,row⟩ := tree
    match cs,row.fenced.length with
    | c::cs,_ =>
      obtain ⟨lo',hi',child,_⟩ := row.fenced.mem (mem_cons_self : c ∈ c::cs)
      obtain ⟨rest,stored,_⟩ := row.holds.child
      have mem : some c.node ∈ node.child := by
        rw [stored]
        simp
      have deeper := (ih child).trans_le (height_le_heights mem)
      exact Nat.succ_lt_succ deeper

lemma Row.seekDown (row : Row (Subtree h) lo hi node ks cs)
    (key : Int) : ∃ pre post, ks = pre++post ∧ Slices.seekDown (fun x => key < x) node.keys node.nkeys = some pre.length ∧
      (∀ x ∈ pre, x ≤ key) ∧ ∀ x ∈ post.head?, key < x := by
  obtain ⟨pre,post,rfl,sought,misses,hits⟩ := row.holds.keys.seekDown (fun x => decide (key < x)) row.holds.count
  refine ⟨pre,post,rfl,sought,?_,fun x first => by simpa using hits x (mem_of_mem_head? first)⟩
  have sorted := (pairwise_append.mp row.fenced.sorted.1).1
  intro x mem
  rcases eq_nil_or_concat' pre with rfl | ⟨front,last,rfl⟩
  · cases mem
  · have bound : last ≤ key := by simpa using misses last (by simp)
    rcases mem_append.mp mem with before | here
    · have less := (pairwise_append.mp sorted).2.2 x before last (by simp)
      omega
    · obtain rfl := mem_singleton.mp here
      exact bound

/-- The child a key belongs to, how a row takes its place, and where the other entries are. -/
structure Descent (h : Nat) (lo hi : Option Int) (key : Int) (pre post : List Int) (cs1 : List View) (c : View)
    (cs2 : List View) : Prop where
  left : cs1.length = pre.length
  right : cs2.length = post.length
  bounds : ∃ lo' hi', Subtree h lo' hi' c ∧ Within lo' hi' key ∧ ∀ ks cs, Fenced (Subtree h) lo' hi' ks cs →
    Fenced (Subtree h) lo hi (pre++(ks++post)) (cs1++(cs++cs2))
  below : ∀ e ∈ cs1.flatMap View.entries, e.1 < key
  above : ∀ e ∈ cs2.flatMap View.entries, key < e.1

lemma descend (fenced : Fenced (Subtree h) lo hi (pre++post) cs)
    (inside : Within lo hi key) (low : ∀ x ∈ pre, x ≤ key) (high : ∀ x ∈ post.head?, key < x) :
    ∃ cs1 c cs2, cs = cs1++c::cs2 ∧ Descent h lo hi key pre post cs1 c cs2 := by
  have total := fenced.length
  obtain ⟨cs1,c,cs2,lo',hi',rfl,len,child,room,replace,left,right⟩ := fenced.route inside low high
  simp only [length_append,length_cons] at total
  refine ⟨cs1,c,cs2,rfl,len,by omega,⟨lo',hi',child,room,fun ks cs => replace _ ks cs (fun _ _ _ _ part => part)⟩,
    forall_mem_parts (fun _ _ _ tree => tree.ordered.2) left,forall_mem_parts (fun _ _ _ tree => tree.ordered.2) right⟩

lemma leaf_pair (pre : List (Int × Int)) (sorted : Sorted (pre++e::post))
    (within : ∀ x ∈ pre++e::post, Within lo hi x.1) (left : l.Holds pre) (right : r.Holds (e::post))
    (room : pre.length ≤ 3) (room' : (e::post).length ≤ 3) :
    Fenced (Subtree 0) lo hi [e.1] [leafView l pre,leafView r (e::post)] := by
  obtain ⟨before,behind,_⟩ := pairwise_append.mp sorted
  obtain ⟨lower,sep,upper⟩ := within_cut sorted within
  exact ⟨⟨l,pre,rfl,left,before,lower,room⟩,sep,r,e::post,rfl,right,behind,upper,room'⟩

lemma index_pair (ks1 : List Int) (cs1 cs2 : List View)
    (fenced : Fenced (Subtree h) lo hi (ks1++k::ks2) (cs1++cs2)) (len : cs1.length = ks1.length+1)
    (fill : ∀ c ∈ cs1++cs2, 1 ≤ c.nkeys) (left : l.Holds ks1 (cs1.map View.node)) (right : r.Holds ks2 (cs2.map View.node))
    (room : ks1.length ≤ 3) (room' : ks2.length ≤ 3) :
    Fenced (Subtree (h+1)) lo hi [k] [indexView l cs1,indexView r cs2] := by
  obtain ⟨before,sep,behind⟩ := (fenced_append len).mp fenced
  refine ⟨⟨l,ks1,cs1,rfl,left,before,?_,room⟩,sep,r,ks2,cs2,rfl,right,behind,?_,room'⟩
  · exact fun c mem => fill c (mem_append_left _ mem)
  · exact fun c mem => fill c (mem_append_right _ mem)

end
end CodeExercise.BPlusTree
