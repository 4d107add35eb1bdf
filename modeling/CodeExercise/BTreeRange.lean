import CodeExercise.BTreeRefines

/-!
Range queries. `FindRange` starts at the leftmost leaf, or at the leaf the lower bound leads to, and
the iterator goes on along `next`. With a lower bound above all keys of the leaf it leads to, the descent returns
`nil` and nothing is yielded, whatever the next leaf holds (`findRange_iff`).
-/
namespace CodeExercise.BTree
open Slices SortedMaps Fences Chains Option
open List (cons_append filter_eq_nil_iff flatMap_append flatMap_assoc flatMap_congr flatMap_cons
  map_cons)
set_option linter.unusedSectionVars false

variable {K V : Type} [LinearOrder K] [Inhabited K] [Inhabited V]

namespace Node

/-- The leaves below a node, in order: what the ids point to. -/
def leafNodes : Nat → Node K V → List (LeafNode K V)
  | 0,_ => []
  | _+1,leaf node => [node]
  | fuel+1,internal node => (node.ptrs.take (node.nkeys+1)).flatMap (fun c => (c.map (leafNodes fuel)).getD [])

def findMinLeaf : Nat → Node K V → Option (LeafNode K V)
  | 0,_ => none
  | _+1,leaf node => some node
  | fuel+1,internal node => do
    let c ← node.child 0
    findMinLeaf fuel c

/-- The leaf that the separators lead to for a key. -/
def leafFor : Nat → Node K V → K → Option (LeafNode K V)
  | 0,_,_ => none
  | _+1,leaf node,_ => some node
  | fuel+1,internal node,key => do
    let i ← node.childIndex key
    let c ← node.child i
    leafFor fuel c key

end Node

def LeafNode.pairs (node : LeafNode K V) : List (K × V) := (node.keys.zip node.vals).take node.nkeys

namespace Tree

def leafNodes (tree : Tree K V) : List (LeafNode K V) := tree.root.leafNodes tree.root.height
def leafAt (tree : Tree K V) (id : Nat) : Option (LeafNode K V) := tree.leafNodes.find? (fun node => node.id = id)

end Tree

/-- `curr` is the id of the leaf; the index is not read when there is none. -/
structure Iterator (K : Type) where
  curr : Option Nat
  currIdx : Nat
  lowKey : Option K
  highKey : Option K

def Tree.findRange (tree : Tree K V) (lowKey highKey : Option K) : Option (Iterator K) := do
  match lowKey with
  | none =>
    let leafNode ← tree.root.findMinLeaf tree.root.height
    return ⟨some leafNode.id,0,lowKey,highKey⟩
  | some low =>
    match ← tree.root.find tree.root.height low with
    | none => return ⟨none,0,lowKey,highKey⟩
    | some (leafNode,idx) => return ⟨some leafNode.id,idx,lowKey,highKey⟩

namespace Iterator

/-- The iterator moves on to the next leaf before it looks at the key. -/
def hasNext (s : Heap × Tree K V) (it : Iterator K) : Option (Bool × Iterator K) :=
  match it.curr with
  | none => some (false,it)
  | some id => do
    let leafNode ← s.2.leafAt id
    let it := if it.currIdx = leafNode.nkeys then { it with curr := s.1.next id, currIdx := 0 } else it
    match it.curr with
    | none => some (false,it)
    | some id =>
      match it.highKey with
      | none => some (true,it)
      | some high => do
        let leafNode ← s.2.leafAt id
        let key ← leafNode.keys[it.currIdx]?
        return (decide (key < high),it)

def next (s : Heap × Tree K V) (it : Iterator K) : Option ((K × V) × Iterator K) := do
  let id ← it.curr
  let leafNode ← s.2.leafAt id
  let key ← leafNode.keys[it.currIdx]?
  let val ← leafNode.vals[it.currIdx]?
  return ((key,val),{ it with currIdx := it.currIdx+1 })

/-- `for it.hasNext() { it.next() }`, for at most so many rounds. -/
def collect (s : Heap × Tree K V) : Nat → Iterator K → Option (List (K × V))
  | 0,_ => none
  | fuel+1,it => do
    let (more,it) ← it.hasNext s
    if more then
      let (e,it) ← it.next s
      let rest ← collect s fuel it
      return e :: rest
    else
      return []

end Iterator

/-- What an iterator over a range yields; a round for each pair that is stored is enough. -/
def range (s : Heap × Tree K V) (lowKey highKey : Option K) : Option (List (K × V)) := do
  let it ← s.2.findRange lowKey highKey
  it.collect s ((s.2.leafNodes.flatMap LeafNode.pairs).length+1)

/-- `lowKey <= key < highKey`, where a missing bound is no bound. -/
def InRange (lowKey highKey : Option K) (key : K) : Prop := (∀ low ∈ lowKey, low ≤ key) ∧ ∀ high ∈ highKey, key < high
deriving Decidable

lemma LeafNode.Holds.pairs {es : List (K × V)} {node : LeafNode K V} (holds : node.Holds d es) :
    node.pairs = es := by
  obtain ⟨count,⟨rest,keys,_⟩,⟨rest',vals,_⟩⟩ := holds
  have zipped : (es.map Prod.fst).zip (es.map Prod.snd) = es := by
    rw [List.zip_map']
    simp
  rw [LeafNode.pairs,keys,vals,List.zip_append (by simp),zipped,count,List.take_left]

section
variable {d h fuel : Nat} {lo hi : Option K} {v : View K V}

lemma Row.leafNodes {ks : List K} {cs : List (View K V)}
    (row : Row d (Subtree d h) lo hi node ks cs) (fuel : Nat) :
    (Node.internal node).leafNodes (fuel+1) = cs.flatMap (fun c => c.node.leafNodes fuel) := by
  obtain ⟨rest,ptrs,_⟩ := row.holds.ptrs
  have used : node.ptrs.take (node.nkeys+1) = cs.map (fun c => some c.node) := by
    have total := row.fenced.length
    rw [ptrs,row.holds.count,← total,List.map_map]
    exact List.take_left' (by simp)
  rw [Node.leafNodes,used,List.flatMap_map]
  rfl

/-- The leaves have the ids and hold the entries of the view. -/
structure Leaves (d : Nat) (v : View K V) (ls : List (LeafNode K V)) : Prop where
  ids : ls.map LeafNode.id = v.leaves
  entries : ls.flatMap LeafNode.pairs = v.entries
  holds : ∀ node ∈ ls, node.Holds d node.pairs

lemma Subtree.leafNodes (tree : Subtree d h lo hi v) (enough : h < fuel) : Leaves d v (v.node.leafNodes fuel) := by
  induction h generalizing lo hi v fuel with
  | zero =>
    obtain _ | fuel := fuel
    · omega
    obtain ⟨node,es,rfl,shape⟩ := tree
    have pairs := shape.holds.pairs
    refine ⟨rfl,by simp [leafView,Node.leafNodes,pairs],?_⟩
    intro other mem
    obtain rfl : other = node := by simpa [leafView,Node.leafNodes] using mem
    rw [pairs]
    exact shape.holds
  | succ h ih =>
    obtain _ | fuel := fuel
    · omega
    obtain ⟨node,ks,cs,rfl,row⟩ := tree
    have below : ∀ c ∈ cs, Leaves d c (c.node.leafNodes fuel) := by
      intro c mem
      obtain ⟨lo',hi',child,_⟩ := row.fenced.mem mem
      exact ih child (by omega)
    change Leaves d _ ((Node.internal node).leafNodes (fuel+1))
    rw [row.leafNodes]
    refine ⟨?_,?_,?_⟩
    · rw [List.map_flatMap]
      exact flatMap_congr fun c mem => (below c mem).ids
    · rw [flatMap_assoc]
      exact flatMap_congr fun c mem => (below c mem).entries
    · intro leaf mem
      obtain ⟨c,inside,mem⟩ := List.mem_flatMap.mp mem
      exact (below c inside).holds leaf mem

lemma Subtree.leafNodes_nonempty (large : 3 ≤ d) (tree : Subtree d h lo hi v) (filled : 0 < h ∨ 1 ≤ v.nkeys)
    (enough : h < fuel) : ∀ node ∈ v.node.leafNodes fuel, node.pairs ≠ [] := by
  induction h generalizing lo hi v fuel with
  | zero =>
    obtain _ | fuel := fuel
    · omega
    obtain ⟨node,es,rfl,shape⟩ := tree
    intro other mem
    obtain rfl : other = node := by simpa [leafView,Node.leafNodes] using mem
    rw [shape.holds.pairs]
    rintro rfl
    rw [nkeys_leaf shape.holds,List.length_nil] at filled
    omega
  | succ h ih =>
    obtain _ | fuel := fuel
    · omega
    obtain ⟨node,ks,cs,rfl,row⟩ := tree
    intro leaf mem
    change leaf ∈ (Node.internal node).leafNodes (fuel+1) at mem
    rw [row.leafNodes] at mem
    obtain ⟨c,inside,mem⟩ := List.mem_flatMap.mp mem
    obtain ⟨lo',hi',child,_⟩ := row.fenced.mem inside
    have half := row.fill c inside
    exact ih child (.inr (by omega)) (by omega) leaf mem

lemma Subtree.findMinLeaf (tree : Subtree d h lo hi v) (enough : h < fuel) :
    ∃ node rest, v.node.findMinLeaf fuel = some node ∧ v.node.leafNodes fuel = node::rest := by
  induction h generalizing lo hi v fuel with
  | zero =>
    obtain _ | fuel := fuel
    · omega
    obtain ⟨node,es,rfl,_⟩ := tree
    exact ⟨node,[],rfl,rfl⟩
  | succ h ih =>
    obtain _ | fuel := fuel
    · omega
    obtain ⟨node,ks,cs,rfl,row⟩ := tree
    match cs,row,row.fenced.length with
    | c::cs,row,_ =>
      obtain ⟨lo',hi',child,_⟩ := row.fenced.mem (List.mem_cons_self : c ∈ c::cs)
      obtain ⟨leaf,rest,done,listed⟩ := ih child (by omega : h < fuel)
      have first : node.Holds d ks ([]++c.node::cs.map View.node) := row.holds
      have read : node.child 0 = some c.node := first.child
      refine ⟨leaf,rest++cs.flatMap (fun c => c.node.leafNodes fuel),?_,?_⟩
      · simp only [internalView,Node.findMinLeaf,read,done,some_bind]
      · change (Node.internal node).leafNodes (fuel+1) = _
        rw [row.leafNodes,flatMap_cons,listed,cons_append]

/-- Where the descent for a key ends: the leaf and the entries of it that are below the key. -/
structure Landing (v : View K V) (fuel : Nat) (key : K) (pre : List (LeafNode K V)) (leaf : LeafNode K V)
    (post : List (LeafNode K V)) (low high : List (K × V)) : Prop where
  listed : v.node.leafNodes fuel = pre++leaf::post
  leads : v.node.leafFor fuel key = some leaf
  found : v.node.find fuel key = some (if high = [] then none else some (leaf,low.length))
  pairs : leaf.pairs = low++high
  before : ∀ e ∈ pre.flatMap LeafNode.pairs, e.1 < key
  below : ∀ e ∈ low, e.1 < key
  above : ∀ e ∈ high, key ≤ e.1
  behind : ∀ e ∈ post.flatMap LeafNode.pairs, key ≤ e.1

lemma Subtree.landing (tree : Subtree d h lo hi v) {key : K} (inside : Within lo hi key) (enough : h < fuel) :
    ∃ pre leaf post low high, Landing v fuel key pre leaf post low high := by
  induction h generalizing lo hi v fuel with
  | zero =>
    obtain _ | fuel := fuel
    · omega
    obtain ⟨node,es,rfl,shape⟩ := tree
    obtain ⟨low,high,rfl,done,below,first⟩ := shape.holds.find key
    refine ⟨[],node,[],low,high,rfl,rfl,?_,shape.holds.pairs,by simp,below,?_,by simp⟩
    · simp only [leafView,Node.find,done,some_bind]
      by_cases last : high = [] <;> simp [last]
    · cases high with
      | nil => simp
      | cons e high =>
        have order := (List.pairwise_append.mp shape.sorted).2.1
        have least : key ≤ e.1 := first e rfl
        exact List.forall_mem_cons.mpr ⟨least,fun x later => least.trans ((List.pairwise_cons.mp order).1 x later).le⟩
  | succ h ih =>
    obtain _ | fuel := fuel
    · omega
    obtain ⟨node,ks,cs,rfl,row⟩ := tree
    have whole := row.leafNodes fuel
    have below : ∀ c ∈ cs, (c.node.leafNodes fuel).flatMap LeafNode.pairs = c.entries := by
      intro c mem
      obtain ⟨lo',hi',child,_⟩ := row.fenced.mem mem
      exact (child.leafNodes (by omega)).entries
    obtain ⟨ks1,ks2,cs1,c,cs2,rfl,rfl,descent⟩ := row.descend inside
    obtain ⟨lo',hi',child,room,_⟩ := descent.bounds
    obtain ⟨pre,leaf,post,low,high,landing⟩ := ih child room (by omega : h < fuel)
    refine ⟨cs1.flatMap (fun c => c.node.leafNodes fuel) ++ pre,leaf,post++cs2.flatMap (fun c => c.node.leafNodes fuel),
      low,high,?_,?_,?_,landing.pairs,?_,landing.below,landing.above,?_⟩
    · change (Node.internal node).leafNodes (fuel+1) = _
      rw [whole,flatMap_append,flatMap_cons,landing.listed]
      simp
    · simp only [internalView,Node.leafFor,descent.index,descent.read,some_bind,landing.leads]
    · simp only [internalView,Node.find,descent.index,descent.read,some_bind,landing.found]
    · intro e mem
      rw [flatMap_append,List.mem_append,flatMap_assoc] at mem
      rcases mem with early | near
      · rw [flatMap_congr (fun c mem => below c (by simp [mem]))] at early
        exact descent.below e early
      · exact landing.before e near
    · intro e mem
      rw [flatMap_append,List.mem_append,flatMap_assoc] at mem
      rcases mem with near | late
      · exact landing.behind e near
      · rw [flatMap_congr (fun c mem => below c (by simp [mem]))] at late
        exact (descent.above e late).le

end

/-- The leaves are found under their ids, linked in order, and only a leaf that is alone may be empty. -/
structure Listing (d : Nat) (s : Heap × Tree K V) (ls : List (LeafNode K V)) : Prop where
  found : ∀ node ∈ ls, s.2.leafAt node.id = some node
  holds : ∀ node ∈ ls, node.Holds d node.pairs
  chain : Chain s.1.prev s.1.next none (ls.map LeafNode.id) none
  filled : ls.length = 1 ∨ ∀ node ∈ ls, node.pairs ≠ []

/-- An iterator in front of the entries that it has not passed yet. -/
inductive At (ls : List (LeafNode K V)) (it : Iterator K) : List (K × V) → Prop
  | ended (none_ : it.curr = none) : At ls it []
  | leaf {pre post : List (LeafNode K V)} {node : LeafNode K V} {low high : List (K × V)} (cut : ls = pre++node::post)
      (curr : it.curr = some node.id) (pairs : node.pairs = low++high) (index : it.currIdx = low.length) :
      At ls it (high++post.flatMap LeafNode.pairs)

section
variable {d : Nat} {s : Heap × Tree K V} {ls : List (LeafNode K V)} {it : Iterator K}
  {es : List (K × V)} {e : K × V}

section
variable (listing : Listing d s ls)
include listing

/-- The key in front of the iterator is compared with the upper bound, and the pair is taken. -/
lemma Listing.ready (it : Iterator K) (low : List (K × V)) (cut : ls = pre++node::post)
    (curr : it.curr = some node.id)
    (pairs : node.pairs = low++e::high)
    (index : it.currIdx = low.length) :
    (match it.highKey with
      | none => some (true,it)
      | some bound => do
        let leafNode ← s.2.leafAt node.id
        let key ← leafNode.keys[it.currIdx]?
        return (decide (key < bound),it)) = some (decide (∀ bound ∈ it.highKey, e.1 < bound),it) ∧
    it.next s = some (e,{ it with currIdx := it.currIdx+1 }) ∧
    At ls { it with currIdx := it.currIdx+1 } (high++post.flatMap LeafNode.pairs) := by
  have mem : node ∈ ls := by simp [cut]
  have found := listing.found node mem
  have holds : node.Holds d (low++(e.1,e.2)::high) := pairs ▸ listing.holds node mem
  obtain ⟨key,val⟩ := holds.get
  rw [← index] at key val
  refine ⟨?_,?_,?_⟩
  · cases it.highKey with
    | none => simp
    | some bound => simp [found,key]
  · simp only [Iterator.next,curr,found,key,val,some_bind]
    rfl
  · have split : node.pairs = (low++[e])++high := by simp [pairs]
    exact .leaf cut curr split (by simp [index])

/-- An iterator with nothing in front of it stops; any other one takes the next pair unless the bound forbids it. -/
lemma Listing.hasNext (here : At ls it es) :
    ∃ it', it'.highKey = it.highKey ∧ (es = [] → it.hasNext s = some (false,it')) ∧
      ∀ e rest, es = e::rest → it.hasNext s = some (decide (∀ bound ∈ it.highKey, e.1 < bound),it') ∧
        it'.next s = some (e,{ it' with currIdx := it'.currIdx+1 }) ∧ At ls { it' with currIdx := it'.currIdx+1 } rest := by
  cases here with
  | ended none_ =>
    refine ⟨it,rfl,fun _ => by simp [Iterator.hasNext,none_],?_⟩
    rintro e rest ⟨⟩
  | @leaf pre post node low high cut curr pairs index =>
    have mem : node ∈ ls := by simp [cut]
    have found := listing.found node mem
    have count : node.nkeys = low.length+high.length := by
      rw [(listing.holds node mem).count,pairs,List.length_append]
    have chain := listing.chain
    rw [cut,List.map_append,map_cons] at chain
    have after := chain.neighbours.2
    cases high with
    | nil =>
      -- the leaf is used up
      have last : it.currIdx = node.nkeys := by simp [index,count]
      cases post with
      | nil =>
        refine ⟨{ it with curr := none, currIdx := 0 },rfl,fun _ => ?_,?_⟩
        · simp only [List.map_nil,List.head?_nil] at after
          simp [Iterator.hasNext,curr,found,last,after]
        · rintro e rest ⟨⟩
      | cons node' post =>
        simp only [map_cons,List.head?_cons] at after
        have cut' : ls = (pre++[node])++node'::post := by simp [cut]
        have filled : node'.pairs ≠ [] := by
          refine listing.filled.resolve_left ?_ node' (by simp [cut])
          simp [cut]
          omega
        obtain ⟨e,high',pairs'⟩ := List.exists_cons_of_ne_nil filled
        have ready := listing.ready { it with curr := some node'.id, currIdx := 0 } [] cut' rfl pairs' rfl
        refine ⟨{ it with curr := some node'.id, currIdx := 0 },rfl,?_,?_⟩
        · intro empty
          simp [pairs'] at empty
        · intro x rest same
          simp only [List.nil_append,flatMap_cons,pairs',cons_append,List.cons.injEq] at same
          obtain ⟨rfl,rfl⟩ := same
          refine ⟨?_,ready.2⟩
          simp only [Iterator.hasNext,curr,found,last,if_true,after,some_bind]
          exact ready.1
    | cons e high =>
      have inside : it.currIdx ≠ node.nkeys := by simp [index,count]
      have ready := listing.ready it low cut curr pairs index
      refine ⟨it,rfl,by simp,?_⟩
      intro x rest same
      simp only [cons_append,List.cons.injEq] at same
      obtain ⟨rfl,rfl⟩ := same
      refine ⟨?_,ready.2⟩
      have asked := ready.1
      simp only [found,some_bind] at asked
      simp only [Iterator.hasNext,curr,found,inside,if_false,some_bind]
      exact asked

lemma Listing.collect (here : At ls it es) (enough : es.length < fuel) :
    it.collect s fuel = some (es.takeWhile (fun e => ∀ bound ∈ it.highKey, e.1 < bound)) := by
  induction es generalizing it fuel with
  | nil =>
    obtain _ | fuel := fuel
    · omega
    obtain ⟨it',_,stops,_⟩ := listing.hasNext here
    simp [Iterator.collect,stops rfl]
  | cons e es ih =>
    obtain _ | fuel := fuel
    · omega
    obtain ⟨it',bound,_,goes⟩ := listing.hasNext here
    obtain ⟨asked,taken,here'⟩ := goes e es rfl
    have rest : Iterator.collect s fuel { it' with currIdx := it'.currIdx+1 } =
        some (es.takeWhile (fun e => ∀ bound ∈ it.highKey, e.1 < bound)) := by
      simpa only [bound] using ih here' (by simpa using enough : es.length < fuel)
    by_cases under : ∀ high ∈ it.highKey, e.1 < high
    · rw [List.takeWhile_cons_of_pos (by simpa using under)]
      simp only [Iterator.collect,asked,decide_eq_true under,taken,rest,some_bind,if_true]
      rfl
    · rw [List.takeWhile_cons_of_neg (by simpa using under)]
      simp only [Iterator.collect,asked,decide_eq_false under,some_bind]
      rfl

end

lemma takeWhile_below (sorted : Sorted es) (highKey : Option K) :
    es.takeWhile (fun e => ∀ bound ∈ highKey, e.1 < bound) = es.filter (fun e => ∀ bound ∈ highKey, e.1 < bound) := by
  induction es with
  | nil => rfl
  | cons e es ih =>
    obtain ⟨less,rest⟩ := List.pairwise_cons.mp sorted
    by_cases under : ∀ bound ∈ highKey, e.1 < bound
    · rw [List.takeWhile_cons_of_pos (by simpa using under),List.filter_cons_of_pos (by simpa using under),ih rest]
    · rw [List.takeWhile_cons_of_neg (by simpa using under),List.filter_cons_of_neg (by simpa using under)]
      refine (filter_eq_nil_iff.mpr (fun x mem below => under ?_)).symm
      intro bound given
      exact (less x mem).trans (of_decide_eq_true below bound given)

end

section
variable {d h : Nat} {m : K → Option V} {s : Heap × Tree K V} {v : View K V}

lemma Stores.leaves (stores : Stores d m s h v) : Leaves d v s.2.leafNodes := by
  have listed := stores.shape.leafNodes stores.shape.height_lt
  rwa [stores.root] at listed

lemma Stores.listing (large : 3 ≤ d) (stores : Stores d m s h v) (linked : Linked (s.1,v.leaves)) :
    Listing d s s.2.leafNodes := by
  have leaves := stores.leaves
  refine ⟨?_,leaves.holds,?_,?_⟩
  · intro node mem
    refine find_of_nodup_map ?_ mem
    rw [leaves.ids]
    exact linked.nodup
  · rw [leaves.ids]
    exact linked.chain
  · cases h with
    | zero =>
      left
      obtain ⟨node,es,rfl,_⟩ := stores.shape
      rw [← List.length_map LeafNode.id,leaves.ids]
      rfl
    | succ h =>
      right
      have nonempty := stores.shape.leafNodes_nonempty large (.inl (Nat.succ_pos h)) stores.shape.height_lt
      rwa [stores.root] at nonempty

/-- An iterator that starts in front of some of the entries yields those of them below the upper bound. -/
lemma Stores.range (large : 3 ≤ d) (stores : Stores d m s h v) (linked : Linked (s.1,v.leaves))
    (starts : s.2.findRange lowKey highKey = some it) (bound : it.highKey = highKey)
    (here : At s.2.leafNodes it es) (part : es.Sublist v.entries) :
    BTree.range s lowKey highKey = some (es.filter (fun e => ∀ bound ∈ highKey, e.1 < bound)) := by
  have size : es.length < (s.2.leafNodes.flatMap LeafNode.pairs).length+1 := by
    rw [stores.leaves.entries]
    exact Nat.lt_succ_of_le part.length_le
  have collected := (stores.listing large linked).collect here size
  rw [bound,takeWhile_below (stores.shape.ordered.1.sublist part)] at collected
  simp only [BTree.range,starts,some_bind,collected]

lemma Stores.range_none (large : 3 ≤ d) (stores : Stores d m s h v) (linked : Linked (s.1,v.leaves)) (highKey : Option K) :
    BTree.range s none highKey = some (v.entries.filter (fun e => InRange none highKey e.1)) := by
  obtain ⟨node,rest,least,listed⟩ := stores.shape.findMinLeaf stores.shape.height_lt
  rw [stores.root] at least listed
  have starts : s.2.findRange none highKey = some ⟨some node.id,0,none,highKey⟩ := by
    simp only [Tree.findRange,least,some_bind]
    rfl
  have here : At s.2.leafNodes ⟨some node.id,0,none,highKey⟩ v.entries := by
    rw [← stores.leaves.entries,show s.2.leafNodes = node::rest from listed,flatMap_cons]
    exact .leaf (show node :: rest = []++node::rest from rfl) rfl (show node.pairs = []++node.pairs from rfl) rfl
  rw [stores.range large linked starts rfl here (List.Sublist.refl _)]
  simp [InRange]

/-- The entries that are not below a key are those from the landing of its descent on. -/
lemma Landing.entries
    (landing : Landing v fuel key pre leaf post low high) (all : (v.node.leafNodes fuel).flatMap LeafNode.pairs = es) :
    es.filter (fun e => key ≤ e.1) = high++post.flatMap LeafNode.pairs := by
  have before : (pre.flatMap LeafNode.pairs).filter (fun e => key ≤ e.1) = [] := by
    rw [filter_eq_nil_iff]
    intro e mem
    simpa using landing.before e mem
  have below : low.filter (fun e => key ≤ e.1) = [] := by
    rw [filter_eq_nil_iff]
    intro e mem
    simpa using landing.below e mem
  have above : high.filter (fun e => key ≤ e.1) = high := by
    rw [List.filter_eq_self]
    intro e mem
    simpa using landing.above e mem
  have behind : (post.flatMap LeafNode.pairs).filter (fun e => key ≤ e.1) = post.flatMap LeafNode.pairs := by
    rw [List.filter_eq_self]
    intro e mem
    simpa using landing.behind e mem
  rw [← all,landing.listed,flatMap_append,flatMap_cons,landing.pairs]
  simp only [List.filter_append,before,below,above,behind,List.nil_append]

lemma Stores.range_some (large : 3 ≤ d) (stores : Stores d m s h v) (linked : Linked (s.1,v.leaves)) (low : K)
    (highKey : Option K) : ∃ leaf, s.2.root.leafFor s.2.root.height low = some leaf ∧
      BTree.range s (some low) highKey =
        some (if ∃ e ∈ leaf.pairs, low ≤ e.1 then v.entries.filter (fun e => InRange (some low) highKey e.1) else []) := by
  obtain ⟨pre,leaf,post,below,above,landing⟩ := stores.shape.landing (within_unbounded low) stores.shape.height_lt
  have rest := landing.entries (stores.shape.leafNodes stores.shape.height_lt).entries
  obtain ⟨listed,leads,found,pairs,_,lower,higher,_⟩ := landing
  rw [stores.root] at listed leads found
  have present : (∃ e ∈ leaf.pairs, low ≤ e.1) ↔ above ≠ [] := by
    rw [pairs]
    constructor
    · rintro ⟨e,mem,reached⟩ rfl
      rw [List.append_nil] at mem
      exact absurd reached (lower e mem).not_ge
    · intro nonempty
      obtain ⟨e,more,rfl⟩ := List.exists_cons_of_ne_nil nonempty
      exact ⟨e,by simp,higher e (by simp)⟩
  refine ⟨leaf,leads,?_⟩
  by_cases empty : above = []
  · rw [if_neg (fun some_ => present.mp some_ empty)]
    rw [if_pos empty] at found
    have starts : s.2.findRange (some low) highKey = some ⟨none,0,some low,highKey⟩ := by
      simp only [Tree.findRange,found,some_bind]
      rfl
    rw [stores.range large linked starts rfl (.ended rfl) (List.nil_sublist _)]
    rfl
  · rw [if_pos (present.mpr empty)]
    rw [if_neg empty] at found
    have starts : s.2.findRange (some low) highKey = some ⟨some leaf.id,below.length,some low,highKey⟩ := by
      simp only [Tree.findRange,found,some_bind]
      rfl
    have here : At s.2.leafNodes ⟨some leaf.id,below.length,some low,highKey⟩ (v.entries.filter (fun e => low ≤ e.1)) := by
      rw [rest]
      exact .leaf listed rfl pairs rfl
    rw [stores.range large linked starts rfl here List.filter_sublist,List.filter_filter]
    simp only [InRange,mem_some_iff,forall_eq',Bool.decide_and,Bool.and_comm]

end

/-- After any run the links lead through the leaves of the tree in order, and an iterator without bounds
yields what is stored. -/
theorem leaves_chained (heap : Heap) {d : Nat} (odd : d%2 = 1) (large : 3 ≤ d) (ops : List (Op K V)) :
    ∃ s es least, Runs.run next (newBTree heap d) ops = some s ∧ Sorted es ∧
      (∀ k x, (k,x) ∈ es ↔ contents ops k = some x) ∧
      s.2.leafNodes.flatMap LeafNode.pairs = es ∧ s.2.root.findMinLeaf s.2.root.height = some least ∧
      (∀ n, s.2.leafNodes.length ≤ n → follow s.1.next n (some least.id) = s.2.leafNodes.map LeafNode.id) ∧
      (s.2.leafNodes.map LeafNode.id).Nodup ∧
      (∀ pre a post, s.2.leafNodes.map LeafNode.id = pre++a::post →
        s.1.prev a = pre.getLast? ∧ s.1.next a = post.head?) ∧
      range s none none = some es := by
  obtain ⟨s,h,v,ran,stores,linked⟩ := run_linked heap odd large ops
  obtain ⟨least,rest,found,listed⟩ := stores.shape.findMinLeaf stores.shape.height_lt
  rw [stores.root] at found listed
  have leaves := stores.leaves
  have chain : Chain s.1.prev s.1.next none (s.2.leafNodes.map LeafNode.id) none := leaves.ids ▸ linked.chain
  refine ⟨s,v.entries,least,ran,stores.shape.ordered.1,stores.holds,leaves.entries,found,?_,?_,?_,?_⟩
  · intro n enough
    have first : (s.2.leafNodes.map LeafNode.id).head? = some least.id := by
      rw [show s.2.leafNodes = least::rest from listed]
      rfl
    rw [← first]
    exact chain.follow (by simpa using enough)
  · rw [leaves.ids]
    exact linked.nodup
  · intro pre a post cut
    rw [cut] at chain
    exact chain.neighbours
  · rw [stores.range_none large linked none]
    simp [InRange]

/-- Three leaves after a split and a merge. -/
theorem leaves_chained_three : ∃ s es, Runs.run next (newBTree ⟨0,fun _ => none,fun _ => none⟩ 3)
      ([.insert 5 50,.insert 3 30,.insert 1 10,.insert 4 40,.insert 2 20,.delete 3] : List (Op Nat Nat)) = some s ∧
    range s none none = some es ∧ es = [(1,10),(2,20),(4,40),(5,50)] := by
  obtain ⟨s,es,_,ran,_,_,_,_,_,_,_,all⟩ := leaves_chained ⟨0,fun _ => none,fun _ => none⟩ (d := 3) rfl le_rfl
    ([.insert 5 50,.insert 3 30,.insert 1 10,.insert 4 40,.insert 2 20,.delete 3] : List (Op Nat Nat))
  refine ⟨s,es,ran,all,?_⟩
  have computed : (Runs.run next (newBTree ⟨0,fun _ => none,fun _ => none⟩ 3)
      ([.insert 5 50,.insert 3 30,.insert 1 10,.insert 4 40,.insert 2 20,.delete 3] : List (Op Nat Nat))).bind
        (fun s => range s none none) = some [(1,10),(2,20),(4,40),(5,50)] := by decide +kernel
  rw [ran,bind_some,all] at computed
  exact some.inj computed

/-- An iterator over a range yields what is stored in it exactly if there is nothing to yield or the leaf that
the lower bound leads to has a key that is not below it. -/
theorem findRange_iff (heap : Heap) {d : Nat} (odd : d%2 = 1) (large : 3 ≤ d) (ops : List (Op K V)) :
    ∃ s es, Runs.run next (newBTree heap d) ops = some s ∧ Sorted es ∧ (∀ k x, (k,x) ∈ es ↔ contents ops k = some x) ∧
      ∀ lowKey highKey, range s lowKey highKey = some (es.filter (fun e => InRange lowKey highKey e.1)) ↔
        ((∃ e ∈ es, InRange lowKey highKey e.1) → ∀ low ∈ lowKey, ∃ leaf,
          s.2.root.leafFor s.2.root.height low = some leaf ∧ ∃ e ∈ leaf.pairs, low ≤ e.1) := by
  obtain ⟨s,h,v,ran,stores,linked⟩ := run_linked heap odd large ops
  refine ⟨s,v.entries,ran,stores.shape.ordered.1,stores.holds,?_⟩
  intro lowKey highKey
  cases lowKey with
  | none => simpa using stores.range_none large linked highKey
  | some low =>
    obtain ⟨leaf,leads,yielded⟩ := stores.range_some large linked low highKey
    rw [yielded,some.injEq]
    by_cases present : ∃ e ∈ leaf.pairs, low ≤ e.1
    · rw [if_pos present]
      simpa [leads] using fun _ _ _ _ => present
    · rw [if_neg present,eq_comm,filter_eq_nil_iff]
      constructor
      · rintro nothing ⟨e,mem,inside⟩
        exact absurd (decide_eq_true inside) (nothing e mem)
      · intro covered e mem inside
        obtain ⟨leaf',leads',found⟩ := covered ⟨e,mem,of_decide_eq_true inside⟩ low rfl
        rw [leads,some.injEq] at leads'
        exact present (leads' ▸ found)

/-- Degree 3 and two leaves, with the keys 1 and 3, 5. -/
def twoLeaves : List (Op Nat Nat) := [.insert 1 10,.insert 3 30,.insert 5 50]

theorem findRange_iff_two : ∃ s, Runs.run next (newBTree ⟨0,fun _ => none,fun _ => none⟩ 3) twoLeaves = some s ∧
    range s (some 1) (some 5) = some [(1,10),(3,30)] := by
  obtain ⟨s,es,ran,_,_,yields⟩ := findRange_iff ⟨0,fun _ => none,fun _ => none⟩ (d := 3) rfl le_rfl twoLeaves
  have stored : (Runs.run next (newBTree ⟨0,fun _ => none,fun _ => none⟩ 3) twoLeaves).bind (fun s =>
      range s none none) = some [(1,10),(3,30),(5,50)] := by decide +kernel
  have leads : (Runs.run next (newBTree ⟨0,fun _ => none,fun _ => none⟩ 3) twoLeaves).bind (fun s =>
      (s.2.root.leafFor s.2.root.height 1).map LeafNode.pairs) = some [(1,10)] := by decide +kernel
  rw [ran,bind_some] at stored leads
  obtain ⟨leaf,found,pairs⟩ := map_eq_some_iff.mp leads
  have all := (yields none none).mpr (by simp)
  have part := (yields (some 1) (some 5)).mpr (by simp [found,pairs])
  rw [stored,some.injEq] at all
  have same : es = [(1,10),(3,30),(5,50)] := by simpa [InRange] using all.symm
  subst same
  exact ⟨s,ran,part.trans (by decide +kernel)⟩

/-- The bound 2 leads to the leaf with the key 1, and the keys 3 and 5 are not seen. -/
theorem findRange_misses : ∃ s, Runs.run next (newBTree ⟨0,fun _ => none,fun _ => none⟩ 3) twoLeaves = some s ∧
    contents twoLeaves 3 = some 30 ∧ InRange (some 2) none 3 ∧ range s (some 2) none = some [] := by
  have computed : (Runs.run next (newBTree ⟨0,fun _ => none,fun _ => none⟩ 3) twoLeaves).bind (fun s =>
      range s (some 2) none) = some [] := by decide +kernel
  obtain ⟨s,ran,missed⟩ := bind_eq_some_iff.mp computed
  exact ⟨s,ran,by decide +kernel,by decide,missed⟩

end CodeExercise.BTree
