import CodeExercise.Huffman

/-!
The tree of `huffman.cpp`: every node is on the heap or a child of a later node, so the
bits from a leaf up to the root lead from the root down to the leaf. The root is the
last node.
-/
namespace CodeExercise.Huffman
open Files SortedMaps List Option

/-- The node over `min1` and `min2`. -/
def joined (nodes : List Node) (min1 min2 : Nat) : Node :=
  ⟨compound,((nodes[min1]?).map Node.count).getD 0+((nodes[min2]?).map Node.count).getD 0,nodes.length,min1,min2⟩

section
variable {nodes : List Node} {min1 min2 : Nat}

lemma length_join (nodes : List Node) (min1 min2 : Nat) : (join nodes min1 min2).length = nodes.length+1 := by
  simp [join,setParent]

lemma join_new (low1 : min1 < nodes.length) (low2 : min2 < nodes.length) :
    (join nodes min1 min2)[nodes.length]? = some (joined nodes min1 min2) := by
  simp [join,setParent,joined,Nat.ne_of_lt low1,Nat.ne_of_lt low2]

lemma join_old (min1 min2 : Nat) (old : nodes[i]? = some np) :
    (join nodes min1 min2)[i]? = some (if i = min1 ∨ i = min2 then { np with parent := nodes.length } else np) := by
  have inside : i < nodes.length := (List.getElem?_eq_some_iff.mp old).1
  simp only [join,setParent,getElem?_modify,getElem?_append_left inside,old,Option.map_eq_map,map_some]
  by_cases first : min1 = i
  · by_cases second : min2 = i
    · simp [first,second]
    · simp [first,second]
  · by_cases second : min2 = i
    · simp [first,second]
    · simp [first,second,Ne.symm first,Ne.symm second]

end

/-- Nodes on the heap are their own parents, the others are children of later nodes. -/
structure Linked (nodes : List Node) (heap : List Nat) : Prop where
  nodup : heap.Nodup
  root : ∀ i ∈ heap, ∃ np, nodes[i]? = some np ∧ np.parent = (i : Int)
  child : ∀ (i : Nat) (np : Node), nodes[i]? = some np → i ∉ heap → ∃ (p : Nat) (pp : Node), np.parent = p ∧ i < p ∧
    nodes[p]? = some pp ∧ pp.letter = compound ∧ ((i : Int) ≠ pp.left → pp.right = i)
  last : ∀ n, nodes.length = n+1 → n ∈ heap

section
variable (linked : Linked nodes heap)
include linked

lemma Linked.perm (perm : heap'.Perm heap) :
    Linked nodes heap' :=
  ⟨perm.nodup_iff.mpr linked.nodup,fun i mem => linked.root i (perm.mem_iff.mp mem),
    fun i np here absent => linked.child i np here (fun mem => absent (perm.mem_iff.mpr mem)),
    fun n length => perm.mem_iff.mpr (linked.last n length)⟩

lemma Linked.lt (mem : i ∈ heap) :
    i < nodes.length := by
  obtain ⟨np,here,_⟩ := linked.root i mem
  exact (List.getElem?_eq_some_iff.mp here).1

lemma Linked.self
    (mem : i ∈ heap) (here : nodes[i]? = some np) : np.parent = i := by
  obtain ⟨np',here',self⟩ := linked.root i mem
  rw [here] at here'
  rw [some.inj here',self]

end

variable {min1 min2 : Nat}

lemma Linked.join
    (linked : Linked nodes (min1::min2::heap)) : Linked (join nodes min1 min2) (nodes.length::heap) := by
  have low1 := linked.lt (i := min1) (by simp)
  have low2 := linked.lt (i := min2) (by simp)
  obtain ⟨apart1,apart2,nodup⟩ : min1 ∉ min2 :: heap ∧ min2 ∉ heap ∧ heap.Nodup := by
    have := linked.nodup
    simp only [nodup_cons] at this
    exact ⟨this.1,this.2.1,this.2.2⟩
  have new := join_new low1 low2
  refine ⟨?_,?_,?_,?_⟩
  · refine nodup_cons.mpr ⟨fun mem => ?_,nodup⟩
    exact absurd (linked.lt (by simp [mem])) (Nat.lt_irrefl _)
  · intro i mem
    rcases mem_cons.mp mem with rfl | mem
    · exact ⟨_,new,rfl⟩
    · obtain ⟨np,here,self⟩ := linked.root i (by simp [mem])
      have other : ¬ (i = min1 ∨ i = min2) := by
        rintro (rfl | rfl)
        · exact apart1 (mem_cons_of_mem _ mem)
        · exact apart2 mem
      exact ⟨np,by rw [join_old min1 min2 here,if_neg other],self⟩
  · intro i np here absent
    have inside : i < nodes.length := by
      have := (List.getElem?_eq_some_iff.mp here).1
      rw [length_join] at this
      have : i ≠ nodes.length := fun same => absent (by simp [same])
      omega
    obtain ⟨old,here'⟩ : ∃ old, nodes[i]? = some old := ⟨_,getElem?_eq_getElem inside⟩
    have now := join_old min1 min2 here'
    rw [here] at now
    by_cases taken : i = min1 ∨ i = min2
    · rw [if_pos taken] at now
      refine ⟨nodes.length,joined nodes min1 min2,?_,inside,new,rfl,?_⟩
      · rw [some.inj now]
      · intro notLeft
        rcases taken with rfl | rfl
        · exact absurd rfl notLeft
        · rfl
    · rw [if_neg taken] at now
      obtain ⟨p,pp,parent,later,there,inner,side⟩ := linked.child i old here' (by
        intro mem
        simp only [mem_cons,not_or] at mem absent taken
        tauto)
      cases now
      refine ⟨p,_,parent,later,join_old _ _ there,?_,?_⟩
      · split <;> exact inner
      · split <;> exact side
  · intro n length
    rw [length_join] at length
    obtain rfl : nodes.length = n := by omega
    exact mem_cons_self

/-- The nodes over a list of letters. -/
structure Tree (letters : List (Int × Int)) (nodes : List Node) (heap : List Nat) : Prop where
  linked : Linked nodes heap
  leaf : ∀ (i : Nat) (e : Int × Int), letters[i]? = some e → ∃ np : Node, nodes[i]? = some np ∧ np.letter = e.1
  letter : ∀ np ∈ nodes, np.letter = compound ∨ ∃ e ∈ letters, np.letter = e.1
  sides : ∀ np ∈ nodes, (-1 ≤ np.left ∧ np.left < nodes.length) ∧ -1 ≤ np.right ∧ np.right < nodes.length
  count : nodes.length+heap.length = 2*letters.length

lemma mem_join (low1 : min1 < nodes.length) (low2 : min2 < nodes.length)
    (mem : np ∈ join nodes min1 min2) : np = joined nodes min1 min2 ∨
      ∃ old ∈ nodes, np.letter = old.letter ∧ np.left = old.left ∧ np.right = old.right := by
  obtain ⟨i,here⟩ := mem_iff_getElem?.mp mem
  have inside := (List.getElem?_eq_some_iff.mp here).1
  rw [length_join] at inside
  by_cases new : i = nodes.length
  · subst new
    rw [join_new low1 low2] at here
    exact .inl (some.inj here).symm
  · have old := getElem?_eq_getElem (show i < nodes.length by omega)
    rw [join_old _ _ old] at here
    refine .inr ⟨nodes[i],getElem_mem _,?_⟩
    rw [← some.inj here]
    split <;> exact ⟨rfl,rfl,rfl⟩

lemma Tree.join
    (tree : Tree letters nodes (min1::min2::heap)) : Tree letters (join nodes min1 min2) (nodes.length::heap) := by
  have low1 := tree.linked.lt (i := min1) (by simp)
  have low2 := tree.linked.lt (i := min2) (by simp)
  refine ⟨tree.linked.join,?_,?_,?_,?_⟩
  · intro i e here
    obtain ⟨np,there,same⟩ := tree.leaf i e here
    refine ⟨_,join_old _ _ there,?_⟩
    split <;> exact same
  · intro np mem
    rcases mem_join low1 low2 mem with rfl | ⟨old,inside,letter,_,_⟩
    · exact .inl rfl
    · rw [letter]
      exact tree.letter old inside
  · intro np mem
    rw [length_join]
    rcases mem_join low1 low2 mem with rfl | ⟨old,inside,_,left,right⟩
    · simp only [joined]
      omega
    · have := tree.sides old inside
      rw [left,right]
      omega
  · have := tree.count
    rw [length_join]
    simp only [length_cons] at this ⊢
    omega

lemma Tree.perm (tree : Tree letters nodes heap)
    (perm : heap'.Perm heap) : Tree letters nodes heap' :=
  ⟨tree.linked.perm perm,tree.leaf,tree.letter,tree.sides,by rw [perm.length_eq]; exact tree.count⟩

lemma perm_getLastD (filled : xs ≠ []) : (xs.getLastD 0 :: xs.dropLast).Perm xs := by
  have split := dropLast_append_getLast filled
  have last : xs.getLastD 0 = xs.getLast filled := by
    rw [getLastD_eq_getLast?,getLast?_eq_some_getLast filled,getD_some]
  rw [last]
  exact (perm_append_singleton _ _).symm.trans (List.Perm.of_eq split)

/-- One round of the loop of `BuildTree`. -/
def round (heap : Heap) (nodes : List Node) (minHeap : List Nat) : List Node × List Nat :=
  let first := heap.popHeap (heapCmp nodes) minHeap
  let second := heap.popHeap (heapCmp nodes) first.dropLast
  let nodes' := join nodes (first.getLastD 0) (second.getLastD 0)
  (nodes',heap.pushHeap (heapCmp nodes') (second.dropLast++[nodes.length]))

lemma round_perm (heap : Heap) (nodes : List Node) (more : 1 < minHeap.length) :
    ∃ first second, first = heap.popHeap (heapCmp nodes) minHeap ∧ second = heap.popHeap (heapCmp nodes) first.dropLast ∧
      (first.getLastD 0 :: first.dropLast).Perm minHeap ∧ (second.getLastD 0 :: second.dropLast).Perm first.dropLast := by
  have perm1 := heap.pop_perm (heapCmp nodes) minHeap
  have perm2 := heap.pop_perm (heapCmp nodes) (heap.popHeap (heapCmp nodes) minHeap).dropLast
  have length1 := perm1.length_eq
  have length2 := perm2.length_eq
  rw [length_dropLast] at length2
  exact ⟨_,_,rfl,rfl,(perm_getLastD (ne_nil_of_length_pos (by omega))).trans perm1,
    (perm_getLastD (ne_nil_of_length_pos (by omega))).trans perm2⟩

lemma exists_round (heap : Heap) (nodes : List Node) (more : 1 < minHeap.length) :
    ∃ min1 min2 rest, (min1::min2::rest).Perm minHeap ∧ (round heap nodes minHeap).1 = join nodes min1 min2 ∧
      (round heap nodes minHeap).2.Perm (nodes.length::rest) := by
  obtain ⟨first,second,rfl,rfl,perm1,perm2⟩ := round_perm heap nodes more
  exact ⟨_,_,_,(perm2.cons _).trans perm1,rfl,(heap.push_perm _ _).trans (perm_append_singleton _ _)⟩

/-- What every round keeps holds at the end, when one node is left on the heap. -/
lemma buildTree_invariant (heap : Heap) {P : List Node → List Nat → Prop}
    (some : letters.entries ≠ [])
    (start : P (leaves letters) (heap.makeHeap (heapCmp (leaves letters)) (List.range (leaves letters).length)))
    (step : ∀ nodes minHeap, 1 < minHeap.length → P nodes minHeap → P (round heap nodes minHeap).1 (round heap nodes minHeap).2) :
    ∃ nodes root, buildTree heap letters = (nodes,[root]) ∧ P nodes [root] := by
  have loop : ∀ rounds nodes minHeap, P nodes minHeap → 0 < minHeap.length → minHeap.length ≤ rounds+1 →
      ∃ nodes' root, joinAll heap rounds nodes minHeap = (nodes',[root]) ∧ P nodes' [root] := by
    intro rounds
    induction rounds with
    | zero =>
      intro nodes minHeap holds positive enough
      obtain ⟨root,rfl⟩ := length_eq_one_iff.mp (show minHeap.length = 1 by omega)
      exact ⟨nodes,root,rfl,holds⟩
    | succ rounds ih =>
      intro nodes minHeap holds positive enough
      rw [joinAll]
      split
      · next more =>
        obtain ⟨min1,min2,rest,perm,_,left⟩ := exists_round heap nodes more
        have length := perm.length_eq
        have length' := left.length_eq
        simp only [length_cons] at length length'
        exact ih (round heap nodes minHeap).1 (round heap nodes minHeap).2 (step nodes minHeap more holds) (by omega) (by omega)
      · obtain ⟨root,rfl⟩ := length_eq_one_iff.mp (show minHeap.length = 1 by omega)
        exact ⟨nodes,root,rfl,holds⟩
  have length := (heap.make_perm (heapCmp (leaves letters)) (List.range (leaves letters).length)).length_eq
  have positive : 0 < (leaves letters).length := by simpa [leaves] using length_pos_iff.mpr some
  exact loop _ _ _ start (by rw [length]; simpa using positive) (Nat.le_succ _)

lemma getElem?_leaves (letters : SortedMap Int Int) (i : Nat) :
    (leaves letters)[i]? = (letters.entries[i]?).map (fun e => ⟨e.1,e.2,i,-1,-1⟩) := by
  simp [leaves,getElem?_zipIdx]
  rfl

lemma tree_leaves (letters : SortedMap Int Int) :
    Tree letters.entries (leaves letters) (List.range (leaves letters).length) := by
  have length : (leaves letters).length = letters.entries.length := by simp [leaves]
  have leaf : ∀ np ∈ leaves letters, ∃ e ∈ letters.entries, ∃ i : Nat, np = ⟨e.1,e.2,i,-1,-1⟩ := by
    intro np mem
    obtain ⟨i,here⟩ := mem_iff_getElem?.mp mem
    rw [getElem?_leaves] at here
    obtain ⟨e,there,rfl⟩ := map_eq_some_iff.mp here
    exact ⟨e,mem_of_getElem? there,i,rfl⟩
  refine ⟨⟨nodup_range,?_,?_,?_⟩,?_,?_,?_,?_⟩
  · intro i mem
    have inside : i < letters.entries.length := by simpa [length] using mem
    refine ⟨_,by rw [getElem?_leaves,getElem?_eq_getElem inside]; rfl,rfl⟩
  · intro i np here absent
    exact absurd (mem_range.mpr (List.getElem?_eq_some_iff.mp here).1) absent
  · intro n same
    exact mem_range.mpr (by omega)
  · intro i e here
    exact ⟨_,by rw [getElem?_leaves,here]; rfl,rfl⟩
  · intro np mem
    obtain ⟨e,inside,i,rfl⟩ := leaf np mem
    exact .inr ⟨e,inside,rfl⟩
  · intro np mem
    obtain ⟨e,inside,i,rfl⟩ := leaf np mem
    simp only
    omega
  · rw [length_range,length]
    omega

lemma tree_buildTree (heap : Heap) {letters : SortedMap Int Int} (filled : letters.entries ≠ []) :
    ∃ nodes root, buildTree heap letters = (nodes,[root]) ∧ Tree letters.entries nodes [root] := by
  apply buildTree_invariant heap filled
  · exact (tree_leaves letters).perm (heap.make_perm _ _)
  · intro nodes minHeap more tree
    obtain ⟨min1,min2,rest,perm,joined,left⟩ := exists_round heap nodes more
    rw [joined]
    exact (tree.perm perm).join.perm left

/-- The decoder has the same letters and children. -/
structure Same (nodes nodes' : List Node) : Prop where
  length : nodes'.length = nodes.length
  node : ∀ (i : Nat) (np : Node), nodes[i]? = some np → ∃ np' : Node, nodes'[i]? = some np' ∧ np'.letter = np.letter ∧
    np'.left = np.left ∧ np'.right = np.right

lemma nodeAt_natCast (nodes : List Node) (i : Nat) : nodeAt nodes i = nodes[i]? := by
  have : ¬ (i : Int) < 0 := by omega
  simp [nodeAt,this]

section
variable {nodes : List Node} {root : Nat}

lemma Linked.root_eq (linked : Linked nodes [root]) : nodes.length = root+1 := by
  obtain ⟨np,here,_⟩ := linked.root root (by simp)
  have inside := (List.getElem?_eq_some_iff.mp here).1
  have last := linked.last (nodes.length-1) (by omega)
  simp only [mem_singleton] at last
  omega

lemma climb_root (linked : Linked nodes [root]) (fuel : Nat) : climb nodes fuel root = some [] := by
  obtain ⟨np,here,self⟩ := linked.root root (by simp)
  rw [climb,nodeAt_natCast,here]
  simp [self]

variable {i p fuel : Nat} {pp : Node}

lemma climb_child (here : nodes[i]? = some np) (parent : np.parent = p)
    (later : i < p) (there : nodes[p]? = some pp) (climbed : climb nodes fuel p = some bits) :
    climb nodes (fuel+1) i = some (decide ((i : Int) ≠ pp.left) :: bits) := by
  have other : ¬ np.parent = (i : Int) := by
    rw [parent]
    omega
  rw [climb,nodeAt_natCast,here,bind_some,if_neg other]
  simp only [parent,nodeAt_natCast,there,bind_some,climbed,map_some]

lemma descend_inner (there : nodes[p]? = some pp)
    (inner : pp.letter = compound) (got : s.get = some (b,s')) :
    descend nodes (fuel+1) p s = descend nodes fuel (if b then pp.right else pp.left) s' := by
  rw [descend,nodeAt_natCast,there,bind_some,if_pos inner]
  simp only [got,bind_some]

lemma descend_leaf (here : nodes[i]? = some np) (leaf : np.letter ≠ compound) :
    descend nodes fuel i s = some (np.letter,s) := by
  rw [descend,nodeAt_natCast,here,bind_some,if_neg leaf]

/-- The bits lead from the root down to a node. -/
def Leads (nodes : List Node) (root : Nat) (bits : List Bool) (i : Nat) : Prop :=
  ∀ {s held rest} (more : List Bool) (steps : Nat), BitStream.Left s held rest → held++rest = bits++more →
    ∃ s' held' rest', BitStream.Left s' held' rest' ∧ held'++rest' = more ∧
      descend nodes (steps+bits.length) root s = descend nodes steps i s'

lemma leads_nil (nodes : List Node) (root : Nat) : Leads nodes root [] root :=
  fun _ _ left all => ⟨_,_,_,left,all,rfl⟩

lemma Leads.concat {b : Bool} (leads : Leads nodes root bits p)
    (there : nodes[p]? = some pp) (inner : pp.letter = compound) (child : (if b then pp.right else pp.left) = i) :
    Leads nodes root (bits++[b]) i := by
  intro s held rest more steps left all
  rw [append_assoc] at all
  obtain ⟨s₁,held₁,rest₁,left₁,all₁,walked⟩ := leads ([b]++more) (steps+1) left all
  obtain ⟨s₂,held₂,rest₂,got,left₂,all₂⟩ := left₁.get all₁
  refine ⟨s₂,held₂,rest₂,left₂,all₂,?_⟩
  rw [length_append,length_singleton,show steps+(bits.length+1) = steps+1+bits.length by omega,walked,
    descend_inner there inner got,child]

/-- What holds at the root and on the way to a child holds at the end of every code. -/
lemma climb_invariant (linked : Linked nodes [root]) {P : List Bool → Nat → Prop} (top : P [] root)
    (step : ∀ {bits b p pp} {i : Nat}, P bits p → nodes[p]? = some pp → pp.letter = compound →
      (if b then pp.right else pp.left) = (i : Int) → P (bits++[b]) i)
    (fuel : Nat) (inside : i < nodes.length) (enough : root ≤ i+fuel) :
    ∃ bits, climb nodes fuel i = some bits ∧ (i ≠ root → bits ≠ []) ∧ P bits.reverse i := by
  have total := linked.root_eq
  induction fuel generalizing i with
  | zero =>
    obtain rfl : i = root := by omega
    exact ⟨[],climb_root linked 0,fun other => absurd rfl other,top⟩
  | succ fuel ih =>
    by_cases topmost : i = root
    · subst topmost
      exact ⟨[],climb_root linked _,fun other => absurd rfl other,top⟩
    · -- the parent comes later, and its code is continued by the side of the child
      obtain ⟨np,here⟩ : ∃ np, nodes[i]? = some np := ⟨_,getElem?_eq_getElem inside⟩
      obtain ⟨p,pp,parent,later,there,inner,side⟩ := linked.child i np here (by simpa using topmost)
      obtain ⟨bits,climbed,_,holds⟩ := ih (List.getElem?_eq_some_iff.mp there).1 (by omega)
      refine ⟨_,climb_child here parent later there climbed,by simp,?_⟩
      rw [reverse_cons]
      refine step holds there inner ?_
      by_cases leftSide : (i : Int) = pp.left
      · simp [leftSide]
      · simp [leftSide,side leftSide]

lemma leads_climb (linked : Linked nodes [root]) (same : Same nodes nodes') (fuel : Nat) (inside : i < nodes.length)
    (enough : root ≤ i+fuel) :
    ∃ bits, climb nodes fuel i = some bits ∧ (i ≠ root → bits ≠ []) ∧ Leads nodes' root bits.reverse i := by
  refine climb_invariant linked (P := Leads nodes' root) (@leads_nil nodes' root) ?_ fuel inside enough
  intro bits b p pp i leads there inner child
  obtain ⟨pp',there',letter,left,right⟩ := same.node p pp there
  exact leads.concat there' (letter.trans inner) (by rw [left,right]; exact child)

end
end CodeExercise.Huffman
