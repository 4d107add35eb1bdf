import CodeExercise.BTreeNodes

/-!
Insertion keeps the shape of a subtree: it sets the entry and leaves one node, or
two with a separator between them (`Grown`, `Subtree.insertKV`). `LinkStep` lists
what insertion and deletion do to the chain of leaves.
-/
set_option linter.unusedSectionVars false

namespace CodeExercise.BTree
open Slices SortedMaps Fences List

variable {K V : Type} [LinearOrder K] [Inhabited K] [Inhabited V]

/-- What one change does to the heap and to the leaves of a tree in order. -/
inductive LinkStep : Heap × List Nat → Heap × List Nat → Prop
  | alloc (heap : Heap) (ids : List Nat) : LinkStep (heap,ids) ({ heap with id := heap.id+1 },ids)
  | split (heap : Heap) (pre : List Nat) (id : Nat) (post : List Nat) :
      LinkStep (heap,pre++id::post)
        (heap.newLeaf.linkAfter id (heap.id+1),pre++id::(heap.id+1)::post)
  | merge (heap : Heap) (pre : List Nat) (left right : Nat) (post : List Nat) :
      LinkStep (heap,pre++left::right::post) (heap.unlink left right,pre++left::post)

def Relinked : Heap × List Nat → Heap × List Nat → Prop := Relation.ReflTransGen LinkStep
lemma Relinked.refl (s : Heap × List Nat) : Relinked s s := Relation.ReflTransGen.refl

lemma Relinked.trans (first : Relinked s t) (second : Relinked t u) : Relinked s u :=
  Relation.ReflTransGen.trans first second

lemma Relinked.inside (relinked : Relinked (heap,ids) (heap',ids'))
    (pre post : List Nat) : Relinked (heap,pre++(ids++post)) (heap',pre++(ids'++post)) := by
  refine Relation.ReflTransGen.lift (fun s : Heap × List Nat => (s.1,pre++(s.2++post))) ?_ _ _ relinked
  intro s t step
  simp only [Function.onFun]
  cases step with
  | alloc heap ids => exact .alloc heap _
  | split heap left id right => simpa using LinkStep.split heap (pre++left) id (right++post)
  | merge heap left a b right => simpa using LinkStep.merge heap (pre++left) a b (right++post)

section
variable {d h : Nat} {lo hi : Option K} {v : View K V}

/-- The nodes an insertion leaves: one, or two with the promoted key between them. -/
structure Grown (d h : Nat) (lo hi : Option K) (v : View K V) (es : List (K × V)) (v' : View K V)
    (more : Option (K × View K V)) : Prop where
  fenced : Fenced (Subtree d h) lo hi (more.toList.map Prod.fst) (v'::more.toList.map Prod.snd)
  kept : more = none → v.nkeys ≤ v'.nkeys
  halves : ∀ g ∈ more, d/2 ≤ v'.nkeys ∧ d/2 ≤ g.2.nkeys
  entries : (v'::more.toList.map Prod.snd).flatMap View.entries = es

lemma Grown.fill
    (grown : Grown d h lo hi v es v' more) (enough : d/2 ≤ v.nkeys) :
    ∀ c ∈ v'::more.toList.map Prod.snd, d/2 ≤ c.nkeys := by
  intro c mem
  cases more with
  | none =>
    obtain rfl : c = v' := by simpa using mem
    exact enough.trans (grown.kept rfl)
  | some g =>
    obtain ⟨left,right⟩ := grown.halves g rfl
    rcases mem_cons.mp mem with rfl | mem
    · exact left
    · obtain rfl : c = g.2 := by simpa using mem
      exact right

lemma leaf_grown (large : 3 ≤ d) (heap : Heap) (holds : node.Holds d es)
    (sorted : Sorted es) (within : ∀ e ∈ es, Within lo hi e.1) (size : es.length ≤ d) (more : v.nkeys ≤ es.length) :
    ∃ heap' v' r,
      (if es.length = d then node.split heap else some (heap,node,none)).bind (fun s =>
          some (s.1,Node.leaf s.2.1,s.2.2.map (fun g => (g.1,Node.leaf g.2)))) =
        some (heap',v'.node,r.map (fun g => (g.1,g.2.node))) ∧
      Grown d 0 lo hi v es v' r ∧
      Relinked (heap,[node.id]) (heap',(v'::r.toList.map Prod.snd).flatMap View.leaves) := by
  by_cases full : es.length = d
  · obtain ⟨pre,e,post,rfl,half⟩ := exists_cut es (n := d/2) (by omega)
    obtain ⟨left,right,done,lower,upper,id,id'⟩ := holds.split heap half full
    rw [length_append] at full
    have pair := leaf_pair sorted within lower upper (by omega) (by omega)
    refine ⟨heap.newLeaf.linkAfter node.id right.id,leafView left pre,some (e.1,leafView right (e::post)),?_,⟨pair,by simp,?_,?_⟩,?_⟩
    · rw [if_pos (by simpa using full),done]
      rfl
    · intro g same
      obtain rfl : (e.1,leafView right (e::post)) = g := by simpa using same
      rw [nkeys_leaf lower,nkeys_leaf upper]
      omega
    · simp [leafView]
    · refine .single ?_
      have step := LinkStep.split heap [] node.id []
      simpa [leafView,id,id'] using step
  · refine ⟨heap,leafView node es,none,?_,⟨⟨node,es,rfl,holds,sorted,within,by omega⟩,?_,by simp,?_⟩,.refl _⟩
    · rw [if_neg full]
      rfl
    · intro _
      rwa [nkeys_leaf holds]
    · simp [leafView]

/-- An internal node that holds its new children, or the two halves it is split into. For an odd
degree both halves have `d/2` keys. -/
lemma internal_grown (odd : d%2 = 1)
    (large : 3 ≤ d) (heap : Heap) (holds : node.Holds d ks (cs.map View.node)) (fenced : Fenced (Subtree d h) lo hi ks cs)
    (fill : ∀ c ∈ cs, d/2 ≤ c.nkeys) (size : ks.length ≤ d) (more : v.nkeys ≤ ks.length) :
    ∃ heap' v' r,
      (if ks.length = d then node.split heap else some (heap,node,none)).bind (fun s =>
          some (s.1,Node.internal s.2.1,s.2.2.map (fun g => (g.1,Node.internal g.2)))) =
        some (heap',v'.node,r.map (fun g => (g.1,g.2.node))) ∧
      Grown d (h+1) lo hi v (cs.flatMap View.entries) v' r ∧
      Relinked (heap,cs.flatMap View.leaves) (heap',(v'::r.toList.map Prod.snd).flatMap View.leaves) := by
  by_cases full : ks.length = d
  · obtain ⟨pre,k,post,rfl,half⟩ := exists_cut ks (n := d/2) (by omega)
    have total := fenced.length
    obtain ⟨left,right,rfl,len⟩ : ∃ left right, cs = left++right ∧ left.length = pre.length+1 := by
      refine ⟨cs.take (pre.length+1),cs.drop (pre.length+1),(take_append_drop _ _).symm,?_⟩
      rw [length_take]
      simp only [length_append,length_cons] at total
      omega
    simp only [length_append,length_cons] at total full
    rw [map_append] at holds
    obtain ⟨l,r,done,lower,upper⟩ := holds.split heap half (by simpa using full) (by simpa using len)
      (by rw [length_map]; omega)
    have pair := internal_pair fenced len fill lower upper (by omega) (by omega)
    refine ⟨{ heap with id := heap.id+1 },internalView l left,some (k,internalView r right),?_,⟨pair,by simp,?_,?_⟩,?_⟩
    · rw [if_pos (by simpa using full),done]
      rfl
    · intro g same
      obtain rfl : (k,internalView r right) = g := by simpa using same
      rw [nkeys_internal lower,nkeys_internal upper]
      omega
    · simp [internalView]
    · refine .single ?_
      simpa [internalView] using LinkStep.alloc heap ((left++right).flatMap View.leaves)
  · refine ⟨heap,internalView node cs,none,?_,⟨⟨node,ks,cs,rfl,holds,fenced,fill,by omega⟩,?_,by simp,?_⟩,?_⟩
    · rw [if_neg full]
      rfl
    · intro _
      rwa [nkeys_internal holds]
    · simp [internalView]
    · simpa [internalView] using Relinked.refl (heap,cs.flatMap View.leaves)

lemma Subtree.insertKV (odd : d%2 = 1) (large : 3 ≤ d) (tree : Subtree d h lo hi v) (val : V)
    (inside : Within lo hi key) (heap : Heap) (enough : h < fuel) :
    ∃ heap' v' more, v.node.insertKV fuel heap key val = some (heap',v'.node,more.map (fun g => (g.1,g.2.node))) ∧
      Grown d h lo hi v (setEntry key val v.entries) v' more ∧
      Relinked (heap,v.leaves) (heap',(v'::more.toList.map Prod.snd).flatMap View.leaves) := by
  induction h generalizing lo hi v fuel with
  | zero =>
    obtain _ | fuel := fuel
    · omega
    obtain ⟨node,es,rfl,shape⟩ := tree
    obtain ⟨node',holds,id,size,done⟩ := shape.holds.insertKV heap shape.room key val
    have within : ∀ e ∈ setEntry key val es, Within lo hi e.1 := by
      intro e mem
      rcases mem_setEntry mem with rfl | old
      · exact inside
      · exact shape.within e old
    have grows : (leafView node es).nkeys ≤ (setEntry key val es).length := by
      rw [nkeys_leaf shape.holds]
      exact length_le_setEntry key val es
    obtain ⟨heap',v',more,result,grown,relinked⟩ :=
      leaf_grown large heap holds (setEntry_sorted shape.sorted) within size grows
    refine ⟨heap',v',more,?_,grown,by simpa [leafView,id] using relinked⟩
    rwa [← done] at result
  | succ h ih =>
    obtain _ | fuel := fuel
    · omega
    obtain ⟨node,ks,cs,rfl,row⟩ := tree
    obtain ⟨pre,post,cs1,c,cs2,rfl,rfl,descent⟩ := row.descend inside
    obtain ⟨lo',hi',child,room,replace⟩ := descent.bounds
    obtain ⟨heap',c',more,done,grown,relinked⟩ := ih child room (by omega : h < fuel)
    obtain ⟨node',written,held'⟩ := descent.write c'
    have len := descent.len
    have total := row.fenced.length
    have fill : ∀ x ∈ cs1++(c'::more.toList.map Prod.snd ++ cs2), d/2 ≤ x.nkeys := by
      have enough := row.fill c (by simp)
      intro x mem
      rcases mem_append.mp mem with before | mem
      · exact row.fill x (by simp [before])
      · rcases mem_append.mp mem with new | behind
        · exact grown.fill enough x new
        · exact row.fill x (by simp [behind])
    have whole : (cs1++(c'::more.toList.map Prod.snd ++ cs2)).flatMap View.entries =
        setEntry key val ((cs1++c::cs2).flatMap View.entries) := by
      rw [flatMap_append,flatMap_append,grown.entries,flatMap_append,flatMap_cons,
        setEntry_append_left descent.below,setEntry_append_right _ descent.above]
    -- a split child needs one more place, which may fill this node in turn
    obtain ⟨node2,holds,size,result⟩ : ∃ node2, node2.Holds d (pre++(more.toList.map Prod.fst ++ post))
          ((cs1++(c'::more.toList.map Prod.snd ++ cs2)).map View.node) ∧
        (pre++(more.toList.map Prod.fst ++ post)).length ≤ d ∧
        (internalView node (cs1++c::cs2)).node.insertKV (fuel+1) heap key val =
          (if (pre++(more.toList.map Prod.fst ++ post)).length = d then node2.split heap' else some (heap',node2,none)).bind
            (fun s => some (s.1,Node.internal s.2.1,s.2.2.map (fun g => (g.1,Node.internal g.2)))) := by
      have small := row.room
      cases more with
      | none =>
        refine ⟨node',by simpa using held',by simpa using small.le,?_⟩
        rw [if_neg (by simpa using small.ne)]
        simp only [internalView,Node.insertKV,descent.index,descent.read,done,written,some_bind,Option.map_none]
        rfl
      | some split =>
        obtain ⟨k,r⟩ := split
        rw [map_append,map_cons] at held'
        obtain ⟨node2,holds,inserted⟩ := held'.insertChild heap' (by simpa using len)
          (by simp only [length_append,length_cons,length_map] at total ⊢; omega) small k r.node
        refine ⟨node2,by simpa using holds,by simp at small ⊢; omega,?_⟩
        simp only [internalView,Node.insertKV,descent.index,descent.read,done,written,some_bind,Option.map_some,
          inserted]
        rfl
    have grows : (internalView node (cs1++c::cs2)).nkeys ≤ (pre++(more.toList.map Prod.fst ++ post)).length := by
      rw [nkeys_internal row.holds]
      simp only [length_append]
      omega
    obtain ⟨heap2,v',more',final,grown',relinked'⟩ :=
      internal_grown odd large heap' holds (replace _ _ grown.fenced) fill size grows
    refine ⟨heap2,v',more',result.trans final,whole ▸ grown',?_⟩
    have chain := relinked.inside (cs1.flatMap View.leaves) (cs2.flatMap View.leaves)
    rw [← flatMap_append,← flatMap_append] at chain
    refine Relinked.trans ?_ relinked'
    simpa [internalView] using chain

end

/-! ## Deletion keeps the shape of a subtree -/

variable {K V : Type} [LinearOrder K] [Inhabited K] [Inhabited V]

section
variable {d h : Nat} {lo hi : Option K} {a b : View K V} {k : K}

lemma pair_ordered (pair : Fenced (Subtree d h) lo hi [k] [a,b]) :
    Sorted (a.entries++b.entries) ∧ ∀ e ∈ a.entries++b.entries, Within lo hi e.1 := by
  have contents := pair.contents (f := View.entries) (fun _ _ _ tree => tree.ordered)
  simpa [Sorted] using contents

/-- Two neighbours with the same content as before, both with enough keys. -/
structure Evened (d h : Nat) (lo hi : Option K) (a b : View K V) (k' : K) (a' b' : View K V) : Prop where
  fenced : Fenced (Subtree d h) lo hi [k'] [a',b']
  left : d/2 ≤ a'.nkeys
  right : d/2 ≤ b'.nkeys
  entries : a'.entries++b'.entries = a.entries++b.entries
  leaves : a'.leaves++b'.leaves = a.leaves++b.leaves

lemma pair_stealFromRight (pair : Fenced (Subtree d h) lo hi [k] [a,b]) (low : d/2 ≤ a.nkeys+1)
    (few : a.nkeys < d/2) (spare : d/2 < b.nkeys) :
    ∃ a' b' k', a.node.stealFromRight b.node k = some (a'.node,b'.node,k') ∧ Evened d h lo hi a b k' a' b' := by
  cases h with
  | zero =>
    obtain ⟨sorted,within⟩ := pair_ordered pair
    obtain ⟨⟨n,es,rfl,left⟩,_,r,fs,rfl,right⟩ := pair
    rw [nkeys_leaf left.holds] at low few
    rw [nkeys_leaf right.holds] at spare
    rcases fs with _ | ⟨e,_ | ⟨first,post⟩⟩
    · simp at spare
    · simp at spare
      omega
    obtain ⟨n',r',done,holds,holds',id,id'⟩ := left.holds.stealFromRight right.holds left.room
    have size := right.room
    have cut : es++e::first::post = (es++[e])++first::post := by simp
    rw [show (leafView n es).entries ++ (leafView r (e::first::post)).entries = (es++[e])++first::post
      from cut] at sorted within
    simp only [length_cons] at size spare
    refine ⟨leafView n' (es++[e]),leafView r' (first::post),first.1,?_,
      leaf_pair sorted within holds holds' (by simp; omega) (by simp; omega),?_,?_,cut.symm,?_⟩
    · simp only [leafView,Node.stealFromRight,done,some_bind]
      rfl
    · rwa [nkeys_leaf holds,length_append]
    · rw [nkeys_leaf holds',length_cons]
      omega
    · simp [leafView,id,id']
  | succ h =>
    obtain ⟨⟨n,ksa,csa,rfl,left⟩,sep,r,ksb,csb,rfl,right⟩ := pair
    rw [nkeys_internal left.holds] at low few
    rw [nkeys_internal right.holds] at spare
    have lenA := left.fenced.length
    have lenB := right.fenced.length
    have size := right.room
    rcases ksb with _ | ⟨k',post⟩
    · simp at spare
    rcases csb with _ | ⟨c,rest⟩
    · simp at lenB
    simp only [length_cons] at lenB spare size
    obtain ⟨n',r',done,holds,holds'⟩ := left.holds.stealFromRight k right.holds
      (by rw [length_map]; omega) (by rw [length_map]; omega) left.room
    have whole := (fenced_append lenA).mpr ⟨left.fenced,sep,right.fenced⟩
    rw [show ksa ++ k::k'::post = (ksa++[k])++k'::post by simp,
      show csa ++ c::rest = (csa++[c])++rest by simp] at whole
    have fill : ∀ x ∈ (csa++[c])++rest, d/2 ≤ x.nkeys := by
      intro x mem
      rcases mem_append.mp (show x ∈ csa++c::rest by simpa using mem) with before | behind
      · exact left.fill x before
      · exact right.fill x behind
    refine ⟨internalView n' (csa++[c]),internalView r' rest,k',?_,
      internal_pair whole (by simp; omega) fill (by simpa using holds) holds' (by simp; omega) (by omega),?_,?_,?_,?_⟩
    · simp only [internalView,Node.stealFromRight,done,some_bind]
      rfl
    · rwa [nkeys_internal holds,length_append]
    · rw [nkeys_internal holds']
      omega
    · simp [internalView]
    · simp [internalView]

lemma pair_stealFromLeft (heap : Heap) (pair : Fenced (Subtree d h) lo hi [k] [a,b])
    (low : d/2 ≤ b.nkeys+1) (few : b.nkeys < d/2) (spare : d/2 < a.nkeys) :
    ∃ a' b' k', b.node.stealFromLeft heap a.node k = some (heap,b'.node,a'.node,k') ∧
      Evened d h lo hi a b k' a' b' := by
  cases h with
  | zero =>
    obtain ⟨sorted,within⟩ := pair_ordered pair
    obtain ⟨⟨l,fs,rfl,left⟩,_,n,es,rfl,right⟩ := pair
    rw [nkeys_leaf right.holds] at low few
    rw [nkeys_leaf left.holds] at spare
    rcases eq_nil_or_concat' fs with rfl | ⟨pre,e,rfl⟩
    · simp at spare
    have cut : (pre++[e])++es = pre++e::es := by simp
    rw [show (leafView l ((pre++[e]))).entries ++ (leafView n es).entries = pre++e::es from cut] at sorted within
    have below : ∀ x ∈ es, e.1 < x.1 := (pairwise_cons.mp (pairwise_append.mp sorted).2.1).1
    have size := left.room
    rw [length_append,length_singleton] at size spare
    obtain ⟨n',l',done,holds,holds',id,id'⟩ := right.holds.stealFromLeft heap left.holds (by omega) below
    refine ⟨leafView l' pre,leafView n' (e::es),e.1,?_,
      leaf_pair sorted within holds' holds (by omega) (by simp; omega),?_,?_,cut.symm,?_⟩
    · simp only [leafView,Node.stealFromLeft,done,some_bind]
      rfl
    · rw [nkeys_leaf holds']
      omega
    · rwa [nkeys_leaf holds]
    · simp [leafView,id,id']
  | succ h =>
    obtain ⟨⟨l,ksa,csa,rfl,left⟩,sep,n,ksb,csb,rfl,right⟩ := pair
    rw [nkeys_internal right.holds] at low few
    rw [nkeys_internal left.holds] at spare
    have lenA := left.fenced.length
    have lenB := right.fenced.length
    have size := left.room
    rcases eq_nil_or_concat' ksa with rfl | ⟨pre,k',rfl⟩
    · simp at spare
    rcases eq_nil_or_concat' csa with rfl | ⟨front,c,rfl⟩
    · simp at lenA
    simp only [length_append,length_singleton] at left lenA spare size
    have held := left.holds
    rw [map_append] at held
    obtain ⟨n',l',done,holds,holds'⟩ := right.holds.stealFromLeft k held
      (by rw [length_map]; omega) (by rw [length_map]; omega) right.room
    have whole := (fenced_append (by simp; omega)).mpr ⟨left.fenced,sep,right.fenced⟩
    rw [append_assoc,append_assoc] at whole
    have fill : ∀ x ∈ front++c::csb, d/2 ≤ x.nkeys := by
      intro x mem
      rcases mem_append.mp (show x ∈ (front++[c])++csb by simpa using mem) with before | behind
      · exact left.fill x before
      · exact right.fill x behind
    refine ⟨internalView l' front,internalView n' (c::csb),k',?_,
      internal_pair whole (by omega) fill holds' holds (by omega) (by simp; omega),?_,?_,?_,?_⟩
    · simp only [internalView,Node.stealFromLeft,done,some_bind]
      rfl
    · rw [nkeys_internal holds']
      omega
    · rwa [nkeys_internal holds]
    · simp [internalView]
    · simp [internalView]

lemma pair_mergeWithRight (heap : Heap) (pair : Fenced (Subtree d h) lo hi [k] [a,b])
    (enough : d/2 ≤ a.nkeys+b.nkeys) (room : a.nkeys+b.nkeys+1 < d) :
    ∃ heap' m, a.node.mergeWithRight heap b.node k = some (heap',m.node) ∧ Subtree d h lo hi m ∧ d/2 ≤ m.nkeys ∧
      m.entries = a.entries++b.entries ∧ Relinked (heap,a.leaves++b.leaves) (heap',m.leaves) := by
  cases h with
  | zero =>
    obtain ⟨sorted,within⟩ := pair_ordered pair
    obtain ⟨⟨l,es,rfl,left⟩,_,r,fs,rfl,right⟩ := pair
    rw [nkeys_leaf left.holds,nkeys_leaf right.holds] at enough room
    obtain ⟨m,done,holds,id⟩ := left.holds.mergeWithRight heap right.holds (by omega)
    refine ⟨heap.unlink l.id r.id,leafView m (es++fs),?_,⟨m,es++fs,rfl,holds,sorted,within,by simp; omega⟩,?_,rfl,?_⟩
    · simp only [leafView,Node.mergeWithRight,done,some_bind]
      rfl
    · rwa [nkeys_leaf holds,length_append]
    · refine .single ?_
      simpa [leafView,id] using LinkStep.merge heap [] l.id r.id []
  | succ h =>
    obtain ⟨⟨l,ksa,csa,rfl,left⟩,sep,r,ksb,csb,rfl,right⟩ := pair
    rw [nkeys_internal left.holds,nkeys_internal right.holds] at enough room
    have lenA := left.fenced.length
    have lenB := right.fenced.length
    obtain ⟨m,done,holds⟩ := left.holds.mergeWithRight k right.holds (by simpa using lenA) (by simpa using lenB) (by omega)
    rw [← map_append] at holds
    have whole := (fenced_append lenA).mpr ⟨left.fenced,sep,right.fenced⟩
    have fill : ∀ x ∈ csa++csb, d/2 ≤ x.nkeys := by
      exact forall_mem_append.mpr ⟨left.fill,right.fill⟩
    refine ⟨heap,internalView m (csa++csb),?_,⟨m,_,_,rfl,holds,whole,fill,by simp; omega⟩,?_,?_,?_⟩
    · simp only [internalView,Node.mergeWithRight,done,some_bind]
      rfl
    · rw [nkeys_internal holds,length_append,length_cons]
      omega
    · simp [internalView]
    · simpa [internalView] using Relinked.refl (heap,(csa++csb).flatMap View.leaves)

end

namespace InternalNode

variable {d : Nat} {pre post : List K} {left right : List (Node K V)} {node : InternalNode K (Node K V)}
  {a b a' b' : Node K V} {k k' : K}

section
variable (holds : node.Holds d (pre++k::post) (left++a::b::right))
include holds

section
variable (len : left.length = pre.length)
include len

lemma Holds.neighbours :
    node.child pre.length = some a ∧ node.child (pre.length+1) = some b ∧ node.keys[pre.length]? = some k := by
  have behind : node.Holds d (pre++k::post) ((left++[a])++b::right) := by simpa using holds
  have first := holds.child
  have second := behind.child
  rw [length_append,length_singleton,len] at second
  rw [len] at first
  exact ⟨first,second,holds.keys.get rfl⟩

lemma Holds.setSecond
    (b' : Node K V) : ∃ node', node.setChild (pre.length+1) b' = some node' ∧
      node'.Holds d (pre++k::post) (left++a::b'::right) := by
  have behind : node.Holds d (pre++k::post) ((left++[a])++b::right) := by simpa using holds
  obtain ⟨node',written,held⟩ := behind.setChild b'
  rw [length_append,length_singleton,len] at written
  exact ⟨node',written,by simpa using held⟩

lemma Holds.setFirst
    (a' : Node K V) : ∃ node', node.setChild pre.length a' = some node' ∧
      node'.Holds d (pre++k::post) (left++a'::b::right) := by
  rw [← len]
  exact holds.setChild a'

end
end

lemma Holds.putKey (holds : node.Holds d (pre++k::post) ps) (k' : K) :
    ∃ keys, put node.keys pre.length k' = some keys ∧
      InternalNode.Holds d (pre++k'::post) ps { node with keys } := by
  obtain ⟨keys,written,held⟩ := holds.keys.put (i := pre.length) (y := k') rfl
  exact ⟨keys,written,by simpa using holds.count,held,holds.ptrs⟩

section
variable (holds : node.Holds d (pre++k::post) (left++a::b::right))
include holds

section
variable (len : left.length = pre.length)
include len

lemma Holds.stealRight
    (stolen : a.stealFromRight b k = some (a',b',k')) :
    ∃ node', node.stealRight pre.length = some node' ∧
      node'.Holds d (pre++k'::post) (left++a'::b'::right) := by
  obtain ⟨first,second,sep⟩ := holds.neighbours len
  obtain ⟨node1,written1,held1⟩ := holds.setFirst len a'
  obtain ⟨node2,written2,held2⟩ := held1.setSecond len b'
  obtain ⟨keys,keyed,held⟩ := held2.putKey k'
  refine ⟨{ node2 with keys },?_,held⟩
  simp only [InternalNode.stealRight,first,second,sep,stolen,written1,written2,keyed,some_bind]
  rfl

lemma Holds.stealLeft
    (stolen : b.stealFromLeft heap a k = some (heap',b',a',k')) :
    ∃ node', node.stealLeft heap pre.length = some (heap',node') ∧
      node'.Holds d (pre++k'::post) (left++a'::b'::right) := by
  obtain ⟨first,second,sep⟩ := holds.neighbours len
  obtain ⟨node1,written1,held1⟩ := holds.setSecond len b'
  obtain ⟨node2,written2,held2⟩ := held1.setFirst len a'
  obtain ⟨keys,keyed,held⟩ := held2.putKey k'
  refine ⟨{ node2 with keys },?_,held⟩
  simp only [InternalNode.stealLeft,first,second,sep,stolen,written1,written2,keyed,some_bind]
  rfl

lemma Holds.mergeChildren
    (len' : right.length = post.length) (merged : a.mergeWithRight heap b k = some (heap',m)) :
    ∃ node', node.mergeChildren heap pre.length = some (heap',node') ∧
      node'.Holds d (pre++post) (left++m::right) := by
  obtain ⟨first,second,sep⟩ := holds.neighbours len
  obtain ⟨node1,written,held1⟩ := holds.setFirst len m
  have behind : node1.Holds d (pre++k::post) ((left++[m])++b::right) := by simpa using held1
  obtain ⟨node2,removed,held2⟩ := behind.delKeyandPtrByIndex (by simp; omega)
  rw [length_append,length_singleton,len] at removed
  refine ⟨node2,?_,by simpa using held2⟩
  simp only [InternalNode.mergeChildren,first,second,sep,merged,written,removed,some_bind]
  rfl

end
end
end InternalNode

/-- What the parent has made of its row: the same content, enough keys everywhere and at most one key fewer. -/
def Mended (d h : Nat) (lo hi : Option K) (heap : Heap) (n : Nat) (cs : List (View K V)) (heap' : Heap)
    (node' : InternalNode K (Node K V)) : Prop :=
  ∃ ks' cs', Row d (Subtree d h) lo hi node' ks' cs' ∧ n ≤ ks'.length+1 ∧
    cs'.flatMap View.entries = cs.flatMap View.entries ∧
    Relinked (heap,cs.flatMap View.leaves) (heap',cs'.flatMap View.leaves)

/-- A row in which the children in the middle need not have enough keys. -/
structure Loose (d h : Nat) (lo hi : Option K) (node : InternalNode K (Node K V)) (ks : List K)
    (cs1 middle cs2 : List (View K V)) : Prop where
  holds : node.Holds d ks ((cs1++(middle++cs2)).map View.node)
  fenced : Fenced (Subtree d h) lo hi ks (cs1++(middle++cs2))
  fill : ∀ x ∈ cs1++cs2, d/2 ≤ x.nkeys
  room : ks.length < d

section
variable {d h : Nat} {lo hi : Option K} {pre post : List K} {k : K} {cs1 cs2 : List (View K V)} {a b c : View K V}
  {node : InternalNode K (Node K V)}

lemma row_focus (len : cs1.length = pre.length)
    (fenced : Fenced (Subtree d h) lo hi (pre++k::post) (cs1++a::b::cs2)) :
    ∃ lo' hi', Fenced (Subtree d h) lo' hi' [k] [a,b] ∧ ∀ ks cs, Fenced (Subtree d h) lo' hi' ks cs →
      Fenced (Subtree d h) lo hi (pre++(ks++post)) (cs1++(cs++cs2)) := by
  have segment : Fenced (Subtree d h) lo hi (pre++([k]++post)) (cs1++([a,b]++cs2)) := fenced
  obtain ⟨lo',hi',pair,replace⟩ := segment.focus len rfl
  exact ⟨lo',hi',pair,fun ks cs => replace _ ks cs (fun _ _ _ _ part => part)⟩

lemma flatMap_pair {α β : Type} (f : α → List β) {x y x' y' : α} (same : f x' ++ f y' = f x ++ f y) (xs ys : List α) :
    (xs++x'::y'::ys).flatMap f = (xs++x::y::ys).flatMap f := by
  simp only [flatMap_append,flatMap_cons]
  rw [← append_assoc (f x'),same,append_assoc]

lemma mended_of_evened
    (even : Evened d h lo' hi' a b k' a' b')
    (replace : ∀ ks cs, Fenced (Subtree d h) lo' hi' ks cs →
      Fenced (Subtree d h) lo hi (pre++(ks++post)) (cs1++(cs++cs2)))
    (fill : ∀ x ∈ cs1++cs2, d/2 ≤ x.nkeys) (room : (pre++k::post).length < d)
    (holds : node'.Holds d (pre++k'::post) ((cs1++a'::b'::cs2).map View.node)) :
    Mended d h lo hi heap (pre++k::post).length (cs1++a::b::cs2) heap node' := by
  refine ⟨pre++k'::post,cs1++a'::b'::cs2,⟨holds,replace _ _ even.fenced,?_,by simpa using room⟩,by simp,?_,?_⟩
  · intro x mem
    simp only [mem_append,mem_cons] at mem fill
    rcases mem with before | rfl | rfl | behind
    · exact fill x (.inl before)
    · exact even.left
    · exact even.right
    · exact fill x (.inr behind)
  · exact flatMap_pair View.entries even.entries cs1 cs2
  · rw [flatMap_pair View.leaves even.leaves cs1 cs2]
    exact .refl _

section
variable (row : Loose d h lo hi node (pre++k::post) cs1 [a,b] cs2)
include row

section
variable (len : cs1.length = pre.length)
include len

lemma row_stealRight
    (heap : Heap) (low : d/2 ≤ a.nkeys+1) (few : a.nkeys < d/2) (spare : d/2 < b.nkeys) :
    ∃ node', node.stealRight pre.length = some node' ∧
      Mended d h lo hi heap (pre++k::post).length (cs1++a::b::cs2) heap node' := by
  obtain ⟨lo',hi',pair,replace⟩ := row_focus len row.fenced
  obtain ⟨a',b',k',stolen,even⟩ := pair_stealFromRight pair low few spare
  have holds := row.holds
  rw [map_append] at holds
  obtain ⟨node',done,held⟩ := holds.stealRight (by simpa using len) stolen
  exact ⟨node',done,mended_of_evened even replace row.fill row.room (by simpa using held)⟩

lemma row_stealLeft
    (heap : Heap) (low : d/2 ≤ b.nkeys+1) (few : b.nkeys < d/2) (spare : d/2 < a.nkeys) :
    ∃ node', node.stealLeft heap pre.length = some (heap,node') ∧
      Mended d h lo hi heap (pre++k::post).length (cs1++a::b::cs2) heap node' := by
  obtain ⟨lo',hi',pair,replace⟩ := row_focus len row.fenced
  obtain ⟨a',b',k',stolen,even⟩ := pair_stealFromLeft heap pair low few spare
  have holds := row.holds
  rw [map_append] at holds
  obtain ⟨node',done,held⟩ := holds.stealLeft (by simpa using len) stolen
  exact ⟨node',done,mended_of_evened even replace row.fill row.room (by simpa using held)⟩

lemma row_mergeChildren
    (heap : Heap) (enough : d/2 ≤ a.nkeys+b.nkeys) (small : a.nkeys+b.nkeys+1 < d) :
    ∃ heap' node', node.mergeChildren heap pre.length = some (heap',node') ∧
      Mended d h lo hi heap (pre++k::post).length (cs1++a::b::cs2) heap' node' := by
  obtain ⟨holds,fenced,fill,room⟩ := row
  have total := fenced.length
  simp only [cons_append,nil_append,length_append,length_cons] at total room
  obtain ⟨lo',hi',pair,replace⟩ := row_focus len fenced
  obtain ⟨heap',m,merged,tree,filled,entries,relinked⟩ := pair_mergeWithRight heap pair enough small
  simp only [cons_append,nil_append,map_append,map_cons] at holds
  obtain ⟨node',done,held⟩ := holds.mergeChildren (by simpa using len) (by rw [length_map]; omega) merged
  refine ⟨heap',node',done,pre++post,cs1++m::cs2,⟨by simpa using held,?_,?_,?_⟩,?_,?_,?_⟩
  · exact replace [] [m] tree
  · intro x mem
    simp only [mem_append,mem_cons] at mem fill
    rcases mem with before | rfl | behind
    · exact fill x (.inl before)
    · exact filled
    · exact fill x (.inr behind)
  · rw [length_append]
    omega
  · simp only [length_append,length_cons]
    omega
  · simp [entries]
  · simpa using relinked.inside (cs1.flatMap View.leaves) (cs2.flatMap View.leaves)

end
end

lemma Loose.withRight (row : Loose d h lo hi node (pre++k::post) cs1 [c] (b::cs2)) :
    Loose d h lo hi node (pre++k::post) cs1 [c,b] cs2 := by
  refine { row with fill := fun x mem => row.fill x ?_ }
  rcases mem_append.mp mem with before | behind
  · exact mem_append_left _ before
  · exact mem_append_right _ (mem_cons_of_mem _ behind)

lemma Loose.withLeft (row : Loose d h lo hi node ((pre++[k])++post) (cs1++[a]) [c] cs2) :
    Loose d h lo hi node (pre++k::post) cs1 [a,c] cs2 := by
  obtain ⟨holds,fenced,fill,room⟩ := row
  rw [append_assoc] at holds fenced room
  rw [append_assoc] at holds fenced
  refine ⟨holds,fenced,fun x mem => fill x ?_,room⟩
  rcases mem_append.mp mem with before | behind
  · exact mem_append_left _ (mem_append_left _ before)
  · exact mem_append_right _ behind

lemma InternalNode.Holds.spareRight
    (holds : node.Holds d ks (left++p::right)) (len : left.length+right.length = ks.length) (m : Nat) :
    node.spareRight left.length m = some (right.head?.any (fun x => decide (m < x.getNKeys))) := by
  rw [InternalNode.spareRight,holds.count]
  cases right with
  | nil =>
    rw [if_neg (by simp at len; omega)]
    rfl
  | cons q right =>
    have behind : node.Holds d ks ((left++[p])++q::right) := by simpa using holds
    have read := behind.child
    rw [length_append,length_singleton] at read
    rw [if_pos (by simp at len; omega),read]
    rfl

lemma InternalNode.Holds.spareLeft
    (holds : node.Holds d ks (left++p::right)) (m : Nat) :
    node.spareLeft left.length m = some (left.getLast?.any (fun x => decide (m < x.getNKeys))) := by
  rw [InternalNode.spareLeft]
  rcases eq_nil_or_concat' left with rfl | ⟨left,q,rfl⟩
  · rfl
  · have before : node.Holds d ks (left++q::p::right) := by simpa using holds
    have read := before.child
    simp [read]

lemma rebalance_row (odd : d%2 = 1) (row : Loose d h lo hi node (pre++post) cs1 [c] cs2)
    (len : cs1.length = pre.length) (low : d/2 ≤ c.nkeys+1) (some_key : 1 ≤ (pre++post).length) (heap : Heap) :
    ∃ heap' node', node.rebalance heap pre.length = some (heap',node') ∧
      Mended d h lo hi heap (pre++post).length (cs1++c::cs2) heap' node' := by
  have total := row.fenced.length
  have held := row.holds
  simp only [cons_append,nil_append,map_append,map_cons,length_append,length_cons]
    at held total
  have read := held.child
  have right := held.spareRight (by simp; omega) (d/2)
  have left := held.spareLeft (d/2)
  rw [length_map,len] at read right left
  obtain ⟨_,_,tree,_⟩ := row.fenced.mem (show c ∈ cs1++([c]++cs2) by simp)
  have deg : c.node.degree = d := tree.degree
  by_cases few : c.nkeys < d/2
  · have short : c.node.getNKeys < d/2 := few
    simp only [InternalNode.rebalance,read,some_bind,deg,if_pos short,right,left]
    by_cases spare : (cs2.map View.node).head?.any (fun x => decide (d/2 < x.getNKeys)) = true
    · rw [if_pos spare]
      match post,cs2,row,spare,total with
      | k::post,b::cs2,row,spare,_ =>
        obtain ⟨node',done,mended⟩ := row_stealRight row.withRight len heap low few (by simpa [View.nkeys] using spare)
        rw [done]
        exact ⟨heap,node',rfl,mended⟩
      | [],b::cs2,_,_,total => simp at total; omega
    rw [if_neg spare]
    by_cases spare' : (cs1.map View.node).getLast?.any (fun x => decide (d/2 < x.getNKeys)) = true
    · rw [if_pos spare']
      rcases eq_nil_or_concat' cs1 with rfl | ⟨cs1,a,rfl⟩
      · simp at spare'
      rcases eq_nil_or_concat' pre with rfl | ⟨pre,k,rfl⟩
      · simp at len
      obtain ⟨node',done,mended⟩ := row_stealLeft row.withLeft (by simpa using len) heap low few
        (by simpa [View.nkeys] using spare')
      refine ⟨heap,node',?_,by simpa using mended⟩
      simpa using done
    rw [if_neg spare']
    by_cases behind : pre.length+1 ≤ node.nkeys
    · rw [if_pos behind]
      match post,cs2,row,spare,total with
      | k::post,b::cs2,row,spare,_ =>
        have other := row.fill b (by simp)
        have poor : b.nkeys ≤ d/2 := by simpa [View.nkeys] using spare
        exact row_mergeChildren row.withRight len heap (by omega) (by omega)
      | k::post,[],_,_,total => simp at total; omega
      | [],cs2,row,_,_ =>
        rw [row.holds.count,append_nil] at behind
        omega
    · rw [if_neg behind]
      rcases eq_nil_or_concat' pre with rfl | ⟨pre,k,rfl⟩
      · rw [row.holds.count] at behind
        exact absurd some_key behind
      rcases eq_nil_or_concat' cs1 with rfl | ⟨cs1,a,rfl⟩
      · simp at len
      have other := row.fill a (by simp)
      have poor : a.nkeys ≤ d/2 := by simpa [View.nkeys] using spare'
      obtain ⟨heap',node',done,mended⟩ :=
        row_mergeChildren row.withLeft (by simpa using len) heap (by omega) (by omega)
      refine ⟨heap',node',?_,by simpa using mended⟩
      simpa using done
  · have filled : ∀ x ∈ cs1++c::cs2, d/2 ≤ x.nkeys := by
      intro x mem
      have others := row.fill x
      simp only [mem_append,mem_cons] at mem others
      rcases mem with before | rfl | behind
      · exact others (.inl before)
      · exact Nat.le_of_not_lt few
      · exact others (.inr behind)
    have enough : ¬ c.node.getNKeys < d/2 := few
    refine ⟨heap,node,?_,pre++post,cs1++c::cs2,⟨row.holds,row.fenced,filled,row.room⟩,by omega,rfl,.refl _⟩
    simp only [InternalNode.rebalance,read,some_bind,deg,if_neg enough]
    rfl

lemma Subtree.delete {v : View K V} (odd : d%2 = 1) (large : 3 ≤ d) (tree : Subtree d h lo hi v) {key : K}
    (inside : Within lo hi key) (heap : Heap) {fuel : Nat} (enough : h < fuel) (some_key : 0 < h → 1 ≤ v.nkeys) :
    ∃ heap' v', v.node.delete fuel heap key = some (heap',v'.node) ∧ Subtree d h lo hi v' ∧
      v'.entries = v.entries.filter (fun e => decide (e.1 ≠ key)) ∧ v.nkeys ≤ v'.nkeys+1 ∧
      Relinked (heap,v.leaves) (heap',v'.leaves) := by
  induction h generalizing lo hi v fuel with
  | zero =>
    obtain _ | fuel := fuel
    · omega
    obtain ⟨node,es,rfl,shape⟩ := tree
    obtain ⟨node',done,holds,id⟩ := shape.holds.delete shape.sorted key
    have fewer := length_filter_le (fun e => decide (e.1 ≠ key)) es
    have size := shape.room
    refine ⟨heap,leafView node' _,?_,⟨node',_,rfl,holds,shape.sorted.filter _,?_,by omega⟩,rfl,?_,?_⟩
    · simp only [leafView,Node.delete,done,some_bind]
      rfl
    · exact fun e mem => shape.within e (mem_of_mem_filter mem)
    · rw [nkeys_leaf shape.holds,nkeys_leaf holds]
      exact length_le_filter shape.sorted key
    · simpa [leafView,id] using Relinked.refl (heap,[node.id])
  | succ h ih =>
    obtain _ | fuel := fuel
    · omega
    obtain ⟨node,ks,cs,rfl,row⟩ := tree
    obtain ⟨pre,post,cs1,c,cs2,rfl,rfl,descent⟩ := row.descend inside
    obtain ⟨lo',hi',child,room,replace⟩ := descent.bounds
    have filled := row.fill c (by simp)
    obtain ⟨heap1,c',done,tree,entries,loss,relinked⟩ := ih child room (by omega : h < fuel) (fun _ => by omega)
    obtain ⟨node1,written,held1⟩ := descent.write c'
    have loose : Loose d h lo hi node1 (pre++post) cs1 [c'] cs2 := by
      refine ⟨held1,replace [] [c'] tree,?_,row.room⟩
      intro x mem
      refine row.fill x ?_
      rcases mem_append.mp mem with before | behind
      · exact mem_append_left _ before
      · exact mem_append_right _ (mem_cons_of_mem _ behind)
    have keys := some_key (Nat.succ_pos h)
    rw [nkeys_internal row.holds] at keys
    obtain ⟨heap2,node2,mended,ks',cs',row',kept,same,relinked'⟩ := rebalance_row odd loose descent.len (by omega) keys heap1
    refine ⟨heap2,internalView node2 cs',?_,⟨node2,ks',cs',rfl,row'⟩,?_,?_,?_⟩
    · simp only [internalView,Node.delete,descent.index,descent.read,done,written,mended,some_bind]
      rfl
    · have whole : (cs1++c'::cs2).flatMap View.entries =
          ((cs1++c::cs2).flatMap View.entries).filter (fun e => decide (e.1 ≠ key)) := by
        rw [flatMap_append,flatMap_cons,flatMap_append,flatMap_cons,filter_append,
          filter_append,filter_ne_self (fun e mem => (descent.below e mem).ne),
          filter_ne_self (fun e mem => (descent.above e mem).ne'),entries]
      exact same.trans whole
    · rwa [nkeys_internal row.holds,nkeys_internal row'.holds]
    · refine Relinked.trans ?_ relinked'
      simpa [internalView] using relinked.inside (cs1.flatMap View.leaves) (cs2.flatMap View.leaves)

end
end CodeExercise.BTree
