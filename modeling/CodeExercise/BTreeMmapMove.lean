import CodeExercise.BTreeMmapNodes

/-!
Operations on two nodes. A merge appends what the right node holds to the left one, which has unused
memory for it, so that no compaction runs. A split fills the slots of a new node from the back
(`Filling`) and compacts the node it leaves.
-/
namespace CodeExercise.BTreeMmap
open Slices Files Uvarints List

section
variable {d : Nat} {f : File} {node : Node} {mem : Mem} {es : List (Bytes × Bytes)} {key val : Bytes}

lemma Leaf.frame (leaf : Leaf d f node es) (same : SameBlock node.blockId f g) : Leaf d g node es :=
  ⟨leaf.body.frame same,leaf.leaf,leaf.count⟩

lemma mergeEntries_append
    (body : Body d mem.mmap node (es.map Prod.fst) (es.map Prod.snd)) (kind : node.isLeaf = true)
    (leaf : Leaf d mem.mmap right (done++todo)) (other : right.blockId ≠ node.blockId)
    (few : es.length+todo.length ≤ d)
    (free : node.unusedMemOffset+total (todo.map Prod.fst)+total (todo.map Prod.snd) ≤ blockSize) :
    ∃ node' mem', Node.mergeEntries right todo.length done.length es.length node mem = some (node',mem') ∧
      Body d mem'.mmap node' ((es++todo).map Prod.fst) ((es++todo).map Prod.snd) ∧ node.Same node' ∧
      Local node.blockId mem mem' := by
  induction todo generalizing node mem es done with
  | nil => exact ⟨node,mem,rfl,by simpa using body,.refl node,.refl _ mem⟩
  | cons e todo ih =>
    obtain ⟨key,val⟩ := e
    simp only [map_cons,total_cons,length_cons] at free few ⊢
    obtain ⟨readKey,readVal⟩ := leaf.get
    obtain ⟨node1,mem1,inserted,body1,appended⟩ := insertKv_gap key val
      (body.room (by omega)) body.start kind (by simpa using body.actual)
      (body.keys.push (by rw [length_map]; omega)) ((body.vals kind).push (by rw [length_map]; omega)) (by simp)
    rw [length_map] at inserted
    have offset := appended.offset
    have block := appended.same.blockId
    have grown : Body d mem1.mmap node1 ((es++[(key,val)]).map Prod.fst) ((es++[(key,val)]).map Prod.snd) := by
      simpa using body1
    have source : Leaf d mem1.mmap right (done++[(key,val)]++todo) := by
      simpa using leaf.frame (appended.only.sameBlock other)
    obtain ⟨node2,mem2,merged,body2,same,only⟩ := ih grown (by rw [appended.same.isLeaf,kind]) source
      (by rw [block]; exact other) (by simp; omega) (by omega)
    refine ⟨node2,mem2,?_,by simpa using body2,appended.same.trans same,appended.only.trans (block ▸ only)⟩
    simp only [length_append,length_singleton] at merged
    simp only [Node.mergeEntries,readKey,readVal,inserted,some_bind]
    exact merged

lemma Leaf.mergeWithRightLeaf (leaf : Leaf d mem.mmap node es)
    (leaf' : Leaf d mem.mmap right fs) (other : right.blockId ≠ node.blockId) (few : es.length+fs.length ≤ d)
    (free : node.unusedMemOffset+right.actualMemRequired ≤ blockSize) :
    ∃ node' mem', node.mergeWithRightLeaf mem right = some (node',mem') ∧ Leaf d mem'.mmap node' (es++fs) ∧
      node'.blockId = node.blockId ∧ Local node.blockId mem mem' := by
  have bound := leaf.body.degree_lt
  rw [leaf'.body.actual] at free
  have source : Leaf d mem.mmap right ([]++fs) := leaf'
  obtain ⟨node1,mem1,merged,body,same,only⟩ := mergeEntries_append leaf.body leaf.leaf source other few (by omega)
  rw [← leaf'.count,← leaf.count,length_nil] at merged
  have after : Leaf d mem1.mmap (node1.setNKeys (node1.nkeys+right.nkeys)) (es++fs) := by
    refine ⟨body.setNKeys _,by simp only [Node.setNKeys,same.isLeaf,leaf.leaf],?_⟩
    simp only [Node.setNKeys,same.nkeys,leaf.count,leaf'.count,length_append]
    exact uint16_of_lt (by omega)
  refine ⟨_,node.note mem _ mem1 id none none,?_,after,same.blockId,leaf.noted after only ?_ ?_⟩
  · simp only [Node.mergeWithRightLeaf,merged,some_bind]
    rfl
  · simpa using moved_append none
  · simpa using moved_append none

section
variable {ks vs : List Bytes} {k : Nat}

lemma Body.clearKey (body : Body d mem.mmap node (ks++[key]) vs) : ∃ node', node.clearKey mem ks.length = some node' ∧
    Body d mem.mmap node' ks vs ∧ node.Same node' := by
  have read := body.getKey.2
  obtain ⟨keyPtrArr,cleared,keyed⟩ := body.keys.dropLast
  have small : node.unusedMemOffset ≤ 4096 := body.high
  have low := body.low
  have actual := body.actual
  simp only [total_append,total_cons,total_nil] at actual
  refine ⟨{ node with keyPtrArr, actualMemRequired := node.actualMemRequired-size key },?_,
    { body with keys := keyed, actual := ?_, low := ?_, high := small },⟨rfl,rfl,rfl,rfl,rfl⟩⟩
  · simp only [Node.clearKey,read,cleared,some_bind]
    rw [sub16_of_le (by omega) (by omega)]
    rfl
  · simp only
    omega
  · simp only
    omega

lemma Body.clearVal (body : Body d mem.mmap node ks (vs++[val])) (kind : node.isLeaf = true) :
    ∃ node', node.clearVal mem vs.length = some node' ∧ Body d mem.mmap node' ks vs ∧ node.Same node' := by
  have read := body.getVal.2
  obtain ⟨valPtrArr,cleared,valued⟩ := (body.vals kind).dropLast
  have small : node.unusedMemOffset ≤ 4096 := body.high
  have low := body.low
  have actual := body.actual
  simp only [total_append,total_cons,total_nil] at actual
  refine ⟨{ node with valPtrArr, actualMemRequired := node.actualMemRequired-size val },?_,
    ⟨body.file,body.inside,body.start,body.keys,fun _ => valued,by simp [kind],?_,?_,small⟩,⟨rfl,rfl,rfl,rfl,rfl⟩⟩
  · simp only [Node.clearVal,read,cleared,some_bind]
    rw [sub16_of_le (by omega) (by omega)]
    rfl
  · simp only
    omega
  · simp only
    omega

/-- A new node, which is filled from the back: its slots from `k` on are in use. -/
structure Filling (d k : Nat) (f : File) (node : Node) (ks vs : List Bytes) : Prop where
  file : f.size = dbSize
  inside : node.blockId < 5120
  start : node.unusedMemStart = blockMagic.length+DB.tableSize d node.isLeaf
  keys : Tail f node.area d k node.keyPtrArr ks
  vals : node.isLeaf = true → Tail f node.area d k node.valPtrArr vs
  noVals : node.isLeaf = false → vs = []
  actual : node.actualMemRequired = total ks+total vs
  full : node.unusedMemOffset = node.unusedMemStart+node.actualMemRequired
  high : node.unusedMemOffset ≤ blockSize

lemma Filling.body (filling : Filling d 0 f node ks vs) : Body d f node ks vs :=
  { filling with keys := filling.keys.column, vals := fun kind => (filling.vals kind).column, low := filling.full.ge }

lemma Filling.room (filling : Filling d k mem.mmap node ks vs) (free : node.unusedMemOffset+n ≤ blockSize) :
    Room n node mem := ⟨filling.file,filling.inside,filling.full.ge,free⟩

lemma Filling.insertKvInPos (filling : Filling d (k+1) mem.mmap node ks vs) (kind : node.isLeaf = true)
    (key val : Bytes) (free : node.unusedMemOffset+(size key+size val) ≤ blockSize) :
    ∃ node' mem', node.insertKvInPos mem k key val = some (node',mem',true) ∧
      Filling d k mem'.mmap node' (key::ks) (val::vs) ∧ Appended (size key+size val) node mem node' mem' := by
  obtain ⟨node',mem',inserted,appended,keyed,valued⟩ := insertKv_fill
    (Q := fun f area ptrs => Tail f area d k ptrs (key::ks)) (R := fun f area ptrs => Tail f area d k ptrs (val::vs))
    (filling.room free) (fun f area p keeps cell => (filling.keys.mono keeps).fill cell)
    (fun f area p keeps cell => ((filling.vals kind).mono keeps).fill cell)
    (fun f g area area' ptrs keeps tail => tail.mono keeps)
  have same := appended.same
  refine ⟨node',mem',inserted,⟨?_,?_,?_,keyed,fun _ => valued,?_,?_,?_,?_⟩,appended⟩
  · exact appended.only.size.trans filling.file
  · rw [same.blockId]
    exact filling.inside
  · rw [same.start,same.isLeaf,filling.start]
  · simp [same.isLeaf,kind]
  · rw [appended.actual,filling.actual,total_cons,total_cons]
    omega
  · rw [appended.offset,filling.full,same.start,appended.actual]
    omega
  · rwa [appended.offset]

end

lemma moveEntries_append
    (body : Body d mem.mmap node ((es++todo).map Prod.fst) ((es++todo).map Prod.snd)) (kind : node.isLeaf = true)
    (filling : Filling d todo.length mem.mmap right (done.map Prod.fst) (done.map Prod.snd)) (kind' : right.isLeaf = true)
    (other : node.blockId ≠ right.blockId)
    (free : right.unusedMemOffset+total (todo.map Prod.fst)+total (todo.map Prod.snd) ≤ blockSize) :
    ∃ node' right' mem', Node.moveEntries es.length todo.length node right mem = some (node',right',mem') ∧
      Body d mem'.mmap node' (es.map Prod.fst) (es.map Prod.snd) ∧ node.Same node' ∧
      Body d mem'.mmap right' ((todo++done).map Prod.fst) ((todo++done).map Prod.snd) ∧ right.Same right' ∧
      Local right.blockId mem mem' ∧ right'.Tidy ∧ mem'.history = mem.history := by
  induction todo using List.reverseRecOn generalizing node right mem done with
  | nil => exact ⟨node,right,mem,rfl,by simpa using body,.refl _,filling.body,.refl _,.refl _ mem,filling.full,rfl⟩
  | append_singleton todo e ih =>
    obtain ⟨key,val⟩ := e
    have leaf : Body d mem.mmap node ((es++todo).map Prod.fst ++ [key]) ((es++todo).map Prod.snd ++ [val]) := by
      simpa using body
    have readKey := leaf.getKey.1
    have readVal := leaf.getVal.1
    rw [length_map,length_append] at readKey readVal
    simp only [map_append,map_cons,map_nil,total_append,total_cons,total_nil] at free
    rw [length_append,length_singleton] at filling ⊢
    obtain ⟨right1,mem1,inserted,filling1,appended⟩ := filling.insertKvInPos kind' key val (by omega)
    have quiet := ((filling.room (by omega)).insertKvInPos_history inserted).2
    have kept := leaf.frame (appended.only.sameBlock other)
    obtain ⟨node1,clearedKey,body1,same1⟩ := kept.clearKey
    obtain ⟨node2,clearedVal,body2,same2⟩ := body1.clearVal (by rw [same1.isLeaf,kind])
    rw [length_map,length_append] at clearedKey clearedVal
    have same := same1.trans same2
    have offset := appended.offset
    have filling2 : Filling d todo.length mem1.mmap right1 (((key,val)::done).map Prod.fst)
        (((key,val)::done).map Prod.snd) := filling1
    obtain ⟨node',right',mem',moved,body',same',body3,same3,only,tidy,quiet'⟩ := ih body2
      (by rw [same.isLeaf,kind]) filling2 (by rw [appended.same.isLeaf,kind'])
      (by rw [same.blockId,appended.same.blockId]; exact other) (by omega)
    refine ⟨node',right',mem',?_,body',same.trans same',by simpa using body3,appended.same.trans same3,
      appended.only.trans (appended.same.blockId ▸ only),tidy,quiet'.trans quiet⟩
    simp only [Node.moveEntries,readKey,readVal,inserted,clearedKey,clearedVal,some_bind]
    exact moved

lemma Leaf.split (leaf : Leaf d mem.mmap node (pre++e::post))
    (fresh : Filling d (e::post).length mem.mmap right [] []) (kind : right.isLeaf = true)
    (other : node.blockId ≠ right.blockId) :
    ∃ node1 right1 mem1 node2 mem2,
      Node.moveEntries pre.length (e::post).length node right mem = some (node1,right1,mem1) ∧
      (node1.setNKeys pre.length).compactMem mem1 = some (node2,mem2) ∧
      (right1.setNKeys (e::post).length).getKey mem2 0 = some e.1 ∧ Leaf d mem2.mmap node2 pre ∧
      Leaf d mem2.mmap (right1.setNKeys (e::post).length) (e::post) ∧ node2.blockId = node.blockId ∧
      right1.blockId = right.blockId ∧
      (∀ c, c ≠ node.blockId → c ≠ right.blockId → SameBlock c mem.mmap mem2.mmap) ∧ (mem.Kept → mem2.Kept) ∧
      node2.Tidy ∧ right1.Tidy ∧ mem2.compactions = mem.compactions+1 := by
  have bound := leaf.body.length_lt
  simp only [map_append,map_cons,length_append,length_cons,length_map] at bound
  have free : right.unusedMemOffset+total ((e::post).map Prod.fst)+total ((e::post).map Prod.snd) ≤ blockSize := by
    have low := leaf.body.low
    have high := leaf.body.high
    have actual := leaf.body.actual
    rw [leaf.body.start,leaf.leaf] at low
    rw [map_append,map_append,total_append,total_append] at actual
    rw [fresh.full,fresh.actual,fresh.start,kind,total_nil]
    omega
  have empty : Filling d (e::post).length mem.mmap right (([] : List (Bytes × Bytes)).map Prod.fst)
      (([] : List (Bytes × Bytes)).map Prod.snd) := fresh
  obtain ⟨node1,right1,mem1,moved,body1,same1,body2,same2,only1,tidy,quiet⟩ := moveEntries_append leaf.body leaf.leaf
    empty kind other free
  rw [append_nil] at body2
  have few : uint16 pre.length = pre.length := uint16_of_lt (by omega)
  have few' : uint16 (e::post).length = (e::post).length := uint16_of_lt (by rw [length_cons]; omega)
  obtain ⟨node2,mem2,compacted,body3,same3,offset,actual,only2⟩ := (body1.setNKeys pre.length).compactMem
    (by rw [length_map]; exact few) (fun _ => by simp)
  have block : (node1.setNKeys pre.length).blockId = node.blockId := same1.blockId
  have apart : right1.blockId ≠ (node1.setNKeys pre.length).blockId := by
    rw [block,same2.blockId]
    exact other.symm
  have after : Leaf d mem2.mmap (right1.setNKeys (e::post).length) ([]++(e.1,e.2)::post) :=
    ⟨(body2.frame (only2.sameBlock apart)).setNKeys _,same2.isLeaf.trans kind,few'⟩
  refine ⟨node1,right1,mem1,node2,mem2,moved,compacted,after.get.1,⟨body3,?_,?_⟩,after,?_,same2.blockId,
    ?_,?_,?_,tidy,?_⟩
  · rw [same3.isLeaf]
    exact same1.isLeaf.trans leaf.leaf
  · rwa [same3.nkeys]
  · rw [same3.blockId,block]
  · intro c first second
    exact (only1.sameBlock second).trans (only2.sameBlock (block ▸ first))
  · exact only2.kept ∘ only1.kept
  · rw [Node.Tidy,offset,actual,same3.start]
  · rw [compactMem_history compacted,Mem.compactions,quiet]
    rfl

end

section
variable {d : Nat} {node right : Node} {mem : Mem} {ks todo done : List Bytes} {cs todoC doneC : List Nat}
  {key : Bytes}

lemma mergeKeys_append (body : Body d mem.mmap node ks []) (kind : node.isLeaf = false)
    (children : Slices.Holds (d+1) cs node.childNodeId) (len : cs.length = ks.length)
    (source : Internal d mem.mmap right (done++todo) (doneC++todoC)) (len' : doneC.length = done.length)
    (len'' : todoC.length = todo.length+1) (other : right.blockId ≠ node.blockId) (few : ks.length+todo.length ≤ d)
    (free : node.unusedMemOffset+total todo ≤ blockSize) :
    ∃ node' mem', Node.mergeKeys right todo.length done.length ks.length node mem = some (node',mem') ∧
      Body d mem'.mmap node' (ks++todo) [] ∧ node'.isLeaf = false ∧ node'.blockId = node.blockId ∧
      Slices.Holds (d+1) (cs++todoC) node'.childNodeId ∧ Local node.blockId mem mem' := by
  induction todo generalizing node mem ks cs done doneC todoC with
  | nil =>
    obtain ⟨c,rfl⟩ := length_eq_one_iff.mp len''
    have read := source.getChildBlockId
    obtain ⟨ptrs,written,held⟩ := children.push (y := c) (by simp at few; omega)
    rw [len'] at read
    rw [len] at written
    refine ⟨{ node with childNodeId := ptrs },mem,?_,by simpa using body.setChildren ptrs,kind,rfl,held,.refl _ mem⟩
    simp only [length_nil,Node.mergeKeys,read,Node.setChildBlockId,written,some_bind]
    rfl
  | cons k todo ih =>
    obtain ⟨c,todoC,rfl⟩ := exists_cons_of_length_eq_add_one len''
    simp only [total_cons,length_cons] at free few len'' ⊢
    have readKey := source.body.getKey.1
    have readChild := source.getChildBlockId
    rw [len'] at readChild
    obtain ⟨node1,mem1,inserted,body1,appended⟩ := insertKey_gap k (body.room (by omega)) body.start kind
      (by simpa using body.actual) (body.keys.push (by omega))
    obtain ⟨ptrs,written,held⟩ := children.push (y := c) (by omega)
    rw [len] at written
    have block : node1.blockId = node.blockId := appended.same.blockId
    have offset := appended.offset
    have source1 : Internal d mem1.mmap right (done++[k]++todo) (doneC++[c]++todoC) := by
      simpa using source.frame (appended.only.sameBlock other)
    obtain ⟨node2,mem2,merged,body2,kind2,block2,held2,only⟩ := ih (body1.setChildren ptrs)
      (appended.same.isLeaf.trans kind) held (by simp [len]) source1 (by simp [len']) (by omega)
      (by simp only [block]; exact other) (by simp; omega) (by simp only [offset]; omega)
    refine ⟨node2,mem2,?_,by simpa using body2,kind2,block2.trans block,by simpa using held2,
      appended.only.trans (block ▸ only)⟩
    simp only [length_append,length_singleton] at merged
    simp only [Node.mergeKeys,readKey,readChild,inserted,Node.setChildBlockId,appended.same.children,written,
      some_bind]
    exact merged

lemma Internal.mergeInternal (holds : Internal d mem.mmap node ks cs)
    (len : cs.length = ks.length+1) (source : Internal d mem.mmap right rs ds) (len' : ds.length = rs.length+1)
    (other : right.blockId ≠ node.blockId) (key : Bytes) (few : ks.length+1+rs.length ≤ d)
    (free : node.unusedMemOffset+right.actualMemRequired+size key ≤ blockSize) :
    ∃ node' mem', node.mergeInternal mem right key = some (node',mem') ∧
      Internal d mem'.mmap node' (ks++key::rs) (cs++ds) ∧ node'.blockId = node.blockId ∧
      Local node.blockId mem mem' := by
  have bound := holds.body.degree_lt
  have need := source.body.actual
  rw [total_nil] at need
  obtain ⟨node1,mem1,inserted,body1,appended⟩ := insertKey_gap key (holds.body.room (by omega)) holds.body.start
    holds.internal (by simpa using holds.body.actual) (holds.body.keys.push (by omega))
  have offset := appended.offset
  have source1 : Internal d mem1.mmap right ([]++rs) ([]++ds) := source.frame (appended.only.sameBlock other)
  obtain ⟨node2,mem2,merged,body2,kind,block,held,only⟩ := mergeKeys_append body1
    (appended.same.isLeaf.trans holds.internal) (by rw [appended.same.children]; exact holds.children) (by simp [len])
    source1 rfl len' (by rw [appended.same.blockId]; exact other) (by simp; omega)
    (by omega)
  have count : uint16 (node.nkeys+1+right.nkeys) = (ks++key::rs).length := by
    rw [holds.count,source.count,uint16_of_lt (by omega)]
    simp
    omega
  have after : Internal d mem2.mmap (node2.setNKeys (node.nkeys+1+right.nkeys)) (ks++key::rs) (cs++ds) :=
    (by simpa using body2 : Body d mem2.mmap node2 (ks++key::rs) []).internal kind count held
  refine ⟨_,node.note mem _ mem2 id none none,?_,after,block.trans appended.same.blockId,
    holds.noted after (appended.only.trans (appended.same.blockId ▸ only)) (moved_append none)⟩
  rw [← holds.count] at inserted
  simp only [length_append,length_singleton,length_nil,← holds.count,← source.count] at merged
  simp only [Node.mergeInternal,inserted,merged,some_bind]
  rfl

lemma Filling.setChildren (filling : Filling d k f node ks vs) (ptrs : List Nat) :
    Filling d k f { node with childNodeId := ptrs } ks vs :=
  ⟨filling.file,filling.inside,filling.start,filling.keys,filling.vals,filling.noVals,filling.actual,filling.full,
    filling.high⟩

lemma Filling.insertKeyInPos (filling : Filling d (k+1) mem.mmap node ks []) (kind : node.isLeaf = false)
    (key : Bytes) (free : node.unusedMemOffset+size key ≤ blockSize) :
    ∃ node' mem', node.insertKeyInPos mem k key = some (node',mem') ∧ Filling d k mem'.mmap node' (key::ks) [] ∧
      Appended (size key) node mem node' mem' := by
  obtain ⟨node',mem',inserted,appended,keyed,_⟩ := insertKey_fill
    (Q := fun f area ptrs => Tail f area d k ptrs (key::ks)) (filling.room free)
    (fun f area p keeps cell => (filling.keys.mono keeps).fill cell)
  have same := appended.same
  refine ⟨node',mem',inserted,⟨?_,?_,?_,keyed,?_,fun _ => rfl,?_,?_,?_⟩,appended⟩
  · exact appended.only.size.trans filling.file
  · rw [same.blockId]
    exact filling.inside
  · rw [same.start,same.isLeaf,filling.start]
  · simp [same.isLeaf,kind]
  · rw [appended.actual,filling.actual,total_cons]
    omega
  · rw [appended.offset,filling.full,same.start,appended.actual]
    omega
  · rwa [appended.offset]

lemma holds_dropLast (children : Slices.Holds (d+1) (cs++[c]) ptrs) :
    ∃ ptrs', put ptrs cs.length 0 = some ptrs' ∧ Slices.Holds (d+1) cs ptrs' := by
  obtain ⟨ptrs',cleared,held⟩ := children.put (y := 0) rfl
  exact ⟨ptrs',cleared,held.take⟩

/-- The upper keys and the children behind them go to a new node, the last ones first. -/
lemma moveChildren_append (body : Body d mem.mmap node (ks++todo) []) (kind : node.isLeaf = false)
    (children : Slices.Holds (d+1) (cs++todoC) node.childNodeId) (len : cs.length = ks.length+1)
    (len' : todoC.length = todo.length) (filling : Filling d todo.length mem.mmap right done [])
    (kind' : right.isLeaf = false) (slots : Slices.Holds (d+1) (front++doneC) right.childNodeId)
    (len'' : front.length = todo.length+1) (other : node.blockId ≠ right.blockId)
    (free : right.unusedMemOffset+total todo ≤ blockSize) :
    ∃ node' right' mem', Node.moveChildren ks.length todo.length node right mem = some (node',right',mem') ∧
      Body d mem'.mmap node' ks [] ∧ node'.isLeaf = false ∧ node'.blockId = node.blockId ∧
      Slices.Holds (d+1) cs node'.childNodeId ∧
      Body d mem'.mmap right' (todo++done) [] ∧ right'.isLeaf = false ∧ right'.blockId = right.blockId ∧
      (∃ z, Slices.Holds (d+1) (z::(todoC++doneC)) right'.childNodeId) ∧ Local right.blockId mem mem' ∧
      right'.Tidy ∧ mem'.history = mem.history := by
  induction todo using List.reverseRecOn generalizing node right mem todoC done doneC front with
  | nil =>
    obtain rfl := length_eq_zero_iff.mp len'
    obtain ⟨z,rfl⟩ := length_eq_one_iff.mp len''
    exact ⟨node,right,mem,rfl,by simpa using body,kind,rfl,by simpa using children,filling.body,kind',rfl,
      ⟨z,slots⟩,.refl _ mem,filling.full,rfl⟩
  | append_singleton todo k ih =>
    obtain ⟨todoC,c,rfl⟩ := (eq_nil_or_concat' todoC).resolve_left (by rintro rfl; simp at len')
    obtain ⟨front,z,rfl⟩ := (eq_nil_or_concat' front).resolve_left (by rintro rfl; simp at len'')
    simp only [length_append,length_singleton,total_append,total_cons,total_nil] at len' len'' free filling ⊢
    rw [← append_assoc] at body children
    have readKey := body.getKey.1
    have readChild : node.getChildBlockId (cs++todoC).length = some c := children.get rfl
    obtain ⟨right1,mem1,inserted,filling1,appended⟩ := filling.insertKeyInPos kind' k (by omega)
    have quiet := ((filling.room (by omega)).insertKeyInPos_history inserted).2
    rw [append_assoc,singleton_append] at slots
    obtain ⟨ptrs,written,slots1⟩ := slots.put (y := c) rfl
    obtain ⟨node1,cleared,body1,same1⟩ := (body.frame (appended.only.sameBlock other)).clearKey
    obtain ⟨ptrs',erased,children1⟩ := holds_dropLast children
    have block : node1.blockId = node.blockId := same1.blockId
    have block' : right1.blockId = right.blockId := appended.same.blockId
    have offset := appended.offset
    obtain ⟨node',right',mem',moved,body',kind1,block1,held,body2,kind2,block2,held2,only,tidy,quiet'⟩ :=
      ih (body1.setChildren ptrs') (same1.isLeaf.trans kind) children1 (by omega) (filling1.setChildren ptrs)
      (appended.same.isLeaf.trans kind') slots1 (by omega) (by simp only [block,block']; exact other)
      (by simp only [offset]; omega)
    refine ⟨node',right',mem',?_,body',kind1,block1.trans block,held,by simpa using body2,kind2,block2.trans block',
      by simpa using held2,appended.only.trans (block' ▸ only),tidy,quiet'.trans quiet⟩
    simp only [length_append] at readKey readChild cleared erased
    rw [show cs.length+todoC.length = ks.length+todo.length+1 by omega] at readChild erased
    rw [show front.length = todo.length+1 by omega] at written
    simp only [Node.moveChildren,readKey,readChild,inserted,Node.setChildBlockId,appended.same.children,written,cleared,
      same1.children,erased,some_bind]
    exact moved

end
end CodeExercise.BTreeMmap
