import CodeExercise.BTreeMmapCompact
import CodeExercise.SortedMaps

/-!
What the operations on one leaf do, in terms of the entries it holds. An insertion in front of other
entries finds its slots half moved, so there must be unused memory and no compaction may run
(`Leaf.insertNew`). Where an entry is appended or updated all slots are in place, and a compaction is
harmless.
-/
namespace CodeExercise.BTreeMmap
open Slices Files Uvarints SortedMaps List Option

/-- The elements of `xs` are in `ys` where `moved` says, apart from the one that goes. -/
def Moved (moved : Nat → Nat) (out : Option Nat) (xs ys : List Bytes) : Prop :=
  ∀ j < xs.length, out ≠ some j → ys[moved j]? = xs[j]?

section
variable {pre post xs : List Bytes} {x : Bytes} {i : Nat}

lemma moved_insert (at_i : pre.length = i) :
    Moved (fun j => if j < i then j else j+1) none (pre++post) (pre++x::post) := by
  subst at_i
  intro j inside _
  by_cases early : j < pre.length
  · simp only [if_pos early]
    rw [getElem?_append_left early,getElem?_append_left early]
  · simp only [if_neg early]
    rw [getElem?_append_right (by omega),getElem?_append_right (by omega),
      show j+1-pre.length = j-pre.length+1 by omega,getElem?_cons_succ]

lemma moved_update (at_i : pre.length = i) : Moved id (some i) (pre++x::post) (pre++y::post) := by
  subst at_i
  intro j inside other
  have apart : j ≠ pre.length := fun same => other (by rw [same])
  simp only [id]
  by_cases early : j < pre.length
  · rw [getElem?_append_left early,getElem?_append_left early]
  · obtain ⟨k,rfl⟩ : ∃ k, j = pre.length+1+k := ⟨j-pre.length-1,by omega⟩
    rw [getElem?_append_right (by omega),getElem?_append_right (by omega),
      show pre.length+1+k-pre.length = k+1 by omega,getElem?_cons_succ,getElem?_cons_succ]

lemma moved_append (out : Option Nat) : Moved id out xs (xs++post) := by
  intro j inside _
  exact getElem?_append_left inside

lemma moved_same (out : Option Nat) : Moved id out xs xs := fun _ _ _ => rfl
lemma moved_cons : Moved (· + 1) none xs (x::xs) := fun _ _ _ => getElem?_cons_succ

end

variable {ks vs : List Bytes}

lemma kept_edit
    (keys : Moved moved keyOut ks ks') (vals : Moved moved valOut vs vs') :
    (Event.edit (ks.map some) (ks'.map some) (vs.map some) (vs'.map some) moved keyOut valOut).Kept := by
  refine ⟨fun j inside other => ?_,fun j inside other => ?_⟩
  · rw [length_map] at inside
    rw [getElem?_map,getElem?_map,keys j inside other]
  · rw [length_map] at inside
    rw [getElem?_map,getElem?_map,vals j inside other]

lemma Local.note {node after : Node} {mem mem' : Mem} {moved : Nat → Nat} {keyOut valOut : Option Nat}
    (only : Local b mem mem')
    (kept : (Event.edit (node.keys mem) (after.keys mem') (node.vals mem) (after.vals mem') moved keyOut valOut).Kept) :
    Local b mem (node.note mem after mem' moved keyOut valOut) := by
  refine ⟨only.size,only.outside,fun before e member => ?_⟩
  rcases mem_append.mp member with old | new
  · exact only.kept before e old
  · rwa [mem_singleton.mp new]

/-- The slots of a leaf hold its entries in order. -/
structure Leaf (d : Nat) (f : File) (node : Node) (es : List (Bytes × Bytes)) : Prop where
  body : Body d f node (es.map Prod.fst) (es.map Prod.snd)
  leaf : node.isLeaf = true
  count : node.nkeys = es.length

lemma Appended.body
    (appended : Appended n node mem node' mem') (room : Room n node mem)
    (start : node.unusedMemStart = blockMagic.length+DB.tableSize d node.isLeaf)
    (keys : Column mem'.mmap node'.area d node'.keyPtrArr ks)
    (vals : node.isLeaf = true → Column mem'.mmap node'.area d node'.valPtrArr vs) (noVals : node.isLeaf = false → vs = [])
    (actual : a = total ks+total vs) (less : a ≤ node.actualMemRequired+n) :
    Body d mem'.mmap { node' with actualMemRequired := a } ks vs where
  file := appended.only.size.trans room.file
  inside := by simpa only [appended.same.blockId] using room.inside
  start := by simpa only [appended.same.start,appended.same.isLeaf] using start
  keys := keys
  vals kind := vals (appended.same.isLeaf ▸ kind)
  noVals kind := noVals (appended.same.isLeaf ▸ kind)
  actual := actual
  low := by
    have := room.low
    simp only [appended.same.start,appended.offset]
    omega
  high := by
    have := room.room
    simp only [appended.offset]
    omega

lemma Body.setNKeys (body : Body d f node ks vs) (n : Nat) :
    Body d f (node.setNKeys n) ks vs :=
  { body with }

section
variable {d : Nat} {f : File} {node : Node} {mem : Mem} {es pre post : List (Bytes × Bytes)} {key val : Bytes}

variable {ks vs : List Bytes}

lemma Body.degree_lt (body : Body d f node ks vs) : d < 1024 := by
  have start := body.start
  have low := body.low
  have high := body.high
  simp only [DB.tableSize,blockSize,blockMagic,length_cons,length_nil] at start high
  split at start <;> omega

lemma Body.length_lt (body : Body d f node ks vs) : ks.length < 1024 :=
  body.keys.length_le.trans_lt body.degree_lt

lemma Body.slots (body : Body d mem.mmap node ks vs) (count : node.nkeys = ks.length) :
    node.keys mem = ks.map some := by
  refine ext_getElem (by simp [Node.keys,count]) fun i here there => ?_
  have inside : i < ks.length := by simpa using there
  have read := body.getKey? inside
  rw [getElem?_eq_getElem inside] at read
  simpa [Node.keys] using read

lemma Leaf.slots (leaf : Leaf d mem.mmap node es) :
    node.keys mem = (es.map Prod.fst).map some ∧ node.vals mem = (es.map Prod.snd).map some := by
  obtain ⟨body,kind,count⟩ := leaf
  refine ⟨body.slots (by simpa using count),?_⟩
  simp only [Node.vals,kind,if_true]
  refine ext_getElem (by simp [count]) fun i here there => ?_
  have inside : i < (es.map Prod.snd).length := by simpa using there
  have read := body.getVal? inside
  rw [getElem?_eq_getElem inside] at read
  simpa using read

lemma Leaf.noted
    (before : Leaf d mem.mmap node es) (after : Leaf d mem'.mmap node' es')
    (only : Local b mem mem') (keys : Moved moved keyOut (es.map Prod.fst) (es'.map Prod.fst))
    (vals : Moved moved valOut (es.map Prod.snd) (es'.map Prod.snd)) :
    Local b mem (node.note mem node' mem' moved keyOut valOut) := by
  refine only.note ?_
  rw [before.slots.1,before.slots.2,after.slots.1,after.slots.2]
  exact kept_edit keys vals

lemma Leaf.get (leaf : Leaf d mem.mmap node (pre++(key,val)::post)) :
    node.getKey mem pre.length = some key ∧ node.getVal mem pre.length = some val := by
  have body := leaf.body
  rw [map_append,map_append,map_cons,map_cons] at body
  have readKey := body.getKey.1
  have readVal := body.getVal.1
  rw [length_map] at readKey readVal
  exact ⟨readKey,readVal⟩

lemma Leaf.seek (leaf : Leaf d mem.mmap node es) (p : Bytes → Bool) : ∃ pre post, es = pre++post ∧
    node.seek mem p 0 node.nkeys = some pre.length ∧ (∀ e ∈ pre, p e.1 = false) ∧ ∀ e ∈ post.head?, p e.1 = true := by
  obtain ⟨left,right,cut,sought,misses,hit⟩ := leaf.body.seek (by simpa using leaf.count) p
  exact exists_entries_cut cut sought misses hit

lemma Leaf.seekKey (leaf : Leaf d mem.mmap node es) (key : Bytes) (p : Bytes → Bool)
    (stops : ∀ x, p x = true ↔ key ≤ x) :
    ∃ pre post, es = pre++post ∧ node.seek mem p 0 node.nkeys = some pre.length ∧ (∀ e ∈ pre, e.1 < key) ∧
      ((pre.length < node.nkeys ∧ node.getKey mem pre.length = some key) ∧ (∃ w rest, post = (key,w)::rest) ∨
        ¬ (pre.length < node.nkeys ∧ node.getKey mem pre.length = some key) ∧ ∀ e ∈ post.head?, key < e.1) := by
  obtain ⟨pre,post,rfl,sought,misses,hit⟩ := leaf.seek p
  refine ⟨pre,post,rfl,sought,place_of_stop stops misses hit leaf.count (fun e head => ?_)⟩
  rw [eq_cons_of_mem_head? head] at leaf
  exact (show Leaf d mem.mmap node (pre++(e.1,e.2)::post.tail) from leaf).get.1

/-- An entry gets a new value and the others stay. -/
lemma Leaf.updateVal (leaf : Leaf d mem.mmap node (pre++(key,old)::post))
    (fits : node.unusedMemStart+node.actualMemRequired+size val ≤ blockSize) :
    ∃ node' mem', node.updateVal mem pre.length val = some (node',mem',true) ∧
      Leaf d mem'.mmap node' (pre++(key,val)::post) ∧ node'.blockId = node.blockId ∧
      Local node.blockId mem mem' := by
  obtain ⟨body,kind,count⟩ := leaf
  have before : Leaf d mem.mmap node (pre++(key,old)::post) := ⟨body,kind,count⟩
  obtain ⟨node1,mem1,enough,body1,same,room,_,actual1,only1⟩ := body.spaceIsEnough (by simpa using count)
    (fun _ => by simp) fits
  have kind1 : node1.isLeaf = true := by rw [same.isLeaf,kind]
  have sizeOld : node.getValSize mem pre.length = some (size old) := by
    rw [map_append,map_append,map_cons,map_cons] at body
    simpa using body.getVal.2
  have slots := body1.vals kind1
  rw [map_append,map_cons] at slots
  obtain ⟨node2,mem2,inserted,appended,valued,keys⟩ := insertVal_fill (i := pre.length)
    (Q := fun f area ptrs => Column f area d ptrs ((pre++(key,val)::post).map Prod.snd)) room
    (fun f area p keeps cell => by simpa using (slots.gap.mono keeps).fill cell)
  have actual : node.actualMemRequired+size val-size old =
      total ((pre++(key,val)::post).map Prod.fst)+total ((pre++(key,val)::post).map Prod.snd) := by
    rw [body.actual]
    simp
    omega
  have known := body.actual
  have high := room.room
  have low := body1.low
  simp only [map_append,map_cons,total_append,total_cons,blockSize] at known high
  have reduced : sub16 node2.actualMemRequired (size old) = node.actualMemRequired+size val-size old := by
    rw [appended.actual,actual1]
    exact sub16_of_le (by omega) (by omega)
  have body2 := appended.body room body1.start (keys ▸ body1.keys.mono appended.keeps) (fun _ => valued)
    (by simp [kind1]) (show sub16 node2.actualMemRequired (size old) = _ from reduced.trans (by simpa using actual))
    (by omega)
  have after : Leaf d mem2.mmap { node2 with actualMemRequired := sub16 node2.actualMemRequired (size old) }
      (pre++(key,val)::post) := by
    refine ⟨by simpa using body2,by simp only [appended.same.isLeaf,kind1],?_⟩
    simp only [appended.same.nkeys,same.nkeys,count]
    simp
  have only : Local node.blockId mem mem2 := only1.trans (same.blockId ▸ appended.only)
  refine ⟨_,node.note mem _ mem2 id none (some pre.length),?_,after,?_,before.noted after only ?_ ?_⟩
  · simp only [Node.updateVal,sizeOld,insertValInPos_of_enough enough room,inserted,some_bind,
      if_true]
    rfl
  · simp only [appended.same.blockId,same.blockId]
  · simpa using moved_same none
  · simpa using moved_update (by simp)

/-- There is room at a slot: unused memory, or all slots are in place for a compaction. -/
def Node.Fits (node : Node) (i n : Nat) : Prop :=
  node.unusedMemOffset+n ≤ blockSize ∨ i = node.nkeys ∧ node.unusedMemStart+node.actualMemRequired+n ≤ blockSize
deriving Decidable

lemma Node.Fits.less (fits : node.Fits i m) (less : n ≤ m) : node.Fits i n := by
  simp only [Node.Fits] at fits ⊢
  omega

lemma insertKv_gap (key val : Bytes) (room : Room (size key+size val) node mem)
    (start : node.unusedMemStart = blockMagic.length+DB.tableSize d node.isLeaf) (leaf : node.isLeaf = true)
    (actual : node.actualMemRequired = total ks+total vs+total kpost+total vpost)
    (keys : Gap mem.mmap node.area d node.keyPtrArr ks kpost) (vals : Gap mem.mmap node.area d node.valPtrArr vs vpost)
    (len : vs.length = ks.length) :
    ∃ node' mem', node.insertKvInPos mem ks.length key val = some (node',mem',true) ∧
      Body d mem'.mmap node' (ks++key::kpost) (vs++val::vpost) ∧
      Appended (size key+size val) node mem node' mem' := by
  obtain ⟨node',mem',inserted,appended,keyed,valued⟩ := insertKv_fill
    (Q := fun f area ptrs => Column f area d ptrs (ks++key::kpost))
    (R := fun f area ptrs => Column f area d ptrs (vs++val::vpost)) room
    (fun f area p keeps cell => (keys.mono keeps).fill cell)
    (fun f area p keeps cell => len ▸ (vals.mono keeps).fill cell)
    (fun f g area area' ptrs keeps column => column.mono keeps)
  refine ⟨node',mem',inserted,?_,appended⟩
  refine appended.body room start keyed (fun _ => valued) (by simp [leaf]) ?_ appended.actual.le
  rw [appended.actual,actual]
  simp
  omega

section
variable (leaf : Leaf d mem.mmap node (pre++post))
include leaf

section
variable (few : (pre++post).length < d)
include few

lemma Leaf.makeRoom
    (fits : node.Fits pre.length n) : ∃ keyPtrArr valPtrArr node' mem',
      Slices.shiftUp pre.length (node.nkeys-pre.length) node.keyPtrArr = some keyPtrArr ∧
      Slices.shiftUp pre.length (node.nkeys-pre.length) node.valPtrArr = some valPtrArr ∧
      Node.spaceIsEnough { node with keyPtrArr, valPtrArr } mem n = some (node',mem',true) ∧ Room n node' mem' ∧
      Gap mem'.mmap node'.area d node'.keyPtrArr (pre.map Prod.fst) (post.map Prod.fst) ∧
      Gap mem'.mmap node'.area d node'.valPtrArr (pre.map Prod.snd) (post.map Prod.snd) ∧ node.Same node' ∧
      node'.actualMemRequired = node.actualMemRequired ∧ Local node.blockId mem mem' := by
  obtain ⟨body,kind,count⟩ := leaf
  have moved : node.nkeys-pre.length = post.length := by
    rw [count,length_append]
    omega
  rw [moved]
  rcases fits with free | ⟨last,fits⟩
  · have keys := body.keys
    have vals := body.vals kind
    rw [map_append] at keys vals
    obtain ⟨keyPtrArr,movedKeys,gapKeys⟩ := keys.shiftUp (by simpa using few)
    obtain ⟨valPtrArr,movedVals,gapVals⟩ := vals.shiftUp (by simpa using few)
    simp only [length_map] at movedKeys movedVals
    exact ⟨keyPtrArr,valPtrArr,_,mem,movedKeys,movedVals,if_pos free,⟨body.file,body.inside,body.low,free⟩,gapKeys,gapVals,
      ⟨rfl,rfl,rfl,rfl,rfl⟩,rfl,.refl _ mem⟩
  · obtain rfl : post = [] := length_eq_zero_iff.mp (by omega)
    rw [append_nil] at body few count
    obtain ⟨node',mem',enough,body',same,room,_,actual,only⟩ := body.spaceIsEnough (by simpa using count)
      (fun _ => by simp) fits
    exact ⟨node.keyPtrArr,node.valPtrArr,node',mem',rfl,rfl,enough,room,body'.keys.push (by simpa using few),
      (body'.vals (by rw [same.isLeaf,kind])).push (by simpa using few),same,actual,only⟩

lemma Leaf.insertKv
    (same : node.Same node1) (room : Room (size key+size val) node1 mem1)
    (actual : node1.actualMemRequired = node.actualMemRequired)
    (keys : Gap mem1.mmap node1.area d node1.keyPtrArr (pre.map Prod.fst) (post.map Prod.fst))
    (vals : Gap mem1.mmap node1.area d node1.valPtrArr (pre.map Prod.snd) (post.map Prod.snd)) :
    ∃ node2 mem2, node1.insertKvInPos mem1 pre.length key val = some (node2,mem2,true) ∧
      Leaf d mem2.mmap (node2.setNKeys (node2.nkeys+1)) (pre++(key,val)::post) ∧ node2.blockId = node.blockId ∧
      Local node.blockId mem1 mem2 := by
  have kind : node1.isLeaf = true := by rw [same.isLeaf,leaf.leaf]
  have bound := leaf.body.degree_lt
  obtain ⟨node2,mem2,inserted,body,appended⟩ := insertKv_gap key val room
    (by rw [same.start,same.isLeaf,leaf.body.start]) kind
    (by rw [actual,leaf.body.actual]; simp; omega) keys vals (by simp)
  rw [length_map] at inserted
  have count : node2.nkeys+1 = (pre++(key,val)::post).length := by
    rw [appended.same.nkeys,same.nkeys,leaf.count]
    simp
    omega
  refine ⟨node2,mem2,inserted,⟨?_,?_,?_⟩,appended.same.blockId.trans same.blockId,same.blockId ▸ appended.only⟩
  · simpa using body.setNKeys (node2.nkeys+1)
  · simp only [Node.setNKeys,appended.same.isLeaf,kind]
  · simp only [Node.setNKeys]
    rw [uint16_of_lt,count]
    simp at few count
    omega

/-- A new entry takes its place among the others. -/
lemma Leaf.insertNew
    (fits : node.Fits pre.length (size key+size val)) :
    ∃ node' mem', node.insertNew mem pre.length key val = some (node',mem') ∧
      Leaf d mem'.mmap node' (pre++(key,val)::post) ∧ node'.blockId = node.blockId ∧
      Local node.blockId mem mem' := by
  obtain ⟨keyPtrArr,valPtrArr,node1,mem1,movedKeys,movedVals,enough,room,gapKeys,gapVals,same,actual,only1⟩ :=
    leaf.makeRoom few fits
  obtain ⟨node2,mem2,inserted,after,block,only2⟩ := leaf.insertKv few same room actual gapKeys gapVals
  refine ⟨_,node.note mem _ mem2 (fun j => if j < pre.length then j else j+1) none none,?_,after,block,
    leaf.noted after (only1.trans only2) ?_ ?_⟩
  · simp only [Node.insertNew,movedKeys,movedVals,insertKvInPos_of_enough enough room,inserted,some_bind]
    rfl
  · simpa using moved_insert (by simp)
  · simpa using moved_insert (by simp)

end
end

lemma Leaf.appendMaxKeyVal (leaf : Leaf d mem.mmap node es) (key val : Bytes) (few : es.length < d)
    (free : node.unusedMemOffset+(size key+size val) ≤ blockSize) :
    ∃ node' mem', node.appendMaxKeyVal mem key val = some (node',mem') ∧
      Leaf d mem'.mmap node' (es++[(key,val)]) ∧ node'.blockId = node.blockId ∧ Local node.blockId mem mem' := by
  have whole : Leaf d mem.mmap node (es++[]) := by simpa using leaf
  obtain ⟨node2,mem2,inserted,after,block,only⟩ := whole.insertKv (by simpa using few) (.refl node)
    (leaf.body.room free) rfl (leaf.body.keys.push (by simpa using few))
    ((leaf.body.vals leaf.leaf).push (by simpa using few))
  refine ⟨_,node.note mem _ mem2 id none none,?_,after,block,leaf.noted after only ?_ ?_⟩
  · rw [← leaf.count] at inserted
    simp only [Node.appendMaxKeyVal,inserted,some_bind]
    rfl
  · simpa using moved_append none
  · simpa using moved_append none

lemma Leaf.updateVal_refused (leaf : Leaf d mem.mmap node (pre++(key,old)::post))
    (small : size val < 65536) (full : ¬ node.unusedMemStart+node.actualMemRequired+size val ≤ blockSize) :
    node.updateVal mem pre.length val = some (node,mem,false) := by
  have body := leaf.body
  rw [map_append,map_append,map_cons,map_cons] at body
  have sizeOld : node.getValSize mem pre.length = some (size old) := by simpa using body.getVal.2
  simp only [Node.updateVal,sizeOld,Node.insertValInPos,calcRequiredMemSerialized_eq small,
    body.spaceIsEnough_not small full,some_bind]
  rfl

lemma Leaf.delKeyValByIndex (leaf : Leaf d mem.mmap node (pre++(key,val)::post)) :
    ∃ node', node.delKeyValByIndex mem pre.length = some node' ∧ Leaf d mem.mmap node' (pre++post) ∧
      node'.blockId = node.blockId ∧ node'.unusedMemOffset = node.unusedMemOffset ∧
      node'.actualMemRequired ≤ node.actualMemRequired := by
  obtain ⟨⟨file,inside,start,keys,vals,noVals,actual,low,high⟩,kind,count⟩ := leaf
  have body : Body d mem.mmap node _ _ := ⟨file,inside,start,keys,vals,noVals,actual,low,high⟩
  rw [map_append,map_append,map_cons,map_cons] at body
  have sizeKey := body.getKey.2
  have sizeVal := body.getVal.2
  have known := body.actual
  simp only [total_append,total_cons] at known
  rw [length_map] at sizeKey sizeVal
  have small : node.unusedMemOffset ≤ 4096 := high
  have count' : node.nkeys = (pre.map Prod.fst).length+(post.map Prod.fst).length+1 := by
    rw [count]
    simp
    omega
  have few : node.nkeys < 1024 := by
    have := body.length_lt
    rw [length_append,length_cons] at this
    omega
  obtain ⟨clearedKeys,keyPtrArr,zeroedKey,movedKeys,keyed⟩ := body.keys.delete count'
  obtain ⟨clearedVals,valPtrArr,zeroedVal,movedVals,valued⟩ := (body.vals kind).delete (by simpa using count')
  rw [length_map] at zeroedKey movedKeys zeroedVal movedVals
  refine ⟨{ node with
      nkeys := node.nkeys-1
      keyPtrArr
      valPtrArr
      actualMemRequired := node.actualMemRequired-size key-size val },?_,⟨⟨file,inside,start,?_,?_,?_,?_,?_,high⟩,kind,?_⟩,
    rfl,rfl,?_⟩
  · simp only [Node.delKeyValByIndex,Node.clearKey,Node.clearVal,Node.getValSize,bind_eq_bind] at sizeVal ⊢
    simp only [sizeKey,zeroedKey,sizeVal,zeroedVal,movedKeys,movedVals,bind_some,Option.pure_def]
    rw [sub16_of_le (show 1 ≤ node.nkeys by omega) (by omega),
      sub16_of_le (show size key ≤ node.actualMemRequired by omega) (by omega),
      sub16_of_le (show size val ≤ node.actualMemRequired-size key by omega) (by omega)]
  · rwa [map_append]
  · intro _
    rwa [map_append]
  · simp [kind]
  · simp only [map_append,total_append]
    omega
  · simp only
    omega
  · simp only [count]
    simp
  · simp only
    omega

/-- The entry of a key is taken out. -/
lemma Leaf.deleteInLeaf (leaf : Leaf d mem.mmap node es) (sorted : es.Pairwise (fun a b => a.1 < b.1))
    (below : ∃ e ∈ es, key ≤ e.1) : ∃ node', node.deleteInLeaf mem key = some node' ∧
      Leaf d mem.mmap node' (dropEntry key es) ∧ node'.blockId = node.blockId ∧
      node'.unusedMemOffset = node.unusedMemOffset ∧ node'.actualMemRequired ≤ node.actualMemRequired := by
  obtain ⟨pre,post,rfl,sought,less,place⟩ := leaf.seekKey key (fun k => decide (key ≤ k)) (by simp)
  rcases place with ⟨found,w,rest,rfl⟩ | ⟨missing,above⟩
  · obtain ⟨node',removed,after,block,offset,actual⟩ := leaf.delKeyValByIndex
    refine ⟨node',?_,by rw [dropEntry,filter_ne_cons sorted]; exact after,block,offset,actual⟩
    simp only [Node.deleteInLeaf,sought,found.2,some_bind,any_some,lt_irrefl,decide_false,
      Bool.false_eq_true,and_false,if_false]
    exact removed
  · refine ⟨node,?_,by rw [dropEntry,filter_ne_append sorted less above]; exact leaf,rfl,rfl,le_rfl⟩
    cases post with
    | nil =>
      obtain ⟨e,member,above⟩ := below
      exact absurd (less e (by simpa using member)) above.not_gt
    | cons first post =>
      have inside : pre.length < node.nkeys := by simp [leaf.count]
      simp only [Node.deleteInLeaf,sought,(Leaf.get leaf).1,some_bind,any_some,inside,
        above first rfl,decide_true,and_self,if_true]
      rfl

lemma Leaf.removeMinKeyVal (leaf : Leaf d mem.mmap node ((key,val)::es)) :
    ∃ node', node.removeMinKeyVal mem = some (node',key,val) ∧ Leaf d mem.mmap node' es ∧
      node'.blockId = node.blockId ∧ node'.unusedMemOffset = node.unusedMemOffset := by
  have first : Leaf d mem.mmap node ([]++(key,val)::es) := leaf
  obtain ⟨readKey,readVal⟩ := first.get
  obtain ⟨node',removed,after,block,offset,_⟩ := first.delKeyValByIndex
  refine ⟨node',?_,after,block,offset⟩
  rw [length_nil] at readKey readVal removed
  simp only [Node.removeMinKeyVal,readKey,readVal,removed,some_bind]
  rfl

lemma Leaf.removeMaxKeyVal (leaf : Leaf d mem.mmap node (es++[(key,val)])) :
    ∃ node', node.removeMaxKeyVal mem = some (node',key,val) ∧ Leaf d mem.mmap node' es ∧
      node'.blockId = node.blockId ∧ node'.unusedMemOffset = node.unusedMemOffset := by
  obtain ⟨readKey,readVal⟩ := leaf.get
  obtain ⟨node',removed,after,block,offset,_⟩ := leaf.delKeyValByIndex
  have last : node.nkeys-1 = es.length := by
    rw [leaf.count]
    simp
  refine ⟨node',?_,by simpa using after,block,offset⟩
  simp only [Node.removeMaxKeyVal,last,readKey,readVal,removed,some_bind]
  rfl

end

/-! ## Internal nodes -/

/-- The slots of an internal node hold its keys and the blocks of its children. -/
structure Internal (d : Nat) (f : File) (node : Node) (ks : List Bytes) (cs : List Nat) : Prop where
  body : Body d f node ks []
  internal : node.isLeaf = false
  count : node.nkeys = ks.length
  children : Slices.Holds (d+1) cs node.childNodeId

section
variable {d n : Nat} {f : File} {node : Node} {mem : Mem} {ks pre post : List Bytes} {cs left right ptrs : List Nat}
  {key : Bytes} {b : Nat}

lemma Body.setChildren (body : Body d f node ks vs) (ptrs : List Nat) :
    Body d f { node with childNodeId := ptrs } ks vs :=
  { body with }

lemma Body.internal (body : Body d f node ks []) (kind : node.isLeaf = false) (count : n = ks.length)
    (children : Slices.Holds (d+1) cs ptrs) : Internal d f { node with nkeys := n, childNodeId := ptrs } ks cs :=
  ⟨{ body with },kind,count,children⟩

lemma Internal.frame (holds : Internal d f node ks cs) (same : SameBlock node.blockId f g) :
    Internal d g node ks cs := { holds with body := holds.body.frame same }

lemma Internal.slots (holds : Internal d mem.mmap node ks cs) :
    node.keys mem = ks.map some ∧ node.vals mem = ([] : List Bytes).map some := by
  refine ⟨holds.body.slots holds.count,?_⟩
  simp [Node.vals,holds.internal]

lemma Internal.noted
    (before : Internal d mem.mmap node ks cs) (after : Internal d mem'.mmap node' ks' cs')
    (only : Local c mem mem') (keys : Moved moved keyOut ks ks') :
    Local c mem (node.note mem node' mem' moved keyOut none) := by
  refine only.note ?_
  rw [before.slots.1,before.slots.2,after.slots.1,after.slots.2]
  exact kept_edit keys fun j inside _ => absurd inside (Nat.not_lt_zero j)

lemma Internal.getChildBlockId (holds : Internal d f node ks (left++b::right)) :
    node.getChildBlockId left.length = some b := holds.children.get rfl

lemma insertKey_gap (key : Bytes) (room : Room (size key) node mem)
    (start : node.unusedMemStart = blockMagic.length+DB.tableSize d node.isLeaf) (kind : node.isLeaf = false)
    (actual : node.actualMemRequired = total (pre++post)) (keys : Gap mem.mmap node.area d node.keyPtrArr pre post) :
    ∃ node' mem', node.insertKeyInPos mem pre.length key = some (node',mem') ∧
      Body d mem'.mmap node' (pre++key::post) [] ∧ Appended (size key) node mem node' mem' := by
  obtain ⟨node',mem',inserted,appended,keyed,_⟩ := insertKey_fill
    (Q := fun f area ptrs => Column f area d ptrs (pre++key::post)) room
    (fun f area p keeps cell => (keys.mono keeps).fill cell)
  refine ⟨node',mem',inserted,?_,appended⟩
  refine appended.body room start keyed (by simp [kind]) (fun _ => rfl) ?_ appended.actual.le
  rw [appended.actual,actual]
  simp
  omega

lemma Body.makeRoom (body : Body d mem.mmap node (pre++post) []) (kind : node.isLeaf = false)
    (count : node.nkeys = (pre++post).length) (few : (pre++post).length < d) (fits : node.Fits pre.length n) :
    ∃ keyPtrArr node' mem', Slices.shiftUp pre.length (node.nkeys-pre.length) node.keyPtrArr = some keyPtrArr ∧
      Node.spaceIsEnough { node with keyPtrArr } mem n = some (node',mem',true) ∧ Room n node' mem' ∧
      Gap mem'.mmap node'.area d node'.keyPtrArr pre post ∧ node.Same node' ∧
      node'.actualMemRequired = node.actualMemRequired ∧ Local node.blockId mem mem' := by
  have moved : node.nkeys-pre.length = post.length := by
    rw [count,length_append]
    omega
  rw [moved]
  rcases fits with free | ⟨last,fits⟩
  · obtain ⟨keyPtrArr,moved,gap⟩ := body.keys.shiftUp few
    exact ⟨keyPtrArr,_,mem,moved,if_pos free,⟨body.file,body.inside,body.low,free⟩,gap,⟨rfl,rfl,rfl,rfl,rfl⟩,rfl,
      .refl _ mem⟩
  · obtain rfl : post = [] := length_eq_zero_iff.mp (by omega)
    rw [append_nil] at body few count
    obtain ⟨node',mem',enough,body',same,room,_,actual,only⟩ := body.spaceIsEnough count (by simp [kind]) fits
    exact ⟨node.keyPtrArr,node',mem',rfl,enough,room,body'.keys.push few,same,actual,only⟩

/-- A key and a child behind it take their place. -/
lemma Internal.insertChild (holds : Internal d mem.mmap node (pre++post) (left++right)) (key : Bytes) (b : Nat)
    (len : left.length = pre.length+1) (len' : right.length = post.length) (few : (pre++post).length < d)
    (fits : node.Fits pre.length (size key)) :
    ∃ node' mem', node.insertChild mem pre.length key b = some (node',mem') ∧
      Internal d mem'.mmap node' (pre++key::post) (left++b::right) ∧ node'.blockId = node.blockId ∧
      Local node.blockId mem mem' := by
  have bound := holds.body.degree_lt
  have sizes : left.length+right.length = node.nkeys+1 := by
    rw [holds.count,length_append]
    omega
  have moved : node.nkeys-pre.length = right.length := by omega
  obtain ⟨z,childNodeId,movedChildren,held⟩ := holds.children.shiftUp (by simp at few ⊢; omega) len
  have base := holds.body.internal holds.internal holds.count held
  obtain ⟨keyPtrArr,node1,mem1,movedKeys,enough,room,gap,same,actual,only1⟩ :=
    base.body.makeRoom holds.internal holds.count few fits
  have kind : node1.isLeaf = false := same.isLeaf.trans holds.internal
  obtain ⟨node2,mem2,inserted,body2,appended⟩ := insertKey_gap key room
    (by rw [same.start,same.isLeaf,base.body.start]) kind (by rw [actual]; simpa using holds.body.actual) gap
  obtain ⟨childNodeId',written,held'⟩ := held.put (y := b) len
  have count : uint16 (node2.nkeys+1) = (pre++key::post).length := by
    rw [appended.same.nkeys,same.nkeys,holds.count,uint16_of_lt (by omega)]
    simp
    omega
  have after := body2.internal (appended.same.isLeaf.trans kind) count held'
  have children : node2.childNodeId = childNodeId := appended.same.children.trans same.children
  refine ⟨_,node.note mem _ mem2 (fun j => if j < pre.length then j else j+1) none none,?_,after,
    appended.same.blockId.trans same.blockId,holds.noted after (only1.trans (same.blockId ▸ appended.only))
      (moved_insert rfl)⟩
  rw [← moved] at movedChildren
  simp only [Node.insertChild,movedKeys,movedChildren,insertKeyInPos_of_enough enough room,inserted,some_bind,Node.setChildBlockId,children,written]
  rfl

lemma Internal.appendMaxKeyAndBlockId (holds : Internal d mem.mmap node ks cs) (len : cs.length = ks.length+1)
    (key : Bytes) (b : Nat) (few : ks.length < d) (free : node.unusedMemOffset+size key ≤ blockSize) :
    ∃ node' mem', node.appendMaxKeyAndBlockId mem key b = some (node',mem') ∧
      Internal d mem'.mmap node' (ks++[key]) (cs++[b]) ∧ node'.blockId = node.blockId ∧
      Local node.blockId mem mem' := by
  have bound := holds.body.degree_lt
  obtain ⟨node1,mem1,inserted,body,appended⟩ := insertKey_gap key (holds.body.room free) holds.body.start
    holds.internal (by simpa using holds.body.actual) (holds.body.keys.push few)
  obtain ⟨childNodeId,written,held⟩ := holds.children.push (y := b) (by omega)
  have count : uint16 (node.nkeys+1) = (ks++[key]).length := by
    rw [holds.count,uint16_of_lt (by omega)]
    simp
  have after := body.internal (appended.same.isLeaf.trans holds.internal) count held
  refine ⟨_,node.note mem _ mem1 id none none,?_,after,appended.same.blockId,holds.noted after appended.only
    (moved_append none)⟩
  rw [len,← holds.count] at written
  rw [← holds.count] at inserted
  simp only [Node.appendMaxKeyAndBlockId,inserted,some_bind,Node.setChildBlockId,
    appended.same.children,written]
  rfl

lemma Internal.appendMinKeyAndBlockId (holds : Internal d mem.mmap node ks cs) (len : cs.length = ks.length+1)
    (key : Bytes) (b : Nat) (few : ks.length < d) (free : node.unusedMemOffset+size key ≤ blockSize) :
    ∃ node' mem', node.appendMinKeyAndBlockId mem key b = some (node',mem') ∧
      Internal d mem'.mmap node' (key::ks) (b::cs) ∧ node'.blockId = node.blockId ∧
      Local node.blockId mem mem' := by
  have bound := holds.body.degree_lt
  obtain ⟨body,kind,count,children⟩ := holds
  have before : Internal d mem.mmap node ks cs := ⟨body,kind,count,children⟩
  have keys : Column mem.mmap node.area d node.keyPtrArr ([]++ks) := body.keys
  have children' : Slices.Holds (d+1) ([]++cs) node.childNodeId := children
  obtain ⟨keyPtrArr,movedKeys,gap⟩ := keys.shiftUp few
  obtain ⟨z,childNodeId,movedChildren,held⟩ := children'.shiftUp (i := 0) (by rw [nil_append]; omega) rfl
  have room : Room (size key) { node.setNKeys (node.nkeys+1) with keyPtrArr, childNodeId } mem :=
    ⟨body.file,body.inside,body.low,free⟩
  obtain ⟨node1,mem1,inserted,body1,appended⟩ := insertKey_gap key room body.start kind
    (show node.actualMemRequired = _ by simpa using body.actual) gap
  obtain ⟨childNodeId',written,held'⟩ := held.put (i := 0) (y := b) rfl
  have count' : node1.nkeys = (key::ks).length := by
    rw [appended.same.nkeys,length_cons,← count]
    exact uint16_of_lt (by omega)
  have after := body1.internal (appended.same.isLeaf.trans kind) count' held'
  refine ⟨_,node.note mem _ mem1 (· + 1) none none,?_,after,appended.same.blockId,before.noted after appended.only
    moved_cons⟩
  rw [← count] at movedKeys
  rw [len,← count] at movedChildren
  rw [length_nil] at movedKeys inserted
  simp only [Node.appendMinKeyAndBlockId,movedKeys,movedChildren,inserted,some_bind,
    Node.setChildBlockId,appended.same.children,written]
  rfl

/-- A key is replaced; the children stay. -/
lemma Internal.updateKey (holds : Internal d mem.mmap node (pre++old::post) cs) (key : Bytes)
    (fits : node.unusedMemStart+node.actualMemRequired+size key ≤ blockSize) :
    ∃ node' mem', node.updateKey mem pre.length key = some (node',mem') ∧
      Internal d mem'.mmap node' (pre++key::post) cs ∧ node'.blockId = node.blockId ∧
      node'.unusedMemOffset ≤ node.unusedMemOffset+size key ∧
      node'.actualMemRequired ≤ node.actualMemRequired+size key ∧ Local node.blockId mem mem' := by
  obtain ⟨body,kind,count,children⟩ := holds
  have before : Internal d mem.mmap node (pre++old::post) cs := ⟨body,kind,count,children⟩
  obtain ⟨node1,mem1,enough,body1,same,room,offset,actual1,only1⟩ := body.spaceIsEnough count (by simp [kind]) fits
  have kind1 : node1.isLeaf = false := same.isLeaf.trans kind
  obtain ⟨node2,mem2,inserted,appended,keyed,_⟩ := insertKey_fill (i := pre.length)
    (Q := fun f area ptrs => Column f area d ptrs (pre++key::post)) room
    (fun f area p keeps cell => (body1.keys.gap.mono keeps).fill cell)
  have known := body.actual
  have high := room.room
  have low := body1.low
  simp only [total_append,total_cons,total_nil,blockSize] at known high
  have reduced : sub16 node2.actualMemRequired (size old) = node.actualMemRequired+size key-size old := by
    rw [appended.actual,actual1]
    exact sub16_of_le (by omega) (by omega)
  have body2 := appended.body room body1.start keyed (by simp [kind1]) (fun _ => rfl)
    (show sub16 node2.actualMemRequired (size old) = _ from reduced.trans (by simp; omega)) (by omega)
  have after : Internal d mem2.mmap { node2 with actualMemRequired := sub16 node2.actualMemRequired (size old) }
      (pre++key::post) cs := by
    refine ⟨body2,appended.same.isLeaf.trans kind1,?_,?_⟩
    · simp only [appended.same.nkeys,same.nkeys,count]
      simp
    · simpa only [appended.same.children,same.children] using children
  refine ⟨_,node.note mem _ mem2 id (some pre.length) none,?_,after,appended.same.blockId.trans same.blockId,?_,?_,
    before.noted after (only1.trans (same.blockId ▸ appended.only)) (moved_update rfl)⟩
  · simp only [Node.updateKey,body.getKey.2,insertKeyInPos_of_enough enough room,inserted,some_bind]
    rfl
  · simp only [appended.offset]
    omega
  · simp only [reduced]
    omega

lemma Internal.delKeyandBlockIdByIndex (holds : Internal d mem.mmap node (pre++key::post) (left++b::right))
    (len : left.length+right.length = pre.length+post.length+1) :
    ∃ node', node.delKeyandBlockIdByIndex mem pre.length left.length = some (node',key,b) ∧
      Internal d mem.mmap node' (pre++post) (left++right) ∧ node'.blockId = node.blockId ∧
      node'.unusedMemOffset = node.unusedMemOffset ∧ node'.actualMemRequired ≤ node.actualMemRequired := by
  obtain ⟨body,kind,count,children⟩ := holds
  have few := body.length_lt
  have small : node.unusedMemOffset ≤ 4096 := body.high
  have low := body.low
  have known := body.actual
  simp only [total_append,total_cons,total_nil] at known
  simp only [length_append,length_cons] at count few
  obtain ⟨cleared,keyPtrArr,zeroed,movedKeys,keyed⟩ := body.keys.delete (n := node.nkeys) (by omega)
  obtain ⟨childNodeId,movedChildren,held⟩ := children.delete (j := node.nkeys) (y := 0) rfl (by omega)
  refine ⟨{ node with
      nkeys := node.nkeys-1
      keyPtrArr
      childNodeId
      actualMemRequired := node.actualMemRequired-size key },?_,
    ⟨⟨body.file,body.inside,body.start,keyed,by simp [kind],fun _ => rfl,?_,?_,small⟩,kind,?_,held⟩,rfl,rfl,?_⟩
  · have moved : node.nkeys-left.length = right.length := by omega
    simp only [Node.delKeyandBlockIdByIndex,Node.clearKey,body.getKey.1,body.getKey.2,children.get rfl,
      Node.getChildBlockId,zeroed,movedKeys,moved,movedChildren,some_bind,Option.pure_def]
    rw [sub16_of_le (show 1 ≤ node.nkeys by omega) (by omega),
      sub16_of_le (show size key ≤ node.actualMemRequired by omega) (by omega)]
  · simp only [total_append,total_nil]
    omega
  · simp only
    omega
  · simp only [length_append]
    omega
  · simp only
    omega

lemma Internal.removeMinKeyAndBlockId (holds : Internal d mem.mmap node (key::ks) (b::cs))
    (len : cs.length = ks.length+1) :
    ∃ node', node.removeMinKeyAndBlockId mem = some (node',key,b) ∧ Internal d mem.mmap node' ks cs ∧
      node'.blockId = node.blockId ∧ node'.unusedMemOffset = node.unusedMemOffset := by
  have first : Internal d mem.mmap node ([]++key::ks) ([]++b::cs) := holds
  obtain ⟨node',removed,after,block,offset,_⟩ := first.delKeyandBlockIdByIndex (by simp only [length_nil]; omega)
  exact ⟨node',removed,after,block,offset⟩

lemma Internal.removeMaxKeyAndBlockId (holds : Internal d mem.mmap node (ks++[key]) (cs++[b]))
    (len : cs.length = ks.length+1) :
    ∃ node', node.removeMaxKeyAndBlockId mem = some (node',key,b) ∧ Internal d mem.mmap node' ks cs ∧
      node'.blockId = node.blockId ∧ node'.unusedMemOffset = node.unusedMemOffset := by
  obtain ⟨node',removed,after,block,offset,_⟩ := holds.delKeyandBlockIdByIndex (by simp only [length_nil]; omega)
  refine ⟨node',?_,by simpa using after,block,offset⟩
  rwa [Node.removeMaxKeyAndBlockId,holds.count,length_append,length_singleton,Nat.add_sub_cancel,← len]

end
end CodeExercise.BTreeMmap
