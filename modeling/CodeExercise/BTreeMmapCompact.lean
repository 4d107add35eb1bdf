import CodeExercise.BTreeMmapSlots

/-!
Compaction, and the content of a block (`Body`). A compaction with all slots in place keeps what
they point to (`Body.compactMem`), so there is space whenever the content with the new data fits
into the block (`Body.spaceIsEnough`).
-/
namespace CodeExercise.BTreeMmap
open Slices Files Uvarints List Option

lemma Cell.read {node : Node} (file : f.size = dbSize)
    (inside : node.blockId < 5120) (addr : area.addr p = p+node.blockId*blockSize) (high : area.hi ≤ blockSize)
    (cell : Cell f area p x) :
    getByteSlice f (p+node.blockId*blockSize) = some x ∧
      (getByteSliceSize f (p+node.blockId*blockSize)).map uint16OfInt = some (size x) := by
  obtain ⟨_,stop,stored⟩ := cell
  rw [addr] at stored
  simp only [blockSize,dbSize] at *
  rw [getByteSliceSize_eq stored (by omega) (by omega),Option.map_some,uint16OfInt]
  exact ⟨getByteSlice_eq stored (by omega) (by omega),congrArg some (by omega)⟩

/-- The data in the buffer of `compactMem`, for a block whose data starts at `start`. -/
def buffer (start written : Nat) : Area := ⟨fun p => p-start,start,start+written⟩

/-- The slots point to `done` in the buffer and to `todo` in the block. -/
def Half (tmp : File) (area : Area) (f : File) (area' : Area) (d : Nat) (ptrs : List Nat) (done todo : List Bytes) : Prop :=
  ∃ before after : List (Nat × Bytes), done = before.map Prod.snd ∧ todo = after.map Prod.snd ∧
    Slices.Holds d (before.map Prod.fst ++ after.map Prod.fst) ptrs ∧
    (∀ c ∈ before, Cell tmp area c.1 c.2) ∧ ∀ c ∈ after, Cell f area' c.1 c.2

section
variable {tmp tmp' f : File} {area area' : Area} {d p : Nat} {ptrs : List Nat} {done todo : List Bytes} {x : Bytes}

lemma Half.get (half : Half tmp area f area' d ptrs done (x::todo)) :
    ∃ p, ptrs[done.length]? = some p ∧ Cell f area' p x := by
  obtain ⟨before,after,rfl,same,holds,_,stored⟩ := half
  obtain ⟨c,after,rfl,rfl,rfl⟩ := map_eq_cons_iff.mp same.symm
  exact ⟨c.1,holds.get (by simp),stored c (by simp)⟩

lemma Half.keep (half : Half tmp area f area' d ptrs done todo) (keeps : Keeps tmp tmp' area area'') :
    Half tmp' area'' f area' d ptrs done todo := by
  obtain ⟨before,after,first,last,holds,copied,stored⟩ := half
  exact ⟨before,after,first,last,holds,fun c member => keeps _ _ (copied c member),stored⟩

lemma Half.step (half : Half tmp area f area' d ptrs done (x::todo)) (cell : Cell tmp area p x) :
    ∃ ptrs', put ptrs done.length p = some ptrs' ∧ Half tmp area f area' d ptrs' (done++[x]) todo := by
  obtain ⟨before,after,rfl,same,holds,copied,stored⟩ := half
  obtain ⟨c,after,rfl,rfl,rfl⟩ := map_eq_cons_iff.mp same.symm
  obtain ⟨ptrs',written,held⟩ := holds.put (y := p) rfl
  refine ⟨ptrs',by simpa using written,before++[(p,c.2)],after,by simp,rfl,by simpa using held,?_,?_⟩
  · intro c' member
    rcases mem_append.mp member with early | late
    · exact copied c' early
    · rwa [mem_singleton.mp late]
  · exact fun c' member => stored c' (mem_cons_of_mem _ member)

lemma Half.column (half : Half tmp area f area' d ptrs done []) : Column tmp area d ptrs done := by
  obtain ⟨before,after,same,none,holds,copied,_⟩ := half
  obtain rfl : after = [] := by simpa using none.symm
  exact ⟨before,same,by simpa using holds,copied⟩

lemma Column.half (column : Column f area' d ptrs todo) : Half tmp area f area' d ptrs [] todo := by
  obtain ⟨cells,same,holds,stored⟩ := column
  exact ⟨[],cells,rfl,same,holds,by simp,stored⟩

lemma buffer_put (start : Nat) (room : written+size x ≤ tmp.size) :
    ∃ tmp', putByteSlice tmp written x = some (tmp',size x) ∧ tmp'.size = tmp.size ∧
      Keeps tmp tmp' (buffer start written) (buffer start (written+size x)) ∧
      Cell tmp' (buffer start (written+size x)) (start+written) x := by
  refine ⟨_,putByteSlice_eq room,?_,?_,by simp [buffer],by simp [buffer]; omega,?_⟩
  · rw [size_write (by omega),← size]
    omega
  · rintro p y ⟨low,stop,stored⟩
    simp only [buffer] at low stop stored
    refine ⟨low,by simp only [buffer]; omega,?_⟩
    simp only [buffer]
    rw [← stored]
    refine slice_write_of_disjoint fun i above below start' => ?_
    omega
  · simp only [buffer,Nat.add_sub_cancel_left]
    exact slice_write_self _ _ _

end

section
variable {d start hi written : Nat} {tmp : File} {mem : Mem}

lemma compactLoop_leaf (es : List (Bytes × Bytes)) {keys vals : List Bytes} (leaf : node.isLeaf = true)
    (file : mem.mmap.size = dbSize) (inside : node.blockId < 5120) (high : hi ≤ blockSize) (small : start+tmp.size < 65536)
    (keyed : Half tmp (buffer start written) mem.mmap ⟨fun p => p+node.blockId*blockSize,start,hi⟩ d node.keyPtrArr keys
      (es.map Prod.fst))
    (valued : Half tmp (buffer start written) mem.mmap ⟨fun p => p+node.blockId*blockSize,start,hi⟩ d node.valPtrArr vals
      (es.map Prod.snd)) (len : vals.length = keys.length)
    (room : written+total (es.map Prod.fst)+total (es.map Prod.snd) ≤ tmp.size) :
    ∃ keyPtrArr valPtrArr tmp', Node.compactLoop mem start es.length keys.length node tmp written =
        some ({ node with keyPtrArr, valPtrArr },tmp',written+total (es.map Prod.fst)+total (es.map Prod.snd)) ∧
      tmp'.size = tmp.size ∧
      Column tmp' (buffer start (written+total (es.map Prod.fst)+total (es.map Prod.snd))) d keyPtrArr
        (keys++es.map Prod.fst) ∧
      Column tmp' (buffer start (written+total (es.map Prod.fst)+total (es.map Prod.snd))) d valPtrArr
        (vals++es.map Prod.snd) := by
  induction es generalizing node keys vals tmp written with
  | nil => exact ⟨node.keyPtrArr,node.valPtrArr,tmp,rfl,rfl,by simpa using keyed.column,by simpa using valued.column⟩
  | cons e es ih =>
    simp only [map_cons,total_cons] at keyed valued room ⊢
    obtain ⟨p,readKey,key⟩ := keyed.get
    obtain ⟨q,readVal,val⟩ := valued.get
    have room1 : written+size e.1 ≤ tmp.size := by omega
    obtain ⟨tmp1,put1,size1,keeps1,cell1⟩ := buffer_put start room1
    obtain ⟨keyPtrArr,wroteKey,keyed1⟩ := (keyed.keep keeps1).step cell1
    have room2 : written+size e.1+size e.2 ≤ tmp1.size := by omega
    obtain ⟨tmp2,put2,size2,keeps2,cell2⟩ := buffer_put start room2
    obtain ⟨valPtrArr,wroteVal,valued2⟩ := ((valued.keep keeps1).keep keeps2).step cell2
    have gotKey : node.getKey mem keys.length = some e.1 := by
      simp only [Node.getKey,readKey,some_bind]
      exact (key.read file inside rfl high).1
    have gotVal : node.getVal mem keys.length = some e.2 := by
      rw [len] at readVal
      simp only [Node.getVal,readVal,some_bind]
      exact (val.read file inside rfl high).1
    obtain ⟨kp,vp,tmp',looped,size',keyed',valued'⟩ := @ih _ tmp2 { node with keyPtrArr, valPtrArr } (keys++[e.1])
      (vals++[e.2]) leaf inside (by omega) (keyed1.keep keeps2) valued2 (by simp [len]) (by omega)
    have sum : written+size e.1+size e.2+total (es.map Prod.fst)+total (es.map Prod.snd) =
        written+(size e.1+total (es.map Prod.fst))+(size e.2+total (es.map Prod.snd)) := by omega
    rw [sum] at looped keyed' valued'
    refine ⟨kp,vp,tmp',?_,by omega,by simpa using keyed',by simpa using valued'⟩
    rw [length_append,length_singleton] at looped
    rw [len] at wroteVal
    simp only [length_cons,Node.compactLoop,gotKey,gotVal,some_bind,put1,put2,leaf,if_true,
      uint16_of_lt (show start+written < 65536 by omega),
      uint16_of_lt (show start+(written+size e.1) < 65536 by omega),wroteKey,wroteVal]
    simpa only [leaf] using looped

lemma compactLoop_internal (ks : List Bytes) {keys : List Bytes} (internal : node.isLeaf = false)
    (file : mem.mmap.size = dbSize) (inside : node.blockId < 5120) (high : hi ≤ blockSize) (small : start+tmp.size < 65536)
    (keyed : Half tmp (buffer start written) mem.mmap ⟨fun p => p+node.blockId*blockSize,start,hi⟩ d node.keyPtrArr keys ks)
    (room : written+total ks ≤ tmp.size) :
    ∃ keyPtrArr tmp', Node.compactLoop mem start ks.length keys.length node tmp written =
        some ({ node with keyPtrArr },tmp',written+total ks) ∧ tmp'.size = tmp.size ∧
      Column tmp' (buffer start (written+total ks)) d keyPtrArr (keys++ks) := by
  induction ks generalizing node keys tmp written with
  | nil => exact ⟨node.keyPtrArr,tmp,rfl,rfl,by simpa using keyed.column⟩
  | cons k ks ih =>
    simp only [total_cons] at room ⊢
    obtain ⟨p,readKey,key⟩ := keyed.get
    have room1 : written+size k ≤ tmp.size := by omega
    obtain ⟨tmp1,put1,size1,keeps1,cell1⟩ := buffer_put start room1
    obtain ⟨keyPtrArr,wroteKey,keyed1⟩ := (keyed.keep keeps1).step cell1
    have gotKey : node.getKey mem keys.length = some k := by
      simp only [Node.getKey,readKey,some_bind]
      exact (key.read file inside rfl high).1
    obtain ⟨kp,tmp',looped,size',keyed'⟩ := @ih _ tmp1 { node with keyPtrArr } (keys++[k]) internal inside (by omega) keyed1
      (by omega)
    rw [Nat.add_assoc] at looped keyed'
    refine ⟨kp,tmp',?_,by omega,by simpa using keyed'⟩
    rw [length_append,length_singleton] at looped
    simp only [length_cons,Node.compactLoop,gotKey,some_bind,put1,internal,
      if_ff,uint16_of_lt (show start+written < 65536 by omega),wroteKey]
    simpa only [internal] using looped

end

/-- The first slots of the node point to `ks` and `vs`, and nothing else counts as
required memory. -/
structure Body (d : Nat) (f : File) (node : Node) (ks vs : List Bytes) : Prop where
  file : f.size = dbSize
  inside : node.blockId < 5120
  start : node.unusedMemStart = blockMagic.length+DB.tableSize d node.isLeaf
  keys : Column f node.area d node.keyPtrArr ks
  vals : node.isLeaf = true → Column f node.area d node.valPtrArr vs
  noVals : node.isLeaf = false → vs = []
  actual : node.actualMemRequired = total ks+total vs
  low : node.unusedMemStart+node.actualMemRequired ≤ node.unusedMemOffset
  high : node.unusedMemOffset ≤ blockSize

/-- The bytes of a block are the same. -/
def SameBlock (b : Nat) (f g : File) : Prop :=
  g.size = f.size ∧ ∀ a, b*blockSize ≤ a → a < (b+1)*blockSize → g.byte a = f.byte a

lemma SameBlock.trans (first : SameBlock b f g) (second : SameBlock b g h) : SameBlock b f h :=
  ⟨second.1.trans first.1,fun a low high => (second.2 a low high).trans (first.2 a low high)⟩

lemma Local.sameBlock (only : Local b mem mem') (other : c ≠ b) :
    SameBlock c mem.mmap mem'.mmap := by
  refine ⟨only.size,fun a low high => only.outside a ?_⟩
  simp only [blockSize] at *
  omega

lemma SameBlock.keeps {node : Node} (same : SameBlock node.blockId f g)
    (high : node.unusedMemOffset ≤ blockSize) : Keeps f g node.area node.area := by
  rintro p x ⟨low,stop,stored⟩
  refine ⟨low,stop,(slice_congr (fun i above below => ?_)).trans stored⟩
  simp only [Node.area] at low stop above below
  refine same.2 i ?_ ?_
  · omega
  · simp only [blockSize] at *
    omega

lemma Body.frame (body : Body d f node ks vs)
    (same : SameBlock node.blockId f g) : Body d g node ks vs where
  file := same.1.trans body.file
  inside := body.inside
  start := body.start
  keys := body.keys.mono (same.keeps body.high)
  vals kind := (body.vals kind).mono (same.keeps body.high)
  noVals := body.noVals
  actual := body.actual
  low := body.low
  high := body.high

section
variable {d n : Nat} {node : Node} {mem : Mem} {ks vs pre post : List Bytes} {x : Bytes}

lemma Body.getKey (body : Body d mem.mmap node (pre++x::post) vs) :
    node.getKey mem pre.length = some x ∧ node.getKeySize mem pre.length = some (size x) := by
  obtain ⟨p,slot,cell⟩ := body.keys.get
  simp only [Node.getKey,Node.getKeySize,slot,some_bind]
  exact cell.read body.file body.inside rfl body.high

lemma Body.getVal (body : Body d mem.mmap node ks (pre++x::post)) :
    node.getVal mem pre.length = some x ∧ node.getValSize mem pre.length = some (size x) := by
  cases kind : node.isLeaf with
  | false => simpa using body.noVals kind
  | true =>
    obtain ⟨p,slot,cell⟩ := (body.vals kind).get
    simp only [Node.getVal,Node.getValSize,slot,some_bind]
    exact cell.read body.file body.inside rfl body.high

lemma Body.room (body : Body d mem.mmap node ks vs) (room : node.unusedMemOffset+n ≤ blockSize) : Room n node mem :=
  ⟨body.file,body.inside,body.low,room⟩

lemma Body.compactLoop (body : Body d mem.mmap node ks vs) (count : node.nkeys = ks.length)
    (leaf : node.isLeaf = true → vs.length = ks.length) (enough : node.actualMemRequired ≤ len)
    (small : node.unusedMemStart+len < 65536) :
    ∃ keyPtrArr valPtrArr tmp, Node.compactLoop mem node.unusedMemStart node.nkeys 0 node (File.zeros len) 0 =
        some ({ node with keyPtrArr, valPtrArr },tmp,node.actualMemRequired) ∧ tmp.size = len ∧
      Column tmp (buffer node.unusedMemStart node.actualMemRequired) d keyPtrArr ks ∧
      (node.isLeaf = true → Column tmp (buffer node.unusedMemStart node.actualMemRequired) d valPtrArr vs) := by
  obtain ⟨file,inside,start,keys,vals,noVals,actual,low,high⟩ := body
  cases kind : node.isLeaf with
  | false =>
    obtain rfl := noVals kind
    simp only [total_nil,Nat.add_zero] at actual
    obtain ⟨keyPtrArr,tmp,looped,size,keyed⟩ := compactLoop_internal ks kind file inside high
      (show node.unusedMemStart+(File.zeros len).size < 65536 from small) keys.half
      (show 0+total ks ≤ (File.zeros len).size by rw [Nat.zero_add,← actual]; exact enough)
    rw [Nat.zero_add,← actual] at looped keyed
    exact ⟨keyPtrArr,node.valPtrArr,tmp,by simpa [kind,count] using looped,size,keyed,by simp⟩
  | true =>
    obtain ⟨es,rfl,rfl⟩ : ∃ es : List (Bytes × Bytes), ks = es.map Prod.fst ∧ vs = es.map Prod.snd :=
      ⟨ks.zip vs,by rw [map_fst_zip (by rw [leaf kind])],by rw [map_snd_zip (by rw [leaf kind])]⟩
    obtain ⟨keyPtrArr,valPtrArr,tmp,looped,size,keyed,valued⟩ := compactLoop_leaf es kind file inside high
      (show node.unusedMemStart+(File.zeros len).size < 65536 from small) keys.half (vals kind).half rfl
      (show 0+total (es.map Prod.fst)+total (es.map Prod.snd) ≤ (File.zeros len).size by
        rw [Nat.zero_add,← actual]; exact enough)
    rw [Nat.zero_add,← actual] at looped keyed valued
    exact ⟨keyPtrArr,valPtrArr,tmp,by simpa [kind,count] using looped,size,keyed,fun _ => valued⟩

lemma keeps_copy (f tmp : File) (b start : Nat) (less : written ≤ len) :
    Keeps tmp (f.write (b*blockSize+start) (tmp.slice 0 len)) (buffer start written)
      ⟨fun p => p+b*blockSize,start,start+written⟩ := by
  rintro p x ⟨low,stop,stored⟩
  simp only [buffer] at low stop stored
  refine ⟨low,stop,?_⟩
  have copied := slice_write_slice f tmp (b*blockSize+start) (show p-start+size x ≤ len by omega)
  rw [show b*blockSize+start+(p-start) = p+b*blockSize by omega] at copied
  exact copied.trans stored

/-- What the slots point to is the same after a compaction, and nothing else is left. -/
lemma Body.compactMem (body : Body d mem.mmap node ks vs) (count : node.nkeys = ks.length)
    (leaf : node.isLeaf = true → vs.length = ks.length) :
    ∃ node' mem', node.compactMem mem = some (node',mem') ∧ Body d mem'.mmap node' ks vs ∧ node.Same node' ∧
      node'.unusedMemOffset = node.unusedMemStart+node.actualMemRequired ∧
      node'.actualMemRequired = node.actualMemRequired ∧ Local node.blockId mem mem' := by
  have low := body.low
  have high : node.unusedMemOffset ≤ 4096 := body.high
  have inside := body.inside
  have file : mem.mmap.size = 20971520 := body.file
  have len : sub16 node.unusedMemOffset node.unusedMemStart = node.unusedMemOffset-node.unusedMemStart :=
    sub16_of_le (by omega) (by omega)
  obtain ⟨keyPtrArr,valPtrArr,tmp,looped,size,keyed,valued⟩ := body.compactLoop count leaf
    (show node.actualMemRequired ≤ node.unusedMemOffset-node.unusedMemStart by omega) (by omega)
  have near : node.blockId*blockSize+node.unusedMemStart ≤ mem.mmap.size := by
    simp only [blockSize]
    omega
  have whole : (tmp.slice 0 (node.unusedMemOffset-node.unusedMemStart)).take
      (mem.mmap.size-(node.blockId*blockSize+node.unusedMemStart)) =
        tmp.slice 0 (node.unusedMemOffset-node.unusedMemStart) := by
    refine take_of_length_le ?_
    rw [length_slice]
    simp only [blockSize]
    omega
  have keeps := keeps_copy mem.mmap tmp node.blockId node.unusedMemStart
    (show node.actualMemRequired ≤ node.unusedMemOffset-node.unusedMemStart by omega)
  have size' : (mem.mmap.write (node.blockId*blockSize+node.unusedMemStart)
      (tmp.slice 0 (node.unusedMemOffset-node.unusedMemStart))).size = mem.mmap.size := by
    rw [size_write near,length_slice]
    simp only [blockSize]
    omega
  refine ⟨{ node with keyPtrArr, valPtrArr, unusedMemOffset := node.unusedMemStart+node.actualMemRequired },
    ⟨mem.mmap.write (node.blockId*blockSize+node.unusedMemStart) (tmp.slice 0 (node.unusedMemOffset-node.unusedMemStart)),
      mem.history ++ [.compact (node.unusedMemOffset-node.unusedMemStart) node.actualMemRequired]⟩,?_,
    ⟨?_,inside,body.start,keyed.mono keeps,fun kind => (valued kind).mono keeps,body.noVals,body.actual,?_,?_⟩,
    ⟨rfl,rfl,rfl,rfl,rfl⟩,rfl,rfl,?_,?_,?_⟩
  · simp only [Node.compactMem,len,looped,some_bind,copyAt]
    rw [if_pos near,whole,uint16_of_lt (by omega)]
    rfl
  · exact size'.trans body.file
  · exact le_rfl
  · simp only [blockSize]
    omega
  · exact size'
  · intro a out
    refine byte_write_of_not_mem ?_
    rw [length_slice]
    simp only [blockSize] at out ⊢
    omega
  · intro kept e member
    rcases mem_append.mp member with old | new
    · exact kept e old
    · rw [mem_singleton.mp new]
      simp only [Event.Kept]
      omega

lemma memAvailable_eq (inside : start+actual ≤ blockSize) :
    sub16 (sub16 blockSize start) actual = blockSize-start-actual := by
  simp only [blockSize] at inside ⊢
  rw [sub16_of_le (show start ≤ 4096 by omega) (by omega),sub16_of_le (by omega) (by omega)]

/-- All memory that has been handed out is in use. -/
def Node.Tidy (node : Node) : Prop := node.unusedMemOffset = node.unusedMemStart+node.actualMemRequired

def Event.isCompact : Event → Bool
  | .compact _ _ => true
  | .edit _ _ _ _ _ _ _ => false

/-- The number of compactions so far. -/
def Mem.compactions (mem : Mem) : Nat := mem.history.countP Event.isCompact

lemma Appended.tidy (appended : Appended n node mem node' mem') (tidy : node.Tidy) : node'.Tidy := by
  rw [Node.Tidy] at tidy ⊢
  rw [appended.offset,appended.actual,appended.same.start,tidy]
  omega

lemma compactMem_history (done : node.compactMem mem = some (node',mem')) :
    mem'.compactions = mem.compactions+1 := by
  simp only [Node.compactMem,bind_eq_bind,bind_eq_some_iff] at done
  obtain ⟨_,_,mmap,_,same⟩ := done
  cases same
  simp [Mem.compactions,countP_append,Event.isCompact]

lemma Body.spaceIsEnough (body : Body d mem.mmap node ks vs) (count : node.nkeys = ks.length)
    (leaf : node.isLeaf = true → vs.length = ks.length)
    (fits : node.unusedMemStart+node.actualMemRequired+n ≤ blockSize) :
    ∃ node' mem', node.spaceIsEnough mem n = some (node',mem',true) ∧ Body d mem'.mmap node' ks vs ∧ node.Same node' ∧
      Room n node' mem' ∧ node'.unusedMemOffset ≤ node.unusedMemOffset ∧
      node'.actualMemRequired = node.actualMemRequired ∧ Local node.blockId mem mem' := by
  by_cases free : node.unusedMemOffset+n ≤ blockSize
  · exact ⟨node,mem,if_pos free,body,.refl node,body.room free,le_rfl,rfl,.refl _ mem⟩
  · have low := body.low
    obtain ⟨node',mem',compacted,body',same,offset,actual,only⟩ := body.compactMem count leaf
    refine ⟨node',mem',?_,body',same,body'.room (by omega),by omega,actual,only⟩
    have available : uint16 n ≤ sub16 (sub16 blockSize node.unusedMemStart) node.actualMemRequired := by
      rw [memAvailable_eq (by omega),uint16_of_lt (by simp only [blockSize] at fits; omega)]
      omega
    simp only [Node.spaceIsEnough,if_neg free,if_pos available,compacted,some_bind]
    rfl

lemma Body.spaceIsEnough_not (body : Body d mem.mmap node ks vs) (small : n < 65536)
    (full : ¬ node.unusedMemStart+node.actualMemRequired+n ≤ blockSize) :
    node.spaceIsEnough mem n = some (node,mem,false) := by
  have low := body.low
  have high := body.high
  have available : ¬ uint16 n ≤ sub16 (sub16 blockSize node.unusedMemStart) node.actualMemRequired := by
    rw [memAvailable_eq (by omega),uint16_of_lt small]
    omega
  rw [Node.spaceIsEnough,if_neg (by omega),if_neg available]

/-! Once there is space, an insertion goes on from where the compaction left the node. -/

section
variable {node' : Node} {mem' : Mem} {key val : Bytes} {i : Nat}

lemma insertKeyInPos_of_enough (enough : node.spaceIsEnough mem (size key) = some (node',mem',true))
    (room : Room (size key) node' mem') : node.insertKeyInPos mem i key = node'.insertKeyInPos mem' i key := by
  simp only [Node.insertKeyInPos,calcRequiredMemSerialized_eq room.size_lt,enough,room.spaceIsEnough]

lemma insertValInPos_of_enough (enough : node.spaceIsEnough mem (size val) = some (node',mem',true))
    (room : Room (size val) node' mem') : node.insertValInPos mem i val = node'.insertValInPos mem' i val := by
  simp only [Node.insertValInPos,calcRequiredMemSerialized_eq room.size_lt,enough,room.spaceIsEnough]

lemma insertKvInPos_of_enough (enough : node.spaceIsEnough mem (size key+size val) = some (node',mem',true))
    (room : Room (size key+size val) node' mem') :
    node.insertKvInPos mem i key val = node'.insertKvInPos mem' i key val := by
  have small := room.room
  simp only [blockSize] at small
  have sizes : uint16 (size key+size val) = size key+size val := uint16_of_lt (by omega)
  simp only [Node.insertKvInPos,calcRequiredMemSerialized_eq (show size key < 65536 by omega),
    calcRequiredMemSerialized_eq (show size val < 65536 by omega),sizes,enough,room.spaceIsEnough]

end

section
variable (body : Body d mem.mmap node ks vs)
include body

lemma Body.getKey? (inside : i < ks.length) :
    node.getKey mem i = ks[i]? := by
  have cut : ks = ks.take i ++ ks[i] :: ks.drop (i+1) := by simp
  rw [cut] at body
  have read := body.getKey.1
  rw [length_take,Nat.min_eq_left inside.le] at read
  rw [read,getElem?_eq_getElem inside]

lemma Body.getVal? (inside : i < vs.length) :
    node.getVal mem i = vs[i]? := by
  have cut : vs = vs.take i ++ vs[i] :: vs.drop (i+1) := by simp
  rw [cut] at body
  have read := body.getVal.1
  rw [length_take,Nat.min_eq_left inside.le] at read
  rw [read,getElem?_eq_getElem inside]

lemma Body.seek_eq (p : Bytes → Bool) (inside : i+k ≤ ks.length) :
    node.seek mem p i k = Slices.seek p ks i k := by
  induction k generalizing i with
  | zero => rfl
  | succ k ih => simp only [Node.seek,Slices.seek,body.getKey? (show i < ks.length by omega),bind_eq_bind,
      ih (show i+1+k ≤ ks.length by omega)]

lemma Body.seek (count : node.nkeys = ks.length) (p : Bytes → Bool) :
    ∃ pre post, ks = pre++post ∧ node.seek mem p 0 node.nkeys = some pre.length ∧
      (∀ x ∈ pre, p x = false) ∧ ∀ x ∈ post.head?, p x = true := by
  have whole : Slices.Holds ks.length ks ks := ⟨[],by simp,rfl⟩
  obtain ⟨pre,post,cut,sought,misses,hit⟩ := whole.seek p count
  exact ⟨pre,post,cut,by rw [body.seek_eq p (by omega),sought],misses,hit⟩

end
end
end CodeExercise.BTreeMmap
