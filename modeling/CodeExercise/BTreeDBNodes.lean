import CodeExercise.BTreeDB
import CodeExercise.BTreeMmapCompact
import CodeExercise.SortedMaps

/-!
What the block of a node holds: the entries of a leaf, or the keys and the children of an internal
node. A node that is not full takes one more entry when its unused memory has room for it, and a
new node is filled from the back with what a full one gives away.
-/
namespace CodeExercise.BTreeDB
open Files Words Slices SortedMaps List Option
open BTreeMmap (Bytes blockSize blockMagic dbSize uint16 putByteSlice getByteSlice serialize size total Area Cell Keeps Column Gap Tail
  SameBlock uint16_of_lt getByteSlice_eq size_pos total_nil total_cons total_append)

/-- The slots of a block point to keys and, in a leaf, to values. -/
structure Body (d : Nat) (f : File) (node : Node) (ks vs : List Bytes) : Prop where
  placed : node.Placed f
  degree : node.degree = d
  flag : node.isLeaf = decide ((node.table f).flag = 1)
  offset : (node.table f).offset = node.unusedOffset
  keys : Column f node.area d (node.table f).keys ks
  vals : node.isLeaf = true → Column f node.area d (node.table f).slots vs
  low : dataStart d node.isLeaf+total ks+total vs ≤ node.unusedOffset
  high : node.unusedOffset ≤ blockSize

/-- The slots of a leaf hold its entries in order. -/
structure Leaf (d : Nat) (f : File) (node : Node) (es : List (Bytes × Bytes)) : Prop where
  body : Body d f node (es.map Prod.fst) (es.map Prod.snd)
  leaf : node.isLeaf = true
  count : node.nKeys = es.length
  stored : (node.table f).count = node.nKeys

/-- The slots of an internal node hold its keys and the blocks of its children. -/
structure Internal (d : Nat) (f : File) (node : Node) (ks : List Bytes) (cs : List Nat) : Prop where
  body : Body d f node ks []
  internal : node.isLeaf = false
  count : node.nKeys = ks.length
  stored : (node.table f).count = node.nKeys
  children : Slices.Holds (d+1) cs (node.table f).slots

section
variable {d n : Nat} {f g : File} {node : Node} {mem : Mem} {ks vs pre post : List Bytes} {key val : Bytes} {es : List (Bytes × Bytes)}
  {cs : List Nat}

lemma Cell.read (placed : node.Placed f) (high : node.unusedOffset ≤ blockSize) (cell : Cell f node.area p s) :
    getByteSlice f (p+node.blockId*blockSize) = some s := by
  have file := placed.file
  have block := placed.inside
  obtain ⟨_,stop,stored⟩ := cell
  simp only [Node.area] at stop stored
  simp only [blockSize,dbSize] at *
  exact getByteSlice_eq stored (by omega) (by omega)

lemma Body.getKey (body : Body d f node (pre++key::post) vs) : node.getKey f pre.length = some key := by
  obtain ⟨p,read,cell⟩ := body.keys.get
  simp only [Node.getKey,(body.placed.getKeyPtr read).1,some_bind]
  exact Cell.read body.placed body.high cell

lemma Body.getVal (body : Body d f node ks (pre++val::post)) (kind : node.isLeaf = true) :
    node.getVal f pre.length = some val := by
  obtain ⟨p,read,cell⟩ := (body.vals kind).get
  simp only [Node.getVal,(body.placed.getValPtr kind read).1,some_bind]
  exact Cell.read body.placed body.high cell

variable {c i k : Nat}

lemma Internal.getChildBlockId (holds : Internal d f node ks (left++c::right)) :
    node.getChildBlockId f left.length = some c :=
  (holds.body.placed.getChildBlockId holds.internal (holds.children.get rfl)).1

section
variable (body : Body d f node ks vs)
include body

lemma Body.getKey? (inside : i < ks.length) : node.getKey f i = ks[i]? := by
  obtain ⟨pre,x,post,rfl,rfl⟩ := exists_cut ks inside
  rw [body.getKey]
  simp

lemma Body.seek_eq (p : Bytes → Bool) (inside : i+k ≤ ks.length) :
    node.seek f p i k = Slices.seek p ks i k := by
  induction k generalizing i with
  | zero => rfl
  | succ k ih => simp only [Node.seek,Slices.seek,body.getKey? (show i < ks.length by omega),bind_eq_bind,
      ih (show i+1+k ≤ ks.length by omega)]

lemma Body.seek (count : node.nKeys = ks.length) (p : Bytes → Bool) :
    ∃ pre post, ks = pre++post ∧ node.seek f p 0 node.nKeys = some pre.length ∧
      (∀ x ∈ pre, p x = false) ∧ ∀ x ∈ post.head?, p x = true := by
  have whole : Slices.Holds ks.length ks ks := ⟨[],by simp,rfl⟩
  obtain ⟨pre,post,cut,sought,misses,hit⟩ := whole.seek p count
  exact ⟨pre,post,cut,by rw [body.seek_eq p (by omega),sought],misses,hit⟩

end

lemma Leaf.seekKey (leaf : Leaf d f node es) (key : Bytes) :
    ∃ pre post, es = pre++post ∧ node.seek f (fun k => k = key || key < k) 0 node.nKeys = some pre.length ∧ (∀ e ∈ pre, e.1 < key) ∧
      ((pre.length < node.nKeys ∧ node.getKey f pre.length = some key) ∧ (∃ w rest, post = (key,w)::rest) ∨
        ¬ (pre.length < node.nKeys ∧ node.getKey f pre.length = some key) ∧ ∀ e ∈ post.head?, key < e.1) := by
  obtain ⟨left,right,cut,sought,misses,hit⟩ := leaf.body.seek (by simpa using leaf.count)
    (fun k => decide (k = key) || decide (key < k))
  obtain ⟨pre,post,rfl,sought,misses,hit⟩ := exists_entries_cut cut sought misses hit
  have stops : ∀ x, (decide (x = key) || decide (key < x)) = true ↔ key ≤ x := fun x => by
    rw [Bool.or_eq_true,decide_eq_true_eq,decide_eq_true_eq,le_iff_eq_or_lt,eq_comm]
  refine ⟨pre,post,rfl,sought,place_of_stop stops misses hit leaf.count (fun e head => ?_)⟩
  rw [eq_cons_of_mem_head? head] at leaf
  have read := Body.getKey (show Body d f node (pre.map Prod.fst ++ e.1::post.tail.map Prod.fst) _ by simpa using leaf.body)
  rwa [length_map] at read

lemma keeps_of_sameBlock (high : node.unusedOffset ≤ blockSize) (same : SameBlock node.blockId f g) :
    Keeps f g node.area node.area := by
  rintro p x ⟨low,stop,stored⟩
  refine ⟨low,stop,(slice_congr (fun a above below => same.2 a ?_ ?_)).trans stored⟩
  · simp only [Node.area] at above
    omega
  · simp only [Node.area,blockSize] at *
    omega

lemma Body.frame (body : Body d f node ks vs) (same : SameBlock node.blockId f g) :
    node.table g = node.table f ∧ Body d g node ks vs := by
  have table := table_congr body.placed.room same.2
  have keeps := keeps_of_sameBlock body.high same
  refine ⟨table,⟨same.1.trans body.placed.file,body.placed.inside,body.placed.room⟩,body.degree,?_,?_,?_,fun kind => ?_,body.low,body.high⟩
  · rw [table]
    exact body.flag
  · rw [table]
    exact body.offset
  · rw [table]
    exact body.keys.mono keeps
  · rw [table]
    exact (body.vals kind).mono keeps

lemma Leaf.frame (leaf : Leaf d f node es) (same : SameBlock node.blockId f g) : Leaf d g node es := by
  obtain ⟨table,body⟩ := leaf.body.frame same
  exact ⟨body,leaf.leaf,leaf.count,by rw [table]; exact leaf.stored⟩

lemma Internal.frame (holds : Internal d f node ks cs) (same : SameBlock node.blockId f g) : Internal d g node ks cs := by
  obtain ⟨table,body⟩ := holds.body.frame same
  exact ⟨body,holds.internal,holds.count,by rw [table]; exact holds.stored,by rw [table]; exact holds.children⟩

lemma Local.sameBlock (only : Local b mem mem') (other : c ≠ b) :
    SameBlock c mem.mmap mem'.mmap := by
  refine ⟨only.size,fun a low high => only.outside a ?_⟩
  simp only [blockSize] at *
  omega

lemma Body.loadNode {db : DB} (body : Body db.degree db.mem.mmap node ks vs) (stored : (node.table db.mem.mmap).count = node.nKeys) :
    db.loadNode node.blockId = some node := by
  have room := body.placed.room
  have least := keys_end_le node.degree node.isLeaf
  have file := body.placed.file
  have block := body.placed.inside
  have flag : getByte db.mem.mmap (node.blockId*blockSize+blockMagic.length) = some (node.table db.mem.mmap).flag := by
    refine if_pos ?_
    simp only [blockSize,dbSize,blockMagic,length_cons,length_nil] at *
    omega
  have count := body.placed.getUint (show 10+2 ≤ blockSize by omega)
  have offset := body.placed.getUint (show 12+2 ≤ blockSize by omega)
  rw [show word 2 db.mem.mmap (node.blockId*blockSize+10) = node.nKeys from stored,
    show node.blockId*blockSize+10 = node.blockId*blockSize+blockMagic.length+1+1 from rfl] at count
  rw [show word 2 db.mem.mmap (node.blockId*blockSize+12) = node.unusedOffset from body.offset,
    show node.blockId*blockSize+12 = node.blockId*blockSize+blockMagic.length+1+1+2 from rfl] at offset
  simp only [DB.loadNode,getUint16,flag,count,offset,some_bind,← body.flag,← body.degree,Option.pure_def]

lemma Body.rewrite (body : Body d f node ks vs) (only : InTable node f g)
    (flag : (node.table g).flag = (node.table f).flag) (offset : (node.table g).offset = (node.table f).offset)
    (keys : Column f node.area d (node.table g).keys ks')
    (vals : node.isLeaf = true → Column f node.area d (node.table g).slots vs') (less : total ks'+total vs' ≤ total ks+total vs) :
    Body d g node ks' vs' := by
  have low := body.low
  refine ⟨only.placed body.placed,body.degree,?_,?_,keys.mono only.keeps,fun kind => (vals kind).mono only.keeps,by omega,body.high⟩
  · rw [flag]
    exact body.flag
  · rw [offset]
    exact body.offset

lemma Body.setNKeys (body : Body d f node ks vs) (same : node' = { node with nKeys := n }) (small : n < 65536) :
    ∃ g, node'.setNKeys f = some g ∧ node'.table g = { node.table f with count := n } ∧ InTable node f g ∧ Body d g node' ks vs := by
  subst same
  have body' : Body d f { node with nKeys := n } ks vs := { body with placed := ⟨body.placed.file,body.placed.inside,body.placed.room⟩ }
  obtain ⟨g,done,table,only⟩ := body'.placed.setNKeys small
  refine ⟨g,done,table,⟨only.size,only.bytes⟩,body'.rewrite only (by rw [table]) (by rw [table]) ?_ (fun kind => ?_) le_rfl⟩
  · rw [table]
    exact body'.keys
  · rw [table]
    exact body'.vals kind

/-- A new entry takes its place among the others. -/
lemma Leaf.insertNew {pre post : List (Bytes × Bytes)} (leaf : Leaf d mem.mmap node (pre++post)) (few : (pre++post).length < d)
    (free : node.unusedOffset+(size key+size val) ≤ blockSize) :
    ∃ f1 mem2 f3, node.shiftKvs pre.length (node.nKeys-pre.length) mem.mmap = some f1 ∧
      node.insertKvInPos { mem with mmap := f1 } pre.length key val = some (node.raise (size key+size val),mem2) ∧
      { node.raise (size key+size val) with nKeys := node.nKeys+1 }.setNKeys mem2.mmap = some f3 ∧
      Leaf d f3 { node.raise (size key+size val) with nKeys := node.nKeys+1 } (pre++(key,val)::post) ∧
      Local node.blockId mem { mem2 with mmap := f3 } := by
  have kind := leaf.leaf
  have placed := leaf.body.placed
  have bound := placed.room
  have low := leaf.body.low
  have degree := leaf.body.degree
  have count := leaf.count
  have keys := leaf.body.keys
  have vals := leaf.body.vals kind
  rw [kind,degree,dataStart_leaf] at bound
  rw [kind,dataStart_leaf] at low
  simp only [map_append,total_append] at keys vals low
  simp only [length_append] at few count
  simp only [blockSize] at bound
  -- the slots behind the place of the entry move up
  obtain ⟨xs,movedKeys,gapKeys⟩ := keys.shiftUp (by simpa using few)
  obtain ⟨ys,movedVals,gapVals⟩ := vals.shiftUp (by simpa using few)
  simp only [length_map] at movedKeys movedVals
  obtain ⟨f1,shifted,table1,only1⟩ := placed.shiftKvs kind movedKeys movedVals
  have placed1 := only1.placed placed
  -- the key and the value are appended
  obtain ⟨xs',putKey,column⟩ := (gapKeys.mono only1.keeps).place node.unusedOffset
  obtain ⟨ys',putVal,column'⟩ := (gapVals.mono only1.keeps).place (node.unusedOffset+size key)
  simp only [length_map] at putKey putVal
  have room : node.Room (size key+size val) ({ mem with mmap := f1 } : Mem).mmap :=
    ⟨placed1,by rw [degree,kind,dataStart_leaf]; omega,free⟩
  obtain ⟨mem1,mem2,inserted,table2,appended1,appended2⟩ := room.insertKvInPos kind (by rw [table1]; exact putKey)
    (by rw [table1]; exact putVal)
  rw [table1] at table2
  have only2 := (only1.only mem placed).trans (appended1.only.trans appended2.only)
  have keeps : Keeps f1 mem2.mmap node.area (node.raise (size key+size val)).area := by
    intro p x cell
    have moved := appended2.keeps p x (appended1.keeps p x cell)
    simpa only [Node.raise,Nat.add_assoc] using moved
  have area : ((node.raise (size key)).raise (size val)).area = (node.raise (size key+size val)).area := by
    simp only [Node.raise,Nat.add_assoc]
  have body2 : Body d mem2.mmap (node.raise (size key+size val)) ((pre++(key,val)::post).map Prod.fst)
      ((pre++(key,val)::post).map Prod.snd) := by
    refine ⟨⟨only2.size.trans placed.file,placed.inside,placed.room⟩,degree,?_,?_,?_,fun _ => ?_,?_,free⟩
    · rw [show (node.raise (size key+size val)).table mem2.mmap = _ from table2]
      exact leaf.body.flag
    · rw [show (node.raise (size key+size val)).table mem2.mmap = _ from table2]
      rfl
    · rw [show (node.raise (size key+size val)).table mem2.mmap = _ from table2,map_append,map_cons]
      exact column _ _ _ keeps (area ▸ appended2.keeps _ _ appended1.cell)
    · rw [show (node.raise (size key+size val)).table mem2.mmap = _ from table2,map_append,map_cons]
      exact column' _ _ _ keeps (area ▸ appended2.cell)
    · simp only [Node.raise,kind,dataStart_leaf,map_append,map_cons,total_append,total_cons]
      omega
  obtain ⟨f3,counted,table3,only3,body3⟩ := body2.setNKeys (n := node.nKeys+1) rfl (by omega)
  refine ⟨f1,mem2,f3,?_,inserted,counted,⟨body3,kind,?_,?_⟩,only2.trans (only3.only mem2 body2.placed)⟩
  · rwa [show node.nKeys-pre.length = post.length by omega]
  · simp only [length_append,length_cons]
    omega
  · rw [table3]

/-- A key and a child behind it take their place. -/
lemma Internal.insertChild (holds : Internal d mem.mmap node (pre++post) (left++right))
    (len : left.length = pre.length+1) (len' : right.length = post.length) (few : (pre++post).length < d)
    (free : node.unusedOffset+size key ≤ blockSize) (small : c < 4294967296) :
    ∃ f1 mem2 f3 f4, node.shiftChildren pre.length (node.nKeys-pre.length) mem.mmap = some f1 ∧
      node.insertKeyInPos { mem with mmap := f1 } pre.length key = some (node.raise (size key),mem2) ∧
      (node.raise (size key)).setChildBlockId mem2.mmap (pre.length+1) c = some f3 ∧
      { node.raise (size key) with nKeys := node.nKeys+1 }.setNKeys f3 = some f4 ∧
      Internal d f4 { node.raise (size key) with nKeys := node.nKeys+1 } (pre++key::post) (left++c::right) ∧
      Local node.blockId mem { mem2 with mmap := f4 } := by
  have kind := holds.internal
  have placed := holds.body.placed
  have bound := placed.room
  have low := holds.body.low
  have degree := holds.body.degree
  have count := holds.count
  rw [kind,degree,dataStart_internal] at bound
  rw [kind,dataStart_internal] at low
  simp only [total_append,total_nil] at low
  simp only [length_append] at few count
  simp only [blockSize] at bound
  obtain ⟨xs,movedKeys,gapKeys⟩ := holds.body.keys.shiftUp (by simpa using few)
  obtain ⟨z,ys,movedSlots,held⟩ := holds.children.shiftUp (by simp; omega) len
  rw [len'] at movedSlots
  obtain ⟨f1,shifted,table1,only1⟩ := placed.shiftChildren kind movedKeys movedSlots
  have placed1 := only1.placed placed
  obtain ⟨xs',putKey,column⟩ := (gapKeys.mono only1.keeps).place node.unusedOffset
  have room : node.Room (size key) ({ mem with mmap := f1 } : Mem).mmap :=
    ⟨placed1,by rw [degree,kind,dataStart_internal]; omega,free⟩
  obtain ⟨mem2,inserted,table2,appended⟩ := room.insertKeyInPos (by rw [table1]; exact putKey)
  rw [table1] at table2
  have only2 := (only1.only mem placed).trans appended.only
  -- the child gets its place
  obtain ⟨ys',putSlot,held'⟩ := held.put (y := c) len
  have placed2 : (node.raise (size key)).Placed mem2.mmap := ⟨only2.size.trans placed.file,placed.inside,placed.room⟩
  have table2' : (node.raise (size key)).table mem2.mmap = _ := table2
  obtain ⟨f3,placedChild,table3,only3⟩ := placed2.putChild kind small (by rw [table2']; exact putSlot)
  rw [table2'] at table3
  have body3 : Body d f3 (node.raise (size key)) (pre++key::post) [] := by
    refine ⟨only3.placed placed2,degree,?_,?_,?_,?_,?_,free⟩
    · rw [table3]
      exact holds.body.flag
    · rw [table3]
      rfl
    · rw [table3]
      exact (column _ _ _ appended.keeps appended.cell).mono only3.keeps
    · intro leaf
      exact absurd (leaf.symm.trans kind) (by decide)
    · simp only [Node.raise,kind,dataStart_internal,total_append,total_cons,total_nil]
      omega
  obtain ⟨f4,counted,table4,only4,body4⟩ := body3.setNKeys (n := node.nKeys+1) rfl (by omega)
  refine ⟨f1,mem2,f3,f4,?_,inserted,placedChild,counted,⟨body4,kind,?_,?_,?_⟩,?_⟩
  · rwa [show node.nKeys-pre.length = post.length by omega]
  · simp only [length_append,length_cons]
    omega
  · rw [table4]
  · rw [table4,table3]
    exact held'
  · exact only2.trans ((only3.only mem2 placed2).trans (only4.only { mem2 with mmap := f3 } body3.placed))

/-- Only blocks with the property were written to. -/
structure Alters (S : Nat → Prop) (mem mem' : Mem) : Prop where
  bytes : ∀ b, ¬ S b → SameBlock b mem.mmap mem'.mmap
  size : mem'.mmap.size = mem.mmap.size
  inside : mem.Inside → mem'.Inside
  handed : mem'.handed = mem.handed

lemma Alters.refl (S : Nat → Prop) (mem : Mem) : Alters S mem mem := ⟨fun _ _ => ⟨rfl,fun _ _ _ => rfl⟩,rfl,id,rfl⟩

lemma Alters.trans (first : Alters S mem mem') (second : Alters S mem' mem'') :
    Alters S mem mem'' :=
  ⟨fun b out => (first.bytes b out).trans (second.bytes b out),second.size.trans first.size,second.inside ∘ first.inside,
    second.handed.trans first.handed⟩

lemma Local.alters (only : Local b mem mem') (here : S b) : Alters S mem mem' :=
  { only with bytes := fun _ out => only.sameBlock (fun same => out (same ▸ here)) }

/-- A new node, which is filled from the back: its slots from `k` on are in use. -/
structure Filling (d k : Nat) (f : File) (node : Node) (ks vs : List Bytes) : Prop where
  placed : node.Placed f
  degree : node.degree = d
  flag : node.isLeaf = decide ((node.table f).flag = 1)
  offset : (node.table f).offset = node.unusedOffset
  keys : Tail f node.area d k (node.table f).keys ks
  vals : node.isLeaf = true → Tail f node.area d k (node.table f).slots vs
  full : node.unusedOffset = dataStart d node.isLeaf+total ks+total vs
  high : node.unusedOffset ≤ blockSize

lemma Filling.body (filling : Filling d 0 f node ks vs) : Body d f node ks vs :=
  { filling with keys := filling.keys.column, vals := fun kind => (filling.vals kind).column, low := filling.full.ge }

lemma Filling.frame (filling : Filling d k f node ks vs) (same : SameBlock node.blockId f g) :
    node.table g = node.table f ∧ Filling d k g node ks vs := by
  have table := table_congr filling.placed.room same.2
  have keeps := keeps_of_sameBlock filling.high same
  refine ⟨table,⟨same.1.trans filling.placed.file,filling.placed.inside,filling.placed.room⟩,filling.degree,?_,?_,?_,fun kind => ?_,
    filling.full,filling.high⟩
  · rw [table]
    exact filling.flag
  · rw [table]
    exact filling.offset
  · rw [table]
    exact filling.keys.mono keeps
  · rw [table]
    exact (filling.vals kind).mono keeps

lemma Filling.room (filling : Filling d k f node ks vs) (free : node.unusedOffset+n ≤ blockSize) : node.Room n f :=
  ⟨filling.placed,by rw [filling.full,filling.degree]; omega,free⟩

lemma Filling.insertKvInPos (key val : Bytes) (filling : Filling d (k+1) mem.mmap node ks vs) (kind : node.isLeaf = true)
    (free : node.unusedOffset+(size key+size val) ≤ blockSize) :
    ∃ mem', node.insertKvInPos mem k key val = some (node.raise (size key+size val),mem') ∧
      Filling d k mem'.mmap (node.raise (size key+size val)) (key::ks) (val::vs) ∧ Local node.blockId mem mem' := by
  obtain ⟨xs,putKey,keyed⟩ := filling.keys.place node.unusedOffset
  obtain ⟨ys,putVal,valued⟩ := (filling.vals kind).place (node.unusedOffset+size key)
  obtain ⟨mem1,mem',inserted,table,appended1,appended2⟩ := (filling.room free).insertKvInPos kind putKey putVal
  have only := appended1.only.trans appended2.only
  have area : ((node.raise (size key)).raise (size val)).area = (node.raise (size key+size val)).area := by
    simp only [Node.raise,Nat.add_assoc]
  have keeps : Keeps mem.mmap mem'.mmap node.area (node.raise (size key+size val)).area :=
    fun p x cell => area ▸ appended2.keeps p x (appended1.keeps p x cell)
  have full := filling.full
  refine ⟨mem',inserted,⟨⟨only.size.trans filling.placed.file,filling.placed.inside,filling.placed.room⟩,filling.degree,?_,?_,?_,
    fun _ => ?_,?_,free⟩,only⟩
  · rw [show (node.raise (size key+size val)).table mem'.mmap = _ from table]
    exact filling.flag
  · rw [show (node.raise (size key+size val)).table mem'.mmap = _ from table]
    rfl
  · rw [show (node.raise (size key+size val)).table mem'.mmap = _ from table]
    exact keyed _ _ _ keeps (area ▸ appended2.keeps _ _ appended1.cell)
  · rw [show (node.raise (size key+size val)).table mem'.mmap = _ from table]
    exact valued _ _ _ keeps (area ▸ appended2.cell)
  · simp only [Node.raise,total_cons]
    omega

lemma Filling.insertKeyInPos (key : Bytes) (filling : Filling d (k+1) mem.mmap node ks []) (kind : node.isLeaf = false)
    (free : node.unusedOffset+size key ≤ blockSize) :
    ∃ mem', node.insertKeyInPos mem k key = some (node.raise (size key),mem') ∧
      Filling d k mem'.mmap (node.raise (size key)) (key::ks) [] ∧ (node.table mem'.mmap).slots = (node.table mem.mmap).slots ∧
      Local node.blockId mem mem' := by
  obtain ⟨xs,putKey,keyed⟩ := filling.keys.place node.unusedOffset
  obtain ⟨mem',inserted,table,appended⟩ := (filling.room free).insertKeyInPos putKey
  have full := filling.full
  refine ⟨mem',inserted,⟨⟨appended.only.size.trans filling.placed.file,filling.placed.inside,filling.placed.room⟩,filling.degree,?_,?_,?_,
    ?_,?_,free⟩,by rw [table],appended.only⟩
  · rw [show (node.raise (size key)).table mem'.mmap = _ from table]
    exact filling.flag
  · rw [show (node.raise (size key)).table mem'.mmap = _ from table]
    rfl
  · rw [show (node.raise (size key)).table mem'.mmap = _ from table]
    exact keyed _ _ _ appended.keeps appended.cell
  · intro leaf
    exact absurd (leaf.symm.trans kind) (by decide)
  · simp only [Node.raise,total_cons]
    omega

lemma Body.clearKey (body : Body d f node (ks++[key]) vs) :
    ∃ g, node.clearKeyPtr f ks.length = some g ∧ (node.table g).slots = (node.table f).slots ∧ InTable node f g ∧
      Body d g node ks vs := by
  obtain ⟨xs,zeroed,column⟩ := body.keys.dropLast
  obtain ⟨g,done,table,only⟩ := body.placed.putKey (by decide) zeroed
  refine ⟨g,done,by rw [table],only,body.rewrite only (by rw [table]) (by rw [table]) (by rw [table]; exact column) (fun kind => ?_) ?_⟩
  · rw [table]
    exact body.vals kind
  · rw [total_append]
    omega

lemma Body.clearVal (body : Body d f node ks (vs++[val])) (kind : node.isLeaf = true) :
    ∃ g, node.clearValPtr f vs.length = some g ∧ InTable node f g ∧ Body d g node ks vs := by
  obtain ⟨ys,zeroed,column⟩ := (body.vals kind).dropLast
  obtain ⟨g,done,table,only⟩ := body.placed.putVal kind (by decide) zeroed
  refine ⟨g,done,only,body.rewrite only (by rw [table]) (by rw [table]) ?_ (fun _ => by rw [table]; exact column) ?_⟩
  · rw [table]
    exact body.keys
  · rw [total_append]
    omega

/-- The last entries go to the new node, from the back. -/
lemma Body.moveKvs
    (body : Body d mem.mmap node ((es++todo).map Prod.fst) ((es++todo).map Prod.snd)) (kind : node.isLeaf = true)
    (filling : Filling d todo.length mem.mmap right (done.map Prod.fst) (done.map Prod.snd)) (kind' : right.isLeaf = true)
    (other : node.blockId ≠ right.blockId)
    (free : right.unusedOffset+total (todo.map Prod.fst)+total (todo.map Prod.snd) ≤ blockSize) :
    ∃ n mem', node.moveKvs es.length todo.length right mem = some (right.raise n,mem') ∧
      Body d mem'.mmap node (es.map Prod.fst) (es.map Prod.snd) ∧
      Body d mem'.mmap (right.raise n) ((todo++done).map Prod.fst) ((todo++done).map Prod.snd) ∧
      Alters (fun b => b = node.blockId ∨ b = right.blockId) mem mem' := by
  induction todo using List.reverseRecOn generalizing right mem done with
  | nil => exact ⟨0,mem,rfl,by simpa using body,filling.body,.refl _ mem⟩
  | append_singleton todo e ih =>
    obtain ⟨key,val⟩ := e
    have leaf : Body d mem.mmap node ((es++todo).map Prod.fst ++ [key]) ((es++todo).map Prod.snd ++ [val]) := by
      simpa using body
    have readKey := leaf.getKey
    have readVal := leaf.getVal kind
    rw [length_map,length_append] at readKey readVal
    simp only [map_append,map_cons,map_nil,total_append,total_cons,total_nil] at free
    rw [length_append,length_singleton] at filling ⊢
    obtain ⟨mem1,inserted,filling1,only1⟩ := filling.insertKvInPos key val kind' (by omega)
    obtain ⟨f2,clearedKey,_,only2,body2⟩ := (leaf.frame (only1.sameBlock other)).2.clearKey
    obtain ⟨f3,clearedVal,only3,body3⟩ := body2.clearVal kind
    rw [length_map,length_append] at clearedKey clearedVal
    have changed := (only2.trans only3).only mem1 (leaf.frame (only1.sameBlock other)).2.placed
    have body3' : Body d ({ mem1 with mmap := f3 } : Mem).mmap node _ _ := body3
    have filling3 : Filling d todo.length ({ mem1 with mmap := f3 } : Mem).mmap (right.raise (size key+size val))
        (((key,val)::done).map Prod.fst) (((key,val)::done).map Prod.snd) :=
      (filling1.frame (changed.sameBlock (Ne.symm other))).2
    obtain ⟨n,mem',moved,lower,upper,rest⟩ := ih body3' filling3 kind' other (by simp only [Node.raise]; omega)
    have raised : (right.raise (size key+size val)).raise n = right.raise (size key+size val+n) := by
      simp only [Node.raise,Nat.add_assoc]
    rw [raised] at moved upper
    refine ⟨size key+size val+n,mem',?_,lower,by simpa using upper,?_⟩
    · simp only [Node.moveKvs,readKey,readVal,inserted,clearedKey,clearedVal,some_bind]
      exact moved
    · exact (only1.alters (.inr rfl)).trans ((changed.alters (.inl rfl)).trans rest)

lemma Filling.putChild (filling : Filling d k f node ks []) (kind : node.isLeaf = false)
    (small : c < 4294967296) (done : put (node.table f).slots i c = some ys) :
    ∃ g, node.setChildBlockId f i c = some g ∧ (node.table g).slots = ys ∧ InTable node f g ∧ Filling d k g node ks [] := by
  obtain ⟨g,written,table,only⟩ := filling.placed.putChild kind small done
  refine ⟨g,written,by rw [table],only,only.placed filling.placed,filling.degree,?_,?_,?_,?_,filling.full,filling.high⟩
  · rw [table]
    exact filling.flag
  · rw [table]
    exact filling.offset
  · rw [table]
    exact filling.keys.mono only.keeps
  · intro leaf
    exact absurd (leaf.symm.trans kind) (by decide)

lemma Body.putChild (body : Body d f node ks []) (kind : node.isLeaf = false)
    (small : c < 4294967296) (done : put (node.table f).slots i c = some ys) :
    ∃ g, node.setChildBlockId f i c = some g ∧ node.table g = { node.table f with slots := ys } ∧ InTable node f g ∧ Body d g node ks [] := by
  obtain ⟨g,written,table,only⟩ := body.placed.putChild kind small done
  refine ⟨g,written,table,only,body.rewrite only (by rw [table]) (by rw [table]) ?_ ?_ le_rfl⟩
  · rw [table]
    exact body.keys
  · intro leaf
    exact absurd (leaf.symm.trans kind) (by decide)

/-- So do the last keys and children of an internal node. -/
lemma Body.moveChildren (body : Body d mem.mmap node (ks++todo) [])
    (kind : node.isLeaf = false) (children : Slices.Holds (d+1) (cs++todoC) (node.table mem.mmap).slots)
    (len : cs.length = ks.length+1) (len' : todoC.length = todo.length) (filling : Filling d todo.length mem.mmap right done [])
    (kind' : right.isLeaf = false) (slots : Slices.Holds (d+1) (front++doneC) (right.table mem.mmap).slots)
    (len'' : front.length = todo.length+1) (other : node.blockId ≠ right.blockId) (free : right.unusedOffset+total todo ≤ blockSize) :
    ∃ n mem' z, node.moveChildren ks.length todo.length right mem = some (right.raise n,mem') ∧
      Body d mem'.mmap node ks [] ∧ Slices.Holds (d+1) cs (node.table mem'.mmap).slots ∧
      Body d mem'.mmap (right.raise n) (todo++done) [] ∧ Slices.Holds (d+1) (z::(todoC++doneC)) (right.table mem'.mmap).slots ∧
      Alters (fun b => b = node.blockId ∨ b = right.blockId) mem mem' := by
  induction todo using List.reverseRecOn generalizing right mem todoC done doneC front with
  | nil =>
    obtain rfl := length_eq_zero_iff.mp len'
    obtain ⟨z,rfl⟩ := length_eq_one_iff.mp len''
    exact ⟨0,mem,z,rfl,by simpa using body,by simpa using children,filling.body,slots,.refl _ mem⟩
  | append_singleton todo k ih =>
    obtain ⟨todoC,c,rfl⟩ := (eq_nil_or_concat' todoC).resolve_left (by rintro rfl; simp at len')
    obtain ⟨front,z,rfl⟩ := (eq_nil_or_concat' front).resolve_left (by rintro rfl; simp at len'')
    simp only [length_append,length_singleton,total_append,total_cons,total_nil] at len' len'' free filling ⊢
    rw [← append_assoc] at body children
    have readKey := body.getKey
    obtain ⟨mem1,inserted,filling1,slots1,only1⟩ := filling.insertKeyInPos k kind' (by omega)
    obtain ⟨table1,body1⟩ := body.frame (only1.sameBlock other)
    -- the child goes with its key
    have got : (node.table mem1.mmap).slots[(cs++todoC).length]? = some c := by
      rw [table1]
      exact children.get rfl
    obtain ⟨readChild,small⟩ := body1.placed.getChildBlockId kind got
    rw [append_assoc,singleton_append] at slots
    obtain ⟨ys,written,held⟩ := slots.put (y := c) rfl
    obtain ⟨f2,setChild,slots2,only2,filling2⟩ := filling1.putChild kind' small
      (show put ((right.raise (size k)).table mem1.mmap).slots front.length c = some ys by
        rw [show ((right.raise (size k)).table mem1.mmap).slots = _ from slots1]; exact written)
    have changed2 : Local right.blockId mem1 { mem1 with mmap := f2 } := only2.only mem1 filling1.placed
    obtain ⟨table2,body2⟩ := body1.frame (changed2.sameBlock other)
    obtain ⟨f3,cleared,slots3,only3,body3⟩ := body2.clearKey
    have erase : ∃ zs, put (node.table f3).slots (cs++todoC).length 0 = some zs ∧ Slices.Holds (d+1) (cs++todoC) zs := by
      rw [slots3,table2,table1]
      obtain ⟨zs,zeroed,held⟩ := children.put (y := 0) rfl
      exact ⟨zs,zeroed,held.take⟩
    obtain ⟨zs,zeroed,held4⟩ := erase
    obtain ⟨f4,erased,written4,only4,body4⟩ := body3.putChild kind (by decide) zeroed
    have changed4 := (only3.trans only4).only { mem1 with mmap := f2 } body2.placed
    obtain ⟨table4,filling4⟩ := filling2.frame (changed4.sameBlock (Ne.symm other))
    have body4' : Body d ({ mem1 with mmap := f4 } : Mem).mmap node _ _ := body4
    obtain ⟨n,mem',w,moved,lower,lowerC,upper,upperC,rest⟩ := ih body4' (by rw [written4]; exact held4)
      (by omega) filling4 kind' (by rw [table4,slots2]; exact held) (by omega) other (by simp only [Node.raise]; omega)
    have raised : (right.raise (size k)).raise n = right.raise (size k+n) := by
      simp only [Node.raise,Nat.add_assoc]
    rw [raised] at moved upper
    have upperC' : Slices.Holds (d+1) (w::(todoC++c::doneC)) (right.table mem'.mmap).slots := upperC
    refine ⟨size k+n,mem',w,?_,lower,lowerC,by simpa using upper,by simpa using upperC',?_⟩
    · simp only [length_append] at readKey readChild cleared erased
      rw [show cs.length+todoC.length = ks.length+todo.length+1 by omega] at readChild erased
      rw [show front.length = todo.length+1 by omega] at setChild
      simp only [Node.moveChildren,readKey,inserted,readChild,setChild,cleared,erased,some_bind]
      exact moved
    · exact (only1.alters (.inr rfl)).trans ((changed2.alters (.inr rfl)).trans ((changed4.alters (.inl rfl)).trans rest))

end
end CodeExercise.BTreeDB
