import CodeExercise.BTreeDBNodes
import CodeExercise.BlockTrees

/-!
New blocks and the splits of full nodes. A new block is the next one of the file, and its node is
empty when the block was never a leaf (`newNodeBlock_eq`). A split leaves the memory of the lower
half as it is.
-/
namespace CodeExercise.BTreeDB
open Files Words Slices List
open BTreeMmap (Bytes blockSize blockMagic dbSize uint16 copyAt size total SameBlock Tail uint16_of_lt total_nil total_cons total_append)

/-- Only blocks with the property were written to, and the next `n` blocks were handed out. -/
structure Changes (S : Nat → Prop) (n : Nat) (db db' : DB) : Prop where
  file : db'.file = db.file
  degree : db'.degree = db.degree
  root : db'.rootBlockId = db.rootBlockId
  nKeys : db'.nKeysInDB = db.nKeysInDB
  used : db'.nUsedBlock = db.nUsedBlock+n
  bytes : ∀ b, ¬ S b → SameBlock b db.mem.mmap db'.mem.mmap
  size : db'.mem.mmap.size = db.mem.mmap.size
  inside : db.mem.Inside → db'.mem.Inside
  handed : db'.mem.handed = db.mem.handed++List.range' db.nUsedBlock n

lemma Changes.refl (S : Nat → Prop) (db : DB) : Changes S 0 db db :=
  ⟨rfl,rfl,rfl,rfl,rfl,fun _ _ => ⟨rfl,fun _ _ _ => rfl⟩,rfl,id,by simp⟩

lemma Changes.trans (first : Changes S m a b) (second : Changes S n b c) :
    Changes S (m+n) a c where
  file := second.file.trans first.file
  degree := second.degree.trans first.degree
  root := second.root.trans first.root
  nKeys := second.nKeys.trans first.nKeys
  used := by rw [second.used,first.used,Nat.add_assoc]
  bytes b out := (first.bytes b out).trans (second.bytes b out)
  size := second.size.trans first.size
  inside := second.inside ∘ first.inside
  handed := by rw [second.handed,first.handed,first.used,append_assoc,range'_append_1]

lemma Changes.mono (changes : Changes S n db db') (wider : ∀ b, S b → T b) :
    Changes T n db db' :=
  { changes with bytes := fun b out => changes.bytes b (fun inside => out (wider b inside)) }

lemma Alters.changes (alters : Alters S db.mem mem) : Changes S 0 db { db with mem } :=
  ⟨rfl,rfl,rfl,rfl,rfl,alters.bytes,alters.size,alters.inside,by simp [alters.handed]⟩

/-- A new node in the next block. -/
structure Allocated (db : DB) (isLeaf : Bool) (db' : DB) (node : Node) : Prop where
  block : node.blockId = db.nUsedBlock
  kind : node.isLeaf = isLeaf
  count : node.nKeys = 0
  stored : (node.table db'.mem.mmap).count = 0
  empty : ∀ k ≤ db.degree, Filling db.degree k db'.mem.mmap node [] []
  children : isLeaf = false → (node.table db'.mem.mmap).slots.length = db.degree+1
  changes : Changes (· = db.nUsedBlock) 1 db db'

lemma tail_nil (len : ptrs.length = d) (few : k ≤ d) :
    Tail f area d k ptrs [] :=
  ⟨ptrs.take k,[],by simp; omega,rfl,⟨ptrs.drop k,by simp,len⟩,by simp⟩

section
variable {db : DB}

lemma newBlock_eq (file : db.mem.mmap.size = dbSize) (room : db.nUsedBlock < 5120) :
    db.newBlock = some ({ db with nUsedBlock := db.nUsedBlock+1, mem := ⟨db.mem.mmap.write (db.nUsedBlock*blockSize) blockMagic,
      db.mem.history ++ [.handedOut db.nUsedBlock]⟩ },db.nUsedBlock,db.nUsedBlock*blockSize+blockMagic.length) := by
  have near : db.nUsedBlock*blockSize+8 ≤ db.mem.mmap.size := by
    rw [file]
    simp only [blockSize,dbSize]
    omega
  have whole : blockMagic.take (db.mem.mmap.size-db.nUsedBlock*blockSize) = blockMagic := take_of_length_le (by
    simp only [blockMagic,length_cons,length_nil]
    omega)
  simp only [DB.newBlock,copyAt,if_pos (show db.nUsedBlock*blockSize ≤ db.mem.mmap.size by omega),whole,some_bind]
  rfl

/-- The flag of a new leaf is set, and that of a new internal node was never set. -/
lemma flag_eq (placed : node.Placed f) (clean : node.isLeaf = false → f.byte (node.blockId*blockSize+8) ≠ 1) :
    ∃ g, (if node.isLeaf then putByte f (node.blockId*blockSize+blockMagic.length) 1 else some f) = some g ∧ InTable node f g ∧
      node.isLeaf = decide ((node.table g).flag = 1) := by
  have least := keys_end_le node.degree node.isLeaf
  have bound := placed.room
  cases kind : node.isLeaf with
  | true =>
    have near : node.blockId*blockSize+8 < f.size := by
      have file := placed.file
      have block := placed.inside
      simp only [blockSize,dbSize] at *
      omega
    refine ⟨f.write (node.blockId*blockSize+8) [1],?_,placed.write (by simp; omega),?_⟩
    · rw [if_pos rfl]
      exact if_pos near
    · simp [Node.table,File.write]
  | false =>
    refine ⟨f,by simp,.refl node f,?_⟩
    exact (decide_eq_false (clean kind)).symm

lemma newNodeBlock_eq (file : db.mem.mmap.size = dbSize) (room : db.nUsedBlock < 5120)
    (clean : isLeaf = false → db.mem.mmap.byte (db.nUsedBlock*blockSize+8) ≠ 1) (header : dataStart db.degree isLeaf ≤ blockSize) :
    ∃ db' node, db.newNodeBlock isLeaf = some (db',node) ∧ Allocated db isLeaf db' node := by
  obtain ⟨node,shape⟩ : ∃ node : Node, node = ⟨db.nUsedBlock,db.degree,isLeaf,0,dataStart db.degree isLeaf⟩ := ⟨_,rfl⟩
  have block : node.blockId = db.nUsedBlock := by rw [shape]
  have degree : node.degree = db.degree := by rw [shape]
  have kind : node.isLeaf = isLeaf := by rw [shape]
  have offset : node.unusedOffset = dataStart db.degree isLeaf := by rw [shape]
  have none : node.nKeys = 0 := by rw [shape]
  have placed : node.Placed db.mem.mmap := ⟨file,by rw [block]; exact room,by rw [degree,kind]; exact header⟩
  have least := keys_end_le db.degree isLeaf
  have small : dataStart db.degree isLeaf < 65536 := by
    simp only [blockSize] at header
    omega
  -- the magic, the flag, the number of keys and the offset of the unused memory
  have only0 : InTable node db.mem.mmap (db.mem.mmap.write (db.nUsedBlock*blockSize) blockMagic) := by
    have written : InTable node db.mem.mmap (db.mem.mmap.write (node.blockId*blockSize+0) blockMagic) := placed.write (by
      rw [degree,kind]
      simp only [blockMagic,length_cons,length_nil]
      omega)
    rwa [Nat.add_zero,block] at written
  have clean0 : node.isLeaf = false → (db.mem.mmap.write (db.nUsedBlock*blockSize) blockMagic).byte (node.blockId*blockSize+8) ≠ 1 := by
    intro internal
    rw [byte_write_of_not_mem (by rw [block]; simp only [blockMagic,length_cons,length_nil]; omega),block]
    exact clean (kind.symm.trans internal)
  obtain ⟨f1,flagged,only1,flag⟩ := flag_eq (only0.placed placed) clean0
  have placed1 := only1.placed (only0.placed placed)
  obtain ⟨f2,counted,table2,only2⟩ := placed1.setNKeys (by omega)
  obtain ⟨f3,set,table3,only3⟩ := (only2.placed placed1).putOffset small
  rw [table2] at table3
  have only := ((only0.trans only1).trans only2).trans only3
  refine ⟨{ db with nUsedBlock := db.nUsedBlock+1, mem := ⟨f3,db.mem.history++[.handedOut db.nUsedBlock]⟩ },node,?_,
    block,kind,none,by rw [table3]; exact none,fun k few => ⟨only.placed placed,degree,?_,?_,?_,fun leaf => ?_,?_,?_⟩,fun internal => ?_,?_⟩
  · have start : (if isLeaf then db.nUsedBlock*blockSize+blockMagic.length+1+1+2+2+4*db.degree
        else db.nUsedBlock*blockSize+blockMagic.length+1+1+2+2+2*db.degree+4*(db.degree+1))-db.nUsedBlock*blockSize =
          dataStart db.degree isLeaf := by
      simp only [dataStart,blockMagic,length_cons,length_nil]
      split <;> omega
    subst shape
    have counted' : putUint16 f1 (db.nUsedBlock*blockSize+blockMagic.length+1+1) 0 = some f2 := counted
    have set' : putUint16 f2 (db.nUsedBlock*blockSize+blockMagic.length+1+1+2) (dataStart db.degree isLeaf) = some f3 := set
    cases isLeaf with
    | true =>
      simp only [if_true] at flagged start
      simp only [DB.newNodeBlock,newBlock_eq file room,if_true,flagged,counted',start,uint16_of_lt small,set',some_bind]
      rfl
    | false =>
      simp only [if_ff,Option.some.injEq] at flagged start
      subst flagged
      simp only [DB.newNodeBlock,newBlock_eq file room,if_ff,counted',start,uint16_of_lt small,set',
        some_bind]
      rfl
  · rwa [table3]
  · rw [table3]
    exact offset.symm
  · exact tail_nil (by simp [Node.table,degree]) few
  · exact tail_nil (by simp [Node.table,degree,leaf]) few
  · simp [offset,kind]
  · rwa [offset]
  · simp [Node.table,degree,kind,internal]
  · have changed := only.only db.mem placed
    rw [block] at changed
    refine ⟨rfl,rfl,rfl,rfl,rfl,fun b other => changed.sameBlock other,only.size,fun before e member => ?_,?_⟩
    · rcases mem_append.mp member with old | new
      · exact before e old
      · obtain rfl := mem_singleton.mp new
        trivial
    · simp [Mem.handed,Event.handed,range'_one]

end

section
variable {db : DB} {node : Node}

lemma setNKeys_two (mem : Mem) (lower : Body d mem.mmap left ks vs)
    (upper : Body d mem.mmap right ks' vs') (other : left.blockId ≠ right.blockId) (small : m < 65536) (small' : n < 65536) :
    ∃ f g, { left with nKeys := m }.setNKeys mem.mmap = some f ∧ { right with nKeys := n }.setNKeys f = some g ∧
      Body d g { left with nKeys := m } ks vs ∧ (left.table g).count = m ∧ (left.table g).slots = (left.table mem.mmap).slots ∧
      Body d g { right with nKeys := n } ks' vs' ∧ (right.table g).count = n ∧ (right.table g).slots = (right.table mem.mmap).slots ∧
      Alters (fun b => b = left.blockId ∨ b = right.blockId) mem { mem with mmap := g } := by
  obtain ⟨f,counted,table1,only1,body1⟩ := lower.setNKeys (n := m) rfl small
  have changed1 := only1.only mem lower.placed
  obtain ⟨same1,upper1⟩ := upper.frame (changed1.sameBlock (Ne.symm other))
  obtain ⟨g,counted',table2,only2,body2⟩ := upper1.setNKeys (n := n) rfl small'
  have changed2 : Local right.blockId { mem with mmap := f } { mem with mmap := g } := only2.only { mem with mmap := f } upper1.placed
  obtain ⟨same2,lower2⟩ := body1.frame (changed2.sameBlock other)
  have table1' : left.table g = _ := same2.trans table1
  have table2' : right.table g = _ := table2
  refine ⟨f,g,counted,counted',lower2,by rw [table1'],by rw [table1'],body2,by rw [table2'],by rw [table2',same1],?_⟩
  exact (changed1.alters (.inl rfl)).trans (changed2.alters (.inr rfl))

lemma Leaf.splitLeaf (leaf : Leaf db.degree db.mem.mmap node (pre++e::post))
    (half : pre.length = db.degree/2) (full : (pre++e::post).length = db.degree) (other : node.blockId ≠ db.nUsedBlock)
    (room : db.nUsedBlock < 5120) :
    ∃ db' left right, db.splitLeaf node = some (db',e.1,right) ∧ left.blockId = node.blockId ∧ right.blockId = db.nUsedBlock ∧
      Leaf db.degree db'.mem.mmap left pre ∧ Leaf db.degree db'.mem.mmap right (e::post) ∧
      Changes (fun b => b = node.blockId ∨ b = db.nUsedBlock) 1 db db' := by
  have kind := leaf.leaf
  have degree := leaf.body.degree
  have bound := leaf.body.placed.room
  have low := leaf.body.low
  have high := leaf.body.high
  have count := leaf.count
  rw [degree,kind] at bound
  rw [kind] at low
  obtain ⟨db1,right,created,fresh⟩ := newNodeBlock_eq leaf.body.placed.file room (by simp) bound
  have apart : node.blockId ≠ right.blockId := by rw [fresh.block]; exact other
  have body1 := (leaf.body.frame (fresh.changes.bytes _ other)).2
  have upper : (e::post).length = db.degree-db.degree/2 := by
    simp only [length_append] at full
    omega
  have filling : Filling db.degree (e::post).length db1.mem.mmap right (([] : List (Bytes × Bytes)).map Prod.fst)
      (([] : List (Bytes × Bytes)).map Prod.snd) := fresh.empty (e::post).length (by omega)
  have free : right.unusedOffset+total ((e::post).map Prod.fst)+total ((e::post).map Prod.snd) ≤ blockSize := by
    rw [filling.full,fresh.kind]
    simp only [map_append,map_nil,total_append,total_nil] at low ⊢
    omega
  obtain ⟨n,mem2,moved,lower2,upper2,changed2⟩ := body1.moveKvs kind filling fresh.kind apart free
  simp only [append_nil] at upper2
  have small : db.degree < 65536 := by
    simp only [dataStart_leaf,blockSize] at bound
    omega
  obtain ⟨f,g,counted,counted',lower3,count1,_,upper3,count2,_,changed3⟩ := setNKeys_two mem2 lower2 upper2 apart
    (m := db.degree/2) (n := db.degree-db.degree/2) (by omega) (by omega)
  have first : { right.raise n with nKeys := db.degree-db.degree/2 }.getKey g 0 = some e.1 := by
    rw [map_cons,← nil_append (e.1::_)] at upper3
    exact upper3.getKey
  refine ⟨{ db1 with mem := { mem2 with mmap := g } },{ node with nKeys := db.degree/2 },
    { right.raise n with nKeys := db.degree-db.degree/2 },?_,rfl,fresh.block,⟨lower3,kind,half.symm,count1⟩,
    ⟨upper3,fresh.kind,upper.symm,count2⟩,?_⟩
  · rw [show pre.length = node.nKeys-(db.degree-db.degree/2) by omega,upper] at moved
    simp only [degree] at counted
    simp only [DB.splitLeaf,degree,created,moved,counted,counted',first,some_bind]
    rfl
  · have rest := changed2.trans changed3
    rw [fresh.block] at rest
    exact (fresh.changes.mono (fun b => .inr)).trans rest.changes

lemma Internal.splitInternal
    (holds : Internal db.degree db.mem.mmap node (pre++key::post) (left++c::right)) (len : left.length = pre.length+1)
    (len' : right.length = post.length) (half : pre.length = db.degree/2) (full : (pre++key::post).length = db.degree)
    (other : node.blockId ≠ db.nUsedBlock) (room : db.nUsedBlock < 5120) (clean : db.mem.mmap.byte (db.nUsedBlock*blockSize+8) ≠ 1) :
    ∃ db' a b, db.splitInternal node = some (db',key,b) ∧ a.blockId = node.blockId ∧ b.blockId = db.nUsedBlock ∧
      Internal db.degree db'.mem.mmap a pre left ∧ Internal db.degree db'.mem.mmap b post (c::right) ∧
      Changes (fun b => b = node.blockId ∨ b = db.nUsedBlock) 1 db db' := by
  have kind := holds.internal
  have degree := holds.body.degree
  have bound := holds.body.placed.room
  have low := holds.body.low
  have high := holds.body.high
  have count := holds.count
  rw [degree,kind] at bound
  rw [kind] at low
  obtain ⟨db1,sibling,created,fresh⟩ := newNodeBlock_eq holds.body.placed.file room (fun _ => clean) bound
  have apart : node.blockId ≠ sibling.blockId := by rw [fresh.block]; exact other
  obtain ⟨table1,body1⟩ := holds.body.frame (fresh.changes.bytes _ other)
  have cut : pre++key::post = (pre++[key])++post := by simp
  have cut' : left++c::right = (left++[c])++right := by simp
  have children := holds.children
  rw [cut] at body1
  rw [cut',← table1] at children
  have upper : post.length = db.degree-db.degree/2-1 := by
    simp only [length_append,length_cons] at full
    omega
  have filling := fresh.empty post.length (by omega)
  have free : sibling.unusedOffset+total post ≤ blockSize := by
    rw [filling.full,fresh.kind]
    simp only [total_append,total_cons,total_nil] at low ⊢
    omega
  have length := fresh.children rfl
  have slots : Slices.Holds (db.degree+1) ((sibling.table db1.mem.mmap).slots.take (post.length+1) ++ [])
      (sibling.table db1.mem.mmap).slots :=
    ⟨(sibling.table db1.mem.mmap).slots.drop (post.length+1),by simp,length⟩
  obtain ⟨n,mem2,z,moved,lower2,lowerC,upper2,upperC,changed2⟩ := body1.moveChildren kind children (by simp [len]) len' filling fresh.kind
    slots (by simp [length]; omega) apart free
  rw [append_nil] at upper2 upperC
  -- the first child of the sibling
  have got : (node.table mem2.mmap).slots[left.length]? = some c := lowerC.get rfl
  obtain ⟨readChild,small⟩ := lower2.placed.getChildBlockId kind got
  obtain ⟨ys,written,upperC'⟩ := Slices.Holds.put (i := 0) (y := c) (show Slices.Holds _ ([]++z::right) _ from upperC) rfl
  obtain ⟨f3,setFirst,table3,only3,upper3⟩ := upper2.putChild fresh.kind small written
  have changed3 : Local sibling.blockId mem2 { mem2 with mmap := f3 } := only3.only mem2 upper2.placed
  obtain ⟨kept3,lower3⟩ := lower2.frame (changed3.sameBlock apart)
  obtain ⟨zs,zeroed,lowerC'⟩ := lowerC.put (y := 0) rfl
  obtain ⟨f4,erased,table4,only4,lower4⟩ := lower3.putChild (c := 0) kind (by decide) (by rw [kept3]; exact zeroed)
  have readKey := lower4.getKey
  obtain ⟨f5,cleared,slots5,only5,lower5⟩ := lower4.clearKey
  have changed5 := (only4.trans only5).only { mem2 with mmap := f3 } lower3.placed
  obtain ⟨table5,upper5⟩ := upper3.frame (changed5.sameBlock (Ne.symm apart))
  have few : db.degree < 65536 := by
    simp only [dataStart_internal,blockSize] at bound
    omega
  obtain ⟨f6,g,counted,counted',lower6,count1,slots6,upper6,count2,slots6',changed6⟩ := setNKeys_two { mem2 with mmap := f5 }
    lower5 upper5 apart (m := db.degree/2) (n := db.degree-db.degree/2-1) (by omega) (by omega)
  refine ⟨{ db1 with mem := { mem2 with mmap := g } },{ node with nKeys := db.degree/2 },
    { sibling.raise n with nKeys := db.degree-db.degree/2-1 },?_,rfl,fresh.block,⟨lower6,kind,half.symm,count1,?_⟩,
    ⟨upper6,fresh.kind,upper.symm,count2,?_⟩,?_⟩
  · have place : node.nKeys-1-(db.degree-db.degree/2-1) = pre.length := by omega
    rw [length_append,length_singleton,upper] at moved
    rw [len] at readChild erased
    simp only [degree] at counted
    simp only [DB.splitInternal,degree,created,place,moved,readChild,setFirst,erased,readKey,cleared,counted,counted',some_bind]
    rfl
  · rw [show ({ node with nKeys := db.degree/2 } : Node).table g = node.table g from rfl,slots6,slots5,table4]
    exact lowerC'.take
  · rw [show ({ sibling.raise n with nKeys := db.degree-db.degree/2-1 } : Node).table g = (sibling.raise n).table g from rfl,slots6',table5,table3]
    exact upperC'
  · have rest := (changed2.trans ((changed3.alters (.inr rfl)).trans (changed5.alters (.inl rfl)))).trans changed6
    rw [fresh.block] at rest
    exact (fresh.changes.mono (fun b => .inr)).trans rest.changes

end

/-! ## Insertion into a subtree -/
open SortedMaps Fences Option
open BlockTrees (View Content Grown Descent leafView rowView)

/-- What an insertion will do below a node. -/
structure Plan where
  room : Bool
  /-- The number of nodes that are split. -/
  splits : Nat
  promoted : Option Bytes
  deriving DecidableEq

/-- The key in the middle of a node that is full with a key at place `i`. -/
def Node.middle (node : Node) (f : File) (i : Nat) (key : Bytes) : Option Bytes :=
  if i < node.degree/2 then node.getKey f (node.degree/2-1)
  else if i = node.degree/2 then some key
  else node.getKey f (node.degree/2)

/-- The node gets a key, and `n` bytes of its unused memory are taken. -/
def Node.plan (node : Node) (f : File) (i : Nat) (key : Bytes) (n : Nat) (below : Plan) : Option Plan := do
  let room := below.room && decide (node.unusedOffset+n ≤ blockSize)
  if node.nKeys+1 = node.degree then
    let pKey ← node.middle f i key
    return ⟨room,below.splits+1,some pKey⟩
  return ⟨room,below.splits,none⟩

def DB.plan : Nat → DB → Nat → Bytes → Bytes → Option Plan
  | 0,_,_,_,_ => none
  | fuel+1,db,blockId,key,val => do
    let node ← db.loadNode blockId
    if node.isLeaf then
      let i ← node.seek db.mem.mmap (fun k => k = key || key < k) 0 node.nKeys
      if i < node.nKeys ∧ node.getKey db.mem.mmap i = some key then
        return ⟨true,0,none⟩
      node.plan db.mem.mmap i key (size key+size val) ⟨true,0,none⟩
    else
      let i ← node.seek db.mem.mmap (fun k => key < k) 0 node.nKeys
      let childBlockId ← node.getChildBlockId db.mem.mmap i
      let below ← plan fuel db childBlockId key val
      match below.promoted with
      | none => return below
      | some pKey => node.plan db.mem.mmap i pKey (size pKey) below

section
variable {d : Nat} {f : File} {node : Node} {pre post vs : List Bytes} {key : Bytes}

lemma Body.middle (key : Bytes) (body : Body d f node (pre++post) vs) (two : 2 ≤ d) (full : (pre++post).length+1 = d) :
    ∃ left k right, pre ++ key::post = left++k::right ∧ left.length = d/2 ∧ node.middle f pre.length key = some k := by
  have inside : d/2 < (pre++key::post).length := by
    simp only [length_append,length_cons] at full ⊢
    omega
  obtain ⟨left,k,right,cut,len⟩ := exists_cut (pre++key::post) inside
  refine ⟨left,k,right,cut,len,?_⟩
  have stored : (pre++key::post)[d/2]? = some k := by
    rw [cut,← len]
    simp
  rw [Node.middle,body.degree]
  rcases lt_trichotomy pre.length (d/2) with less | same | more
  · rw [if_pos less,body.getKey? (by omega),← stored,getElem?_append_right (by omega),getElem?_append_right (by omega),
      show d/2-pre.length = d/2-1-pre.length+1 by omega,getElem?_cons_succ]
  · rw [if_neg (by omega),if_pos same,← stored,← same]
    simp
  · rw [if_neg (by omega),if_neg (by omega),body.getKey? (by simp only [length_append]; omega),← stored,getElem?_append_left more,
      getElem?_append_left more]

/-- Whether a node with the keys is split, how often, and which key comes out. -/
def Settles (d : Nat) (ks : List Bytes) (n : Nat) (pKey : Option Bytes) : Prop :=
  ks.length < d ∧ n = 0 ∧ pKey = none ∨
    ks.length = d ∧ n = 1 ∧ ∃ left k right, ks = left++k::right ∧ left.length = d/2 ∧ pKey = some k

lemma Body.plan {below plan : Plan} (body : Body d f node (pre++post) vs) (two : 2 ≤ d)
    (count : node.nKeys = (pre++post).length) (few : (pre++post).length < d)
    (planned : node.plan f pre.length key n below = some plan) (room : plan.room = true) :
    below.room = true ∧ node.unusedOffset+n ≤ blockSize ∧
      ∃ m, plan.splits = below.splits+m ∧ Settles d (pre++key::post) m plan.promoted := by
  have longer : (pre++key::post).length = node.nKeys+1 := by
    rw [count]
    simp only [length_append,length_cons]
    omega
  simp only [Node.plan,body.degree] at planned
  by_cases full : node.nKeys+1 = d
  · obtain ⟨left,k,right,cut,len,middle⟩ := body.middle key two (by omega)
    rw [if_pos full,middle] at planned
    cases planned
    simp only [Bool.and_eq_true,decide_eq_true_eq] at room
    exact ⟨room.1,room.2,1,rfl,.inr ⟨by omega,rfl,left,k,right,cut,len,rfl⟩⟩
  · rw [if_neg full] at planned
    cases planned
    simp only [Bool.and_eq_true,decide_eq_true_eq] at room
    exact ⟨room.1,room.2,0,rfl,.inl ⟨by omega,rfl,rfl⟩⟩

end

/-- Nodes that are not full. -/
def content (d : Nat) (f : File) : Content Bytes Bytes where
  leaf b es := ∃ node : Node, node.blockId = b ∧ Leaf d f node es ∧ es.length < d
  row b ks cs := ∃ node : Node, node.blockId = b ∧ Internal d f node ks cs ∧ ks.length < d

lemma content_agree (same : SameBlock b f g) : (content d f).Agree (content d g) b where
  leaf es := by
    rintro ⟨node,rfl,leaf,few⟩
    exact ⟨node,rfl,leaf.frame same,few⟩
  row ks cs := by
    rintro ⟨node,rfl,holds,few⟩
    exact ⟨node,rfl,holds.frame same,few⟩

/-- The next `n` blocks. -/
def DB.Next (db : DB) (n c : Nat) : Prop := db.nUsedBlock ≤ c ∧ c < db.nUsedBlock+n

/-- There are `n` more blocks, and no block from the counter on was ever a leaf. -/
structure Spare (db : DB) (n : Nat) : Prop where
  room : db.nUsedBlock+n ≤ 5120
  clean : ∀ b, db.nUsedBlock ≤ b → db.mem.mmap.byte (b*blockSize+8) ≠ 1

/-- What an insertion leaves of a subtree, with `n` nodes split and a key that comes out at the top. -/
structure Inserted (db : DB) (h : Nat) (lo hi : Option Bytes) (old : View Bytes Bytes) (es : List (Bytes × Bytes)) (n : Nat)
    (pKey : Option Bytes) (db' : DB) (r : Option (Bytes × Node)) (v : View Bytes Bytes) (more : Option (Bytes × View Bytes Bytes)) : Prop where
  promoted : pKey = more.map Prod.fst
  result : r.map (fun p => (p.1,p.2.blockId)) = more.map (fun p => (p.1,p.2.id))
  grown : Grown (content db.degree db'.mem.mmap) h lo hi old (db.Next n) es v more
  changes : Changes (fun b => b ∈ old.blocks ∨ db.Next n b) n db db'

section
variable {db db1 : DB} {h m n : Nat} {lo hi : Option Bytes} {node : Node} {key val : Bytes} {pKey : Option Bytes} {plan : Plan}

lemma Inserted.after
    (first : Changes (fun b => b ∈ old.blocks ∨ db.Next m b) m db db1)
    (origin : ∀ c ∈ mid.blocks, c ∈ old.blocks ∨ db.Next m c) (same : mid.id = old.id)
    (second : Inserted db1 h lo hi mid es n pKey db2 r v more) : Inserted db h lo hi old es (m+n) pKey db2 r v more := by
  have used := first.used
  have grown := second.grown
  have wider : ∀ c, db.Next m c → db.Next (m+n) c := fun c next => ⟨next.1,by have := next.2; omega⟩
  have later : ∀ c, db1.Next n c → db.Next (m+n) c := by
    intro c next
    simp only [DB.Next] at *
    omega
  have all : ∀ c, c ∈ mid.blocks ∨ db1.Next n c → c ∈ old.blocks ∨ db.Next (m+n) c := by
    rintro c (inside | next)
    · exact (origin c inside).imp_right (wider c)
    · exact .inr (later c next)
  rw [first.degree] at grown
  refine ⟨second.promoted,second.result,?_,(first.mono (fun c => Or.imp_right (wider c))).trans (second.changes.mono all)⟩
  exact { grown with id := grown.id.trans same, blocks := fun c member => all c (grown.blocks c member) }

lemma Spare.later (spare : Spare db (m+n)) (changes : Changes S m db db1)
    (outside : ∀ b, db.nUsedBlock+m ≤ b → ¬ S b) : Spare db1 n := by
  have room := spare.room
  have used := changes.used
  refine ⟨by omega,fun b later => ?_⟩
  have same := (changes.bytes b (outside b (by omega))).2 (b*blockSize+8) (by omega) (by simp only [blockSize]; omega)
  rw [same]
  exact spare.clean b (by omega)

lemma Spare.mono (spare : Spare db n) (fewer : m ≤ n) : Spare db m := ⟨by have := spare.room; omega,spare.clean⟩

lemma Leaf.insertKVInLeaf (leaf : Leaf db.degree db.mem.mmap node (pre++post))
    (few : (pre++post).length < db.degree) (free : node.unusedOffset+(size key+size val) ≤ blockSize)
    (sought : node.seek db.mem.mmap (fun k => k = key || key < k) 0 node.nKeys = some pre.length)
    (missing : ¬ (pre.length < node.nKeys ∧ node.getKey db.mem.mmap pre.length = some key)) :
    ∃ db1 node1, node1.blockId = node.blockId ∧ Leaf db.degree db1.mem.mmap node1 (pre++(key,val)::post) ∧
      Changes (· = node.blockId) 0 db db1 ∧
      db.insertKVInLeaf node key val = if node1.needSplit then (db1.splitLeaf node1).map (fun r => (r.1,some r.2)) else some (db1,none) := by
  obtain ⟨f1,mem2,f3,shifted,inserted,counted,leaf1,only⟩ := leaf.insertNew few free
  refine ⟨{ db with mem := { mem2 with mmap := f3 } },_,?_,leaf1,Alters.changes (only.alters (S := (· = node.blockId)) rfl),?_⟩
  · rfl
  · have counted' : { node.raise (size key+size val) with nKeys := (node.raise (size key+size val)).nKeys+1 }.setNKeys mem2.mmap =
      some f3 := counted
    simp only [DB.insertKVInLeaf,sought,if_neg missing,shifted,inserted,counted',some_bind,
      map_eq_bind]
    rfl

lemma Leaf.settle (leaf : Leaf db.degree db.mem.mmap node es) (two : 2 ≤ db.degree)
    (sorted : es.Pairwise (fun x y => x.1 < y.1)) (within : ∀ e ∈ es, Within lo hi e.1) (kind : Settles db.degree (es.map Prod.fst) n pKey)
    (spare : 0 < n → node.blockId < db.nUsedBlock ∧ Spare db n) :
    ∃ db' r v more, (if node.needSplit then (db.splitLeaf node).map (fun r => (r.1,some r.2)) else some (db,none)) = some (db',r) ∧
      Inserted db 0 lo hi (leafView node.blockId es) es n pKey db' r v more := by
  have count := leaf.count
  simp only [Node.needSplit,leaf.body.degree,count,decide_eq_true_eq]
  rcases kind with ⟨less,rfl,rfl⟩ | ⟨full,rfl,left,k,right,cut,half,rfl⟩
  · rw [length_map] at less
    refine ⟨db,none,leafView node.blockId es,none,if_neg (by omega),rfl,rfl,?_,Changes.refl _ db⟩
    exact ⟨⟨node.blockId,es,rfl,⟨node,rfl,leaf,less⟩,sorted,within⟩,rfl,by simp [leafView],by simp [leafView],by simp [leafView]⟩
  · obtain ⟨lower,rest,rfl,rfl,below⟩ := map_eq_append_iff.mp cut
    obtain ⟨e,upper,rfl,rfl,rfl⟩ := map_eq_cons_iff.mp below
    rw [length_map] at full half
    obtain ⟨old,spare⟩ := spare (by omega)
    have room := spare.room
    obtain ⟨db',l,r,split,lBlock,rBlock,lower',upper',changes⟩ := leaf.splitLeaf half full (by omega) (by omega)
    have short : lower.length < db.degree ∧ (e::upper).length < db.degree := by
      simp only [length_append] at full
      omega
    refine ⟨db',some (e.1,r),leafView node.blockId lower,some (e.1,leafView r.blockId (e::upper)),?_,rfl,rfl,?_,?_⟩
    · rw [if_pos full,split]
      rfl
    · refine ⟨BlockTrees.leaf_pair sorted within ⟨l,lBlock,lower',short.1⟩ ⟨r,rfl,upper',short.2⟩,rfl,?_,?_,?_⟩
      · simp [leafView]
      · simp [leafView,rBlock]
        omega
      · simp [leafView,rBlock,DB.Next]
    · refine changes.mono fun b => ?_
      rintro (rfl | rfl)
      · exact .inl (by simp [leafView])
      · exact .inr ⟨by omega,by omega⟩

lemma Leaf.insert (leaf : Leaf db.degree db.mem.mmap node es) (two : 2 ≤ db.degree) (few : es.length < db.degree)
    (sorted : es.Pairwise (fun x y => x.1 < y.1)) (within : ∀ e ∈ es, Within lo hi e.1) (inside : Within lo hi key)
    (absent : ∀ e ∈ es, e.1 ≠ key) (planned : db.plan (fuel+1) node.blockId key val = some plan) (room : plan.room = true)
    (spare : 0 < plan.splits → node.blockId < db.nUsedBlock ∧ Spare db plan.splits) :
    ∃ db' r v more, db.insertKVInLeaf node key val = some (db',r) ∧
      Inserted db 0 lo hi (leafView node.blockId es) (setEntry key val es) plan.splits plan.promoted db' r v more := by
  have load := leaf.body.loadNode leaf.stored
  have degree := leaf.body.degree
  have count := leaf.count
  obtain ⟨pre,post,rfl,sought,less,found⟩ := leaf.seekKey key
  rcases found with ⟨_,w,rest,rfl⟩ | ⟨missing,greater⟩
  · exact absurd rfl (absent (key,w) (by simp))
  have entries : setEntry key val (pre++post) = pre++(key,val)::post := by
    rw [setEntry_append_left less,setEntry_of_head greater]
  have sorted' := setEntry_sorted (v := val) sorted (k := key)
  have within' : ∀ e ∈ setEntry key val (pre++post), Within lo hi e.1 := by
    intro e member
    rcases mem_setEntry member with rfl | before
    · exact inside
    · exact within e before
  simp only [DB.plan,load,leaf.leaf,if_true,sought,if_neg missing,some_bind] at planned
  have body : Body db.degree db.mem.mmap node (pre.map Prod.fst ++ post.map Prod.fst) ((pre++post).map Prod.snd) := by
    rw [← map_append]
    exact leaf.body
  have place : (pre.map Prod.fst).length = pre.length := length_map _
  obtain ⟨_,free,n,splits,settles⟩ := body.plan two (by simp [count]) (by simpa using few) (by rw [place]; exact planned) room
  obtain ⟨db1,node1,block,leaf1,changed,result⟩ := leaf.insertKVInLeaf few free sought missing
  rw [entries] at sorted' within' ⊢
  rw [splits] at spare ⊢
  rw [← changed.degree] at leaf1 two settles
  have used := changed.used
  have spare' : 0 < n → node1.blockId < db1.nUsedBlock ∧ Spare db1 n := by
    intro some_
    obtain ⟨old,spare⟩ := spare (by omega)
    exact ⟨by omega,spare.later changed (fun b later same => by omega)⟩
  obtain ⟨db',r,v,more,settled,inserted⟩ := leaf1.settle two sorted' within' (by simpa using settles) spare'
  refine ⟨db',r,v,more,result.trans settled,Inserted.after (changed.mono ?_) ?_ ?_ inserted⟩
  · rintro b rfl
    exact .inl (by simp [leafView])
  · simp [leafView,block]
  · exact block

/-- The end of `insert` when the child was split. -/
def DB.insertChild (db : DB) (node : Node) (i : Nat) (childPromtedKey : Bytes) (newChild : Nat) : Option (DB × Option (Bytes × Node)) := do
  let f ← node.shiftChildren i (node.nKeys-i) db.mem.mmap
  let (node,mem) ← node.insertKeyInPos { db.mem with mmap := f } i childPromtedKey
  let f ← node.setChildBlockId mem.mmap (i+1) newChild
  let node := { node with nKeys := node.nKeys+1 }
  let f ← node.setNKeys f
  let db := { db with mem := { mem with mmap := f } }
  if node.needSplit then
    let (db,pKey,rightSibling) ← db.splitInternal node
    return (db,some (pKey,rightSibling))
  return (db,none)

lemma Internal.insertNew
    (holds : Internal db.degree db.mem.mmap node (pre++post) (left++right)) (len : left.length = pre.length+1)
    (len' : right.length = post.length) (few : (pre++post).length < db.degree) (free : node.unusedOffset+size key ≤ blockSize)
    (small : c < 4294967296) :
    ∃ db1 node1, node1.blockId = node.blockId ∧ Internal db.degree db1.mem.mmap node1 (pre++key::post) (left++c::right) ∧
      Changes (· = node.blockId) 0 db db1 ∧
      db.insertChild node pre.length key c = if node1.needSplit then (db1.splitInternal node1).map (fun r => (r.1,some r.2)) else some (db1,none) := by
  obtain ⟨f1,mem2,f3,f4,shifted,inserted,set,counted,holds1,only⟩ := holds.insertChild len len' few free small
  refine ⟨{ db with mem := { mem2 with mmap := f4 } },_,?_,holds1,Alters.changes (only.alters (S := (· = node.blockId)) rfl),?_⟩
  · rfl
  · have counted' : { node.raise (size key) with nKeys := (node.raise (size key)).nKeys+1 }.setNKeys f3 = some f4 := counted
    simp only [DB.insertChild,shifted,inserted,set,counted',some_bind,map_eq_bind]
    rfl

lemma Internal.settle (holds : Internal db.degree db.mem.mmap node ks (cs.map View.id))
    (fenced : Fenced (BlockTrees.Subtree (content db.degree db.mem.mmap) h) lo hi ks cs) (nodup : (rowView node.blockId cs).blocks.Nodup) (kind : Settles db.degree ks n pKey)
    (spare : 0 < n → (∀ b ∈ (rowView node.blockId cs).blocks, b < db.nUsedBlock) ∧ Spare db n) :
    ∃ db' r v more, (if node.needSplit then (db.splitInternal node).map (fun r => (r.1,some r.2)) else some (db,none)) = some (db',r) ∧
      Inserted db (h+1) lo hi (rowView node.blockId cs) (rowView node.blockId cs).entries n pKey db' r v more := by
  have count := holds.count
  simp only [Node.needSplit,holds.body.degree,count,decide_eq_true_eq]
  rcases kind with ⟨less,rfl,rfl⟩ | ⟨full,rfl,left,k,right,rfl,half,rfl⟩
  · refine ⟨db,none,rowView node.blockId cs,none,if_neg (by omega),rfl,rfl,?_,Changes.refl _ db⟩
    exact ⟨⟨node.blockId,ks,cs,rfl,⟨node,rfl,holds,less⟩,fenced⟩,rfl,by simp,by simpa using nodup,fun c member => .inl (by simpa using member)⟩
  · obtain ⟨old,unused⟩ := spare (by omega)
    have room := unused.room
    have length := fenced.length
    obtain ⟨cs1,c,cs2,rfl,cut⟩ := exists_cut cs (show left.length+1 < cs.length by simp at length; omega)
    have here : node.blockId < db.nUsedBlock := old node.blockId (by simp [rowView])
    simp only [map_append,map_cons] at holds
    obtain ⟨db',a,b,split,aBlock,bBlock,lower,upper,changes⟩ := holds.splitInternal (by simpa using cut) (by
      simp only [length_append,length_cons,length_map] at length ⊢
      omega) half full (by omega) (by omega) (unused.clean _ (Nat.le_refl _))
    have agree : ∀ x ∈ (cs1++c::cs2).flatMap View.blocks, (content db.degree db.mem.mmap).Agree (content db.degree db'.mem.mmap) x := by
      intro x member
      have less := old x (by simp only [rowView]; exact mem_cons_of_mem _ member)
      refine content_agree (changes.bytes x ?_)
      rintro (rfl | rfl)
      · exact (nodup_cons.mp nodup).1 member
      · omega
    have short : left.length < db.degree ∧ right.length < db.degree := by
      simp only [length_append,length_cons] at full
      omega
    have same : (rowView node.blockId (cs1++c::cs2)).blocks =
        (rowView node.blockId cs1).blocks ++ (c::cs2).flatMap View.blocks := by simp [rowView]
    have blocks : (rowView node.blockId cs1 :: (some (k,rowView b.blockId (c::cs2))).toList.map Prod.snd).flatMap View.blocks =
        (rowView node.blockId cs1).blocks ++ b.blockId::(c::cs2).flatMap View.blocks := by simp [rowView]
    refine ⟨db',some (k,b),rowView node.blockId cs1,some (k,rowView b.blockId (c::cs2)),?_,rfl,rfl,?_,?_⟩
    · rw [if_pos full,split]
      rfl
    · refine ⟨BlockTrees.row_pair (BlockTrees.fenced_agree fenced agree) cut ⟨a,aBlock,lower,short.1⟩ ⟨b,rfl,by simpa using upper,short.2⟩,rfl,
        ?_,?_,?_⟩
      · simp [rowView]
      · rw [blocks,nodup_middle,nodup_cons]
        refine ⟨fun member => ?_,same ▸ nodup⟩
        have less := old b.blockId (same ▸ member)
        omega
      · intro x member
        rw [blocks,mem_append,mem_cons] at member
        rcases member with first | rfl | second
        · exact .inl (same ▸ mem_append_left _ first)
        · exact .inr ⟨by omega,by omega⟩
        · exact .inl (same ▸ mem_append_right _ second)
    · refine changes.mono fun x => ?_
      rintro (rfl | rfl)
      · exact .inl (by simp [rowView])
      · exact .inr ⟨by omega,by omega⟩

lemma insert_of_child {fuel i c : Nat} {r : Option (Bytes × Node)} (load : db.loadNode node.blockId = some node)
    (kind : node.isLeaf = false) (sought : node.seek db.mem.mmap (fun k => key < k) 0 node.nKeys = some i)
    (child : node.getChildBlockId db.mem.mmap i = some c) (below : db.insert fuel c key val = some (db1,r)) :
    db.insert (fuel+1) node.blockId key val =
      match r with
      | none => some (db1,none)
      | some p => db1.insertChild node i p.1 p.2.blockId := by
  simp only [DB.insert,load,kind,sought,child,below,if_ff,some_bind]
  cases r with
  | none => rfl
  | some p => rfl

lemma id_lt (tree : BlockTrees.Subtree (content d f) h lo hi v) : v.id < 5120 := by
  cases h with
  | zero =>
    obtain ⟨b,es,rfl,⟨node,rfl,leaf,_⟩,_⟩ := tree
    exact leaf.body.placed.inside
  | succ h =>
    obtain ⟨b,ks,cs,rfl,⟨node,rfl,holds,_⟩,_⟩ := tree
    exact holds.body.placed.inside

lemma insert_tree (tree : BlockTrees.Subtree (content db.degree db.mem.mmap) h lo hi v)
    (two : 2 ≤ db.degree) (inside : Within lo hi key) (absent : ∀ e ∈ v.entries, e.1 ≠ key) (nodup : v.blocks.Nodup) (enough : h < fuel)
    (planned : db.plan fuel v.id key val = some plan) (room : plan.room = true)
    (spare : 0 < plan.splits → (∀ b ∈ v.blocks, b < db.nUsedBlock) ∧ Spare db plan.splits) :
    ∃ db' r v' more, db.insert fuel v.id key val = some (db',r) ∧
      Inserted db h lo hi v (setEntry key val v.entries) plan.splits plan.promoted db' r v' more := by
  obtain _ | fuel := fuel
  · omega
  induction h generalizing lo hi v fuel plan with
  | zero =>
    obtain ⟨b,es,rfl,⟨node,rfl,leaf,few⟩,sorted,within⟩ := tree
    have load := leaf.body.loadNode leaf.stored
    obtain ⟨db',r,v',more,done,inserted⟩ := leaf.insert two few sorted within inside absent planned room
      (fun some_ => ⟨(spare some_).1 _ (by simp [leafView]),(spare some_).2⟩)
    refine ⟨db',r,v',more,?_,inserted⟩
    simp only [leafView,DB.insert,load,leaf.leaf,if_true,some_bind]
    exact done
  | succ h ih =>
    obtain ⟨b,ks,cs,rfl,⟨node,rfl,holds,few⟩,fenced⟩ := tree
    obtain _ | fuel := fuel
    · omega
    have load := holds.body.loadNode holds.stored
    obtain ⟨pre,post,rfl,sought,misses,hit⟩ := holds.body.seek holds.count (fun k => decide (key < k))
    obtain ⟨cs1,c,cs2,lo',hi',rfl,descent⟩ := BlockTrees.descend fenced inside (fun x member => by simpa using misses x member)
      (fun x first => by simpa using hit x first)
    have stored := holds
    simp only [map_append,map_cons] at stored
    have child := stored.getChildBlockId
    rw [length_map,descent.len] at child
    simp only [rowView,DB.plan,load,holds.internal,if_ff,sought,child,some_bind] at planned
    obtain ⟨below,plannedBelow,planned⟩ := bind_eq_some_iff.mp planned
    have body : Body db.degree db.mem.mmap node (pre++post) [] := holds.body
    have count := holds.count
    have deeper : below.room = true ∧ below.splits ≤ plan.splits := by
      cases promoted : below.promoted with
      | none =>
        simp only [promoted] at planned
        cases planned
        exact ⟨room,Nat.le_refl _⟩
      | some p =>
        simp only [promoted] at planned
        obtain ⟨room,_,m,splits,_⟩ := body.plan two count few planned room
        exact ⟨room,by omega⟩
    have partOf : ∀ x ∈ c.blocks, x ∈ (rowView node.blockId (cs1++c::cs2)).blocks := by
      intro x member
      simp only [rowView]
      exact mem_cons_of_mem _ (mem_flatMap.mpr ⟨c,by simp,member⟩)
    have distinct : c.blocks.Nodup := by
      simp only [rowView,flatMap_append,flatMap_cons,nodup_cons,nodup_append] at nodup
      exact nodup.2.2.1.1
    have fresh : ∀ x ∈ (rowView node.blockId (cs1++c::cs2)).blocks, ¬ db.Next below.splits x := by
      rintro x member ⟨low,high⟩
      have less := (spare (by omega)).1 x member
      omega
    obtain ⟨db1,r,c',more,done,inserted⟩ := ih descent.child descent.inside
      (fun e member => absent e (mem_flatMap.mpr ⟨c,by simp,member⟩)) distinct deeper.1
      (fun some_ => ⟨fun x member => (spare (by omega)).1 x (partOf x member),(spare (by omega)).2.mono deeper.2⟩) fuel
      (by omega) plannedBelow
    have apart : node.blockId ∉ c.blocks := fun member =>
      (nodup_cons.mp nodup).1 (mem_flatMap.mpr ⟨c,by simp,member⟩)
    obtain ⟨_,fenced1,entries1,nodup1,origin⟩ := descent.grow (b := node.blockId) nodup fresh
      (fun x out new => content_agree (inserted.changes.bytes x (not_or.mpr ⟨out,new⟩))) inserted.grown
    have holds1 := stored.frame (inserted.changes.bytes node.blockId (not_or.mpr ⟨apart,fresh _ (by simp [rowView])⟩))
    have changes1 := inserted.changes.mono (fun b => Or.imp_left (partOf b))
    have above := insert_of_child load holds.internal sought child done
    have degree := changes1.degree
    rw [← inserted.grown.id] at holds1
    rw [← entries1]
    cases more with
    | none =>
      obtain rfl := map_eq_none_iff.mp inserted.result
      have none_ : below.promoted = none := inserted.promoted
      simp only [none_] at planned
      cases planned
      simp only [toList_none,map_nil,nil_append,singleton_append] at fenced1 nodup1 origin ⊢
      rw [← map_cons,← map_append] at holds1
      refine ⟨db1,none,rowView node.blockId (cs1++c'::cs2),none,above,none_,rfl,?_,changes1⟩
      exact ⟨⟨node.blockId,_,_,rfl,⟨node,rfl,holds1,few⟩,fenced1⟩,rfl,by simp,by simpa using nodup1,by simpa using origin⟩
    | some p =>
      obtain ⟨sep,w⟩ := p
      obtain ⟨⟨k,newChild⟩,rfl,same⟩ := map_eq_some_iff.mp inserted.result
      obtain ⟨rfl,same⟩ := Prod.mk.inj same
      have some_ : below.promoted = some k := inserted.promoted
      simp only [some_] at planned
      obtain ⟨_,free,m,splits,settles⟩ := body.plan two count few planned room
      simp only [toList_some,map_cons,map_nil,cons_append,nil_append]
        at fenced1 nodup1 origin ⊢
      rw [← singleton_append,← append_assoc,← degree] at holds1
      obtain ⟨_,_,tree,_⟩ := fenced1.mem (show w ∈ _ by simp)
      obtain ⟨db2,node2,block,holds2,changes2,step⟩ := holds1.insertNew (c := w.id)
        (by simp [descent.len]) (by have := fenced.length; have := descent.len; simp at *; omega) (by omega) free
        (by have := id_lt tree; omega)
      have ids : (cs1.map View.id ++ [c'.id]) ++ w.id::cs2.map View.id = (cs1++c'::w::cs2).map View.id := by simp
      have degree2 := changes2.degree
      have used2 := changes2.used
      have used1 := changes1.used
      have fenced2 : Fenced (BlockTrees.Subtree (content db2.degree db2.mem.mmap) h) lo hi (pre++k::post) (cs1++c'::w::cs2) := by
        rw [degree2,degree]
        refine BlockTrees.fenced_agree fenced1 fun x member => content_agree (changes2.bytes x ?_)
        rintro rfl
        exact (nodup_cons.mp nodup1).1 member
      rw [ids,← degree2] at holds2
      rw [← block] at nodup1
      rw [← degree,← degree2] at settles
      have both := changes1.trans (changes2.mono (T := fun b => b ∈ (rowView node.blockId (cs1++c::cs2)).blocks ∨ db.Next below.splits b)
        (by rintro b rfl; exact .inl (by simp [rowView])))
      have spare2 : 0 < m → (∀ b ∈ (rowView node2.blockId (cs1++c'::w::cs2)).blocks, b < db2.nUsedBlock) ∧ Spare db2 m := by
        intro more
        obtain ⟨old,spare⟩ := spare (by omega)
        rw [splits] at spare
        have bound : ∀ b, b ∈ (rowView node.blockId (cs1++c::cs2)).blocks ∨ db.Next below.splits b → b < db.nUsedBlock+below.splits := by
          rintro b (inside | next)
          · have := old b inside
            omega
          · exact next.2
        refine ⟨fun b member => ?_,spare.later both (fun b later inside => ?_)⟩
        · rw [block] at member
          have := bound b (origin b member)
          omega
        · have := bound b inside
          omega
      obtain ⟨db3,r3,v',more',settled,inserted3⟩ := holds2.settle fenced2 nodup1 settles spare2
      rw [← same] at step
      refine ⟨db3,r3,v',more',above.trans (step.trans settled),?_⟩
      rw [splits]
      rw [block] at inserted3
      exact inserted3.after both origin rfl

end
end CodeExercise.BTreeDB
