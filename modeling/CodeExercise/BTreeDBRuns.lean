import CodeExercise.BTreeDBInsert
import Mathlib.Data.List.Range

/-!
Runs of insertions. Every insertion of a new key that finds room (`DB.fits`) keeps a tree in blocks
that were handed out (`Stores`), and the search finds what was inserted. Without room the next
write runs into the next block (`writes_leave_block`).
-/
namespace CodeExercise.BTreeDB
open Files Words Slices SortedMaps Fences Runs List Option
open BTreeMmap (Bytes blockSize blockMagic dbSize size SameBlock)
open BlockTrees (View leafView rowView)

/-- The insertion has unused memory in every node that gets a key, a new root included, and blocks for the splits. -/
def DB.fits (db : DB) (key val : Bytes) : Bool :=
  (db.plan DB.maxDepth db.rootBlockId key val).any (fun plan => plan.room &&
    match plan.promoted with
    | none => decide (db.nUsedBlock+plan.splits ≤ 5120)
    | some pKey => decide (db.nUsedBlock+plan.splits+1 ≤ 5120 ∧ dataStart db.degree false+size pKey ≤ blockSize))

/-- The words of the meta block. The number of used blocks is the one of the creation. -/
structure Meta (db : DB) : Prop where
  degree : word 4 db.mem.mmap 8 = db.degree
  root : word 4 db.mem.mmap 12 = db.rootBlockId
  nKeys : word 8 db.mem.mmap 16 = db.nKeysInDB
  used : word 4 db.mem.mmap 24 = 2

/-- The database holds a tree of height `h` in some of the first `top` blocks, which were handed out in order. -/
structure Stores (d : Nat) (db : DB) (top h : Nat) (v : View Bytes Bytes) : Prop where
  file : db.mem.mmap.size = dbSize
  degree : db.degree = d
  root : v.id = db.rootBlockId
  tree : BlockTrees.Subtree (content d db.mem.mmap) h none none v
  nodup : v.blocks.Nodup
  blocks : ∀ b ∈ v.blocks, 1 ≤ b ∧ b < top
  clean : ∀ b, top ≤ b → db.mem.mmap.byte (b*blockSize+8) ≠ 1
  bound : 2 ≤ top ∧ top ≤ 5120
  handed : db.mem.handed = List.range top
  inside : db.mem.Inside
  info : Meta db

section
variable {db : DB} {d top h fuel : Nat} {v : View Bytes Bytes} {key val : Bytes}

lemma find_tree (tree : BlockTrees.Subtree (content db.degree db.mem.mmap) h lo hi v) (inside : Within lo hi key) (enough : h < fuel) :
    (∃ val, db.find fuel v.id key = some (.ok val) ∧ (key,val) ∈ v.entries) ∨
      db.find fuel v.id key = some (.error .notFound) ∧ ∀ e ∈ v.entries, e.1 ≠ key := by
  obtain _ | fuel := fuel
  · omega
  induction h generalizing lo hi v fuel with
  | zero =>
    obtain ⟨b,es,rfl,⟨node,rfl,leaf,few⟩,sorted,within⟩ := tree
    have load := leaf.body.loadNode leaf.stored
    obtain ⟨pre,post,rfl,sought,less,found⟩ := leaf.seekKey key
    simp only [leafView,DB.find,load,leaf.leaf,if_true,Node.findByKey,sought,some_bind]
    rcases found with ⟨hit,w,rest,rfl⟩ | ⟨missing,greater⟩
    · have read := Body.getVal (show Body db.degree db.mem.mmap node _ (pre.map Prod.snd ++ w::rest.map Prod.snd) by
        simpa using leaf.body) leaf.leaf
      rw [length_map] at read
      exact .inl ⟨w,by rw [if_pos hit,read]; rfl,by simp⟩
    · refine .inr ⟨by rw [if_neg missing]; rfl,fun e member same => ?_⟩
      rcases mem_append.mp member with before | behind
      · exact (less e before).ne same
      · cases post with
        | nil => cases behind
        | cons first post =>
          have above := greater first (by simp)
          rcases mem_cons.mp behind with rfl | later
          · exact above.ne' same
          · have order := (pairwise_cons.mp (pairwise_append.mp sorted).2.1).1 e later
            exact (above.trans order).ne' same
  | succ h ih =>
    obtain ⟨b,ks,cs,rfl,⟨node,rfl,holds,few⟩,fenced⟩ := tree
    obtain _ | fuel := fuel
    · omega
    have load := holds.body.loadNode holds.stored
    obtain ⟨pre,post,rfl,sought,misses,hit⟩ := holds.body.seek holds.count (fun k => decide (key < k))
    obtain ⟨cs1,c,cs2,lo',hi',rfl,descent⟩ := BlockTrees.descend fenced inside (fun x member => by simpa using misses x member)
      (fun x first => by simpa using hit x first)
    simp only [map_append,map_cons] at holds
    have child := holds.getChildBlockId
    rw [length_map,descent.len] at child
    have same : db.find (fuel+1+1) (rowView node.blockId (cs1++c::cs2)).id key = db.find (fuel+1) c.id key := by
      simp only [rowView]
      rw [DB.find]
      simp only [load,holds.internal,if_ff,sought,child,some_bind]
    rw [same]
    rcases ih descent.child descent.inside fuel (by omega) with ⟨val,found,member⟩ | ⟨missing,absent⟩
    · exact .inl ⟨val,found,mem_flatMap.mpr ⟨c,by simp,member⟩⟩
    · refine .inr ⟨missing,fun e member equal => ?_⟩
      simp only [rowView,flatMap_append,flatMap_cons,mem_append] at member
      rcases member with before | here | behind
      · exact (descent.below e before).ne equal
      · exact absent e here equal
      · exact (descent.above e behind).ne' equal

lemma Stores.height_lt (stores : Stores d db top h v) : h < DB.maxDepth := by
  have inside : v.blocks ⊆ List.range top := fun b member => mem_range.mpr (stores.blocks b member).2
  have few := (stores.nodup.subperm inside).length_le
  rw [length_range] at few
  have bound := stores.bound
  have less := stores.tree.height_lt
  rw [show DB.maxDepth = 5120 by decide]
  omega

lemma Stores.find (stores : Stores d db top h v) (member : e ∈ v.entries) : db.Find e.1 = some (.ok e.2) := by
  have tree := stores.tree
  rw [← stores.degree] at tree
  rw [DB.Find,← stores.root]
  rcases find_tree tree (within_unbounded e.1) stores.height_lt with ⟨val,found,other⟩ | ⟨_,absent⟩
  · have nodup : (v.entries.map Prod.fst).Nodup := pairwise_map.mpr (tree.ordered.1.imp (fun less => less.ne))
    rw [found,← inj_on_of_nodup_map nodup other member rfl]
  · exact absurd rfl (absent e member)

lemma putUint_meta (file : f.size = dbSize) (inside : off+w ≤ blockSize) :
    putUint w f off x = some (f.write off (toBE w x)) ∧ (f.write off (toBE w x)).size = dbSize := by
  have near : off+w ≤ f.size := by
    rw [file]
    simp only [blockSize,dbSize] at *
    omega
  refine ⟨if_pos near,?_⟩
  rw [size_write (by omega),length_toBE,file]
  exact Nat.max_eq_left (by omega)

lemma sameBlock_meta (file : f.size = dbSize) (inside : off+w ≤ blockSize) (other : 1 ≤ b) :
    SameBlock b f (f.write off (toBE w x)) := by
  refine ⟨(putUint_meta file inside).2.trans file.symm,fun a low high => byte_write_of_not_mem ?_⟩
  rw [length_toBE]
  simp only [blockSize] at *
  omega

lemma createDB_stores (name : String) (two : 2 ≤ d) (header : dataStart d true ≤ blockSize) :
    ∃ db v, DB.createDB name d = some db ∧ Stores d db 2 0 v ∧ v.entries = [] ∧ db.nUsedBlock = 2 ∧ db.file = name := by
  obtain ⟨db0,begun⟩ : ∃ db0 : DB, db0 = ⟨name,d,1,0,0,⟨File.zeros dbSize,[]⟩⟩ := ⟨_,rfl⟩
  have size0 : db0.mem.mmap.size = dbSize := by rw [begun]; rfl
  have used0 : db0.nUsedBlock = 0 := by rw [begun]
  have block0 := newBlock_eq size0 (show db0.nUsedBlock < 5120 by omega)
  obtain ⟨db1,meta_⟩ : ∃ db1 : DB, db1 = { db0 with nUsedBlock := db0.nUsedBlock+1, mem :=
    ⟨db0.mem.mmap.write (db0.nUsedBlock*blockSize) blockMagic,db0.mem.history++[.handedOut db0.nUsedBlock]⟩ } := ⟨_,rfl⟩
  rw [← meta_] at block0
  have used1 : db1.nUsedBlock = 1 := by rw [meta_,used0]
  have degree1 : db1.degree = d := by rw [meta_,begun]
  have size1 : db1.mem.mmap.size = dbSize := by
    rw [meta_]
    change (db0.mem.mmap.write _ _).size = _
    rw [used0,size_write (by omega),size0]
    exact Nat.max_eq_left (by decide)
  have zero : ∀ b, db1.mem.mmap.byte (b*blockSize+8) = 0 := by
    intro b
    rw [meta_,used0]
    change (db0.mem.mmap.write _ _).byte _ = _
    rw [byte_write_of_not_mem (by simp [blockMagic]),begun]
    rfl
  obtain ⟨db2,node,created,fresh⟩ := newNodeBlock_eq size1 (show db1.nUsedBlock < 5120 by omega)
    (fun internal : true = false => by cases internal) (by rw [degree1]; exact header)
  have used2 : db2.nUsedBlock = 2 := by rw [fresh.changes.used,used1]
  have degree2 : db2.degree = d := fresh.changes.degree.trans degree1
  have root2 : db2.rootBlockId = 1 := by rw [fresh.changes.root,meta_,begun]
  have nKeys2 : db2.nKeysInDB = 0 := by rw [fresh.changes.nKeys,meta_,begun]
  have size2 := fresh.changes.size.trans size1
  -- the words of the meta block
  have small : d < 256^4 := by
    simp only [dataStart_leaf,blockSize] at header
    omega
  obtain ⟨put1,size3⟩ := putUint_meta (w := 4) (x := d) size2 (show 8+4 ≤ blockSize by decide)
  obtain ⟨put2,size4⟩ := putUint_meta (w := 4) (x := 1) size3 (show 12+4 ≤ blockSize by decide)
  obtain ⟨put3,size5⟩ := putUint_meta (w := 8) (x := 0) size4 (show 16+8 ≤ blockSize by decide)
  obtain ⟨put4,size6⟩ := putUint_meta (w := 4) (x := 2) size5 (show 24+4 ≤ blockSize by decide)
  obtain ⟨f,whole⟩ : ∃ f : File, f = (((db2.mem.mmap.write 8 (toBE 4 d)).write 12 (toBE 4 1)).write 16 (toBE 8 0)).write 24 (toBE 4 2) :=
    ⟨_,rfl⟩
  rw [← whole] at put4 size6
  have same : ∀ b, 1 ≤ b → SameBlock b db2.mem.mmap f := by
    intro b other
    rw [whole]
    exact ((sameBlock_meta size2 (by decide) other).trans (sameBlock_meta size3 (by decide) other)).trans
      ((sameBlock_meta size4 (by decide) other).trans (sameBlock_meta size5 (by decide) other))
  have block : node.blockId = 1 := fresh.block.trans used1
  have leaf : Leaf d f node [] := by
    have body := (fresh.empty 0 (Nat.zero_le _)).body
    rw [degree1] at body
    exact Leaf.frame ⟨body,fresh.kind,fresh.count,fresh.stored.trans fresh.count.symm⟩ (same _ (by omega))
  refine ⟨db2.setMmap f,leafView node.blockId [],?_,⟨size6,degree2,?_,?_,?_,?_,?_,?_,?_,?_,?_⟩,rfl,used2,?_⟩
  · have start : db0.nUsedBlock*blockSize+blockMagic.length = 8 := by rw [used0]; rfl
    simp only [DB.createDB,DB.initMetaBlock,← begun,block0,created,start,putUint32,putUint64,degree2,root2,nKeys2,used2,put1,put2,put3,put4,
      some_bind]
    rfl
  · rw [block]; exact root2.symm
  · exact ⟨node.blockId,[],rfl,⟨node,rfl,leaf,by simp; omega⟩,.nil,by simp⟩
  · simp [leafView]
  · simp [leafView,block]
  · intro b later
    have here := (same b (by omega)).2 (b*blockSize+8) (by omega) (by simp only [blockSize]; omega)
    have before := (fresh.changes.bytes b (by omega)).2 (b*blockSize+8) (by omega) (by simp only [blockSize]; omega)
    change f.byte _ ≠ 1
    rw [here,before,zero]
    decide
  · exact ⟨le_rfl,by decide⟩
  · change db2.mem.handed = _
    rw [fresh.changes.handed,used1,meta_,used0,begun]
    rfl
  · refine fresh.changes.inside ?_
    rw [meta_,begun]
    simp [Mem.Inside,Event.Inside]
  · refine ⟨?_,?_,?_,?_⟩
    · change word 4 f 8 = db2.degree
      rw [whole,word_write_of_disjoint (by simp),word_write_of_disjoint (by simp),word_write_of_disjoint (by simp),word_write small,degree2]
    · change word 4 f 12 = db2.rootBlockId
      rw [whole,word_write_of_disjoint (by simp),word_write_of_disjoint (by simp),word_write (by decide),root2]
    · change word 8 f 16 = db2.nKeysInDB
      rw [whole,word_write_of_disjoint (by simp),word_write (by decide),nKeys2]
    · change word 4 f 24 = 2
      rw [whole,word_write (by decide)]
  · rw [DB.setMmap]
    exact fresh.changes.file.trans (by rw [meta_,begun])

/-- The root is another block, in the handle and in the meta block. -/
def DB.setRoot (db : DB) (blockId : Nat) : DB :=
  { db with rootBlockId := blockId, mem := { db.mem with mmap := db.mem.mmap.write 12 (toBE 4 blockId) } }

/-- The end of `Insert` when the root was split. -/
def DB.newRoot (db : DB) (promotedKey : Bytes) (rightSibling : Nat) : Option DB := do
  let (db,newRoot) ← db.newNodeBlock false
  let (newRoot,mem) ← newRoot.insertKeyInPos db.mem 0 promotedKey
  let newRoot := { newRoot with nKeys := 1 }
  let f ← newRoot.setNKeys mem.mmap
  let f ← newRoot.setChildBlockId f 0 db.rootBlockId
  let f ← newRoot.setChildBlockId f 1 rightSibling
  let f ← putUint32 f (blockMagic.length+4) newRoot.blockId
  return { db with rootBlockId := newRoot.blockId, mem := { mem with mmap := f } }

lemma Insert_of_insert (done : db.insert DB.maxDepth db.rootBlockId key val = some (db1,r)) :
    db.Insert key val =
      match r with
      | none => some db1
      | some p => db1.newRoot p.1 p.2.blockId := by
  simp only [DB.Insert,done,some_bind]
  cases r with
  | none => rfl
  | some p => rfl

lemma newRoot_eq (two : 2 ≤ db.degree) (file : db.mem.mmap.size = dbSize) (spare : Spare db 1)
    (header : dataStart db.degree false+size key ≤ blockSize) (small : db.rootBlockId < 4294967296) (small' : b < 4294967296) :
    ∃ db1 node, db.newRoot key b = some (db1.setRoot db.nUsedBlock) ∧ node.blockId = db.nUsedBlock ∧
      Internal db.degree db1.mem.mmap node [key] [db.rootBlockId,b] ∧ Changes (· = db.nUsedBlock) 1 db db1 := by
  have room := spare.room
  obtain ⟨db1,root,created,fresh⟩ := newNodeBlock_eq file (show db.nUsedBlock < 5120 by omega)
    (fun _ : false = false => spare.clean _ le_rfl) (by omega)
  have empty := fresh.empty 1 (by omega)
  have free : root.unusedOffset+size key ≤ blockSize := by
    rwa [empty.full,fresh.kind]
  obtain ⟨mem,inserted,filled,slots,only⟩ := empty.insertKeyInPos key fresh.kind free
  obtain ⟨node,shape⟩ : ∃ node : Node, node = { root.raise (size key) with nKeys := 1 } := ⟨_,rfl⟩
  have kind : node.isLeaf = false := by rw [shape]; exact fresh.kind
  have block : node.blockId = db.nUsedBlock := by rw [shape]; exact fresh.block
  obtain ⟨f1,counted,table1,only1,body1⟩ := filled.body.setNKeys shape (by decide)
  have slots1 : (node.table f1).slots = (root.table db1.mem.mmap).slots := by rw [table1,← slots]; rfl
  obtain ⟨xs,first,held⟩ := (holds_nil (fresh.children rfl)).push (y := db.rootBlockId) (Nat.succ_pos _)
  obtain ⟨ys,second,held'⟩ := held.push (y := b) (by simp; omega)
  obtain ⟨f2,set1,table2,only2,body2⟩ := body1.putChild (i := 0) kind small (by rw [slots1]; exact first)
  obtain ⟨f3,set2,table3,only3,body3⟩ := body2.putChild (i := 1) kind small' (by rw [table2]; exact second)
  obtain ⟨put,_⟩ := putUint_meta (w := 4) (x := node.blockId) body3.placed.file (show 12+4 ≤ blockSize by decide)
  have count : (node.table f3).count = node.nKeys := by rw [table3,table2,table1,shape]
  refine ⟨{ db1 with mem := { mem with mmap := f3 } },node,?_,block,⟨body3,kind,by rw [shape]; rfl,count,?_⟩,?_⟩
  · rw [shape] at counted set1 set2 put
    have start : blockMagic.length+4 = 12 := rfl
    simp only [DB.newRoot,created,inserted,counted,fresh.changes.root,set1,set2,start,putUint32,put,some_bind]
    rw [DB.setRoot,← fresh.block]
    rfl
  · rw [table3]
    exact held'
  · have tabled : InTable node mem.mmap f3 :=
      (show InTable node mem.mmap f1 by rw [shape]; exact ⟨only1.size,only1.bytes⟩).trans (only2.trans only3)
    have written : Alters (· = db.nUsedBlock) db1.mem { mem with mmap := f3 } :=
      (only.alters (S := (· = db.nUsedBlock)) fresh.block).trans ((tabled.only mem ⟨filled.placed.file,by omega,body3.placed.room⟩).alters block)
    exact fresh.changes.trans written.changes

lemma Meta.frame (info : Meta db) (changes : Changes S n db db1) (outside : ¬ S 0) : Meta db1 := by
  have same : ∀ w off, off+w ≤ blockSize → word w db1.mem.mmap off = word w db.mem.mmap off := fun w off near =>
    word_congr (fun a _ high => (changes.bytes 0 outside).2 a (by simp) (by omega))
  refine ⟨?_,?_,?_,?_⟩
  · rw [same 4 8 (by decide),info.degree,changes.degree]
  · rw [same 4 12 (by decide),info.root,changes.root]
  · rw [same 8 16 (by decide),info.nKeys,changes.nKeys]
  · rw [same 4 24 (by decide),info.used]

lemma Meta.setRoot (info : Meta db) (small : b < 5120) : Meta (db.setRoot b) := by
  refine ⟨?_,?_,?_,?_⟩ <;> simp only [DB.setRoot]
  · rw [word_write_of_disjoint (by simp),info.degree]
  · rw [word_write (by omega)]
  · rw [word_write_of_disjoint (by simp),info.nKeys]
  · rw [word_write_of_disjoint (by simp),info.used]

/-- A tree in old and new blocks takes the place of the one that was there, under the same root or another one. -/
lemma Stores.grow (stores : Stores d db top h v)
    (changes : Changes (fun b => b ∈ v.blocks ∨ db.Next n b) n db db1) (counter : 0 < n → db.nUsedBlock = top) (bound : top+n ≤ 5120)
    (tree : BlockTrees.Subtree (content d db1.mem.mmap) h1 none none v1) (nodup : v1.blocks.Nodup)
    (blocks : ∀ b ∈ v1.blocks, b ∈ v.blocks ∨ db.Next n b) :
    (v1.id = db.rootBlockId → Stores d db1 (top+n) h1 v1) ∧ Stores d (db1.setRoot v1.id) (top+n) h1 v1 := by
  have least := stores.bound.1
  have file := changes.size.trans stores.file
  have range : ∀ b, b ∈ v.blocks ∨ db.Next n b → 1 ≤ b ∧ b < top+n := by
    rintro b (old | ⟨low,high⟩)
    · have := stores.blocks b old
      omega
    · have := counter (by omega)
      omega
  have outside : ∀ b, top+n ≤ b ∨ b = 0 → ¬ (b ∈ v.blocks ∨ db.Next n b) := by
    intro b far inside
    have := range b inside
    omega
  have clean : ∀ b, top+n ≤ b → db1.mem.mmap.byte (b*blockSize+8) ≠ 1 := by
    intro b later
    rw [(changes.bytes b (outside b (.inl later))).2 (b*blockSize+8) (by omega) (by simp only [blockSize]; omega)]
    exact stores.clean b (by omega)
  have handed : db1.mem.handed = List.range (top+n) := by
    rw [changes.handed,stores.handed]
    rcases Nat.eq_zero_or_pos n with rfl | more
    · simp
    · rw [counter more,range_eq_range',range_eq_range',← range'_append_1,Nat.zero_add]
  have info := stores.info.frame changes (outside 0 (.inr rfl))
  have small := id_lt tree
  have same : ∀ b, 1 ≤ b → SameBlock b db1.mem.mmap (db1.setRoot v1.id).mem.mmap := fun b other => sameBlock_meta file (by decide) other
  refine ⟨fun root => ?_,?_⟩
  · exact ⟨file,changes.degree.trans stores.degree,root.trans changes.root.symm,tree,nodup,fun b member => range b (blocks b member),clean,
      ⟨by omega,bound⟩,handed,changes.inside stores.inside,info⟩
  · refine ⟨(putUint_meta file (by decide)).2,changes.degree.trans stores.degree,rfl,?_,nodup,fun b member => range b (blocks b member),?_,
      ⟨by omega,bound⟩,handed,changes.inside stores.inside,info.setRoot small⟩
    · exact tree.agree fun b member => content_agree (same b (range b (blocks b member)).1)
    · intro b later
      rw [(same b (by omega)).2 (b*blockSize+8) (by omega) (by simp only [blockSize]; omega)]
      exact clean b later

lemma Node.plan_cases {node : Node} {below plan : Plan} (planned : node.plan f i key n below = some plan) :
    plan.promoted = none ∧ plan.splits = below.splits ∨ plan.promoted ≠ none ∧ plan.splits = below.splits+1 := by
  simp only [Node.plan] at planned
  split at planned
  · obtain ⟨pKey,_,planned⟩ := bind_eq_some_iff.mp planned
    cases planned
    exact .inr ⟨by simp,rfl⟩
  · cases planned
    exact .inl ⟨rfl,rfl⟩

/-- A key comes out of a node that was split, and from a leaf that was split a key comes out. -/
lemma plan_splits {id : Nat} (planned : db.plan fuel id key val = some plan) :
    (plan.promoted ≠ none → 0 < plan.splits) ∧
      ∀ node, db.loadNode id = some node → node.isLeaf = true → plan.promoted = none → plan.splits = 0 := by
  cases fuel with
  | zero => cases planned
  | succ fuel =>
    obtain ⟨node,load,planned⟩ := bind_eq_some_iff.mp planned
    split at planned
    · obtain ⟨i,_,planned⟩ := bind_eq_some_iff.mp planned
      split at planned
      · cases planned
        simp
      · rcases Node.plan_cases planned with ⟨none_,same⟩ | ⟨some_,more⟩
        · exact ⟨fun promoted => absurd none_ promoted,fun _ _ _ _ => same⟩
        · exact ⟨fun _ => by omega,fun _ _ _ none_ => absurd none_ some_⟩
    · next internal =>
      refine ⟨fun promoted => ?_,fun node' load' leaf => ?_⟩
      · obtain ⟨i,_,planned⟩ := bind_eq_some_iff.mp planned
        obtain ⟨c,_,planned⟩ := bind_eq_some_iff.mp planned
        obtain ⟨below,_,planned⟩ := bind_eq_some_iff.mp planned
        split at planned
        · next none_ =>
          cases planned
          exact absurd none_ promoted
        · rcases Node.plan_cases planned with ⟨none_,_⟩ | ⟨_,more⟩
          · exact absurd none_ promoted
          · omega
      · obtain rfl : node' = node := some.inj (load'.symm.trans load)
        exact absurd leaf internal

/-- The blocks an insertion takes, and the root and the height it leaves. -/
structure Grows (db db' : DB) (top n h h' : Nat) : Prop where
  file : db'.file = db.file
  used : db'.nUsedBlock = db.nUsedBlock+n
  counter : 0 < n → db.nUsedBlock = top
  root : h' = h ∧ db'.rootBlockId = db.rootBlockId ∧ (h = 0 → n = 0) ∨ 0 < n ∧ 0 < h' ∧ 2 ≤ db'.rootBlockId

lemma Stores.newRoot (two : 2 ≤ db.degree)
    (stores : Stores d db top h v) (changes : Changes (fun b => b ∈ v.blocks ∨ db.Next n b) n db db1)
    (grown : BlockTrees.Grown (content d db1.mem.mmap) h none none v (db.Next n) es v1 (some (k,w))) (next : db.nUsedBlock = top)
    (room : db.nUsedBlock+n+1 ≤ 5120) (header : dataStart db.degree false+size k ≤ blockSize) :
    ∃ db' v', db1.newRoot k w.id = some db' ∧ Stores d db' (top+(n+1)) (h+1) v' ∧ v'.entries = es ∧ Grows db db' top (n+1) h (h+1) := by
  have used := changes.used
  have bound := stores.bound
  have range : ∀ b, b ∈ v.blocks ∨ db.Next n b → b < db1.nUsedBlock := by
    rintro b (old | new)
    · have := (stores.blocks b old).2
      omega
    · have := new.2
      omega
  have spare : Spare db1 1 := by
    have whole : Spare db (n+1) := ⟨by omega,fun b later => stores.clean b (by omega)⟩
    exact whole.later changes fun b later inside => by have := range b inside; omega
  obtain ⟨_,_,right,_⟩ := grown.fenced.mem (show w ∈ _ by simp)
  have small := id_lt right
  obtain ⟨db2,node,rooted,block,holds,changes2⟩ := newRoot_eq (b := w.id) (by rw [changes.degree]; exact two)
    (changes.size.trans stores.file) spare (by rw [changes.degree]; exact header)
    (by rw [changes.root,← stores.root]; have := id_lt stores.tree; omega) (by omega)
  have all : ∀ b ∈ [v1,w].flatMap View.blocks, b ∈ v.blocks ∨ db.Next n b := grown.blocks
  have whole : Changes (fun b => b ∈ v.blocks ∨ db.Next (n+1) b) (n+1) db db2 := by
    refine (changes.mono ?_).trans (changes2.mono ?_)
    · exact fun b => Or.imp_right fun new => ⟨new.1,by have := new.2; omega⟩
    · rintro b rfl
      exact .inr ⟨by omega,by omega⟩
  have row : BlockTrees.Subtree (content d db2.mem.mmap) (h+1) none none (rowView node.blockId [v1,w]) := by
    refine ⟨node.blockId,[k],[v1,w],rfl,⟨node,rfl,?_,?_⟩,BlockTrees.fenced_agree grown.fenced (fun b member => ?_)⟩
    · rwa [changes.degree,stores.degree,changes.root,← stores.root,← grown.id] at holds
    · rwa [← stores.degree]
    · refine content_agree (changes2.bytes b ?_)
      rintro rfl
      exact absurd (range _ (all _ member)) (lt_irrefl _)
  refine ⟨db2.setRoot node.blockId,rowView node.blockId [v1,w],?_,(stores.grow whole (fun _ => next) (by omega) row ?_ ?_).2,
    grown.entries,whole.file,whole.used,fun _ => next,.inr ⟨Nat.succ_pos _,Nat.succ_pos _,?_⟩⟩
  · rwa [block]
  · refine nodup_cons.mpr ⟨fun member => ?_,grown.nodup⟩
    have := range _ (all _ member)
    omega
  · intro b member
    rcases mem_cons.mp member with rfl | member
    · exact .inr ⟨by omega,by omega⟩
    · exact (all b member).imp_right fun new => ⟨new.1,by have := new.2; omega⟩
  · change 2 ≤ node.blockId
    omega

/-- The insertion of a new key splits nodes. -/
def DB.splits (db : DB) (key val : Bytes) : Bool := (db.plan DB.maxDepth db.rootBlockId key val).any (fun plan => 0 < plan.splits)

lemma Stores.insert (two : 2 ≤ d) (stores : Stores d db top h v) (absent : ∀ e ∈ v.entries, e.1 ≠ key) (fits : db.fits key val = true)
    (counter : db.splits key val = true → db.nUsedBlock = top) :
    ∃ db' n h' v', db.Insert key val = some db' ∧ Stores d db' (top+n) h' v' ∧ v'.entries = setEntry key val v.entries ∧
      Grows db db' top n h h' := by
  cases planned : db.plan DB.maxDepth db.rootBlockId key val with
  | none => simp [DB.fits,planned] at fits
  | some plan =>
    simp only [DB.fits,planned,any_some,Bool.and_eq_true] at fits
    simp only [DB.splits,planned,any_some,decide_eq_true_eq] at counter
    obtain ⟨room,fits⟩ := fits
    have bound := stores.bound
    have blocks : db.nUsedBlock+plan.splits ≤ 5120 := by
      split at fits <;> simp only [decide_eq_true_eq] at fits <;> omega
    have spare : 0 < plan.splits → (∀ b ∈ v.blocks, b < db.nUsedBlock) ∧ Spare db plan.splits := by
      intro some_
      rw [counter some_]
      refine ⟨fun b member => (stores.blocks b member).2,by omega,fun b later => stores.clean b ?_⟩
      rwa [counter some_] at later
    have tree := stores.tree
    rw [← stores.degree] at tree two
    rw [← stores.root] at planned
    obtain ⟨db1,r,v1,more,done,inserted⟩ := insert_tree tree two (within_unbounded key) absent stores.nodup stores.height_lt planned room spare
    rw [stores.root] at done
    have grown := inserted.grown
    have changes := inserted.changes
    have step := Insert_of_insert done
    rw [stores.degree] at grown
    cases more with
    | none =>
      obtain rfl := map_eq_none_iff.mp inserted.result
      refine ⟨db1,plan.splits,h,v1,step,(stores.grow changes counter (by omega) grown.fenced ?_ ?_).1 (grown.id.trans stores.root),?_,
        changes.file,changes.used,counter,.inl ⟨rfl,changes.root,?_⟩⟩
      · simpa using grown.nodup
      · simpa using grown.blocks
      · simpa using grown.entries
      · rintro rfl
        obtain ⟨b,es,rfl,⟨node,rfl,leaf,_⟩,_⟩ := tree
        exact (plan_splits planned).2 node (leaf.body.loadNode leaf.stored) leaf.leaf inserted.promoted
    | some p =>
      obtain ⟨sep,w⟩ := p
      obtain ⟨⟨k,newChild⟩,rfl,same⟩ := map_eq_some_iff.mp inserted.result
      obtain ⟨rfl,same⟩ := Prod.mk.inj same
      have same : newChild.blockId = w.id := same
      have promoted : plan.promoted = some k := inserted.promoted
      simp only [promoted,decide_eq_true_eq] at fits
      have some_ := (plan_splits planned).1 (by simp [promoted])
      have next := counter some_
      obtain ⟨db',v',rooted,stores',entries,grows⟩ := stores.newRoot two changes grown next fits.1 fits.2
      refine ⟨db',plan.splits+1,h+1,v',?_,stores',entries,grows⟩
      rw [step,← rooted,← same]

end

def insertKv (db : DB) (e : Bytes × Bytes) : Option DB := db.Insert e.1 e.2

/-- Every node that gets a key has unused memory for it, and there are blocks for the splits. -/
def Fits (db : DB) (e : Bytes × Bytes) : Prop := db.fits e.1 e.2 = true
deriving Decidable

section
variable {d : Nat} {db : DB}

lemma Stores.run (two : 2 ≤ d) (stores : Stores d db top h v) (counter : db.nUsedBlock = top)
    (distinct : (es.map Prod.fst).Nodup) (absent : ∀ e ∈ es, ∀ x ∈ v.entries, x.1 ≠ e.1) (fits : Meets insertKv Fits db es) :
    ∃ db' h' v', Runs.run insertKv db es = some db' ∧ Stores d db' db'.nUsedBlock h' v' ∧ v'.entries.Perm (es++v.entries) := by
  induction es generalizing db top h v with
  | nil => exact ⟨db,h,v,rfl,counter ▸ stores,List.Perm.refl _⟩
  | cons e es ih =>
    obtain ⟨fits,rest⟩ := fits
    obtain ⟨db1,n,h1,v1,inserted,stores1,entries,grows⟩ := stores.insert two (absent e (by simp)) fits (fun _ => counter)
    have step : insertKv db e = some db1 := inserted
    have used := grows.used
    rw [map_cons,nodup_cons] at distinct
    have perm : v1.entries.Perm (e::v.entries) := by
      rw [entries]
      exact setEntry_perm e.2 (absent e (by simp))
    rw [step] at rest
    obtain ⟨db',h',v',ran,stores',perm'⟩ := ih stores1 (by omega) distinct.2 (fun x member y stored same => by
      rcases mem_cons.mp (perm.mem_iff.mp stored) with rfl | old
      · exact distinct.1 (by rw [same]; exact List.mem_map_of_mem member)
      · exact absent x (by simp [member]) y old same) rest
    refine ⟨db',h',v',by rw [Runs.run,step]; exact ran,stores',perm'.trans ?_⟩
    exact (List.Perm.append_left es perm).trans perm_middle

/-- While there is room, every write ends within the block of its node, and what was inserted is found. -/
theorem writes_stay_in_block {name : String} (two : 2 ≤ d) (header : dataStart d true ≤ blockSize) (created : DB.createDB name d = some db)
    (es : List (Bytes × Bytes)) (distinct : (es.map Prod.fst).Nodup) (fits : Meets insertKv Fits db es) :
    ∃ db', Runs.run insertKv db es = some db' ∧ db'.mem.Inside ∧ ∀ e ∈ es, db'.Find e.1 = some (.ok e.2) := by
  obtain ⟨db0,v,created0,stores,none_,used,_⟩ := createDB_stores name two header
  obtain rfl : db0 = db := some.inj (created0.symm.trans created)
  obtain ⟨db',h',v',ran,stores',perm⟩ := stores.run two used distinct (by simp [none_]) fits
  exact ⟨db',ran,stores'.inside,fun e member => stores'.find (perm.mem_iff.mpr (mem_append_left _ member))⟩

/-- Four keys in a tree of degree 3, whose root is split. -/
theorem writes_stay_in_block_split : ∃ db, DB.createDB "test.db" 3 = some db ∧
    Meets insertKv Fits db [([97],[49]),([98],[50]),([99],[51]),([100],[52])] ∧
    ∃ db', Runs.run insertKv db [([97],[49]),([98],[50]),([99],[51]),([100],[52])] = some db' ∧ db'.mem.Inside ∧
      db'.Find [99] = some (.ok [51]) := by
  obtain ⟨db,created,fits⟩ : ∃ db, DB.createDB "test.db" 3 = some db ∧
      Meets insertKv Fits db [([97],[49]),([98],[50]),([99],[51]),([100],[52])] := by decide +kernel
  obtain ⟨db',ran,inside,found⟩ := writes_stay_in_block (by decide) (by decide) created
    [([97],[49]),([98],[50]),([99],[51]),([100],[52])] (by decide) fits
  exact ⟨db,created,fits,db',ran,inside,found ([99],[51]) (by simp)⟩

/-- A leaf of degree 3 has room for three entries of the size. The fourth insertion writes its value behind the end of
the block: the leaf was split before, and the memory of the entry that was moved is not used again. -/
theorem writes_leave_block :
    let val : Bytes := [0,0,0,0,0,0,1]++List.replicate 1340 0
    dataStart 3 true+3*(2+1349) ≤ blockSize ∧ dataStart 3 false+3*2 ≤ blockSize ∧
      (∀ e ∈ [([100],val),([99],val),([98],val),([97],val)], size e.1 = 2 ∧ size e.2 = 1349) ∧
      ∃ db db', DB.createDB "test.db" 3 = some db ∧ Runs.run insertKv db [([100],val),([99],val),([98],val),([97],val)] = some db' ∧
        ¬ db'.mem.Inside := by
  intro val
  simp only [exists_and_left]
  decide +kernel

end

/-! ## Closing the raw-mmap database and opening it again -/
open Function

/-- The files, the path the database was created under, and the open handle. -/
structure Session where
  files : String → Option Mem
  path : String
  db : DB

inductive Call where
  | insert (key val : Bytes)
  /-- `Close`, and `OpenDB` of the same path. -/
  | reopen
  deriving DecidableEq

namespace Session

def create (files : String → Option Mem) (path : String) (degree : Nat) : Option Session :=
  (DB.createDB path degree).map (fun db => ⟨files,path,db⟩)

def next (s : Session) : Call → Option Session
  | .insert key val => (s.db.Insert key val).map (fun db => { s with db })
  | .reopen =>
    let files := update s.files s.db.file (some s.db.mem)
    (openDB files s.path).map (fun db => { s with files, db })

/-- An insertion finds room, and when it splits a node the root is below the counter of used blocks. The database is in
the file that `OpenDB` opens. -/
def Sound (s : Session) : Call → Prop
  | .insert key val => s.db.fits key val = true ∧ (s.db.splits key val = true → s.db.rootBlockId < s.db.nUsedBlock)
  | .reopen => s.path = "test.db"

instance (s : Session) : (c : Call) → Decidable (s.Sound c)
  | .insert _ _ => decideAs (_ ∧ (_ → _))
  | .reopen => decideAs (_ = _)

end Session

/-- What the calls insert. -/
def inserted : List Call → List (Bytes × Bytes)
  | [] => []
  | .insert key val :: calls => (key,val) :: inserted calls
  | .reopen :: calls => inserted calls

/-- The blocks of the nodes that are reached from a block. -/
def DB.nodes : Nat → DB → Nat → List Nat
  | 0,_,_ => []
  | fuel+1,db,blockId => match db.loadNode blockId with
    | none => []
    | some node =>
      if node.isLeaf then [blockId]
      else blockId :: ((node.table db.mem.mmap).slots.take (node.nKeys+1)).flatMap (db.nodes fuel)

section
variable {db : DB} {d top h : Nat} {v : View Bytes Bytes} {s : Session}

lemma nodes_tree (tree : BlockTrees.Subtree (content db.degree db.mem.mmap) h lo hi v) (enough : h < fuel) :
    db.nodes fuel v.id = v.blocks := by
  induction h generalizing lo hi v fuel with
  | zero =>
    obtain _ | fuel := fuel
    · omega
    obtain ⟨b,es,rfl,⟨node,rfl,leaf,_⟩,_⟩ := tree
    have load : db.loadNode (leafView node.blockId es).id = some node := leaf.body.loadNode leaf.stored
    simp only [DB.nodes,load,leaf.leaf,if_true]
    rfl
  | succ h ih =>
    obtain _ | fuel := fuel
    · omega
    obtain ⟨b,ks,cs,rfl,⟨node,rfl,holds,_⟩,fenced⟩ := tree
    have load : db.loadNode (rowView node.blockId cs).id = some node := holds.body.loadNode holds.stored
    obtain ⟨rest,child,_⟩ := holds.children
    have used : (node.table db.mem.mmap).slots.take (node.nKeys+1) = cs.map View.id := by
      rw [child,holds.count,← fenced.length]
      exact take_left' (by simp)
    simp only [DB.nodes,load,holds.internal,if_ff,used,flatMap_map]
    refine congrArg (node.blockId::·) (flatMap_congr (fun c mem => ?_))
    obtain ⟨lo',hi',part,_⟩ := fenced.mem mem
    exact ih part (by omega)

lemma Stores.reopen (stores : Stores d db top h v) (path : String) (here : files "test.db" = some db.mem) :
    openDB files path = some { db with file := "test.db", nUsedBlock := 2 } := by
  have file := stores.file
  have read : ∀ w off, off+w ≤ blockSize → getUint w db.mem.mmap off = some (word w db.mem.mmap off) := by
    intro w off inside
    refine if_pos ?_
    rw [file]
    simp only [blockSize,dbSize] at *
    omega
  simp only [openDB,here,DB.readMetaBlockInfo,getUint32,getUint64,some_bind]
  rw [read 4 8 (by decide),read 4 12 (by decide),read 8 16 (by decide),read 4 24 (by decide),stores.info.degree,stores.info.root,
    stores.info.nKeys,stores.info.used]
  rfl

/-- A session whose handle has the right counter, or one that is not above the root. -/
structure Open (d : Nat) (s : Session) (top h : Nat) (v : View Bytes Bytes) : Prop where
  stores : Stores d s.db top h v
  file : s.db.file = s.path
  counter : s.db.rootBlockId < s.db.nUsedBlock → s.db.nUsedBlock = top
  leaf : s.db.rootBlockId < 2 → h = 0
  single : h = 0 → top = 2

lemma Open.insert (two : 2 ≤ d) (opened : Open d s top h v) (absent : ∀ e ∈ v.entries, e.1 ≠ key)
    (sound : s.Sound (.insert key val)) :
    ∃ s' top' h' v', s.next (.insert key val) = some s' ∧ Open d s' top' h' v' ∧ v'.entries = setEntry key val v.entries := by
  obtain ⟨fits,below⟩ := sound
  obtain ⟨db',n,h',v',done,stores,entries,grows⟩ := opened.stores.insert two absent fits (fun splits => opened.counter (below splits))
  have used := grows.used
  refine ⟨{ s with db := db' },top+n,h',v',by rw [Session.next,done]; rfl,⟨stores,grows.file.trans opened.file,?_,?_,?_⟩,entries⟩
  · intro above
    change db'.rootBlockId < db'.nUsedBlock at above
    change db'.nUsedBlock = top+n
    rcases Nat.eq_zero_or_pos n with rfl | more
    · rcases grows.root with ⟨_,root,_⟩ | ⟨more,_⟩
      · have same := opened.counter (by omega)
        omega
      · omega
    · have same := grows.counter more
      omega
  · intro low
    change db'.rootBlockId < 2 at low
    rcases grows.root with ⟨rfl,root,_⟩ | ⟨_,_,high⟩
    · exact opened.leaf (by omega)
    · omega
  · intro flat
    rcases grows.root with ⟨rfl,_,none_⟩ | ⟨_,deep,_⟩
    · rw [none_ flat,opened.single flat]
    · omega

lemma Open.reopen (opened : Open d s top h v) (sound : s.Sound .reopen) : ∃ s', s.next .reopen = some s' ∧ Open d s' top h v := by
  have path : s.path = "test.db" := sound
  have stores := opened.stores
  have here : update s.files s.db.file (some s.db.mem) "test.db" = some s.db.mem := by
    rw [opened.file,path,update_self]
  refine ⟨⟨update s.files s.db.file (some s.db.mem),s.path,{ s.db with file := "test.db", nUsedBlock := 2 }⟩,
    by rw [Session.next,stores.reopen s.path here]; rfl,⟨?_,path.symm,?_,opened.leaf,opened.single⟩⟩
  · exact { stores with info := ⟨stores.info.degree,stores.info.root,stores.info.nKeys,stores.info.used⟩ }
  · exact fun low => (opened.single (opened.leaf low)).symm

lemma Open.run (two : 2 ≤ d) (opened : Open d s top h v) (distinct : ((inserted calls).map Prod.fst).Nodup)
    (absent : ∀ e ∈ inserted calls, ∀ x ∈ v.entries, x.1 ≠ e.1) (sound : Meets Session.next Session.Sound s calls) :
    ∃ s' top' h' v', Runs.run Session.next s calls = some s' ∧ Open d s' top' h' v' ∧
      v'.entries.Perm (inserted calls ++ v.entries) := by
  induction calls generalizing s top h v with
  | nil => exact ⟨s,top,h,v,rfl,opened,List.Perm.refl _⟩
  | cons call calls ih =>
    obtain ⟨sound,rest⟩ := sound
    cases call with
    | insert key val =>
      simp only [inserted] at distinct absent ⊢
      rw [map_cons,nodup_cons] at distinct
      obtain ⟨s1,top1,h1,v1,step,opened1,entries⟩ := opened.insert two (absent (key,val) (by simp)) sound
      have perm : v1.entries.Perm ((key,val)::v.entries) := by
        rw [entries]
        exact setEntry_perm val (absent (key,val) (by simp))
      rw [step] at rest
      obtain ⟨s',top',h',v',ran,opened',perm'⟩ := ih opened1 distinct.2 (fun x mem y stored same => by
        rcases mem_cons.mp (perm.mem_iff.mp stored) with rfl | old
        · exact distinct.1 (by rw [same]; exact List.mem_map_of_mem mem)
        · exact absent x (by simp [mem]) y old same) rest
      refine ⟨s',top',h',v',by rw [Runs.run,step]; exact ran,opened',perm'.trans ?_⟩
      exact (List.Perm.append_left _ perm).trans perm_middle
    | reopen =>
      obtain ⟨s1,step,opened1⟩ := opened.reopen sound
      rw [step] at rest
      obtain ⟨s',top',h',v',ran,opened',perm⟩ := ih opened1 distinct absent rest
      exact ⟨s',top',h',v',by rw [Runs.run,step]; exact ran,opened',perm⟩

end

/-- While every insertion finds room, and no node is split through a handle that was opened when the tree had more than one
node, what was inserted is found, and no block is handed out twice. -/
theorem reopen_safe {d : Nat} {files : String → Option Mem} {path : String} {s : Session} (two : 2 ≤ d)
    (header : dataStart d true ≤ blockSize) (created : Session.create files path d = some s) (calls : List Call)
    (distinct : ((inserted calls).map Prod.fst).Nodup) (sound : Meets Session.next Session.Sound s calls) :
    ∃ s', Runs.run Session.next s calls = some s' ∧ (∀ e ∈ inserted calls, s'.db.Find e.1 = some (.ok e.2)) ∧
      s'.db.mem.handed.Nodup ∧ ∀ b ∈ s'.db.nodes DB.maxDepth s'.db.rootBlockId, b ∈ s'.db.mem.handed := by
  obtain ⟨db,v,created0,stores,none_,used,file⟩ := createDB_stores path two header
  obtain rfl : s = ⟨files,path,db⟩ := by
    rw [Session.create,created0] at created
    exact (some.inj created).symm
  have start : Open d ⟨files,path,db⟩ 2 0 v := ⟨stores,file,fun _ => used,fun _ => rfl,fun _ => rfl⟩
  obtain ⟨s',top,h,v',ran,opened,perm⟩ := start.run two distinct (by simp [none_]) sound
  have stores' := opened.stores
  have tree := stores'.tree
  rw [← stores'.degree] at tree
  refine ⟨s',ran,fun e mem => stores'.find (perm.mem_iff.mpr (mem_append_left _ mem)),?_,?_⟩
  · rw [stores'.handed]
    exact nodup_range
  · rw [← stores'.root,nodes_tree tree stores'.height_lt,stores'.handed]
    exact fun b mem => mem_range.mpr (stores'.blocks b mem).2

/-- The leaf is split after the first reopening, when the tree was one leaf; after the second one no node is split. -/
theorem reopen_safe_twice :
    let calls := [.insert [97] [49],.reopen,.insert [98] [50],.insert [99] [51],.reopen,.insert [48] [52]]
    ∃ s, Session.create (fun _ => none) "test.db" 3 = some s ∧ Meets Session.next Session.Sound s calls ∧
      ∃ s', Runs.run Session.next s calls = some s' ∧ s'.db.Find [99] = some (.ok [51]) ∧ s'.db.mem.handed.Nodup := by
  intro calls
  obtain ⟨s,created,sound⟩ : ∃ s, Session.create (fun _ => none) "test.db" 3 = some s ∧ Meets Session.next Session.Sound s calls := by
    decide +kernel
  obtain ⟨s',ran,found,nodup,_⟩ := reopen_safe (by decide) (by decide) created calls (by decide) sound
  exact ⟨s,created,sound,s',ran,found ([99],[51]) (by simp [calls,inserted]),nodup⟩

/-- The third insertion splits the leaf in block 1 into blocks 1 and 2, under a root in block 3. The reopened handle hands
out block 2 again when the leaf in block 2 is split. -/
theorem reopened_split_overwrites :
    ∃ s s', Session.create (fun _ => none) "test.db" 3 = some s ∧
      Runs.run Session.next s [.insert [97] [49],.insert [98] [50],.insert [99] [51],.reopen,.insert [100] [52]] = some s' ∧
      s'.db.mem.handed = [0,1,2,3,2] ∧ s'.db.Find [98] = some (.error .notFound) := by
  simp only [exists_and_left]
  decide +kernel

end CodeExercise.BTreeDB
