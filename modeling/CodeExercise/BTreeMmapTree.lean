import CodeExercise.BTreeMmapMove
import CodeExercise.Fences

/-!
The tree in the blocks of a database: a node is the root of a tree whose nodes are all stored under
their block ids. A change to other blocks leaves a subtree alone (`Subtree.agree`, `Subtree.frame`),
and the search finds the entry of a key (`Subtree.find`).
-/
namespace CodeExercise.BTreeMmap
open Slices Files SortedMaps Fences List

/-- A node with what is below it. -/
structure View where
  node : Node
  entries : List (Bytes × Bytes)
  blocks : List Nat

def View.id (v : View) : Nat := v.node.blockId
def leafView (node : Node) (es : List (Bytes × Bytes)) : View := ⟨node,es,[node.blockId]⟩

def internalView (node : Node) (cs : List View) : View :=
  ⟨node,cs.flatMap View.entries,node.blockId::cs.flatMap View.blocks⟩

def Sorted (es : List (Bytes × Bytes)) : Prop := es.Pairwise (fun a b => a.1 < b.1)

/-- A leaf of the database, with sorted entries between the bounds. -/
structure LeafNode (db : DB) (m : Nat) (lo hi : Option Bytes) (node : Node) (es : List (Bytes × Bytes)) : Prop where
  stored : db.blocks node.blockId = some node
  holds : Leaf db.degree db.mem.mmap node es
  sorted : Sorted es
  within : ∀ e ∈ es, Within lo hi e.1
  sizes : ∀ e ∈ es, size e.1 ≤ m
  room : es.length < db.degree

/-- An internal node whose children are fenced by its keys. -/
structure Row (db : DB) (m : Nat) (S : Option Bytes → Option Bytes → View → Prop) (lo hi : Option Bytes) (node : Node)
    (ks : List Bytes) (cs : List View) : Prop where
  stored : db.blocks node.blockId = some node
  holds : Internal db.degree db.mem.mmap node ks (cs.map View.id)
  fenced : Fenced S lo hi ks cs
  sizes : ∀ k ∈ ks, size k ≤ m
  room : ks.length < db.degree

def Subtree (db : DB) (m : Nat) : Nat → Option Bytes → Option Bytes → View → Prop
  | 0,lo,hi,v => ∃ node es, v = leafView node es ∧ LeafNode db m lo hi node es
  | h+1,lo,hi,v => ∃ node ks cs, v = internalView node cs ∧ Row db m (Subtree db m h) lo hi node ks cs

lemma LeafNode.load
    (leaf : LeafNode db m lo hi node es) : db.loadNode (leafView node es).id = some node := leaf.stored

lemma Row.load
    (row : Row db m S lo hi node ks cs) :
    db.loadNode (internalView node cs).id = some node := row.stored

/-- Nothing but the blocks with the property was changed. -/
structure Changes (S : Nat → Prop) (db db' : DB) : Prop where
  degree : db'.degree = db.degree
  root : db'.rootBlockId = db.rootBlockId
  used : db.nusedBlocks ≤ db'.nusedBlocks
  blocks : ∀ b, ¬ S b → db'.blocks b = db.blocks b
  bytes : ∀ b, ¬ S b → SameBlock b db.mem.mmap db'.mem.mmap
  kept : db.mem.Kept → db'.mem.Kept

lemma Changes.refl (S : Nat → Prop) (db : DB) : Changes S db db :=
  ⟨rfl,rfl,le_rfl,fun _ _ => rfl,fun _ _ => ⟨rfl,fun _ _ _ => rfl⟩,fun kept => kept⟩

lemma Changes.mono (changes : Changes S db db') (more : ∀ b, S b → T b) :
    Changes T db db' :=
  ⟨changes.degree,changes.root,changes.used,fun b out => changes.blocks b (fun inside => out (more b inside)),
    fun b out => changes.bytes b (fun inside => out (more b inside)),changes.kept⟩

lemma Changes.trans (first : Changes S db db') (second : Changes S db' db'') :
    Changes S db db'' :=
  ⟨second.degree.trans first.degree,second.root.trans first.root,first.used.trans second.used,
    fun b out => (second.blocks b out).trans (first.blocks b out),
    fun b out => (first.bytes b out).trans (second.bytes b out),fun kept => second.kept (first.kept kept)⟩

lemma Changes.save (only : Local node.blockId db.mem mem) :
    Changes (· = node.blockId) db (db.save node mem) :=
  ⟨rfl,rfl,le_rfl,fun _ out => Function.update_of_ne out _ _,fun _ out => only.sameBlock out,only.kept⟩

section
variable {db db' : DB} {m h : Nat} {lo hi : Option Bytes} {v : View}

section
variable (tree : Subtree db m h lo hi v)
include tree

lemma Subtree.agree (degree : db'.degree = db.degree)
    (blocks : ∀ b ∈ v.blocks, db'.blocks b = db.blocks b)
    (bytes : ∀ b ∈ v.blocks, SameBlock b db.mem.mmap db'.mem.mmap) : Subtree db' m h lo hi v := by
  induction h generalizing lo hi v with
  | zero =>
    obtain ⟨node,es,rfl,leaf⟩ := tree
    have here : node.blockId ∈ (leafView node es).blocks := by simp [leafView]
    refine ⟨node,es,rfl,(blocks _ here).trans leaf.stored,?_,leaf.sorted,leaf.within,leaf.sizes,?_⟩
    · rw [degree]
      exact leaf.holds.frame (bytes _ here)
    · rw [degree]
      exact leaf.room
  | succ h ih =>
    obtain ⟨node,ks,cs,rfl,row⟩ := tree
    have here : node.blockId ∈ (internalView node cs).blocks := by simp [internalView]
    have below : ∀ c ∈ cs, ∀ b ∈ c.blocks, b ∈ (internalView node cs).blocks := fun c member b inside =>
      mem_cons_of_mem _ (mem_flatMap.mpr ⟨c,member,inside⟩)
    refine ⟨node,ks,cs,rfl,(blocks _ here).trans row.stored,?_,?_,row.sizes,?_⟩
    · rw [degree]
      exact row.holds.frame (bytes _ here)
    · exact row.fenced.imp (fun lo hi c member child => ih child (fun b inside => blocks b (below c member b inside))
        (fun b inside => bytes b (below c member b inside)))
    · rw [degree]
      exact row.room

/-- A tree stays when only other blocks are changed. -/
lemma Subtree.frame (changes : Changes S db db')
    (apart : ∀ b ∈ v.blocks, ¬ S b) : Subtree db' m h lo hi v :=
  tree.agree changes.degree (fun b member => changes.blocks b (apart b member))
    (fun b member => changes.bytes b (apart b member))

lemma Subtree.stored : db.blocks v.id = some v.node := by
  cases h with
  | zero =>
    obtain ⟨node,es,rfl,leaf⟩ := tree
    exact leaf.stored
  | succ h =>
    obtain ⟨node,ks,cs,rfl,row⟩ := tree
    exact row.stored

lemma Subtree.load : db.loadNode v.id = some v.node := tree.stored

lemma Subtree.file : db.mem.mmap.size = dbSize := by
  cases h with
  | zero =>
    obtain ⟨node,es,rfl,leaf⟩ := tree
    exact leaf.holds.body.file
  | succ h =>
    obtain ⟨node,ks,cs,rfl,row⟩ := tree
    exact row.holds.body.file

lemma Subtree.id_mem : v.id ∈ v.blocks := by
  cases h with
  | zero =>
    obtain ⟨node,es,rfl,leaf⟩ := tree
    simp [leafView,View.id]
  | succ h =>
    obtain ⟨node,ks,cs,rfl,row⟩ := tree
    simp [internalView,View.id]

lemma Subtree.ordered : Sorted v.entries ∧ ∀ e ∈ v.entries, Within lo hi e.1 := by
  induction h generalizing lo hi v with
  | zero =>
    obtain ⟨node,es,rfl,leaf⟩ := tree
    exact ⟨leaf.sorted,leaf.within⟩
  | succ h ih =>
    obtain ⟨node,ks,cs,rfl,row⟩ := tree
    exact row.fenced.contents fun _ _ _ child => ih child

lemma Subtree.height_lt : h < v.blocks.length := by
  induction h generalizing lo hi v with
  | zero =>
    obtain ⟨node,es,rfl,_⟩ := tree
    simp [leafView]
  | succ h ih =>
    obtain ⟨node,ks,cs,rfl,row⟩ := tree
    obtain ⟨c,rest,rfl⟩ := exists_cons_of_length_eq_add_one row.fenced.length
    obtain ⟨_,_,child,_⟩ := row.fenced.mem (mem_cons_self : c ∈ c::rest)
    have deeper := ih child
    simp only [internalView,flatMap_cons,length_cons,length_append]
    omega

end

/-- Any row may stand between the children on both sides. -/
def Replaces (db : DB) (m h : Nat) (lo hi : Option Bytes) (pre post : List Bytes) (cs1 cs2 : List View)
    (lo' hi' : Option Bytes) : Prop :=
  ∀ (S : Option Bytes → Option Bytes → View → Prop) (ks : List Bytes) (cs : List View),
    (∀ lo hi, ∀ x ∈ cs1++cs2, Subtree db m h lo hi x → S lo hi x) → Fenced S lo' hi' ks cs →
      Fenced S lo hi (pre++(ks++post)) (cs1++(cs++cs2))

/-- The child a key belongs to, how a row takes its place, and where the other entries are. -/
structure Descent (db : DB) (m h : Nat) (lo hi : Option Bytes) (node : Node) (key : Bytes) (pre post : List Bytes)
    (cs1 : List View) (c : View) (cs2 : List View) : Prop where
  index : node.seek db.mem (fun k => key < k) 0 node.nkeys = some pre.length
  read : node.getChildBlockId pre.length = some c.id
  len : cs1.length = pre.length
  bounds : ∃ lo' hi', Subtree db m h lo' hi' c ∧ Within lo' hi' key ∧
    ∀ (S : Option Bytes → Option Bytes → View → Prop) (ks : List Bytes) (cs : List View),
      (∀ lo hi, ∀ x ∈ cs1++cs2, Subtree db m h lo hi x → S lo hi x) → Fenced S lo' hi' ks cs →
        Fenced S lo hi (pre++(ks++post)) (cs1++(cs++cs2))
  below : ∀ e ∈ cs1.flatMap View.entries, e.1 < key
  above : ∀ e ∈ cs2.flatMap View.entries, key < e.1

lemma Row.descend
    (row : Row db m (Subtree db m h) lo hi node ks cs) (inside : Within lo hi key) :
    ∃ pre post cs1 c cs2, ks = pre++post ∧ cs = cs1++c::cs2 ∧ Descent db m h lo hi node key pre post cs1 c cs2 := by
  obtain ⟨pre,post,rfl,index,misses,hit⟩ := row.holds.body.seek row.holds.count (fun k => decide (key < k))
  obtain ⟨cs1,c,cs2,lo',hi',rfl,len,child,room,replace,left,right⟩ := row.fenced.route inside
    (by simpa using misses) (by simpa using hit)
  have held := row.holds
  rw [map_append,map_cons] at held
  have read := held.getChildBlockId
  rw [length_map,len] at read
  refine ⟨pre,post,cs1,c,cs2,rfl,rfl,index,read,len,⟨lo',hi',child,room,replace⟩,
    forall_mem_parts (fun _ _ _ tree => tree.ordered.2) left,forall_mem_parts (fun _ _ _ tree => tree.ordered.2) right⟩

lemma leaf_pair (sorted : Sorted (pre++e::post))
    (within : ∀ x ∈ pre++e::post, Within lo hi x.1) (sizes : ∀ x ∈ pre++e::post, size x.1 ≤ m)
    (storedLeft : db.blocks l.blockId = some l) (left : Leaf db.degree db.mem.mmap l pre)
    (storedRight : db.blocks r.blockId = some r) (right : Leaf db.degree db.mem.mmap r (e::post))
    (room : pre.length < db.degree) (room' : (e::post).length < db.degree) :
    Fenced (Subtree db m 0) lo hi [e.1] [leafView l pre,leafView r (e::post)] := by
  obtain ⟨before,behind,_⟩ := pairwise_append.mp sorted
  obtain ⟨lower,sep,upper⟩ := within_cut sorted within
  exact ⟨⟨l,pre,rfl,storedLeft,left,before,lower,fun x member => sizes x (mem_append_left _ member),room⟩,sep,
    r,e::post,rfl,storedRight,right,behind,upper,fun x member => sizes x (mem_append_right _ member),room'⟩

lemma internal_pair
    (fenced : Fenced (Subtree db m h) lo hi (ks1++k::ks2) (cs1++cs2)) (len : cs1.length = ks1.length+1)
    (sizes : ∀ x ∈ ks1++k::ks2, size x ≤ m) (storedLeft : db.blocks l.blockId = some l)
    (left : Internal db.degree db.mem.mmap l ks1 (cs1.map View.id)) (storedRight : db.blocks r.blockId = some r)
    (right : Internal db.degree db.mem.mmap r ks2 (cs2.map View.id)) (room : ks1.length < db.degree)
    (room' : ks2.length < db.degree) :
    Fenced (Subtree db m (h+1)) lo hi [k] [internalView l cs1,internalView r cs2] := by
  obtain ⟨before,sep,behind⟩ := (fenced_append len).mp fenced
  exact ⟨⟨l,ks1,cs1,rfl,storedLeft,left,before,fun x member => sizes x (by simp [member]),room⟩,sep,
    r,ks2,cs2,rfl,storedRight,right,behind,fun x member => sizes x (by simp [member]),room'⟩

/-- What a search for the key answers. -/
def answer (es : List (Bytes × Bytes)) (key : Bytes) : Except Err Bytes :=
  match es.find? (fun e => e.1 = key) with
  | some e => .ok e.2
  | none => .error .keyNotExist

section
variable {es : List (Bytes × Bytes)} {key : Bytes}

lemma answer_of_mem (sorted : Sorted es) (member : e ∈ es) : answer es e.1 = .ok e.2 := by
  have nodup : (es.map Prod.fst).Nodup := pairwise_map.mpr (sorted.imp (fun less => less.ne))
  cases found : es.find? (fun x => decide (x.1 = e.1)) with
  | none => simpa using find?_eq_none.mp found e member
  | some x =>
    have same : x.1 = e.1 := by simpa using find?_some found
    have one := inj_on_of_nodup_map nodup (mem_of_find?_eq_some found) member same
    simp only [answer,found,one]

lemma answer_of_not_mem (absent : ∀ e ∈ es, e.1 ≠ key) : answer es key = .error .keyNotExist := by
  have missing : es.find? (fun x => decide (x.1 = key)) = none := by
    refine find?_eq_none.mpr fun e member => ?_
    simpa using absent e member
  simp only [answer,missing]

lemma answer_congr (sorted : Sorted es) (sorted' : Sorted es') (same : ∀ e, e.1 = key → (e ∈ es ↔ e ∈ es')) :
    answer es key = answer es' key := by
  by_cases present : ∃ e ∈ es, e.1 = key
  · obtain ⟨e,member,rfl⟩ := present
    rw [answer_of_mem sorted member,answer_of_mem sorted' ((same e rfl).mp member)]
  · have absent : ∀ e ∈ es, e.1 ≠ key := fun e member equal => present ⟨e,member,equal⟩
    have absent' : ∀ e ∈ es', e.1 ≠ key := fun e member equal => absent e ((same e equal).mpr member) equal
    rw [answer_of_not_mem absent,answer_of_not_mem absent']

lemma answer_setEntry (sorted : Sorted es) (val : Bytes) : answer (setEntry key val es) key = .ok val :=
  answer_of_mem (setEntry_sorted sorted) ((mem_setEntry_iff sorted).mpr (.inl rfl))

lemma answer_setEntry_of_ne (sorted : Sorted es) (val : Bytes) (other : k ≠ key) :
    answer (setEntry key val es) k = answer es k := by
  refine answer_congr (setEntry_sorted sorted) sorted fun e same => ?_
  rw [mem_setEntry_iff sorted]
  constructor
  · rintro (rfl | ⟨member,_⟩)
    · exact absurd same.symm other
    · exact member
  · exact fun member => .inr ⟨member,same ▸ other⟩

lemma answer_dropEntry : answer (dropEntry key es) key = .error .keyNotExist :=
  answer_of_not_mem (fun e member => by simpa using (mem_filter.mp member).2)

lemma answer_dropEntry_of_ne (sorted : Sorted es) (other : k ≠ key) :
    answer (dropEntry key es) k = answer es k := by
  refine answer_congr (sorted.filter _) sorted fun e same => ?_
  rw [dropEntry,mem_filter]
  exact ⟨And.left,fun member => ⟨member,by simpa [same] using other⟩⟩

end

/-- A search answers what the entries of the tree say. -/
lemma Subtree.find (tree : Subtree db m h lo hi v) (inside : Within lo hi key)
    (enough : h < fuel) : db.find fuel v.id key = some (answer v.entries key) := by
  induction h generalizing lo hi v fuel with
  | zero =>
    obtain _ | fuel := fuel
    · omega
    obtain ⟨node,es,rfl,leaf⟩ := tree
    obtain ⟨pre,post,rfl,sought,below,place⟩ := leaf.holds.seekKey key (fun k => decide (key ≤ k)) (by simp)
    simp only [DB.find,leaf.load,leaf.holds.leaf,sought,some_bind,if_true]
    rcases place with ⟨found,w,rest,rfl⟩ | ⟨missing,above⟩
    · have read := answer_of_mem leaf.sorted (show (key,w) ∈ pre++(key,w)::rest by simp)
      simp only [if_pos found,leaf.holds.get.2]
      exact congrArg some read.symm
    · have absent := (filter_ne_append leaf.sorted below above).symm
      rw [if_neg missing]
      refine congrArg some (Eq.symm (answer_of_not_mem (fun e member => ?_)))
      have kept : e ∈ (pre++post).filter _ := absent ▸ member
      simpa using (mem_filter.mp kept).2
  | succ h ih =>
    obtain _ | fuel := fuel
    · omega
    have ordered := tree.ordered.1
    obtain ⟨node,ks,cs,rfl,row⟩ := tree
    obtain ⟨pre,post,cs1,c,cs2,rfl,rfl,descent⟩ := row.descend inside
    obtain ⟨lo',hi',child,room,_⟩ := descent.bounds
    simp only [DB.find,row.load,row.holds.internal,if_ff,descent.index,descent.read,some_bind,ih child room (show h < fuel by omega)]
    refine congrArg some (answer_congr child.ordered.1 ordered (fun e same => ?_))
    simp only [internalView,flatMap_append,flatMap_cons,mem_append]
    constructor
    · exact fun member => .inr (.inl member)
    · rintro (before | member | behind)
      · exact absurd same (descent.below e before).ne
      · exact member
      · exact absurd same (descent.above e behind).ne'

end

/-! ## New nodes and the splits of full ones -/
open Option Function

/-- No node has memory that is not in use. -/
def DB.Tidy (db : DB) : Prop := ∀ b node, db.blocks b = some node → node.Tidy

/-- `n` blocks were taken for splits, and a database without unused memory was compacted just as often. -/
structure Cost (n : Nat) (db db' : DB) : Prop where
  used : db'.nusedBlocks = db.nusedBlocks+n
  tidy : db.Tidy → db'.Tidy ∧ db'.mem.compactions = db.mem.compactions+n

lemma Cost.refl (db : DB) : Cost 0 db db := ⟨rfl,fun tidy => ⟨tidy,rfl⟩⟩

lemma Cost.trans (first : Cost m a b) (second : Cost n b c) : Cost (m+n) a c := by
  refine ⟨by rw [second.used,first.used]; omega,fun tidy => ?_⟩
  obtain ⟨tidy1,count1⟩ := first.tidy tidy
  obtain ⟨tidy2,count2⟩ := second.tidy tidy1
  exact ⟨tidy2,by omega⟩

lemma DB.Tidy.save {db : DB} (tidy : db.Tidy) (mem : Mem) (here : node.Tidy) : (db.save node mem).Tidy := by
  intro b other stored
  by_cases same : b = node.blockId
  · subst same
    obtain rfl : node = other := by simpa [DB.save] using stored
    exact here
  · exact tidy b other (by simpa [DB.save,same] using stored)

lemma blocks_save (db : DB) (node : Node) (mem : Mem) : (db.save node mem).blocks node.blockId = some node :=
  update_self _ _ _

/-- A new node in the next block. -/
structure Allocated (db : DB) (isLeaf : Bool) (db' : DB) (node : Node) : Prop where
  block : node.blockId = db.nusedBlocks
  kind : node.isLeaf = isLeaf
  count : node.nkeys = 0
  stored : db'.blocks node.blockId = some node
  empty : ∀ k ≤ db.degree, Filling db.degree k db'.mem.mmap node [] []
  children : isLeaf = false → node.childNodeId.length = db.degree+1
  used : db'.nusedBlocks = db.nusedBlocks+1
  changes : Changes (· = db.nusedBlocks) db db'

lemma newNode_history {db db' : DB} (created : db.newNode isLeaf = some (db',node)) :
    db'.mem.history = db.mem.history := by
  rw [DB.newNode] at created
  split at created <;> cases created
  rfl

lemma newNode_eq (db : DB) (isLeaf : Bool) (file : db.mem.mmap.size = dbSize) (room : db.nusedBlocks < 5120)
    (fits : blockMagic.length+DB.tableSize db.degree isLeaf ≤ blockSize) :
    ∃ db' node, db.newNode isLeaf = some (db',node) ∧ Allocated db isLeaf db' node := by
  have small : uint16 (blockMagic.length+DB.tableSize db.degree isLeaf) = blockMagic.length+DB.tableSize db.degree isLeaf :=
    uint16_of_lt (by simp only [blockSize] at fits; omega)
  have near : db.nusedBlocks*blockSize+blockMagic.length ≤ db.mem.mmap.size := by
    rw [file]
    simp only [blockSize,dbSize,blockMagic,length_cons,length_nil]
    omega
  have size : (db.mem.mmap.write (db.nusedBlocks*blockSize) blockMagic).size = db.mem.mmap.size := by
    rw [size_write (by omega)]
    omega
  have slots : ∀ (f : File) (area : Area), ∀ k ≤ db.degree, Tail f area db.degree k (List.replicate db.degree 0) [] := by
    intro f area k few
    refine ⟨List.replicate k 0,[],by simp,rfl,⟨List.replicate (db.degree-k) 0,?_,by simp⟩,by simp⟩
    rw [map_nil,append_nil,← replicate_add,Nat.add_sub_cancel' few]
  simp only [DB.newNode,if_pos near,small]
  refine ⟨_,_,rfl,rfl,rfl,rfl,blocks_save _ _ _,fun k few => ⟨size.trans file,room,rfl,slots _ _ k few,?_,fun _ => rfl,rfl,rfl,fits⟩,?_,rfl,
    rfl,rfl,Nat.le_succ _,?_,?_,id⟩
  · intro kind
    simpa only [show isLeaf = true from kind,if_true] using slots _ _ k few
  · rintro rfl
    simp
  · exact fun b other => update_of_ne other _ _
  · refine fun b other => ⟨size,fun a low high => byte_write_of_not_mem ?_⟩
    simp only [blockSize,blockMagic,length_cons,length_nil] at *
    omega

lemma Allocated.tidy (fresh : Allocated db isLeaf db' node) (tidy : db.Tidy) : db'.Tidy := by
  intro b other stored
  by_cases same : b = db.nusedBlocks
  · rw [same,← fresh.block,fresh.stored] at stored
    obtain rfl : node = other := some.inj stored
    exact (fresh.empty 0 (Nat.zero_le _)).full
  · rw [fresh.changes.blocks b same] at stored
    exact tidy b other stored

lemma Changes.saveTwo (db : DB) (a b : Node)
    (bytes : ∀ c, c ≠ a.blockId → c ≠ b.blockId → SameBlock c db.mem.mmap mem.mmap) (kept : db.mem.Kept → mem.Kept) :
    Changes (fun c => c = a.blockId ∨ c = b.blockId) db ((db.save a mem).save b mem) := by
  refine ⟨rfl,rfl,le_rfl,fun c out => ?_,fun c out => bytes c (fun same => out (.inl same)) (fun same => out (.inr same)),
    kept⟩
  simp only [DB.save]
  rw [update_of_ne (fun same => out (.inr same)),update_of_ne (fun same => out (.inl same))]

lemma blocks_saveTwo (db : DB) (mem mem' : Mem) (other : a.blockId ≠ b.blockId) :
    ((db.save a mem).save b mem').blocks a.blockId = some a :=
  (update_of_ne other _ _).trans (update_self _ _ _)

/-- A node was split in two. -/
structure Split (db : DB) (node : Node) (db' : DB) (left right : Node) : Prop where
  blockLeft : left.blockId = node.blockId
  blockRight : right.blockId = db.nusedBlocks
  storedLeft : db'.blocks left.blockId = some left
  storedRight : db'.blocks right.blockId = some right
  used : db'.nusedBlocks = db.nusedBlocks+1
  changes : Changes (fun b => b = node.blockId ∨ b = db.nusedBlocks) db db'

section

/-- A full leaf is cut in the middle, and its second half is in the new node. -/
lemma Leaf.splitLeaf (leaf : Leaf db.degree db.mem.mmap node (pre++e::post)) (half : pre.length = db.degree/2)
    (full : (pre++e::post).length = db.degree) (old : node.blockId < db.nusedBlocks) (room : db.nusedBlocks < 5120) :
    ∃ db' left right, db.splitLeaf node = some (db',e.1,right.blockId) ∧ Split db node db' left right ∧
      Leaf db.degree db'.mem.mmap left pre ∧ Leaf db.degree db'.mem.mmap right (e::post) ∧ Cost 1 db db' := by
  have fits : blockMagic.length+DB.tableSize db.degree true ≤ blockSize := by
    have start := leaf.body.start
    have low := leaf.body.low
    have high := leaf.body.high
    rw [leaf.leaf] at start
    omega
  obtain ⟨db1,right,created,fresh⟩ := newNode_eq db true leaf.body.file room fits
  have other : node.blockId ≠ right.blockId := by
    rw [fresh.block]
    omega
  rw [length_append] at full
  have upper : db.degree-pre.length = (e::post).length := by omega
  have leaf1 := leaf.frame (fresh.changes.bytes _ old.ne)
  obtain ⟨node1,right1,mem1,node2,mem2,moved,compacted,first,lower,higher,block,block',bytes,kept,tidy,tidy',compactions⟩ :=
    leaf1.split (fresh.empty _ (by omega)) fresh.kind other
  have degree := fresh.changes.degree
  have base : node.nkeys-(e::post).length = pre.length := by
    rw [leaf.count,length_append]
    omega
  refine ⟨(db1.save node2 mem2).save (right1.setNKeys (e::post).length) mem2,node2,right1.setNKeys (e::post).length,?_,
    ⟨block,block'.trans fresh.block,?_,blocks_save _ _ _,fresh.used,?_⟩,lower,higher,fresh.used,fun all => ⟨?_,?_⟩⟩
  · simp only [DB.splitLeaf,created,some_bind,degree,← half,upper,base,moved,compacted,first]
    rfl
  · refine blocks_saveTwo _ _ _ ?_
    rw [block]
    exact block' ▸ other
  · have saved := Changes.saveTwo db1 node2 (right1.setNKeys (e::post).length)
      (fun c first second => bytes c (block ▸ first) (block' ▸ second)) kept
    refine (fresh.changes.mono (fun b => .inr)).trans (saved.mono ?_)
    rintro b (rfl | rfl)
    · exact .inl block
    · exact .inr (block'.trans fresh.block)
  · exact ((fresh.tidy all).save mem2 tidy).save mem2 tidy'
  · exact compactions.trans (by rw [Mem.compactions,newNode_history created]; rfl)

end

/-- Of a full internal node the middle key goes up. -/
lemma Internal.splitInternal
    (holds : Internal db.degree db.mem.mmap node (pre++key::post) (left++c::right))
    (len : left.length = pre.length+1) (len' : right.length = post.length) (half : pre.length = db.degree/2)
    (full : (pre++key::post).length = db.degree) (old : node.blockId < db.nusedBlocks) (room : db.nusedBlocks < 5120) :
    ∃ db' a b, db.splitInternal node = some (db',key,b.blockId) ∧ Split db node db' a b ∧
      Internal db.degree db'.mem.mmap a pre left ∧ Internal db.degree db'.mem.mmap b post (c::right) ∧ Cost 1 db db' := by
  have bound := holds.body.degree_lt
  have start := holds.body.start
  have low := holds.body.low
  have high := holds.body.high
  have actual := holds.body.actual
  rw [holds.internal] at start
  simp only [total_append,total_cons,total_nil] at actual
  obtain ⟨db1,sibling,created,fresh⟩ := newNode_eq db false holds.body.file room (by omega)
  have other : node.blockId ≠ sibling.blockId := by
    rw [fresh.block]
    omega
  simp only [length_append,length_cons] at full
  have upper : db.degree-pre.length-1 = post.length := by omega
  have base : node.nkeys-post.length = (pre++[key]).length := by
    rw [holds.count]
    simp
    omega
  have holds1 := holds.frame (fresh.changes.bytes _ old.ne)
  have empty := fresh.empty post.length (by omega)
  have slots := fresh.children rfl
  have body : Body db.degree db1.mem.mmap node (pre++[key]++post) [] := by simpa using holds1.body
  have children : Slices.Holds (db.degree+1) (left++[c]++right) node.childNodeId := by simpa using holds1.children
  have unset : Slices.Holds (db.degree+1) (sibling.childNodeId.take (post.length+1) ++ []) sibling.childNodeId :=
    ⟨sibling.childNodeId.drop (post.length+1),by simp,slots⟩
  obtain ⟨node1,sibling1,mem1,moved,body1,kind1,block1,children1,body2,kind2,block2,⟨z,children2⟩,only1,tidy2,quiet⟩ :=
    moveChildren_append body holds1.internal children (by simp [len]) len' empty fresh.kind unset (by simp [slots]; omega)
      other (by rw [empty.full,empty.actual,empty.start,fresh.kind,total_nil]; omega)
  rw [append_nil] at body2 children2
  have readChild : node1.getChildBlockId (pre++[key]).length = some c := by
    rw [show (pre++[key]).length = left.length by simp [len]]
    exact children1.get rfl
  have front : Slices.Holds (db.degree+1) ([]++z::right) sibling1.childNodeId := children2
  obtain ⟨ptrs2,first,held2⟩ := front.put (i := 0) (y := c) rfl
  obtain ⟨ptrs1,cleared,held1⟩ := holds_dropLast children1
  have body1' := body1.setChildren ptrs1
  obtain ⟨node2,clearedKey,body3,same3⟩ := body1'.clearKey
  have few : uint16 pre.length = pre.length := uint16_of_lt (by omega)
  have few' : uint16 post.length = post.length := uint16_of_lt (by omega)
  obtain ⟨node3,mem3,compacted,body4,same4,offset,used,only2⟩ := (body3.setNKeys pre.length).compactMem few
    (fun kind => by rw [show (node2.setNKeys pre.length).isLeaf = node1.isLeaf from same3.isLeaf,kind1] at kind; cases kind)
  have block3 : (node2.setNKeys pre.length).blockId = node.blockId := same3.blockId.trans block1
  have apart : sibling1.blockId ≠ (node2.setNKeys pre.length).blockId := by
    rw [block3,block2]
    exact other.symm
  have left' : Internal db.degree mem3.mmap node3 pre left := by
    refine ⟨body4,?_,?_,?_⟩
    · rw [same4.isLeaf]
      exact same3.isLeaf.trans kind1
    · rwa [same4.nkeys]
    · rw [same4.children]
      exact same3.children ▸ held1
  have right' := (body2.frame (only2.sameBlock apart)).internal kind2 few' held2
  refine ⟨(db1.save node3 mem3).save { sibling1 with nkeys := uint16 post.length, childNodeId := ptrs2 } mem3,node3,
    { sibling1 with nkeys := uint16 post.length, childNodeId := ptrs2 },?_,⟨same4.blockId.trans block3,block2.trans fresh.block,?_,
    blocks_save _ _ _,fresh.used,?_⟩,left',right',fresh.used,fun all => ⟨?_,?_⟩⟩
  · rw [show left.length = (pre++[key]).length by simp [len]] at cleared
    have before : (pre++[key]).length-1 = pre.length := by simp
    simp only [DB.splitInternal,created,some_bind,fresh.changes.degree,← half,upper,base,moved,
      readChild,Node.setChildBlockId,first,cleared,before,Option.pure_def,body1'.getKey.1,clearedKey,compacted]
    rfl
  · refine blocks_saveTwo _ _ _ ?_
    rw [same4.blockId]
    exact apart.symm
  · have saved := Changes.saveTwo db1 node3 { sibling1 with nkeys := uint16 post.length, childNodeId := ptrs2 }
      (fun d first second => (only1.sameBlock (block2 ▸ second)).trans (only2.sameBlock (same4.blockId ▸ first)))
      (only2.kept ∘ only1.kept)
    refine (fresh.changes.mono (fun b => .inr)).trans (saved.mono ?_)
    rintro b (rfl | rfl)
    · exact .inl (same4.blockId.trans block3)
    · exact .inr (block2.trans fresh.block)
  · exact ((fresh.tidy all).save mem3 (by rw [Node.Tidy,offset,used,same4.start])).save mem3 tidy2
  · refine (compactMem_history compacted).trans ?_
    rw [Mem.compactions,quiet,newNode_history created]
    rfl

end CodeExercise.BTreeMmap
