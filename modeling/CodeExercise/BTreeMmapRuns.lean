import CodeExercise.BTreeMmapDelete

/-!
Runs of the database. Every operation that finds its room (`ok`) keeps a tree with all entries in its
own blocks (`Stores`), and the history shows that no compaction has lost anything.
-/
namespace CodeExercise.BTreeMmap
open Slices Files SortedMaps Fences Runs List Option

/-- There is room for the operation, with keys of at most `m` bytes. A full root needs a
new root above it, whose table and first key must fit into a block. -/
def ok (m : Nat) (db : DB) : Op → Prop
  | .insert key val => size key ≤ m ∧ size val < 65536 ∧
    db.insertFits m db.nusedBlocks db.rootBlockId 1 key val = some true ∧
    (db.loadNode db.rootBlockId).all (fun root => decide (root.nkeys+1 = db.degree →
      blockMagic.length+DB.tableSize db.degree false+m ≤ blockSize)) = true
  | .delete key => db.deleteFits m db.nusedBlocks db.rootBlockId key = some true

instance (m : Nat) (db : DB) : (op : Op) → Decidable (ok m db op)
  | .insert _ _ => inferInstanceAs (Decidable (_ ∧ _))
  | .delete _ => inferInstanceAs (Decidable (_ = _))

/-- The database holds a tree of height `h` in blocks of its own. -/
structure Stores (d m : Nat) (db : DB) (h : Nat) (v : View) : Prop where
  degree : db.degree = d
  root : v.id = db.rootBlockId
  tree : Subtree db m h none none v
  nodup : v.blocks.Nodup
  old : ∀ b ∈ v.blocks, b < db.nusedBlocks
  kept : db.mem.Kept

section
variable {d m h : Nat} {db : DB} {v : View} {key val : Bytes}

lemma Stores.height_lt (stores : Stores d m db h v) : h < db.nusedBlocks := by
  have inside : v.blocks ⊆ List.range db.nusedBlocks := fun b member => mem_range.mpr (stores.old b member)
  have few := (stores.nodup.subperm inside).length_le
  rw [length_range] at few
  exact stores.tree.height_lt.trans_le few

lemma Stores.find (stores : Stores d m db h v) (key : Bytes) : db.Find key = some (answer v.entries key) := by
  rw [DB.Find,← stores.root]
  exact stores.tree.find (within_unbounded key) stores.height_lt

lemma createDB_stores (large : 2 ≤ d) (table : blockMagic.length+DB.tableSize d true ≤ blockSize)
    (created : DB.createDB d = some db) : ∃ v, Stores d m db 0 v ∧ v.entries = [] := by
  have file : ((File.zeros dbSize).write 0 blockMagic).size = dbSize := by
    rw [size_write (Nat.zero_le _)]
    exact Nat.max_eq_left (by decide)
  obtain ⟨db',node,done,fresh⟩ := newNode_eq
    ⟨d,1,1,fun _ => none,⟨(File.zeros dbSize).write 0 blockMagic,[]⟩⟩ true file (show 1 < 5120 by decide) table
  have same : db' = db := by
    simpa only [DB.createDB,done,some_bind,Option.pure_def,some.injEq] using created
  subst same
  have degree : db'.degree = d := fresh.changes.degree
  have leaf : LeafNode db' m none none node [] := by
    refine ⟨fresh.stored,⟨?_,fresh.kind,fresh.count⟩,.nil,by simp,by simp,?_⟩
    · rw [degree]
      exact (fresh.empty 0 (Nat.zero_le _)).body
    · rw [degree,length_nil]
      omega
  refine ⟨leafView node [],⟨degree,?_,⟨node,[],rfl,leaf⟩,by simp [leafView],?_,?_⟩,rfl⟩
  · rw [fresh.changes.root]
    exact fresh.block
  · intro b member
    obtain rfl : b = node.blockId := by simpa [leafView] using member
    rw [fresh.used,fresh.block]
    exact Nat.lt_succ_self _
  · exact fresh.changes.kept (by simp [Mem.Kept])

lemma newRoot_internal (file : db.mem.mmap.size = dbSize) (room : db.nusedBlocks < 5120)
    (large : 2 ≤ db.degree) (fits : blockMagic.length+DB.tableSize db.degree false+size k ≤ blockSize) :
    ∃ db1 root1 root2 mem ptrs ptrs', db.newNode false = some (db1,root1) ∧
      root1.insertKeyInPos db1.mem 0 k = some (root2,mem) ∧ put root2.childNodeId 0 a = some ptrs ∧
      put ptrs 1 b = some ptrs' ∧ root2.blockId = db.nusedBlocks ∧ db1.nusedBlocks = db.nusedBlocks+1 ∧
      Internal db.degree mem.mmap { root2 with nkeys := 1, childNodeId := ptrs' } [k] [a,b] ∧
      Changes (· = db.nusedBlocks) db (db1.save { root2 with nkeys := 1, childNodeId := ptrs' } mem) ∧
      (db.Tidy → (db1.save { root2 with nkeys := 1, childNodeId := ptrs' } mem).Tidy) ∧ mem.history = db.mem.history := by
  obtain ⟨db1,root1,created,fresh⟩ := newNode_eq db false file room (by omega)
  have empty := fresh.empty 1 (by omega)
  have free : root1.unusedMemOffset+size k ≤ blockSize := by
    rw [empty.full,empty.actual,empty.start,fresh.kind,total_nil]
    omega
  obtain ⟨root2,mem,inserted,filled,appended⟩ := empty.insertKeyInPos fresh.kind k free
  obtain ⟨ptrs,first,held⟩ := (holds_nil (fresh.children rfl)).push (y := a) (Nat.succ_pos _)
  obtain ⟨ptrs',second,held'⟩ := held.push (y := b) (by simp; omega)
  have block : root2.blockId = db.nusedBlocks := appended.same.blockId.trans fresh.block
  refine ⟨db1,root1,root2,mem,ptrs,ptrs',created,inserted,by rw [appended.same.children]; exact first,second,block,
    fresh.used,filled.body.internal (appended.same.isLeaf.trans fresh.kind) rfl held',?_,fun tidy => ?_,?_⟩
  · have only : Local (Node.blockId { root2 with nkeys := 1, childNodeId := ptrs' }) db1.mem mem :=
      appended.same.blockId.symm ▸ appended.only
    exact fresh.changes.trans ((Changes.save only).mono (fun c same => same.trans block))
  · exact (fresh.tidy tidy).save mem filled.full
  · exact ((empty.room free).insertKeyInPos_history inserted).2.trans (newNode_history created)

/-- All blocks without the property hold what they held. -/
def Unchanged (S : Nat → Prop) (db db' : DB) : Prop :=
  ∀ b, ¬ S b → db'.blocks b = db.blocks b ∧ SameBlock b db.mem.mmap db'.mem.mmap

/-- An insertion sets the entry, or the key is there and the value is refused without a change. A new key takes a block and a
compaction for each split, and one more block for a new root. -/
lemma Stores.outcome (large : 2 ≤ d) (stores : Stores d m db h v) (short : size key ≤ m) (small : size val < 65536)
    (rooms : db.roomFits m db.nusedBlocks db.rootBlockId key val = some true)
    (needs : db.splitsOnPath db.nusedBlocks db.rootBlockId key = some (n,top))
    (blocks : (∀ e ∈ v.entries, e.1 ≠ key) → db.nusedBlocks+(n+top.toNat) ≤ 5120)
    (header : v.node.nkeys+1 = db.degree → blockMagic.length+DB.tableSize db.degree false+m ≤ blockSize) :
    ∃ path, db.searchPath db.nusedBlocks db.rootBlockId key = some path ∧
      (db.Insert key val = some (db,some .notEnoughMemory) ∧ (∃ e ∈ v.entries, e.1 = key) ∨
      ∃ db' h' v', db.Insert key val = some (db',none) ∧ Stores d m db' h' v' ∧ v'.entries = setEntry key val v.entries ∧
        Unchanged (Touched path db db') db db' ∧
        ((∀ e ∈ v.entries, e.1 ≠ key) → db'.nusedBlocks = db.nusedBlocks+(n+top.toNat) ∧
          (db.Tidy → db'.Tidy ∧ db'.mem.compactions = db.mem.compactions+n))) := by
  have start := stores.degree
  rw [← stores.root] at rooms needs
  obtain ⟨db1,r,path,done,inserted,sought,touched⟩ := stores.tree.outcome (by omega) (within_unbounded key) stores.nodup stores.old short small
    stores.height_lt rooms needs (fun absent => by have := blocks absent; omega)
  rw [stores.root] at done sought
  refine ⟨path,sought,?_⟩
  rcases inserted with ⟨rfl,rfl,present⟩ | ⟨v',more,rfl,changes,grown,full,present,cost⟩
  · refine .inl ⟨?_,present⟩
    simp only [DB.Insert,done,some_bind]
    rfl
  refine .inr ?_
  have kept := changes.kept stores.kept
  cases more with
  | none =>
    refine ⟨db1,h,v',?_,⟨changes.degree.trans start,?_,grown.fenced,by simpa using grown.nodup,?_,kept⟩,?_,
      fun b out => ⟨touched.blocks b out,touched.bytes b out⟩,fun absent => ?_⟩
    · simp only [DB.Insert,done,some_bind]
      rfl
    · rw [grown.id,stores.root,changes.root]
    · exact fun b member => (grown.blocks b (by simpa using member)).2
    · simpa using grown.entries
    · obtain ⟨rfl,paid⟩ := cost absent
      exact ⟨paid.used,paid.tidy⟩
  | some g =>
    obtain ⟨k,w⟩ := g
    have absent : ∀ e ∈ v.entries, e.1 ≠ key := fun e member same => nomatch present ⟨e,member,same⟩
    obtain ⟨rfl,paid⟩ := cost absent
    have used := paid.used
    have left : db.nusedBlocks+(n+1) ≤ 5120 := blocks absent
    have table := header (full rfl)
    have small' : size k ≤ m := grown.sizes (k,w) rfl
    rw [← changes.degree] at table
    have file : db1.mem.mmap.size = dbSize := grown.fenced.1.file
    obtain ⟨db2,root1,root2,mem,ptrs,ptrs',created,first,left,right,block,used2,holds,changes2,tidy2,quiet⟩ := newRoot_internal
      (k := k) (a := db.rootBlockId) (b := w.id) file (by omega) (by rw [changes.degree]; omega) (by omega)
    have degree2 := changes2.degree
    -- the new root is in the block behind those of the splits
    have last : Changes (Touched [] db1 (db2.save { root2 with nkeys := 1, childNodeId := ptrs' } mem)) db1 _ :=
      changes2.mono (fun b same => .inr ⟨same.ge,by rw [same]; exact used2.symm ▸ Nat.lt_succ_self _⟩)
    have whole := touched.touched_trans last
    have fenced : Fenced (Subtree { db2.save { root2 with nkeys := 1, childNodeId := ptrs' } mem with
        rootBlockId := root2.blockId } m h) none none [k] [v',w] := by
      refine grown.fenced.imp fun lo hi x member tree => ?_
      have moved := tree.frame changes2 (fun b inside same => ?_)
      · exact moved.agree rfl (fun _ _ => rfl) fun _ _ => ⟨rfl,fun _ _ _ => rfl⟩
      · exact absurd (grown.blocks b (mem_flatMap.mpr ⟨x,member,inside⟩)).2 same.not_lt
    refine ⟨{ db2.save { root2 with nkeys := 1, childNodeId := ptrs' } mem with rootBlockId := root2.blockId },h+1,
      internalView { root2 with nkeys := 1, childNodeId := ptrs' } [v',w],?_,⟨?_,rfl,?_,?_,?_,changes2.kept kept⟩,?_,
      fun b out => ⟨whole.blocks b out,whole.bytes b out⟩,fun _ => ⟨?_,fun tidy => ?_⟩⟩
    · simp only [DB.Insert,done,promoted,map_some,some_bind,created,first,
        Node.setNKeys,Node.setChildBlockId,left,right,Option.pure_def]
      rfl
    · exact degree2.trans (changes.degree.trans start)
    · refine ⟨_,[k],[v',w],rfl,blocks_save db2 _ mem,?_,fenced,?_,?_⟩
      · have ids : [v',w].map View.id = [db.rootBlockId,w.id] := by simp [grown.id,stores.root]
        rw [ids]
        exact degree2 ▸ holds
      · simpa using small'
      · show 1 < db2.degree
        rw [show db2.degree = db1.degree from degree2,changes.degree]
        omega
    · have nodup : (root2.blockId::[v',w].flatMap View.blocks).Nodup := by
        refine nodup_cons.mpr ⟨fun member => ?_,grown.nodup⟩
        exact absurd (grown.blocks _ member).2 (by rw [block]; exact lt_irrefl _)
      exact nodup
    · intro b member
      show b < db2.nusedBlocks
      rcases mem_cons.mp member with rfl | below
      · simp only [block]
        omega
      · have := (grown.blocks b below).2
        omega
    · exact grown.entries
    · show db2.nusedBlocks = db.nusedBlocks+(n+1)
      omega
    · obtain ⟨tidy1,count⟩ := paid.tidy tidy
      refine ⟨tidy2 tidy1,?_⟩
      show mem.compactions = _
      rwa [Mem.compactions,quiet]

lemma Stores.insert (large : 2 ≤ d) (stores : Stores d m db h v) (fits : ok m db (.insert key val)) :
    ∃ path, db.searchPath db.nusedBlocks db.rootBlockId key = some path ∧
      (db.Insert key val = some (db,some .notEnoughMemory) ∨
      ∃ db' h' v', db.Insert key val = some (db',none) ∧ Stores d m db' h' v' ∧ v'.entries = setEntry key val v.entries ∧
        Unchanged (Touched path db db') db db') := by
  obtain ⟨short,small,path,header⟩ := fits
  have root : db.loadNode db.rootBlockId = some v.node := stores.root ▸ stores.tree.stored
  rw [root] at header
  simp only [all_some,decide_eq_true_eq] at header
  rw [← stores.root] at path
  obtain ⟨rooms,blocks⟩ := stores.tree.insertFits (within_unbounded key) stores.height_lt path
  obtain ⟨n,top,needs,bound⟩ := stores.tree.splitsOnPath_le (within_unbounded key) stores.height_lt
  rw [stores.root] at rooms needs
  have room : (∀ e ∈ v.entries, e.1 ≠ key) → db.nusedBlocks+(n+top.toNat) ≤ 5120 := by
    intro absent
    have left := blocks absent
    have one := Bool.toNat_le top
    omega
  obtain ⟨path,sought,⟨refused,_⟩ | ⟨db',h',v',done,stores',entries,same,_⟩⟩ :=
    stores.outcome large short small rooms needs room header
  · exact ⟨path,sought,.inl refused⟩
  · exact ⟨path,sought,.inr ⟨db',h',v',done,stores',entries,same⟩⟩

lemma Stores.delete (stores : Stores d m db h v) (fits : ok m db (.delete key)) :
    ∃ db' h' v', db.Delete key = some db' ∧ Stores d m db' h' v' ∧ v'.entries = dropEntry key v.entries := by
  have path : db.deleteFits m db.nusedBlocks v.id key = some true := stores.root ▸ fits
  obtain ⟨db1,v1,done,deleted⟩ := stores.tree.delete (within_unbounded key) stores.nodup stores.old stores.height_lt path
  rw [stores.root] at done
  have changes := deleted.changes
  have root : v1.id = db1.rootBlockId := by rw [deleted.id,stores.root,changes.root]
  have load : db1.loadNode db1.rootBlockId = some v1.node := root ▸ deleted.tree.stored
  have old : ∀ b ∈ v1.blocks, b < db1.nusedBlocks := fun b member =>
    (stores.old b (deleted.blocks b member)).trans_le changes.used
  have degree := changes.degree.trans stores.degree
  have kept := changes.kept stores.kept
  by_cases shrink : v1.node.isLeaf = false ∧ v1.node.nkeys = 0
  · obtain ⟨kind,keyless⟩ := shrink
    have height := deleted.tree.kind
    cases h with
    | zero => simp [kind] at height
    | succ h =>
      obtain ⟨node,ks,cs,rfl,row⟩ := deleted.tree
      obtain rfl : ks = [] := length_eq_zero_iff.mp (row.holds.count.symm.trans keyless)
      obtain ⟨c,rfl⟩ := length_eq_one_iff.mp row.fenced.length
      have only : Internal db1.degree db1.mem.mmap node [] ([]++[c.id]) := row.holds
      have read : node.getChildBlockId 0 = some c.id := only.getChildBlockId
      have nodup := deleted.nodup
      simp only [internalView,flatMap_cons,flatMap_nil,append_nil,nodup_cons] at nodup old
      refine ⟨{ db1 with rootBlockId := c.id },h,c,?_,⟨degree,rfl,?_,nodup.2,
        fun b member => old b (mem_cons_of_mem _ member),kept⟩,?_⟩
      · simp only [internalView] at load kind keyless
        simp only [DB.Delete,done,load,some_bind]
        rw [if_pos (by simp [kind,keyless])]
        simp only [read,some_bind,Option.pure_def]
      · exact Subtree.agree row.fenced rfl (fun _ _ => rfl) fun _ _ => ⟨rfl,fun _ _ _ => rfl⟩
      · simpa [internalView] using deleted.entries
  · refine ⟨db1,h,v1,?_,⟨degree,root,deleted.tree,deleted.nodup,old,kept⟩,deleted.entries⟩
    simp only [DB.Delete,done,load,some_bind]
    rw [if_neg (by simpa using shrink)]
    rfl

lemma Stores.next (large : 2 ≤ d) (stores : Stores d m db h v) (fits : ok m db op) :
    ∃ db' h' v', next db op = some db' ∧ Stores d m db' h' v' := by
  cases op with
  | insert key val =>
    obtain ⟨_,_,refused | ⟨db',h',v',done,stores',_⟩⟩ := stores.insert large fits
    · exact ⟨db,h,v,by simp [BTreeMmap.next,refused],stores⟩
    · exact ⟨db',h',v',by simp [BTreeMmap.next,done],stores'⟩
  | delete key =>
    obtain ⟨db',h',v',done,stores',_⟩ := stores.delete fits
    exact ⟨db',h',v',done,stores'⟩

lemma reach_stores (large : 2 ≤ d) (table : blockMagic.length+DB.tableSize d true ≤ blockSize) :
    ∀ db, Reach (fun db => DB.createDB d = some db) (ok m) next db → ∃ h v, Stores d m db h v := by
  apply Reach.invariant
  · intro db created
    obtain ⟨v,stores,_⟩ := createDB_stores large table created
    exact ⟨0,v,stores⟩
  · intro db op db' ⟨h,v,stores⟩ fits moved
    obtain ⟨db1,h',v',done,stores'⟩ := stores.next large fits
    obtain rfl : db1 = db' := some.inj (done.symm.trans moved)
    exact ⟨h',v',stores'⟩

/-- An insertion that reports success has set its entry and no other, and one that
reports an error has changed nothing. -/
theorem insert_all_or_nothing (large : 2 ≤ d) (table : blockMagic.length+DB.tableSize d true ≤ blockSize)
    (reached : Reach (fun db => DB.createDB d = some db) (ok m) next db) (fits : ok m db (.insert key val)) :
    ∃ db' err, db.Insert key val = some (db',err) ∧
      (err = none → db'.Find key = some (.ok val) ∧ ∀ k, k ≠ key → db'.Find k = db.Find k) ∧
      (err ≠ none → ∀ k, db'.Find k = db.Find k) := by
  obtain ⟨h,v,stores⟩ := reach_stores large table db reached
  have sorted := stores.tree.ordered.1
  obtain ⟨_,_,refused | ⟨db',h',v',done,stores',entries,_⟩⟩ := stores.insert large fits
  · exact ⟨db,_,refused,by simp,fun _ _ => rfl⟩
  · refine ⟨db',none,done,fun _ => ⟨?_,fun k other => ?_⟩,by simp⟩
    · rw [stores'.find,entries,answer_setEntry sorted]
    · rw [stores'.find,stores.find,entries,answer_setEntry_of_ne sorted val other]

theorem insert_all_or_nothing_split : ∃ db, Reach (fun db => DB.createDB 3 = some db) (ok 2) next db ∧
    ok 2 db (.insert [100] [52]) ∧ ∃ db' err, db.Insert [100] [52] = some (db',err) ∧
      (err = none → db'.Find [100] = some (.ok [52]) ∧ ∀ k, k ≠ [100] → db'.Find k = db.Find k) ∧
      (err ≠ none → ∀ k, db'.Find k = db.Find k) := by
  obtain ⟨db,reached,fits⟩ : ∃ db, Reach (fun db => DB.createDB 3 = some db) (ok 2) next db ∧
      ok 2 db (.insert [100] [52]) :=
    exists_reach [.insert [97] [49],.insert [98] [50],.insert [99] [51]] (by decide +kernel)
  exact ⟨db,reached,fits,insert_all_or_nothing (by decide) (by decide) reached fits⟩

/-- A value that is too large for the block of its leaf: `insertKVInLeaf` drops the error,
`Insert` reports success, and the key is not there. -/
theorem insert_drops_error : ∃ db db', Reach (fun db => DB.createDB 5 = some db) anyStep next db ∧
    size (List.replicate 4096 0) < 65536 ∧ db.Insert [97] (List.replicate 4096 0) = some (db',none) ∧
    db'.Find [97] = some (.error .keyNotExist) := by
  simp only [exists_and_left]
  exact exists_reach [.insert [98] [49]] (by decide +kernel)

/-- A deletion takes out its key, if it is there, and no other. -/
theorem delete_only_key (large : 2 ≤ d) (table : blockMagic.length+DB.tableSize d true ≤ blockSize)
    (reached : Reach (fun db => DB.createDB d = some db) (ok m) next db) (fits : ok m db (.delete key)) :
    ∃ db', db.Delete key = some db' ∧ db'.Find key = some (.error .keyNotExist) ∧
      ∀ k, k ≠ key → db'.Find k = db.Find k := by
  obtain ⟨h,v,stores⟩ := reach_stores large table db reached
  have sorted := stores.tree.ordered.1
  obtain ⟨db',h',v',done,stores',entries⟩ := stores.delete fits
  refine ⟨db',done,?_,fun k other => ?_⟩
  · rw [stores'.find,entries,answer_dropEntry]
  · rw [stores'.find,stores.find,entries,answer_dropEntry_of_ne sorted other]

theorem delete_only_key_merge : ∃ db, Reach (fun db => DB.createDB 3 = some db) (ok 2) next db ∧
    ok 2 db (.delete [97]) ∧ ∃ db', db.Delete [97] = some db' ∧ db'.Find [97] = some (.error .keyNotExist) ∧
      ∀ k, k ≠ [97] → db'.Find k = db.Find k := by
  obtain ⟨db,reached,fits⟩ : ∃ db, Reach (fun db => DB.createDB 3 = some db) (ok 2) next db ∧ ok 2 db (.delete [97]) :=
    exists_reach [.insert [97] [49],.insert [98] [50],.insert [99] [51],.delete [99]] (by decide +kernel)
  exact ⟨db,reached,fits,delete_only_key (by decide) (by decide) reached fits⟩

/-- A key above all keys of its leaf: `deleteInLeaf` takes out the slot after the last
one, and the count of keys falls all the same. -/
theorem delete_absent_key : ∃ db db', Reach (fun db => DB.createDB 5 = some db) anyStep next db ∧
    db.Delete [98] = some db' ∧ db.Find [97] = some (.ok [49]) ∧ db'.Find [97] = some (.error .keyNotExist) := by
  simp only [exists_and_left]
  exact exists_reach [.insert [97] [49]] (by decide +kernel)

/-- No step loses anything to a compaction, and no compaction writes past its buffer. -/
theorem compaction_transparent {op : Op} (large : 2 ≤ d) (table : blockMagic.length+DB.tableSize d true ≤ blockSize)
    (reached : Reach (fun db => DB.createDB d = some db) (ok m) next db) (fits : ok m db op) :
    ∃ db', next db op = some db' ∧ db'.mem.Kept := by
  obtain ⟨h,v,stores⟩ := reach_stores large table db reached
  obtain ⟨db',h',v',done,stores'⟩ := stores.next large fits
  exact ⟨db',done,stores'.kept⟩

theorem compaction_transparent_append : ∃ db, Reach (fun db => DB.createDB 999 = some db) (ok 2) next db ∧
    ok 2 db (.insert [99] [52,52,52,52,52]) ∧ ∃ db', next db (.insert [99] [52,52,52,52,52]) = some db' ∧ db'.mem.Kept := by
  obtain ⟨db,reached,fits⟩ : ∃ db, Reach (fun db => DB.createDB 999 = some db) (ok 2) next db ∧
      ok 2 db (.insert [99] [52,52,52,52,52]) :=
    exists_reach [.insert [97] [49,49,49,49,49],.insert [98] [50,50,50,50,50],.insert [97] [51,51,51,51,51],
      .insert [97] [52,52,52,52,52]] (by decide +kernel)
  exact ⟨db,reached,fits,compaction_transparent (by decide) (by decide) reached fits⟩

/-- A new key in front of the others in a full block: the compaction runs when the slots
have been moved up, leaves out the last one, and its entry is overwritten. -/
theorem compaction_loses_entry : ∃ db db', Reach (fun db => DB.createDB 999 = some db) anyStep next db ∧
    db.Insert [97] [52,52,52,52,52] = some (db',none) ∧ db.Find [99] = some (.ok [50,50,50,50,50]) ∧
    db'.Find [99] = some (.error .keyNotExist) ∧ ¬ db'.mem.Kept := by
  simp only [exists_and_left]
  exact exists_reach [.insert [98] [49,49,49,49,49],.insert [99] [50,50,50,50,50],.insert [98] [51,51,51,51,51],
    .insert [98] [52,52,52,52,52]] (by decide +kernel)

end

/-- The blocks of the nodes that are reached from a block, in the order of `Traverse`. -/
def DB.nodes : Nat → DB → Nat → List Nat
  | 0,_,_ => []
  | fuel+1,db,blockId => match db.loadNode blockId with
    | none => []
    | some node =>
      if node.isLeaf then [blockId]
      else blockId :: (node.childNodeId.take (node.nkeys+1)).flatMap (db.nodes fuel)

/-- The size of what the slots in use point to. -/
def Node.memRequired (node : Node) (mem : Mem) : Nat :=
  ((node.keys mem ++ node.vals mem).map (fun x => (x.map size).getD 0)).sum

/-- An offset in the memory that has been handed out. -/
def Node.Inside (node : Node) (p : Nat) : Prop := node.unusedMemStart ≤ p ∧ p < node.unusedMemOffset

instance (node : Node) : DecidablePred node.Inside := fun _ => inferInstanceAs (Decidable (_ ∧ _))

def Node.Accounts (node : Node) (mem : Mem) : Prop :=
  node.actualMemRequired = node.memRequired mem ∧
  node.unusedMemStart+node.actualMemRequired ≤ node.unusedMemOffset ∧ node.unusedMemOffset ≤ blockSize ∧
  (∀ i < node.nkeys, (node.keyPtrArr[i]?).any (fun p => decide (node.Inside p)) = true) ∧
  (node.isLeaf = true → ∀ i < node.nkeys, (node.valPtrArr[i]?).any (fun p => decide (node.Inside p)) = true)

instance (node : Node) (mem : Mem) : Decidable (node.Accounts mem) := inferInstanceAs (Decidable (_ ∧ _))

/-- The accounts of every node of the tree are right. -/
def DB.Accounts (db : DB) : Prop :=
  ∀ id ∈ db.nodes db.nusedBlocks db.rootBlockId, ∃ node, db.loadNode id = some node ∧ node.Accounts db.mem

instance (db : DB) : Decidable db.Accounts :=
  decidable_of_iff (∀ id ∈ db.nodes db.nusedBlocks db.rootBlockId,
    (db.loadNode id).any (fun node => decide (node.Accounts db.mem)) = true) (by simp [DB.Accounts,Option.any_eq_true])

section
variable {d m h : Nat} {db : DB} {lo hi : Option Bytes} {node : Node} {v : View} {mem : Mem}

lemma Subtree.nodes_eq (tree : Subtree db m h lo hi v) (enough : h < fuel) : db.nodes fuel v.id = v.blocks := by
  induction h generalizing lo hi v fuel with
  | zero =>
    obtain _ | fuel := fuel
    · omega
    obtain ⟨node,es,rfl,leaf⟩ := tree
    simp only [DB.nodes,leaf.load,leaf.holds.leaf,if_true]
    rfl
  | succ h ih =>
    obtain _ | fuel := fuel
    · omega
    obtain ⟨node,ks,cs,rfl,row⟩ := tree
    obtain ⟨rest,child,_⟩ := row.holds.children
    have used : node.childNodeId.take (node.nkeys+1) = cs.map View.id := by
      rw [child,row.holds.count,← row.fenced.length]
      exact take_left' (by simp)
    simp only [DB.nodes,row.load,row.holds.internal,if_ff,used,flatMap_map]
    refine congrArg (node.blockId::·) (flatMap_congr (fun c member => ?_))
    obtain ⟨lo',hi',part,_⟩ := row.fenced.mem member
    exact ih part (by omega)

lemma Column.inside (column : Column mem.mmap node.area d ptrs xs) (used : i < xs.length) :
    (ptrs[i]?).any (fun p => decide (node.Inside p)) = true := by
  obtain ⟨pre,x,post,rfl,rfl⟩ := exists_cut xs used
  obtain ⟨p,slot,low,high,_⟩ := column.get
  have some_ := size_pos x
  rw [slot]
  simp only [any_some,decide_eq_true_eq]
  exact ⟨low,lt_of_lt_of_le (by omega) high⟩

lemma Body.accounts (body : Body d mem.mmap node ks vs) (count : node.nkeys = ks.length) (leaf : node.isLeaf = true → vs.length = ks.length)
    (slots : node.keys mem = ks.map some ∧ node.vals mem = vs.map some) : node.Accounts mem := by
  refine ⟨?_,body.low,body.high,fun i used => body.keys.inside (by omega),fun kind i used => (body.vals kind).inside ?_⟩
  · rw [body.actual,Node.memRequired,slots.1,slots.2]
    simp [total,Function.comp_def]
  · rw [leaf kind]
    omega

lemma Subtree.accounts (tree : Subtree db m h lo hi v) : ∀ b ∈ v.blocks, ∃ node, db.loadNode b = some node ∧ node.Accounts db.mem := by
  induction h generalizing lo hi v with
  | zero =>
    obtain ⟨node,es,rfl,leaf⟩ := tree
    intro b member
    obtain rfl : b = node.blockId := by simpa [leafView] using member
    exact ⟨node,leaf.stored,leaf.holds.body.accounts (by simpa using leaf.holds.count) (by simp) leaf.holds.slots⟩
  | succ h ih =>
    obtain ⟨node,ks,cs,rfl,row⟩ := tree
    intro b member
    rcases mem_cons.mp member with rfl | below
    · exact ⟨node,row.stored,row.holds.body.accounts row.holds.count (by simp [row.holds.internal]) row.holds.slots⟩
    · obtain ⟨c,inside,member⟩ := mem_flatMap.mp below
      obtain ⟨lo',hi',part,_⟩ := row.fenced.mem inside
      exact ih part b member

lemma Stores.accounts (stores : Stores d m db h v) : db.Accounts := by
  intro id member
  rw [← stores.root,stores.tree.nodes_eq stores.height_lt] at member
  exact stores.tree.accounts id member

end

/-- While every operation finds its room, the accounts of all nodes are right. -/
theorem accounts_kept {d : Nat} (m : Nat) (large : 3 ≤ d) (table : blockMagic.length+DB.tableSize d true ≤ blockSize) (db : DB)
    (reached : Reach (fun db => DB.createDB d = some db) (ok m) next db) : db.Accounts := by
  obtain ⟨h,v,stores⟩ := reach_stores (by omega) table db reached
  exact stores.accounts

/-- A leaf was split and merged again. -/
theorem accounts_kept_merge : ∃ db, Reach (fun db => DB.createDB 3 = some db) (ok 2) next db ∧
    db.Find [97] = some (.error .keyNotExist) ∧ db.Accounts := by
  obtain ⟨db,reached,found⟩ : ∃ db, Reach (fun db => DB.createDB 3 = some db) (ok 2) next db ∧
      db.Find [97] = some (.error .keyNotExist) :=
    exists_reach [.insert [97] [49],.insert [98] [50],.insert [99] [51],.delete [99],.delete [97]] (by decide +kernel)
  exact ⟨db,reached,found,accounts_kept 2 (by decide) (by decide) db reached⟩

/-- A value that is too large for the block: both insertions report success, and the leaf counts two keys but the memory of one. -/
theorem accounts_dropped_entry : ∃ db db', Reach (fun db => DB.createDB 5 = some db) anyStep next db ∧ db.Accounts ∧
    db.Insert [97] (List.replicate 4096 0) = some (db',none) ∧ ¬ db'.Accounts := by
  simp only [exists_and_left]
  exact exists_reach [.insert [98] [49]] (by decide +kernel)

/-- Outside of the path, the new blocks and the meta block, `Insert` changes nothing, and it
refuses what is too large for a block. -/
def DB.Contained (db : DB) (key val : Bytes) : Prop :=
  ∃ path db' err, db.searchPath db.nusedBlocks db.rootBlockId key = some path ∧ db.Insert key val = some (db',err) ∧
    (∀ b, b ≠ 0 → ¬ Touched path db db' b → db'.blocks b = db.blocks b ∧ SameBlock b db.mem.mmap db'.mem.mmap) ∧
    (blockSize < size key ∨ blockSize < size val → err ≠ none)

section
variable {d m : Nat} {db : DB} {key val : Bytes}

lemma Subtree.entry_le (tree : Subtree db m h lo hi v) : ∀ e ∈ v.entries, size e.1+size e.2 ≤ blockSize := by
  induction h generalizing lo hi v with
  | zero =>
    obtain ⟨node,es,rfl,leaf⟩ := tree
    intro e (member : e ∈ es)
    have keys := size_le_total (List.mem_map_of_mem (f := Prod.fst) member)
    have vals := size_le_total (List.mem_map_of_mem (f := Prod.snd) member)
    have actual := leaf.holds.body.actual
    have low := leaf.holds.body.low
    have high := leaf.holds.body.high
    omega
  | succ h ih =>
    obtain ⟨node,ks,cs,rfl,row⟩ := tree
    intro e member
    obtain ⟨c,inside,member⟩ := mem_flatMap.mp member
    obtain ⟨_,_,child,_⟩ := row.fenced.mem inside
    exact ih child e member

/-- While every operation finds its room, an insertion changes nothing outside of the blocks
on the path of its key and of its new nodes, and refuses what is too large for a block. -/
theorem insert_contained (large : 2 ≤ d) (table : blockMagic.length+DB.tableSize d true ≤ blockSize)
    (reached : Reach (fun db => DB.createDB d = some db) (ok m) next db) (fits : ok m db (.insert key val)) :
    db.Contained key val := by
  obtain ⟨h,v,stores⟩ := reach_stores large table db reached
  obtain ⟨path,sought,refused | ⟨db',h',v',done,stores',entries,same⟩⟩ := stores.insert large fits
  · exact ⟨path,db,_,sought,refused,fun b _ _ => ⟨rfl,rfl,fun _ _ _ => rfl⟩,by simp⟩
  · refine ⟨path,db',none,sought,done,fun b _ out => same b out,fun oversized => ?_⟩
    have member : (key,val) ∈ v'.entries := entries ▸ (mem_setEntry_iff stores.tree.ordered.1).mpr (.inl rfl)
    have fitted : size key+size val ≤ blockSize := stores'.tree.entry_le _ member
    omega

theorem insert_contained_split : ∃ db, Reach (fun db => DB.createDB 3 = some db) (ok 2) next db ∧
    ok 2 db (.insert [100] [52]) ∧ db.Contained [100] [52] := by
  obtain ⟨db,reached,fits⟩ : ∃ db, Reach (fun db => DB.createDB 3 = some db) (ok 2) next db ∧
      ok 2 db (.insert [100] [52]) :=
    exists_reach [.insert [97] [49],.insert [98] [50],.insert [99] [51]] (by decide +kernel)
  exact ⟨db,reached,fits,insert_contained (by decide) (by decide) reached fits⟩

lemma insertValInPos_wraps {node : Node} {mem : Mem} {i : Nat} (wraps : calcRequiredMemSerialized val = 0)
    (high : node.unusedMemOffset ≤ blockSize) (room : node.unusedMemOffset+node.blockId*blockSize+size val ≤ mem.mmap.size)
    (slot : i < node.valPtrArr.length) :
    ∃ node', node.insertValInPos mem i val =
      some (node',{ mem with mmap := mem.mmap.write (node.unusedMemOffset+node.blockId*blockSize) (serialize val) },true) := by
  have enough : node.spaceIsEnough mem 0 = some (node,mem,true) := if_pos high
  have written := putByteSlice_eq room
  simp only [Node.insertValInPos,wraps,enough,Node.appendToFreeMem,written,Node.setValPtr,put,if_pos slot,if_true,
    some_bind,Option.pure_def]
  exact ⟨_,rfl⟩

lemma insertKVInLeaf_wraps {node : Node} {i old : Nat} (wraps : calcRequiredMemSerialized val = 0)
    (high : node.unusedMemOffset ≤ blockSize) (room : node.unusedMemOffset+node.blockId*blockSize+size val ≤ db.mem.mmap.size)
    (slot : i < node.valPtrArr.length) (sought : node.seek db.mem (fun k => k = key || key < k) 0 node.nkeys = some i)
    (found : i < node.nkeys ∧ node.getKey db.mem i = some key) (stored : node.getValSize db.mem i = some old) :
    ∃ db', db.insertKVInLeaf node key val = some (db',.ok none) ∧
      db'.mem.mmap = db.mem.mmap.write (node.unusedMemOffset+node.blockId*blockSize) (serialize val) := by
  obtain ⟨node',inserted⟩ := insertValInPos_wraps wraps high room slot
  simp only [DB.insertKVInLeaf,sought,some_bind,if_pos found,Node.updateVal,stored,inserted,if_true,
    Option.pure_def]
  exact ⟨_,rfl,rfl⟩

/-- The new value of a key is written over the blocks behind its leaf, the next leaf among them. -/
theorem insert_beyond_block : ∃ db db', Reach (fun db => DB.createDB 3 = some db) anyStep next db ∧
    db.searchPath db.nusedBlocks db.rootBlockId [97] = some [3,1] ∧ db.nusedBlocks = 4 ∧
    db.Insert [97] (List.replicate 65533 1) = some (db',none) ∧ ¬ SameBlock 2 db.mem.mmap db'.mem.mmap ∧
    ¬ db.Contained [97] (List.replicate 65533 1) := by
  generalize given : (List.replicate 65533 1 : Bytes) = val
  have count : val.length = 65533 := by rw [← given,length_replicate]
  have ones : ∀ i < 65533, val[i]? = some 1 := by
    intro i less
    rw [← given,getElem?_replicate,if_pos less]
  obtain ⟨db,reached,used,top,path,file,magic,above,below⟩ : ∃ db, Reach (fun db => DB.createDB 3 = some db) anyStep next db ∧
      db.nusedBlocks = 4 ∧ db.rootBlockId = 3 ∧ db.searchPath 4 3 [97] = some [3,1] ∧ db.mem.mmap.size = dbSize ∧
      db.mem.mmap.byte (2*blockSize) = 66 ∧
      (∃ root, db.loadNode 3 = some root ∧ root.isLeaf = false ∧ root.seek db.mem (fun k => [97] < k) 0 root.nkeys = some 0 ∧
        root.getChildBlockId 0 = some 1) ∧
      ∃ leaf, db.loadNode 1 = some leaf ∧ leaf.isLeaf = true ∧ leaf.blockId = 1 ∧ leaf.unusedMemOffset = 84 ∧
        0 < leaf.valPtrArr.length ∧ leaf.seek db.mem (fun k => k = [97] || [97] < k) 0 leaf.nkeys = some 0 ∧
        (0 < leaf.nkeys ∧ leaf.getKey db.mem 0 = some [97]) ∧ leaf.getValSize db.mem 0 = some 2 :=
    exists_reach [.insert [97] [49],.insert [98] [50],.insert [99] [51]] (by decide +kernel)
  obtain ⟨root,loadRoot,internal,index,read⟩ := above
  obtain ⟨leaf,loadLeaf,kind,block,offset,slot,sought,found,stored⟩ := below
  have length : size val = 65536 := by
    rw [size,serialize,length_append,count]
    rfl
  have wraps : calcRequiredMemSerialized val = 0 := by
    rw [calcRequiredMemSerialized,count]
    rfl
  obtain ⟨db',inserted,written⟩ := insertKVInLeaf_wraps wraps (by rw [offset]; decide)
    (by rw [offset,block,length,file]; decide) slot sought found stored
  have down : db.insert (2+1) 1 [97] val = some (db',.ok none) := by
    rw [DB.insert]
    simp only [loadLeaf,kind,if_true,some_bind,inserted]
  have whole : db.insert (3+1) 3 [97] val = some (db',.ok none) := by
    rw [DB.insert]
    simp only [loadRoot,internal,if_ff,index,read,some_bind]
    rw [down]
    rfl
  have done : db.Insert [97] val = some (db',none) := by
    rw [DB.Insert,used,top,whole]
    rfl
  refine ⟨db,db',reached,by rw [used,top]; exact path,used,done,fun same => ?_,?_⟩
  · have kept := same.2 (2*blockSize) le_rfl (by decide)
    have inside : 84+1*blockSize ≤ 2*blockSize ∧ 2*blockSize < 84+1*blockSize+(serialize val).length := by
      rw [← size,length]
      decide
    have written' : (serialize val)[2*blockSize-(84+1*blockSize)]? = some 1 := by
      rw [serialize,count,getElem?_append_right (by decide)]
      exact ones _ (by decide)
    rw [written,magic,offset,block,File.write] at kept
    simp only [if_pos inside,getD_eq_getElem?_getD,written',getD_some] at kept
    exact absurd kept (by decide)
  · rintro ⟨_,_,err,_,again,_,refused⟩
    obtain ⟨_,rfl⟩ := Prod.mk.inj (some.inj (done.symm.trans again))
    exact refused (.inr (by rw [length]; decide)) rfl

end
end CodeExercise.BTreeMmap
