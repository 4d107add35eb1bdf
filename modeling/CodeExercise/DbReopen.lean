import CodeExercise.DbRefines

/-!
The hash lists in the index file. In every state each list ends, its keys belong to it
and are different, the extents of the nodes and of the free links are disjoint and behind
the table of heads, and the table has the heads (`chains_well_formed`).
-/
namespace CodeExercise.Db
open Files SortedMaps Extents Runs List Option

/-- The links that the loop of `DList::Find` follows, with the nodes behind them. -/
def linksFrom (idx : File) : Nat → Link → Option (List (Link × Node))
  | 0,_ => none
  | fuel+1,l =>
    if l.isNull then some []
    else (nodeRead idx l).bind (fun np => (linksFrom idx fuel np.next).map ((l,np)::·))

def DB.links (s : DB) (h : Nat) : Option (List (Link × Node)) := linksFrom s.idx.file (s.idx.file.size+1) (s.heads h)

/-- The extents of the nodes of all lists and of all entries of `free_node_`. -/
def DB.nodeExtents (s : DB) : List Extent :=
  (List.range hashTableSize).flatMap (fun h => ((s.links h).getD []).map (fun p => p.1.extent)) ++
    s.freeNode.values.map Link.extent

/-- `HeadRead` of a list. -/
def headRead (idx : File) (h : Nat) : Option Link := (idx.read (h*linkSize) linkSize).map Link.decode

/-- A list that ends, without a link twice. -/
structure WellFormed (s : DB) (h : Nat) (list : List (Link × Node)) : Prop where
  ends : s.links h = some list
  acyclic : (list.map Prod.fst).Nodup
  placed : ∀ p ∈ list, bucket p.2.key = some h
  keys : (list.map (fun p => p.2.key)).Nodup

def plainKey (_ : DB) (op : Op) : Prop := Plain op.key
deriving Decidable

def linksOf : List Entry → List (Link × Node)
  | [] => []
  | e::es => (e.link,e.node es) :: linksOf es

lemma linksFrom_stored (stored : Stored f es)
    (readable : ∀ e ∈ es, e.Readable f) (enough : es.length < fuel) :
    linksFrom f fuel (headLink es) = some (linksOf es) := by
  induction es generalizing fuel with
  | nil =>
    cases fuel with
    | zero => simp at enough
    | succ fuel => rfl
  | cons e es ih =>
    cases fuel with
    | zero => simp at enough
    | succ fuel =>
      have null := isNull_headLink_cons readable
      have tail := ih stored.2 (fun x mem => readable x (mem_cons_of_mem _ mem)) (by simpa using enough)
      simp only [headLink] at null
      simp only [linksFrom,headLink,null,if_ff,nodeRead_stored stored readable,bind_some]
      simp [Entry.node,tail,linksOf]

lemma map_fst_linksOf (es : List Entry) : (linksOf es).map Prod.fst = es.map Entry.link := by
  induction es with
  | nil => rfl
  | cons e es ih => simp [linksOf,ih]

lemma map_key_linksOf (es : List Entry) : (linksOf es).map (fun p => p.2.key) = es.map Entry.key := by
  induction es with
  | nil => rfl
  | cons e es ih => simp [linksOf,Entry.node,ih]

section
variable {s : DB} {live : List Entry} {h : Nat}

lemma Layout.links_eq (layout : Layout s live) (inside : h < hashTableSize) :
    s.links h = some (linksOf (chain live h)) := by
  rw [DB.links,layout.index.head h inside]
  exact linksFrom_stored (layout.index.stored h) (fun e mem => layout.readable e (mem_chain.mp mem).1)
    (layout.chain_length h)

lemma Layout.nodup_links (layout : Layout s live) : (live.map Entry.link).Nodup := by
  refine pairwise_map.mpr (layout.pairwise.imp_of_mem ?_)
  intro a b left _ apart same
  have some := layout.nonempty left
  exact apart a.link.offset ⟨le_rfl,Nat.lt_add_of_pos_right some⟩ (same ▸ ⟨le_rfl,Nat.lt_add_of_pos_right some⟩)

lemma Layout.nodeExtents_perm (layout : Layout s live) :
    s.nodeExtents.Perm (extents (live.map Entry.link) s.freeNode) := by
  have lists : (List.range hashTableSize).flatMap (fun h => ((s.links h).getD []).map (fun p => p.1.extent)) =
      ((List.range hashTableSize).flatMap (chain live)).map (fun e => e.link.extent) := by
    rw [map_flatMap]
    refine flatMap_congr fun h mem => ?_
    have same := congrArg (List.map Link.extent) (map_fst_linksOf (chain live h))
    rw [List.map_map,List.map_map] at same
    rwa [layout.links_eq (mem_range.mp mem),getD_some]
  unfold DB.nodeExtents extents
  rw [lists,map_append,List.map_map]
  exact ((flatMap_chain_perm (fun e mem => (layout.keys e mem).2)).map _).append_right _

lemma Effect.nodup_keys (effect : Effect s live op r s' live') (plain : Plain op.key) (keys : (live.map Entry.key).Nodup) :
    (live'.map Entry.key).Nodup := by
  cases effect with
  | addPresent | setAbsent | delAbsent | getCached | getAbsent | get => exact keys
  | add fresh named =>
    rw [map_cons,nodup_cons]
    refine ⟨fun mem => ?_,keys⟩
    obtain ⟨x,inside,same⟩ := List.mem_map.mp mem
    exact fresh x inside (by rw [same,named]; exact cStr_of_plain plain)
  | setInPlace split => simpa [split] using keys
  | setMoved split => simpa [split] using keys
  | del split =>
    rw [split] at keys
    exact keys.sublist (((sublist_cons_self _ _).append_left _).map _)

lemma reach_nodup_keys : ∀ s, Reach (fun s => DB.create = some s) plainKey DB.next s →
    ∃ live, Layout s live ∧ (live.map Entry.key).Nodup := by
  apply Reach.invariant
  · intro s created
    rw [create_eq] at created
    cases created
    exact ⟨[],layout_fresh,nodup_nil⟩
  · rintro s op s' ⟨live,layout,keys⟩ plain moved
    obtain ⟨⟨r,after⟩,ran,rfl⟩ := map_eq_some_iff.mp moved
    obtain ⟨live',layout',effect⟩ := step_effect layout ran
    exact ⟨live',layout',effect.nodup_keys plain keys⟩

lemma Layout.wellFormed (layout : Layout s live) (keys : (live.map Entry.key).Nodup) (inside : h < hashTableSize) :
    WellFormed s h (linksOf (chain live h)) := by
  have part : (chain live h).Sublist live := filter_sublist
  refine ⟨layout.links_eq inside,?_,?_,?_⟩
  · rw [map_fst_linksOf]
    exact layout.nodup_links.sublist (part.map _)
  · intro p mem
    have key : p.2.key ∈ (chain live h).map Entry.key := by
      rw [← map_key_linksOf]
      exact List.mem_map_of_mem (f := fun p => p.2.key) mem
    obtain ⟨e,there,same⟩ := List.mem_map.mp key
    rw [← same]
    exact (mem_chain.mp there).2
  · rw [map_key_linksOf]
    exact keys.sublist (part.map _)

lemma Layout.headRead_eq (layout : Layout s live) (inside : h < hashTableSize) :
    headRead s.idx.file h = some (s.heads h) := by
  have small : (s.heads h).Small := by
    rw [layout.index.head h inside]
    exact headLink_small fun e mem => layout.readable e (mem_chain.mp mem).1
  have table := layout.table
  have room : h*linkSize+linkSize ≤ tableSize := by
    simp only [tableSize,hashTableSize,linkSize] at *
    omega
  rw [headRead,read_eq_some (room.trans table),layout.index.disk h inside,map_some]
  simpa using Link.decode_encode small []

end

/-- The lists are well formed in every state that operations with plain keys reach. -/
theorem chains_well_formed {s : DB} (reached : Reach (fun s => DB.create = some s) plainKey DB.next s) :
    (∀ h, h < hashTableSize → ∃ list, WellFormed s h list) ∧ Separated s.nodeExtents ∧
      (∀ e ∈ s.nodeExtents, tableSize ≤ e.offset) ∧ ∀ h, h < hashTableSize → headRead s.idx.file h = some (s.heads h) := by
  obtain ⟨live,layout,keys⟩ := reach_nodup_keys s reached
  refine ⟨fun h inside => ⟨_,layout.wellFormed keys inside⟩,
    layout.nodes.separated.perm layout.nodeExtents_perm.symm,?_,fun h inside => layout.headRead_eq inside⟩
  intro e mem
  obtain ⟨l,used,rfl⟩ := List.mem_map.mp (layout.nodeExtents_perm.mem_iff.mp mem)
  exact (layout.nodes.fits l used).2

/-- Two keys of one list; the first is deleted and its node used again. -/
def relinked : List Op := [.add [97] [1],.add [1,66] [2],.del [97],.add [97] [3]]

theorem chains_well_formed_relinked : ∃ s, run DB.next DB.fresh relinked = some s ∧
    (s.links 97).map (List.map (fun p => (p.1.offset,p.2.key))) = some [(119832,[97]),(119886,[1,66])] ∧
    (∃ list, WellFormed s 97 list) ∧ Separated s.nodeExtents := by
  obtain ⟨s,ran,links⟩ : ∃ s, run DB.next DB.fresh relinked = some s ∧
      (s.links 97).map (List.map (fun p => (p.1.offset,p.2.key))) = some [(119832,[97]),(119886,[1,66])] := by decide +kernel
  have reached : Reach (fun s => DB.create = some s) plainKey DB.next s :=
    Reach.run relinked (.start create_eq) (by decide +kernel) ran
  obtain ⟨lists,separated,_⟩ := chains_well_formed reached
  exact ⟨s,ran,links,lists 97 (by decide),separated⟩

/-- `Link::Write` of several links. -/
def writeLinks : Fd → List Link → Option Fd
  | fd,[] => some fd
  | fd,l::links => (fd.write l.encode).bind (fun fd => writeLinks fd links)

/-- `DB::WriteFreeMaps`; the file is not truncated when there is one. -/
def DB.writeFreeMaps (s : DB) (old : File) : Option Fd :=
  (Fd.write ⟨old,0,[]⟩ (intBytes s.freeNode.entries.length)).bind (fun fd =>
    (fd.write (intBytes s.freeData.entries.length)).bind (fun fd =>
      (writeLinks fd s.freeNode.values).bind (fun fd => writeLinks fd s.freeData.values)))

/-- A loop of `DB::InitFreeMaps`. -/
def readLinks (free : File) : Nat → Nat → FreeMap → Option (Nat × FreeMap)
  | 0,pos,m => some (pos,m)
  | n+1,pos,m => do
    let l := Link.decode (← free.read pos linkSize)
    readLinks free n (pos+linkSize) (m.set l.totalSize l)

def initFreeMaps (free : File) : Option (FreeMap × FreeMap) := do
  let nFreeNode := intOf (← free.read 0 4)
  let nFreeData := intOf (← free.read 4 4)
  let (pos,freeNode) ← readLinks free nFreeNode.toNat 8 .empty
  let (_,freeData) ← readLinks free nFreeData.toNat pos .empty
  return (freeNode,freeData)

/-- The heads of the first lists. -/
def readHeads (idx : File) : Nat → Option (Nat → Link)
  | 0 => some (fun _ => .null)
  | n+1 => (readHeads idx n).bind (fun heads => (headRead idx n).map (fun l => Function.update heads n l))

/-- `DB::Open` of a database that exists. -/
def DB.open (idx data free : File) : Option DB :=
  (initFreeMaps free).bind (fun maps => (readHeads idx hashTableSize).map (fun heads =>
    ⟨⟨idx,0,[]⟩,⟨data,0,[]⟩,heads,maps.1,maps.2,[]⟩))

/-- `DB::Close`, and `DB::Open` by another `DB`. -/
def DB.reopen (s : DB) (old : File) : Option DB :=
  (s.writeFreeMaps old).bind (fun fd => DB.open s.idx.file s.data.file fd.file)

section
variable {s : DB} {fd fd' : Fd} {f : File} {links : List Link}

/-- The bytes are written at the position. -/
def Fd.Wrote (fd : Fd) (data : Bytes) (fd' : Fd) : Prop :=
  fd'.file = fd.file.write fd.pos data ∧ fd'.pos = fd.pos+data.length

lemma Fd.Wrote.trans (first : fd.Wrote a fd₁) (second : fd₁.Wrote b fd₂) : fd.Wrote (a++b) fd₂ := by
  refine ⟨?_,?_⟩
  · rw [second.1,first.1,first.2,write_append]
  · rw [second.2,first.2,length_append,Nat.add_assoc]

lemma Fd.wrote (written : fd.write data = some fd') : fd.Wrote data fd' := by
  obtain ⟨_,rfl⟩ := Fd.write_eq_some.mp written
  exact ⟨rfl,rfl⟩

lemma writeLinks_wrote (written : writeLinks fd links = some fd') : fd.Wrote (links.flatMap Link.encode) fd' := by
  induction links generalizing fd with
  | nil =>
    cases written
    exact ⟨(write_nil _ _).symm,rfl⟩
  | cons l links ih =>
    obtain ⟨fd₁,first,rest⟩ := bind_eq_some_iff.mp written
    exact (Fd.wrote first).trans (ih rest)

lemma exists_writeLinks (fd : Fd) (links : List Link) (room : fd.pos+(links.flatMap Link.encode).length < 2^63) : ∃ fd', writeLinks fd links = some fd' := by
  induction links generalizing fd with
  | nil => exact ⟨fd,rfl⟩
  | cons l links ih =>
    rw [flatMap_cons,length_append] at room
    obtain ⟨fd₁,first⟩ := Fd.exists_write fd l.encode (by omega)
    have pos := (Fd.wrote first).2
    obtain ⟨fd₂,rest⟩ := ih fd₁ (by omega)
    exact ⟨fd₂,by rw [writeLinks,first,bind_some,rest]⟩

/-- What `WriteFreeMaps` writes. -/
def DB.freeBytes (s : DB) : Bytes :=
  intBytes s.freeNode.entries.length ++ (intBytes s.freeData.entries.length ++ (s.freeNode.values.flatMap Link.encode ++
    s.freeData.values.flatMap Link.encode))

lemma writeFreeMaps_file (written : s.writeFreeMaps old = some fd) : fd.file = old.write 0 s.freeBytes := by
  obtain ⟨fd₁,first,rest⟩ := bind_eq_some_iff.mp written
  obtain ⟨fd₂,second,rest⟩ := bind_eq_some_iff.mp rest
  obtain ⟨fd₃,third,fourth⟩ := bind_eq_some_iff.mp rest
  exact ((Fd.wrote first).trans ((Fd.wrote second).trans ((writeLinks_wrote third).trans (writeLinks_wrote fourth)))).1

lemma length_flatMap_encode (links : List Link) : (links.flatMap Link.encode).length = links.length*linkSize := by
  simp [length_flatMap]

lemma exists_writeFreeMaps (old : File) (nodes : s.freeNode.entries.length < 2^31) (data : s.freeData.entries.length < 2^31) :
    ∃ fd, s.writeFreeMaps old = some fd := by
  have lengths : s.freeNode.values.length = s.freeNode.entries.length ∧ s.freeData.values.length = s.freeData.entries.length := by
    simp [SortedMap.values]
  obtain ⟨fd₁,first⟩ := Fd.exists_write ⟨old,0,[]⟩ (intBytes s.freeNode.entries.length) (by simp)
  have pos₁ := (Fd.wrote first).2
  obtain ⟨fd₂,second⟩ := Fd.exists_write fd₁ (intBytes s.freeData.entries.length) (by simp [pos₁])
  have pos₂ := (Fd.wrote second).2
  simp only [length_intBytes] at pos₁ pos₂
  obtain ⟨fd₃,third⟩ := exists_writeLinks fd₂ s.freeNode.values (by
    rw [length_flatMap_encode]
    simp only [linkSize]
    omega)
  have pos₃ := (writeLinks_wrote third).2
  rw [length_flatMap_encode] at pos₃
  obtain ⟨fd₄,fourth⟩ := exists_writeLinks fd₃ s.freeData.values (by
    rw [length_flatMap_encode]
    simp only [linkSize] at pos₃ ⊢
    omega)
  exact ⟨fd₄,by simp only [DB.writeFreeMaps,first,second,third,fourth,bind_some]⟩

lemma readLinks_eq (bytes : f.slice pos (links.length*linkSize) = links.flatMap Link.encode)
    (inside : pos+links.length*linkSize ≤ f.size) (small : ∀ l ∈ links, l.Small) :
    readLinks f links.length pos m =
      some (pos+links.length*linkSize,m.setAll (links.map (fun l => (l.totalSize,l)))) := by
  induction links generalizing pos m with
  | nil => simp [readLinks,SortedMap.setAll]
  | cons l links ih =>
    rw [length_cons,Nat.add_mul,Nat.one_mul] at inside
    rw [length_cons,Nat.add_mul,Nat.one_mul,Nat.add_comm,slice_add,flatMap_cons] at bytes
    obtain ⟨first,rest⟩ := append_inj bytes (by simp)
    have read : f.read pos linkSize = some l.encode := by rw [read_eq_some (by omega),first]
    have decoded : Link.decode l.encode = l := by simpa using Link.decode_encode (small l (by simp)) []
    simp only [length_cons,readLinks,read,bind_eq_bind,bind_some,decoded]
    rw [ih rest (by omega) (fun x mem => small x (mem_cons_of_mem _ mem))]
    simp [SortedMap.setAll,Nat.add_mul,Nat.add_assoc,Nat.add_comm]

lemma readLinks_length (read : readLinks f n pos m = some (pos',m')) :
    m'.entries.length ≤ m.entries.length+n := by
  induction n generalizing pos m with
  | zero =>
    cases read
    rfl
  | succ n ih =>
    obtain ⟨buf,_,rest⟩ := bind_eq_some_iff.mp read
    have more := ih rest
    have one := (setEntry_subperm (Link.decode buf).totalSize (Link.decode buf) m.entries).length_le
    simp only [SortedMap.set,length_cons] at more one
    omega

lemma Space.values_eq (space : Space P fd used free) :
    free.values.map (fun l => (l.totalSize,l)) = free.entries := by
  rw [SortedMap.values,List.map_map]
  conv_rhs => rw [← List.map_id free.entries]
  refine map_congr_left fun p mem => ?_
  rw [Function.comp_apply,← space.keyed p mem]
  rfl

lemma Space.small_free (space : Space P fd used free)
    (sized : ∀ l, P l → l.size ≤ l.totalSize) : ∀ l ∈ free.values, l.Small := by
  intro l mem
  have bound := space.small
  have inside : l.offset+l.totalSize ≤ fd.file.size :=
    space.below l.extent (List.mem_map_of_mem (mem_append_right _ mem))
  have size := sized l (space.fits l (mem_append_right _ mem))
  constructor <;> omega

/-- The parts of the file that `WriteFreeMaps` wrote. -/
structure FreeFile (s : DB) (f : File) : Prop where
  nodes : f.read 0 4 = some (intBytes s.freeNode.entries.length)
  data : f.read 4 4 = some (intBytes s.freeData.entries.length)
  nodeLinks : f.slice 8 (s.freeNode.values.length*linkSize) = s.freeNode.values.flatMap Link.encode
  dataLinks : f.slice (8+s.freeNode.values.length*linkSize) (s.freeData.values.length*linkSize) =
    s.freeData.values.flatMap Link.encode
  size : 8+s.freeNode.values.length*linkSize+s.freeData.values.length*linkSize ≤ f.size

lemma freeFile_write (s : DB) (old : File) : FreeFile s (old.write 0 s.freeBytes) := by
  have all := slice_write_self old 0 s.freeBytes
  have size : (old.write 0 s.freeBytes).size = _ := size_write (Nat.zero_le _)
  have length : s.freeBytes.length = 4+(4+(s.freeNode.values.length*linkSize+s.freeData.values.length*linkSize)) := by
    simp only [DB.freeBytes,length_append,length_intBytes,length_flatMap_encode]
  generalize old.write 0 s.freeBytes = f at all size
  rw [length,slice_add,slice_add,slice_add] at all
  obtain ⟨nodes,all⟩ := append_inj all (by simp)
  obtain ⟨data,all⟩ := append_inj all (by simp)
  obtain ⟨nodeLinks,dataLinks⟩ := append_inj all (by simp)
  exact ⟨by rw [read_eq_some (by omega),nodes],by rw [read_eq_some (by omega),← data],nodeLinks,dataLinks,by omega⟩

lemma intOf_length {n : Nat} (small : n < 2^31) : (intOf (intBytes n)).toNat = n := by
  rw [intOf_intBytes (by omega) (by omega)]
  rfl

/-- A length that is no `int` is read as less. -/
lemma intOf_length_lt {n : Nat} (large : 2^31 ≤ n) : (intOf (intBytes n)).toNat < n := by
  have value : ofLE (intBytes n) = ((n : Int)%2^32).toNat := by
    rw [intBytes,ofLE_toLE_of_lt]
    omega
  rw [intOf,value]
  split <;> omega

lemma FreeFile.init (file : FreeFile s f) (layout : Layout s live)
    (nodes : s.freeNode.entries.length < 2^31) (data : s.freeData.entries.length < 2^31) :
    initFreeMaps f = some (s.freeNode,s.freeData) := by
  have length : ∀ m : FreeMap, m.entries.length = m.values.length := by simp [SortedMap.values]
  have size := file.size
  rw [length] at nodes data
  have first := readLinks_eq (m := .empty) file.nodeLinks (by omega)
    (layout.nodes.small_free (fun l node => node.1.le))
  have second := readLinks_eq (m := .empty) file.dataLinks (by omega) (layout.values.small_free (fun l value => value))
  rw [layout.nodes.values_eq,setAll_empty] at first
  rw [layout.values.values_eq,setAll_empty] at second
  simp only [initFreeMaps,file.nodes,file.data,bind_eq_bind,bind_some,intOf_length nodes,intOf_length data,length,first,second]
  rfl

lemma FreeFile.small (file : FreeFile s f) (same : initFreeMaps f = some (s.freeNode,s.freeData)) :
    s.freeNode.entries.length < 2^31 ∧ s.freeData.entries.length < 2^31 := by
  simp only [initFreeMaps,file.nodes,file.data,bind_eq_bind,bind_some] at same
  obtain ⟨⟨pos,m⟩,first,same⟩ := bind_eq_some_iff.mp same
  obtain ⟨⟨pos',m'⟩,second,same⟩ := bind_eq_some_iff.mp same
  cases same
  have nodes := readLinks_length first
  have data := readLinks_length second
  simp only [SortedMap.empty,length_nil,Nat.zero_add] at nodes data
  constructor
  · by_contra large
    exact absurd nodes (not_le.mpr (intOf_length_lt (by omega)))
  · by_contra large
    exact absurd data (not_le.mpr (intOf_length_lt (by omega)))

/-- The maps and the heads are as they were. -/
def Restored (s s' : DB) : Prop :=
  s'.freeNode = s.freeNode ∧ s'.freeData = s.freeData ∧ ∀ h, h < hashTableSize → s'.heads h = s.heads h

lemma exists_readHeads {heads : Nat → Link} (read : ∀ h, h < n → headRead f h = some (heads h)) :
    ∃ heads', readHeads f n = some heads' ∧ ∀ h, h < n → heads' h = heads h := by
  induction n with
  | zero => exact ⟨_,rfl,by simp⟩
  | succ n ih =>
    obtain ⟨before,some,same⟩ := ih (fun h inside => read h (by omega))
    refine ⟨Function.update before n (heads n),by simp [readHeads,some,read n (by omega)],fun h inside => ?_⟩
    by_cases last : h = n
    · rw [last,Function.update_self]
    · rw [Function.update_of_ne last,same h (by omega)]

lemma Layout.restored_iff (layout : Layout s live) (old : File) :
    (∃ s', s.reopen old = some s' ∧ Restored s s') ↔ s.freeNode.entries.length < 2^31 ∧ s.freeData.entries.length < 2^31 := by
  constructor
  · rintro ⟨s',reopened,nodes,data,_⟩
    obtain ⟨fd,written,reopened⟩ := bind_eq_some_iff.mp reopened
    obtain ⟨maps,init,reopened⟩ := bind_eq_some_iff.mp reopened
    obtain ⟨heads,_,rfl⟩ := map_eq_some_iff.mp reopened
    rw [writeFreeMaps_file written] at init
    exact (freeFile_write s old).small (init.trans (by rw [← nodes,← data]))
  · rintro ⟨nodes,data⟩
    obtain ⟨fd,written⟩ := exists_writeFreeMaps old nodes data
    have init := (freeFile_write s old).init layout nodes data
    rw [← writeFreeMaps_file written] at init
    obtain ⟨heads,read,same⟩ := exists_readHeads (fun h inside => layout.headRead_eq inside)
    have reopened : s.reopen old = some ⟨⟨s.idx.file,0,[]⟩,⟨s.data.file,0,[]⟩,heads,s.freeNode,s.freeData,[]⟩ := by
      simp only [DB.reopen,written,bind_some,DB.open,init,read,map_some]
    exact ⟨_,reopened,rfl,rfl,same⟩

end

/-- A closed database comes back as it was exactly when the sizes of the maps fit an `int`. -/
theorem reopen_iff {s : DB} (reached : Reach (fun s => DB.create = some s) anyStep DB.next s) (old : File) :
    (∃ s', s.reopen old = some s' ∧ Restored s s') ↔ s.freeNode.entries.length < 2^31 ∧ s.freeData.entries.length < 2^31 := by
  obtain ⟨live,layout⟩ := reach_layout s reached
  exact layout.restored_iff old

theorem reopen_iff_relinked : ∃ s, run DB.next DB.fresh relinked = some s ∧
    ∃ s', s.reopen (.zeros 0) = some s' ∧ Restored s s' := by
  obtain ⟨s,ran,small⟩ : ∃ s, run DB.next DB.fresh relinked = some s ∧ s.freeNode.entries.length < 2^31 ∧
      s.freeData.entries.length < 2^31 := by decide +kernel
  have reached : Reach (fun s => DB.create = some s) anyStep DB.next s :=
    Reach.run relinked (.start create_eq) (meets_anyStep _ _) ran
  exact ⟨s,ran,(reopen_iff reached _).mpr small⟩

section
variable {s s' : DB} {h : Nat} {key val : Bytes}

lemma headWrite_size (small : h < hashTableSize) (table : tableSize ≤ s.idx.file.size) (written : s.headWrite h = some s') :
    s'.idx.file.size = s.idx.file.size ∧ s'.freeData = s.freeData ∧ s'.data = s.data := by
  obtain ⟨idx,wrote,rfl⟩ := map_eq_some_iff.mp written
  obtain ⟨_,rfl⟩ := Fd.write_eq_some.mp wrote
  have room : h*linkSize+linkSize ≤ tableSize := by
    simp only [tableSize,hashTableSize,linkSize] at *
    omega
  refine ⟨?_,rfl,rfl⟩
  simp only [Fd.lseek]
  rw [size_write (by omega),Link.length_encode]
  omega

lemma addInternal_idx (layout : Layout s live) (place : bucket key = some h)
    (ran : s.addInternal h key val = some (r,s')) : s'.idx.file.size ≤ s.idx.file.size+(key.length+53) := by
  unfold DB.addInternal at ran
  rcases layout.find_cases place with ⟨fresh,found⟩ | ⟨newer,e,older,rfl,_,same,found⟩
  · simp only [found,bind_eq_bind,bind_some] at ran
    obtain ⟨⟨valLink,data,freeData⟩,valued,ran⟩ := bind_eq_some_iff.mp ran
    obtain ⟨rep,encoded,ran⟩ := bind_eq_some_iff.mp ran
    obtain ⟨⟨head,idx,freeNode⟩,allocated,ran⟩ := bind_eq_some_iff.mp ran
    obtain ⟨s'',written,ran⟩ := bind_eq_some_iff.mp ran
    cases ran
    have near := layout.nodes.offset_le allocated
    have wrote := (findRooMAndWrite_cases allocated).1
    have grows := Fd.size_le_write wrote
    have size := (headWrite_size (bucket_lt place) (layout.table.trans (show s.idx.file.size ≤ idx.file.size from grows)) written).1
    obtain ⟨_,rfl⟩ := Fd.write_eq_some.mp wrote
    simp only [Fd.lseek] at size
    rw [size_write near,Node.length_encode encoded] at size
    have cut : (cStr key).length ≤ key.length := (takeWhile_sublist _).length_le
    simp only [Node.size,linkSize] at size
    omega
  · simp only [found,bind_eq_bind,bind_some] at ran
    cases ran
    omega

lemma add_appends (val : Bytes) (layout : Layout s []) (place : bucket key = some h) (key31 : key.length < 2^31)
    (index : s.idx.file.size+key.length+53 < 2^63) (data : s.data.file.size+val.length < 2^63)
    (new : ∀ p ∈ s.freeData.entries, p.1 < val.length) :
    ∃ s' e, s.next (.add key val) = some s' ∧ Layout s' [e] ∧ e.key = cStr key ∧ e.val.totalSize = val.length ∧
      s'.freeData = s.freeData ∧ s'.data.file.size = s.data.file.size+val.length ∧
      s'.idx.file.size ≤ s.idx.file.size+(key.length+53) := by
  have forgot := layout.cache (s.cache.del key)
  obtain ⟨⟨r,s'⟩,ran⟩ := exists_addInternal forgot place key31 index data
  have size := addInternal_idx forgot place ran
  rcases addInternal_cases forgot place ran with ⟨_,_,e,mem,_⟩ | ⟨rfl,_,e,named,layout',_,allocated⟩
  · cases mem
  · obtain ⟨wrote,⟨size,found,_⟩ | ⟨_,link,free⟩⟩ := findRooMAndWrite_cases allocated
    · exact absurd (new _ (lowerBound_mem found)) (not_lt.mpr (lowerBound_le found))
    · refine ⟨s',e,by simp [DB.next,DB.step,Op.key,place,ran],layout',named,by rw [link],free,?_,size⟩
      obtain ⟨_,written⟩ := Fd.write_eq_some.mp wrote
      rw [written,link]
      simp only [Fd.lseek]
      rw [size_write (le_refl _)]
      omega

lemma singleton_split (split : [e] = newer++e'::older) :
    newer = [] ∧ e' = e ∧ older = [] := by
  cases newer with
  | nil => simpa [eq_comm] using split
  | cons x newer => simp at split

lemma del_releases (layout : Layout s [e]) (place : bucket e.key = some h) :
    ∃ s', s.next (.del e.key) = some s' ∧ Layout s' [] ∧ s'.freeData = s.freeData.set e.val.totalSize e.val ∧
      s'.data = s.data ∧ s'.idx.file.size = s.idx.file.size := by
  have forgot := layout.cache (s.cache.del e.key)
  obtain ⟨⟨r,s'⟩,ran⟩ := exists_delInternal forgot place
  rcases delInternal_cases forgot place ran with ⟨_,_,fresh⟩ | ⟨_,newer,e',older,split,_,_,layout',_⟩
  · exact absurd rfl (fresh e (by simp))
  · obtain ⟨rfl,_,rfl⟩ := singleton_split split
    refine ⟨s',by simp [DB.next,DB.step,Op.key,place,ran],layout',?_⟩
    rcases forgot.find_cases place with ⟨fresh,_⟩ | ⟨newer,e',older,split,_,_,found⟩
    · exact absurd rfl (fresh e (by simp))
    · obtain ⟨rfl,rfl,rfl⟩ := singleton_split split
      simp only [DB.delInternal,found,bind_eq_bind,bind_some,chain,filter_nil,before] at ran
      obtain ⟨s₁,written,ran⟩ := bind_eq_some_iff.mp ran
      obtain ⟨size,free,data⟩ := headWrite_size (bucket_lt place) (by exact layout.table) written
      cases ran
      exact ⟨by simp only [free]; rfl,data,size⟩

end

/-- Values of all sizes below a number, one after the other under the same key. -/
lemma exists_many (n : Nat) (small : n ≤ 2^31) : ∃ s, Reach (fun s => DB.create = some s) anyStep DB.next s ∧ Layout s [] ∧
    (∀ p ∈ s.freeData.entries, p.1 < n) ∧ s.freeData.entries.length = n ∧ s.data.file.size ≤ n*2^31 ∧
    s.idx.file.size ≤ tableSize+54*n := by
  induction n with
  | zero => exact ⟨DB.fresh,.start create_eq,layout_fresh,by simp [DB.fresh,DB.started,SortedMap.empty],rfl,le_rfl,le_rfl⟩
  | succ n ih =>
    obtain ⟨s,reached,layout,below,count,data,index⟩ := ih (by omega)
    have place : bucket [97] = some 97 := by decide
    have table : tableSize = 119832 := rfl
    obtain ⟨s₁,e,added,layout₁,named,size,free₁,data₁,index₁⟩ := add_appends (List.replicate n 0) layout place (by decide)
      (by simp only [length_singleton]; omega) (by rw [length_replicate]; omega) (by simpa using below)
    rw [length_replicate] at size data₁
    obtain ⟨s₂,deleted,layout₂,free₂,data₂,index₂⟩ := del_releases layout₁ (h := 97) (by rw [named]; decide)
    refine ⟨s₂,.step (.step reached trivial added) trivial deleted,layout₂,?_,?_,?_,?_⟩
    · rw [free₂,free₁,size]
      intro p mem
      rcases mem_setEntry mem with rfl | old
      · exact Nat.lt_succ_self n
      · exact (below p old).trans (Nat.lt_succ_self n)
    · rw [free₂,free₁,size]
      have perm := setEntry_perm e.val (fun p mem => (below p mem).ne)
      have length := perm.length_eq
      rwa [length_cons,count] at length
    · rw [data₂,data₁]
      omega
    · simp only [length_singleton] at index₁
      omega

/-- With 2^31 free extents the map is lost. -/
theorem reopen_loses_maps : ∃ s, Reach (fun s => DB.create = some s) anyStep DB.next s ∧ s.freeData.entries.length = 2^31 ∧
    ¬ ∃ s', s.reopen (.zeros 0) = some s' ∧ Restored s s' := by
  obtain ⟨s,reached,layout,_,count,_⟩ := exists_many (2^31) le_rfl
  refine ⟨s,reached,count,fun restored => ?_⟩
  have small := ((layout.restored_iff _).mp restored).2
  omega

lemma hash_nonneg (ascii : ∀ b ∈ key, b.toNat < 128) : 0 ≤ hash key := by
  refine foldl_hash_nonneg (fun b mem => ?_) le_rfl
  have nonzero := mem_takeWhile_imp mem
  exact ⟨by simpa using nonzero,ascii b ((takeWhile_sublist _).subset mem)⟩

lemma hash_singleton (high : 128 ≤ b.toNat) : hash [b] < 0 := by
  have range := b.toNat_lt
  have nonzero : b ≠ 0 := by
    rintro rfl
    simp at high
  have value : char b = (b.toNat : Int)-256 := if_neg (by omega)
  simp only [hash,cStr,takeWhile_cons,nonzero,ne_eq,not_false_eq_true,decide_true,if_true,takeWhile_nil,foldl_cons,
    foldl_nil,value]
  have small : -(31*0+((b.toNat : Int)-256)) < hashTableSize := by
    simp only [hashTableSize]
    omega
  rw [← Int.neg_pos,← Int.neg_tmod,Int.tmod_eq_emod_of_nonneg (by omega),Int.emod_eq_of_lt (by omega) small]
  omega

/-- All keys over a set of bytes have an index in `list_arr_` exactly when these are ASCII. -/
theorem hash_in_table_iff (bytes : UInt8 → Prop) :
    (∀ op : Op, (∀ b ∈ op.key, bytes b) → 0 ≤ hash op.key ∧ hash op.key < hashTableSize ∧
      bucket op.key = some (hash op.key).toNat) ↔ ∀ b, bytes b → b.toNat < 128 := by
  constructor
  · intro inside b mem
    by_contra high
    have negative := hash_singleton (b := b) (by omega)
    have nonneg := (inside (.get [b]) (by simpa [Op.key] using mem)).1
    exact absurd nonneg (not_le.mpr negative)
  · intro ascii op key
    have nonneg := hash_nonneg (fun b mem => ascii b (key b mem))
    exact ⟨nonneg,foldl_hash_lt _ 0 (by decide),if_pos nonneg⟩

/-- The two bytes of a letter in UTF-8. -/
theorem hash_negative : hash [0xc3,0xa9] = -1978 ∧ bucket [0xc3,0xa9] = none := by decide

lemma cStr_eq_self_iff : cStr key = key ↔ 0 ∉ key := by
  rw [cStr,takeWhile_eq_self_iff]
  simp only [decide_eq_true_eq]
  exact ⟨fun all mem => all 0 mem rfl,fun absent b mem zero => absent (zero ▸ mem)⟩

lemma node_round_trip_iff (short : n.key.length < 2^31) (val : n.valLink.Small) (next : n.next.Small) :
    (∃ rep, n.encode = some rep ∧ rep.length = n.size ∧ Node.decode rep = some n) ↔ 0 ∉ n.key := by
  have cut : (cStr n.key).length ≤ n.key.length := (takeWhile_sublist _).length_le
  have encoded : n.encode = some n.rep := Node.encode_eq_some.mpr ⟨by omega,rfl⟩
  have decoded := Node.decode_encode encoded val next []
  rw [append_nil] at decoded
  rw [← cStr_eq_self_iff]
  constructor
  · rintro ⟨rep,encoded',_,same⟩
    rw [encoded] at encoded'
    rw [← some.inj encoded',decoded] at same
    exact congrArg Node.key (some.inj same)
  · intro whole
    refine ⟨n.rep,encoded,Node.length_rep n,?_⟩
    rw [decoded,whole]

lemma found_iff (layout : Layout s live)
    (place : bucket key = some h) (added : s.step (.add key val) = some (.done true,s')) :
    (∃ found, s'.find h key = some (some found)) ↔ 0 ∉ key := by
  obtain ⟨live',layout',effect⟩ := step_effect layout added
  cases effect with
  | @add _ _ e _ fresh named =>
    rw [← cStr_eq_self_iff]
    rcases layout'.find_cases place with ⟨absent,none⟩ | ⟨newer,e',older,split,_,same,found⟩
    · have other := absent e (by simp)
      simp only [none,named] at other ⊢
      simpa using other
    · have here : e' ∈ e::live := by simp [split]
      refine iff_of_true ⟨_,found⟩ ?_
      rcases mem_cons.mp here with rfl | old
      · rw [← named,same]
      · exact absurd same (fresh e' old)

/-- A node is read back as it was written, and a key is found after it was added, exactly when the
key has no NUL. -/
theorem node_codec_iff (n : Node) (short : n.key.length < 2^31) (small : n.valLink.Small) (next : n.next.Small) :
    ((∃ rep, n.encode = some rep ∧ rep.length = n.size ∧ Node.decode rep = some n) ↔ 0 ∉ n.key) ∧
    ∀ s, Reach (fun s => DB.create = some s) anyStep DB.next s → ∀ h val s', bucket n.key = some h →
      s.step (.add n.key val) = some (.done true,s') → ((∃ found, s'.find h n.key = some (some found)) ↔ 0 ∉ n.key) := by
  refine ⟨node_round_trip_iff short small next,?_⟩
  intro s reached h val s' place added
  obtain ⟨live,layout⟩ := reach_layout s reached
  exact found_iff layout place added

theorem node_codec_iff_letter : ∃ rep, Node.encode ⟨true,[97],⟨1,1,0⟩,.null⟩ = some rep ∧ rep.length = 54 ∧
    Node.decode rep = some ⟨true,[97],⟨1,1,0⟩,.null⟩ :=
  (node_codec_iff ⟨true,[97],⟨1,1,0⟩,.null⟩ (by decide) ⟨by decide,by decide,by decide⟩ Link.small_null).1.mpr (by decide)

/-- The key is cut at its NUL. -/
theorem node_loses_nul : (Node.encode ⟨true,[97,0,98],⟨1,1,0⟩,.null⟩).bind Node.decode = some ⟨true,[97],⟨1,1,0⟩,.null⟩ ∧
    (DB.create.bind (fun s => s.step (.add [97,0,98] [1]))).map (fun r => (r.1,r.2.find 97 [97,0,98])) =
      some (.done true,some none) := by
  refine ⟨by decide,?_⟩
  rw [create_eq,bind_some]
  decide +kernel

end CodeExercise.Db
