import CodeExercise.Db
import Mathlib.Data.List.Pairwise

/-!
The space of one file of the store: the links in use and the map of free links. `FindRooMAndWrite`
takes an extent out of the free ones, or makes one at the end of the file, and writes inside it
(`Space.alloc`); a link that is given back may push another of the same size out of the map
(`Space.release`).
-/
namespace CodeExercise.Db
open Files SortedMaps Extents List Option

section
variable {fd fd' : Fd} {data : Bytes}

lemma Fd.write_eq_some : fd.write data = some fd' ↔ fd.pos+data.length < 2^63 ∧
    fd' = ⟨fd.file.write fd.pos data,fd.pos+data.length,⟨fd.pos,data.length⟩::fd.writes⟩ := by
  unfold Fd.write
  split
  · next room => simp only [room,true_and,some.injEq,eq_comm]
  · next full => simp only [full,false_and,reduceCtorEq]

lemma Fd.size_write_lt (written : fd.write data = some fd') (small : fd.file.size < 2^63) :
    fd'.file.size < 2^63 := by
  obtain ⟨room,rfl⟩ := Fd.write_eq_some.mp written
  simp only [File.write]
  split
  · exact small
  · exact max_lt small room

lemma Fd.size_le_write (written : fd.write data = some fd') : fd.file.size ≤ fd'.file.size := by
  obtain ⟨_,rfl⟩ := Fd.write_eq_some.mp written
  exact CodeExercise.Files.size_le_write _ _ _

end

/-- The extents of links in use and of free links. -/
def extents (used : List Link) (free : FreeMap) : List Extent := (used++free.values).map Link.extent

structure Space (P : Link → Prop) (fd : Fd) (used : List Link) (free : FreeMap) : Prop where
  small : fd.file.size < 2^63
  separated : Separated (extents used free)
  below : Below fd.file.size (extents used free)
  keyed : ∀ p ∈ free.entries, p.1 = p.2.totalSize
  fits : ∀ l ∈ used++free.values, P l

section
variable {P : Link → Prop} {fd fd' : Fd} {used : List Link} {free free' : FreeMap} {l : Link} {data : Bytes}

lemma Space.apart (space : Space P fd (l::used) free) : ∀ u ∈ used, Apart l.extent u.extent := by
  intro u mem
  have separated := space.separated
  simp only [extents,Separated,cons_append,map_cons,pairwise_cons] at separated
  exact separated.1 _ (List.mem_map_of_mem (mem_append_left _ mem))

section
variable (space : Space P fd used free)
include space

lemma Space.end_le (mem : u ∈ used) : u.offset+u.totalSize ≤ fd.file.size :=
  space.below u.extent (List.mem_map_of_mem (mem_append_left _ mem))

lemma Space.perm (perm : used.Perm used') :
    Space P fd used' free := by
  have both : (used++free.values).Perm (used'++free.values) := perm.append_right _
  refine ⟨space.small,space.separated.perm (both.map _),?_,space.keyed,?_⟩
  · exact space.below.subperm (both.symm.map _).subperm
  · exact fun u mem => space.fits u (both.symm.subset mem)

lemma Space.write (written : (fd.lseek off).write data = some fd') :
    Space P fd' used free := by
  have grows := Fd.size_le_write written
  exact { space with small := Fd.size_write_lt written space.small, below := space.below.mono grows }

end

lemma Space.resize (space : Space P fd (l::used) free) (same : l'.extent = l.extent) (fits : P l') :
    Space P fd (l'::used) free := by
  have extents : extents (l'::used) free = extents (l::used) free := by simp [Db.extents,same]
  refine ⟨space.small,extents ▸ space.separated,extents ▸ space.below,space.keyed,?_⟩
  exact forall_mem_cons.mpr ⟨fits,fun u other => space.fits u (mem_cons_of_mem _ other)⟩

lemma Space.release (space : Space P fd (l::used) free) : Space P fd used (free.set l.totalSize l) := by
  have inside : (used++(free.set l.totalSize l).values).Subperm (l::used++free.values) := by
    refine ((subperm_append_left used).mpr (values_set free l.totalSize l)).trans ?_
    exact perm_middle.subperm
  have all : (extents used (free.set l.totalSize l)).Subperm (extents (l::used) free) := by
    obtain ⟨kept,perm,sublist⟩ := inside
    exact ⟨kept.map _,perm.map _,sublist.map _⟩
  refine ⟨space.small,space.separated.subperm all,space.below.subperm all,?_,fun u mem => space.fits u (inside.subset mem)⟩
  intro p mem
  rcases mem_setEntry mem with rfl | old
  · rfl
  · exact space.keyed p old

lemma findRooMAndWrite_cases (allocated : findRooMAndWrite data fd free = some (l,fd',free')) :
    (fd.lseek l.offset).write data = some fd' ∧
    ((∃ size, free.lowerBound data.length = some (size,l) ∧ free' = free.erase size) ∨
     (free.lowerBound data.length = none ∧ l = ⟨data.length,data.length,fd.file.size⟩ ∧ free' = free)) := by
  unfold findRooMAndWrite at allocated
  split at allocated
  · next size m found =>
    obtain ⟨fd'',written,same⟩ := map_eq_some_iff.mp allocated
    cases same
    exact ⟨written,.inl ⟨size,found,rfl⟩⟩
  · next none =>
    obtain ⟨fd'',written,same⟩ := map_eq_some_iff.mp allocated
    cases same
    exact ⟨written,.inr ⟨none,rfl,rfl⟩⟩

section
variable (space : Space P fd used free)
include space

lemma Space.alloc (allocated : findRooMAndWrite data fd free = some (l,fd',free'))
    (new : P ⟨data.length,data.length,fd.file.size⟩) :
    data.length ≤ l.totalSize ∧ Space P fd' (l::used) free' := by
  obtain ⟨written,source⟩ := findRooMAndWrite_cases allocated
  have grows := Fd.size_le_write written
  obtain ⟨size,found,rfl⟩ | ⟨_,rfl,rfl⟩ := source
  · have mem := lowerBound_mem found
    have enough : data.length ≤ l.totalSize := (lowerBound_le found).trans (space.keyed _ mem).le
    have perm : (used++free.values).Perm (l::used++(free.erase size).values) :=
      ((values_erase mem).append_left used).trans perm_middle
    refine ⟨enough,Fd.size_write_lt written space.small,space.separated.perm (perm.map _),?_,?_,?_⟩
    · exact (space.below.subperm (perm.symm.map _).subperm).mono grows
    · intro p member'
      exact space.keyed p (mem_of_mem_filter member')
    · exact fun u member' => space.fits u (perm.symm.subset member')
  · have ends : fd.file.size+data.length ≤ fd'.file.size := by
      obtain ⟨_,rfl⟩ := Fd.write_eq_some.mp written
      rw [Fd.lseek,size_write le_rfl]
      exact le_max_right _ _
    refine ⟨le_rfl,Fd.size_write_lt written space.small,?_,?_,space.keyed,?_⟩
    · exact space.separated.cons_beyond space.below le_rfl
    · exact forall_mem_cons.mpr ⟨ends,fun e old => (space.below e old).trans grows⟩
    · exact forall_mem_cons.mpr ⟨new,space.fits⟩

lemma Space.offset_le (allocated : findRooMAndWrite data fd free = some (l,fd',free')) :
    l.offset ≤ fd.file.size := by
  obtain ⟨_,⟨size,found,_⟩ | ⟨_,rfl,_⟩⟩ := findRooMAndWrite_cases allocated
  · have inside : l.extent.end ≤ fd.file.size :=
      space.below _ (List.mem_map_of_mem (mem_append_right _ (List.mem_map_of_mem (lowerBound_mem found))))
    exact (Nat.le_add_right _ _).trans inside
  · exact le_rfl

lemma Space.exists_alloc (data : Bytes) (room : fd.file.size+data.length < 2^63) :
    ∃ l fd' free', findRooMAndWrite data fd free = some (l,fd',free') := by
  unfold findRooMAndWrite
  split
  · next size l found =>
    have mem := lowerBound_mem found
    have enough : data.length ≤ l.totalSize := (lowerBound_le found).trans (space.keyed _ mem).le
    have inside : l.extent.end ≤ fd.file.size :=
      space.below _ (List.mem_map_of_mem (mem_append_right _ (List.mem_map_of_mem mem)))
    simp only [Extent.end,Link.extent] at inside
    have fits : l.offset+data.length < 2^63 := by omega
    simp only [Fd.write,Fd.lseek,fits,if_true,map_some]
    exact ⟨_,_,_,rfl⟩
  · simp only [Fd.write,Fd.lseek,room,if_true,map_some]
    exact ⟨_,_,_,rfl⟩

end
end

/-! ## The layout of the store -/
open Function

lemma foldl_hash_lt (str : Bytes) (h : Int) (small : h < hashTableSize) :
    str.foldl (fun h p => (31*h+char p).tmod hashTableSize) h < hashTableSize := by
  induction str generalizing h with
  | nil => exact small
  | cons p rest ih => exact ih _ (Int.tmod_lt_of_pos _ (by decide))

variable {h : Nat} {live : List Entry} {e : Entry}

lemma bucket_lt (found : bucket key = some h) : h < hashTableSize := by
  have small : hash key < hashTableSize := foldl_hash_lt _ 0 (by decide)
  unfold bucket at found
  split at found <;> cases found
  omega

lemma hash_cStr (key : Bytes) : hash (cStr key) = hash key := by
  unfold hash
  rw [cStr_cStr]

lemma bucket_cStr (key : Bytes) : bucket (cStr key) = bucket key := by
  unfold bucket
  rw [hash_cStr]

/-- The entries of a bucket. -/
def chain (live : List Entry) (h : Nat) : List Entry := live.filter (fun e => bucket e.key = some h)

lemma mem_chain : e ∈ chain live h ↔ e ∈ live ∧ bucket e.key = some h := by
  simp [chain]

@[simp] lemma chain_append (left right : List Entry) (h : Nat) :
    chain (left++right) h = chain left h ++ chain right h := by simp [chain]

lemma chain_cons_of_eq (same : bucket e.key = some h) :
    chain (e::live) h = e::chain live h := by simp [chain,same]

lemma chain_cons_of_ne (other : bucket e.key ≠ some h) :
    chain (e::live) h = chain live h := by simp [chain,other]

/-- The bytes of the table of heads. -/
def tableSize : Nat := hashTableSize*linkSize
/-- Links of nodes: beyond the table, and always of full size. -/
def NodeLink (l : Link) : Prop := l.size = l.totalSize ∧ tableSize ≤ l.offset
/-- Links of values. -/
def ValueLink (l : Link) : Prop := l.size ≤ l.totalSize

/-- The table of heads and the lists in the index file. -/
structure Index (f : File) (heads : Nat → Link) (live : List Entry) : Prop where
  head : ∀ h, h < hashTableSize → heads h = headLink (chain live h)
  disk : ∀ h, h < hashTableSize → f.slice (h*linkSize) linkSize = (heads h).encode
  stored : ∀ h, Stored f (chain live h)

structure Layout (s : DB) (live : List Entry) : Prop where
  nodes : Space NodeLink s.idx (live.map Entry.link) s.freeNode
  values : Space ValueLink s.data (live.map Entry.val) s.freeData
  table : tableSize ≤ s.idx.file.size
  keys : ∀ e ∈ live, cStr e.key = e.key ∧ (bucket e.key).isSome
  index : Index s.idx.file s.heads live

lemma layout_fresh : Layout DB.fresh [] := by
  refine ⟨⟨by decide,?_,?_,?_,?_⟩,⟨by decide,?_,?_,?_,?_⟩,le_rfl,by simp,⟨fun _ _ => rfl,?_,fun _ => trivial⟩⟩
  · exact List.Pairwise.nil
  · exact forall_mem_nil _
  · exact forall_mem_nil _
  · exact forall_mem_nil _
  · exact List.Pairwise.nil
  · exact forall_mem_nil _
  · exact forall_mem_nil _
  · exact forall_mem_nil _
  · intro h _
    show (List.range linkSize).map (fun _ => (0 : UInt8)) = Link.null.encode
    decide

lemma Stored.exists_nodeAt (stored : Stored f es) (mem : e ∈ es) :
    ∃ rest, NodeAt f e.link (e.node rest) := by
  induction es with
  | nil => cases mem
  | cons first es ih =>
    rcases mem_cons.mp mem with rfl | later
    · exact ⟨es,stored.1⟩
    · exact ih stored.2 later

section
variable {s : DB} {live : List Entry} {e : Entry} {h : Nat}

section
variable (layout : Layout s live)
include layout

section
variable (mem : e ∈ live)
include mem

lemma Layout.exists_bucket : ∃ h, bucket e.key = some h :=
  isSome_iff_exists.mp (layout.keys e mem).2

lemma Layout.nodeLink : NodeLink e.link :=
  layout.nodes.fits _ (mem_append_left _ (List.mem_map_of_mem mem))

lemma Layout.valueLink : ValueLink e.val :=
  layout.values.fits _ (mem_append_left _ (List.mem_map_of_mem mem))

lemma Layout.exists_nodeAt :
    ∃ rest, NodeAt s.idx.file e.link (e.node rest) := by
  obtain ⟨h,place⟩ := layout.exists_bucket mem
  exact (layout.index.stored h).exists_nodeAt (mem_chain.mpr ⟨mem,place⟩)

lemma Layout.nodeSize_le (rest : List Entry) :
    (e.node rest).size ≤ e.link.size := by
  obtain ⟨_,rep,encoded,_,short⟩ := layout.exists_nodeAt mem
  rwa [Node.length_encode encoded] at short

lemma Layout.encodes (n : Node) (same : n.key = e.key) :
    n.encode = some n.rep := by
  obtain ⟨_,rep,encoded,_⟩ := layout.exists_nodeAt mem
  have short := (Node.encode_eq_some.mp encoded).1
  exact Node.encode_eq_some.mpr ⟨by rw [same]; exact short,rfl⟩

end

lemma Layout.readable : ∀ e ∈ live, e.Readable s.idx.file := by
  intro e mem
  obtain ⟨size,place⟩ := layout.nodeLink mem
  have inside := layout.nodes.end_le (List.mem_map_of_mem mem)
  have small := layout.nodes.small
  have valSize : e.val.size ≤ e.val.totalSize := layout.valueLink mem
  have valInside := layout.values.end_le (List.mem_map_of_mem mem)
  have valSmall := layout.values.small
  have table : 0 < tableSize := by decide
  exact ⟨by omega,by omega,⟨by omega,by omega,by omega⟩,⟨by omega,by omega,by omega⟩,(layout.keys e mem).1⟩

lemma Layout.pairwise : live.Pairwise (fun a b => Apart a.link.extent b.link.extent) := by
  have separated := layout.nodes.separated
  simp only [extents,map_append,List.map_map] at separated
  have used := (pairwise_append.mp separated).1
  exact pairwise_map.mp used

lemma Layout.nonempty (mem : e ∈ live) : 0 < e.link.totalSize := by
  have size := (layout.nodeLink mem).1
  have short := layout.nodeSize_le mem []
  simp only [Node.size] at short
  omega

lemma Layout.nodup : live.Nodup := by
  refine layout.pairwise.imp_of_mem fun {a b} left _ apart same => ?_
  subst same
  have some := layout.nonempty left
  exact apart a.link.offset ⟨le_rfl,by simp [Link.extent]; omega⟩ ⟨le_rfl,by simp [Link.extent]; omega⟩

lemma Layout.apart (left : a ∈ live) (right : b ∈ live) (other : a ≠ b) :
    Apart a.link.extent b.link.extent := by
  have : Std.Symm (fun a b : Entry => Apart a.link.extent b.link.extent) := ⟨fun _ _ apart => apart.symm⟩
  exact layout.pairwise.forall left right other

lemma Layout.chain_length (h : Nat) : (chain live h).length < s.idx.file.size+1 := by
  have fewer : (chain live h).length ≤ live.length := length_filter_le _ _
  have separated : Separated (live.map (fun e => e.link.extent)) := pairwise_map.mpr layout.pairwise
  have bound := separated.length_le (n := s.idx.file.size) ?_ ?_
  · simp only [length_map] at bound
    omega
  · intro x mem
    obtain ⟨e,inside,rfl⟩ := List.mem_map.mp mem
    exact layout.nonempty inside
  · intro x mem
    obtain ⟨e,inside,rfl⟩ := List.mem_map.mp mem
    exact layout.nodes.end_le (List.mem_map_of_mem inside)

lemma Layout.find_cases (place : bucket key = some h) :
    ((∀ e ∈ live, e.key ≠ key) ∧ s.find h key = some none) ∨
    ∃ newer e older, live = newer++e::older ∧ (∀ x ∈ newer, x.key ≠ key) ∧ e.key = key ∧
      s.find h key = some (some ⟨e.node (chain older h),e.link,before none (chain newer h) (e::chain older h)⟩) := by
  have head : s.heads h = headLink (chain live h) := layout.index.head h (bucket_lt place)
  have readable : ∀ e ∈ chain live h, e.Readable s.idx.file :=
    fun e mem => layout.readable e (mem_chain.mp mem).1
  have enough := layout.chain_length h
  have stored := layout.index.stored h
  unfold DB.find
  rw [head]
  cases found : live.find? (fun e => e.key = key) with
  | none =>
    have fresh : ∀ e ∈ live, e.key ≠ key := by simpa using found
    exact .inl ⟨fresh,findFrom_none stored readable (fun e mem => fresh e (mem_chain.mp mem).1) enough⟩
  | some e =>
    obtain ⟨same,newer,older,rfl,fresh⟩ := find?_eq_some_iff_append.mp found
    have same : e.key = key := by simpa using same
    have fresh : ∀ x ∈ newer, x.key ≠ key := by simpa using fresh
    rw [chain_append,chain_cons_of_eq (same ▸ place)] at stored readable enough ⊢
    refine .inr ⟨newer,e,older,rfl,fresh,same,?_⟩
    exact findFrom_some stored readable (fun x mem => fresh x (mem_chain.mp mem).1) same enough

end
end

section
variable {f : File} {heads : Nat → Link} {live : List Entry} {h : Nat}

lemma table_apart (small : h < hashTableSize) (link : NodeLink l) :
    Apart ⟨h*linkSize,linkSize⟩ l.extent := by
  have row : (h+1)*linkSize ≤ tableSize := Nat.mul_le_mul_right _ small
  refine apart_of_end_le ?_
  have := link.2
  simp only [Extent.end,Link.extent,Nat.add_mul] at *
  omega

lemma Index.write (index : Index f heads live) (links : ∀ e ∈ live, NodeLink e.link)
    (apart : ∀ e ∈ live, Apart ⟨off,data.length⟩ e.link.extent) (beyond : tableSize ≤ off) :
    Index (f.write off data) heads live := by
  refine ⟨index.head,?_,fun h => (index.stored h).write ?_ ?_⟩
  · intro h small
    rw [slice_write_of_disjoint,index.disk h small]
    have row : (h+1)*linkSize ≤ tableSize := Nat.mul_le_mul_right _ small
    rw [Nat.add_mul] at row
    omega
  · exact fun e mem => (links e (mem_chain.mp mem).1).1.le
  · exact fun e mem => apart e (mem_chain.mp mem).1

/-- A node of one list is written anew in its place, with the list that follows it now. -/
lemma Index.rewrite {live' newer rest tail : List Entry} (index : Index f heads live)
    (old : chain live h = newer++e::rest) (new : chain live' h = newer++e'::tail)
    (others : ∀ g, g ≠ h → chain live' g = chain live g) (stored : Stored f tail) (link : e'.link = e.link)
    (encoded : (e'.node tail).encode = some rep) (short : rep.length ≤ e.link.size)
    (links : ∀ x ∈ live', NodeLink x.link) (once : e' ∉ newer ++ tail)
    (apart : ∀ x ∈ live', x ≠ e' → Apart ⟨e.link.offset,rep.length⟩ x.link.extent) :
    Index (f.write e.link.offset rep) heads live' := by
  have mem : e' ∈ chain live' h := by simp [new]
  have beyond : tableSize ≤ e.link.offset := link ▸ (links e' (mem_chain.mp mem).1).2
  refine ⟨?_,?_,?_⟩
  · intro g inside
    rw [index.head g inside]
    by_cases same : g = h
    · subst same
      rw [old,new]
      cases newer with
      | nil => simp [headLink,link]
      | cons first newer => rfl
    · rw [others g same]
  · intro g inside
    rw [slice_write_of_disjoint,index.disk g inside]
    have row : (g+1)*linkSize ≤ tableSize := Nat.mul_le_mul_right _ inside
    rw [Nat.add_mul] at row
    omega
  · intro g
    by_cases same : g = h
    · subst same
      have list := index.stored g
      rw [old] at list
      have inside : ∀ x ∈ newer++tail, x ∈ live' ∧ x ≠ e' := by
        intro x here
        have listed : x ∈ chain live' g := new ▸ mem_of_mem_rest here
        exact ⟨(mem_chain.mp listed).1,fun same => once (same ▸ here)⟩
      rw [new]
      exact list.replace stored link encoded short (fun x here => (links x (inside x here).1).1.le)
        (fun x here => apart x (inside x here).1 (inside x here).2)
    · have list := index.stored g
      rw [← others g same] at list
      refine list.write (fun x here => (links x (mem_chain.mp here).1).1.le) ?_
      intro x here
      refine apart x (mem_chain.mp here).1 ?_
      rintro rfl
      have left := (mem_chain.mp here).2
      have right := (mem_chain.mp mem).2
      rw [left] at right
      exact same (by simpa using right)

lemma Index.headWrite (small : h < hashTableSize)
    (head : ∀ g, g < hashTableSize → g ≠ h → heads g = headLink (chain live g))
    (disk : ∀ g, g < hashTableSize → f.slice (g*linkSize) linkSize = (heads g).encode)
    (stored : ∀ g, Stored f (chain live g)) (links : ∀ e ∈ live, NodeLink e.link) :
    Index (f.write (h*linkSize) (headLink (chain live h)).encode)
      (update heads h (headLink (chain live h))) live := by
  constructor
  · intro g inside
    by_cases same : g = h
    · subst same
      simp
    · rw [update_of_ne same]
      exact head g inside same
  · intro g inside
    by_cases same : g = h
    · subst same
      rw [update_self]
      simpa using slice_write_self f (g*linkSize) (headLink (chain live g)).encode
    · rw [update_of_ne same,slice_write_of_disjoint,disk g inside]
      simp only [Link.length_encode]
      rcases Nat.lt_or_gt_of_ne same with less | more
      · have row : (g+1)*linkSize ≤ h*linkSize := Nat.mul_le_mul_right _ less
        rw [Nat.add_mul] at row
        omega
      · have row : (h+1)*linkSize ≤ g*linkSize := Nat.mul_le_mul_right _ more
        rw [Nat.add_mul] at row
        omega
  · intro g
    refine (stored g).write ?_ ?_
    · exact fun e mem => (links e (mem_chain.mp mem).1).1.le
    · intro e mem
      rw [Link.length_encode]
      exact table_apart small (links e (mem_chain.mp mem).1)

end

section
variable {s s' : DB} {live : List Entry} {h : Nat} {key val : Bytes} {r : Bool}

lemma Layout.links (layout : Layout s live) : ∀ e ∈ live, NodeLink e.link := fun _ mem => layout.nodeLink mem

variable {e : Entry} {newer older : List Entry}

lemma Layout.push (layout : Layout s live)
    (place : bucket e.key = some h) (whole : cStr e.key = e.key) (encoded : (e.node (chain live h)).encode = some rep)
    (allocated : findRooMAndWrite rep s.idx s.freeNode = some (e.link,idx,freeNode))
    (values : Space ValueLink data (e.val::live.map Entry.val) freeData)
    (written : (⟨idx,data,update s.heads h e.link,freeNode,freeData,s.cache⟩ : DB).headWrite h = some s') :
    Layout s' (e::live) := by
  have small := bucket_lt place
  obtain ⟨enough,nodes⟩ := layout.nodes.alloc allocated ⟨rfl,layout.table⟩
  have link : NodeLink e.link := nodes.fits _ (by simp)
  have links : ∀ x ∈ e::live, NodeLink x.link := by
    exact forall_mem_cons.mpr ⟨link,layout.links⟩
  obtain ⟨wrote,_⟩ := findRooMAndWrite_cases allocated
  obtain ⟨_,rfl⟩ := Fd.write_eq_some.mp wrote
  have apart : ∀ x ∈ live, Apart ⟨e.link.offset,rep.length⟩ x.link.extent :=
    fun x mem => (nodes.apart _ (List.mem_map_of_mem mem)).part enough
  have index := layout.index.write layout.links apart link.2
  -- The new list is stored before its head is written.
  have stored : ∀ g, Stored (s.idx.file.write e.link.offset rep) (chain (e::live) g) := by
    intro g
    by_cases same : bucket e.key = some g
    · obtain rfl : h = g := by simpa [place] using same
      rw [chain_cons_of_eq place]
      exact ⟨NodeAt.written encoded (enough.trans link.1.ge),index.stored h⟩
    · rw [chain_cons_of_ne same]
      exact index.stored g
  have head : ∀ g, g < hashTableSize → g ≠ h → s.heads g = headLink (chain (e::live) g) := by
    intro g inside other
    rw [chain_cons_of_ne (by rw [place]; simpa using Ne.symm other)]
    exact index.head g inside
  have done := Index.headWrite small head index.disk stored links
  rw [show headLink (chain (e::live) h) = e.link by rw [chain_cons_of_eq place]; rfl] at done
  obtain ⟨idx',wroteHead,rfl⟩ := map_eq_some_iff.mp written
  have nodes' : Space NodeLink idx' (e.link::live.map Entry.link) freeNode := nodes.write wroteHead
  have grows := Fd.size_le_write wroteHead
  obtain ⟨_,rfl⟩ := Fd.write_eq_some.mp wroteHead
  refine ⟨nodes',values,?_,?_,?_⟩
  · exact layout.table.trans ((size_le_write _ _ _).trans grows)
  · exact forall_mem_cons.mpr ⟨⟨whole,by simp [place]⟩,layout.keys⟩
  · simpa [Fd.lseek] using done

lemma addInternal_cases (layout : Layout s live) (place : bucket key = some h)
    (ran : s.addInternal h key val = some (r,s')) :
    (r = false ∧ s' = s ∧ ∃ e ∈ live, e.key = key) ∨
    (r = true ∧ (∀ e ∈ live, e.key ≠ key) ∧ ∃ e : Entry, e.key = cStr key ∧ Layout s' (e::live) ∧
      s'.cache = s.cache ∧ findRooMAndWrite val s.data s.freeData = some (e.val,s'.data,s'.freeData)) := by
  unfold DB.addInternal at ran
  rcases layout.find_cases place with ⟨fresh,found⟩ | ⟨newer,e,older,rfl,_,same,found⟩
  · simp only [found,bind_eq_bind,bind_some] at ran
    obtain ⟨⟨valLink,data,freeData⟩,valued,ran⟩ := bind_eq_some_iff.mp ran
    obtain ⟨rep,encoded,ran⟩ := bind_eq_some_iff.mp ran
    obtain ⟨⟨head,idx,freeNode⟩,allocated,ran⟩ := bind_eq_some_iff.mp ran
    obtain ⟨s'',written,ran⟩ := bind_eq_some_iff.mp ran
    cases ran
    obtain ⟨_,values⟩ := layout.values.alloc valued (le_refl val.length)
    have node : ((⟨head,cStr key,valLink⟩ : Entry).node (chain live h)).encode = some rep := by
      rw [← encoded,layout.index.head h (bucket_lt place)]
      simp [Node.encode,Node.rep,Entry.node,cStr_cStr]
    have pushed : Layout s' (⟨head,cStr key,valLink⟩ :: live) :=
      layout.push ((bucket_cStr key).trans place) (cStr_cStr key) node allocated values written
    obtain ⟨idx',_,rfl⟩ := map_eq_some_iff.mp written
    exact .inr ⟨rfl,fresh,⟨head,cStr key,valLink⟩,rfl,pushed,rfl,valued⟩
  · simp only [found,bind_eq_bind,bind_some] at ran
    cases ran
    exact .inl ⟨rfl,rfl,e,by simp,same⟩

lemma Layout.rewrite
    (layout : Layout s (newer++e::older)) (place : bucket e.key = some h) (link : e'.link = e.link)
    (same : e'.key = e.key)
    (values : Space ValueLink data (e'.val::(newer++older).map Entry.val) freeData)
    (written : nodeWriteInplace s.idx (e'.node (chain older h)) e.link.offset = some idx) :
    Layout { s with idx := idx, data := data, freeData := freeData } (newer++e'::older) := by
  have mine : e ∈ newer++e::older := by simp
  obtain ⟨rep,encoded,wrote⟩ := bind_eq_some_iff.mp written
  have short : rep.length ≤ e.link.size := by
    rw [Node.length_encode encoded]
    have before := layout.nodeSize_le mine []
    simpa [Node.size,Entry.node,same] using before
  have size := (layout.nodeLink mine).1
  have once : e ∉ newer ++ older := (nodup_cons.mp (perm_middle.nodup_iff.mp layout.nodup)).1
  have others : ∀ x ∈ newer++e'::older, x ≠ e' → x ∈ newer++older := by
    intro x mem other
    simp only [mem_append,mem_cons] at mem ⊢
    tauto
  have apart : ∀ x ∈ newer++older, Apart ⟨e.link.offset,rep.length⟩ x.link.extent := by
    intro x mem
    exact (layout.apart mine (mem_of_mem_rest mem) (fun same => once (same ▸ mem))).part (short.trans size.le)
  have links : ∀ x ∈ newer++e'::older, NodeLink x.link := by
    intro x mem
    by_cases new : x = e'
    · rw [new,link]
      exact layout.nodeLink mine
    · exact layout.links x (mem_of_mem_rest (others x mem new))
  -- The old entry and the new one have the same extent, so the new one is not among the others either.
  have once' : e' ∉ newer ++ older := by
    intro mem
    have full := apart e' mem
    have some : 0 < rep.length := by
      rw [Node.length_encode encoded]
      simp only [Node.size]
      omega
    have long := layout.nonempty mine
    exact full e.link.offset ⟨le_rfl,by simp; omega⟩ ⟨by simp [Link.extent,link],by simp [Link.extent,link]; omega⟩
  have nodes := layout.nodes.write wrote
  have grows := Fd.size_le_write wrote
  obtain ⟨_,rfl⟩ := Fd.write_eq_some.mp wrote
  refine ⟨?_,?_,layout.table.trans grows,?_,?_⟩
  · simpa [link] using nodes
  · refine values.perm ?_
    simpa using perm_middle.symm
  · intro x mem
    rcases mem_append.mp mem with new | rest
    · exact layout.keys x (by simp [new])
    · rcases mem_cons.mp rest with rfl | old
      · rw [same]
        exact layout.keys e mine
      · exact layout.keys x (by simp [old])
  · have old : chain (newer++e::older) h = chain newer h ++ e::chain older h := by
      rw [chain_append,chain_cons_of_eq place]
    have new : chain (newer++e'::older) h = chain newer h ++ e'::chain older h := by
      rw [chain_append,chain_cons_of_eq (same ▸ place)]
    refine layout.index.rewrite old new ?_ ?_ link encoded short links ?_ ?_
    · intro g other
      have elsewhere : bucket e.key ≠ some g := by
        rw [place]
        simpa using Ne.symm other
      rw [chain_append,chain_append,chain_cons_of_ne elsewhere,chain_cons_of_ne (same ▸ elsewhere)]
    · have list := layout.index.stored h
      rw [old] at list
      exact (list.append).2
    · intro mem
      exact once' (by simpa [mem_chain,same,place] using mem)
    · exact fun x mem other => apart x (others x mem other)

lemma Layout.values_front (layout : Layout s (newer++e::older)) :
    Space ValueLink s.data (e.val::(newer++older).map Entry.val) s.freeData := by
  refine layout.values.perm ?_
  simp

lemma Layout.nodes_front
    (nodes : Space NodeLink idx ((newer++e::older).map Entry.link) s.freeNode) :
    Space NodeLink idx (e.link::(newer++older).map Entry.link) s.freeNode := by
  refine nodes.perm ?_
  simp

lemma setInternal_cases (layout : Layout s live) (place : bucket key = some h)
    (ran : s.setInternal h key val = some (r,s')) :
    (r = false ∧ s' = s ∧ ∀ e ∈ live, e.key ≠ key) ∨
    (r = true ∧ ∃ (newer : List Entry) (e : Entry) (older : List Entry) (l : Link), live = newer++e::older ∧
      (∀ x ∈ newer, x.key ≠ key) ∧ e.key = key ∧ Layout s' (newer++{ e with val := l } :: older) ∧
      s'.cache = s.cache ∧
      ((val.length ≤ e.val.totalSize ∧ l = { e.val with size := val.length } ∧
        (s.data.lseek e.val.offset).write val = some s'.data ∧ s'.freeData = s.freeData) ∨
       (e.val.totalSize < val.length ∧ ∃ data,
        findRooMAndWrite val s.data (s.freeData.set e.val.totalSize e.val) = some (l,data,s'.freeData) ∧
        data.write val = some s'.data))) := by
  unfold DB.setInternal at ran
  rcases layout.find_cases place with ⟨fresh,found⟩ | ⟨newer,e,older,rfl,fresh,same,found⟩
  · simp only [found,bind_eq_bind,bind_some] at ran
    cases ran
    exact .inl ⟨rfl,rfl,fresh⟩
  · simp only [found,bind_eq_bind,bind_some] at ran
    have front := layout.values_front
    split at ran
    · next fits =>
      obtain ⟨data,wrote,ran⟩ := bind_eq_some_iff.mp ran
      obtain ⟨idx,written,ran⟩ := bind_eq_some_iff.mp ran
      cases ran
      have resized : Space ValueLink s.data (({ e.val with size := val.length } : Link)::(newer++older).map Entry.val)
          s.freeData := front.resize rfl fits
      refine .inr ⟨rfl,newer,e,older,_,rfl,fresh,same,?_,rfl,.inl ⟨fits,rfl,wrote,rfl⟩⟩
      exact layout.rewrite (same ▸ place) rfl rfl (resized.write wrote) written
    · next long =>
      obtain ⟨⟨l,data,freeData⟩,source,ran⟩ := bind_eq_some_iff.mp ran
      obtain ⟨data',wrote,ran⟩ := bind_eq_some_iff.mp ran
      obtain ⟨idx,written,ran⟩ := bind_eq_some_iff.mp ran
      cases ran
      obtain ⟨_,values⟩ := front.release.alloc source (le_refl val.length)
      refine .inr ⟨rfl,newer,e,older,l,rfl,fresh,same,?_,rfl,.inr ⟨not_le.mp long,data,source,wrote⟩⟩
      exact layout.rewrite (same ▸ place) rfl rfl (values.write wrote) written

section Delete
variable {newer older : List Entry} {e : Entry}

lemma chain_rest_of_ne (place : bucket e.key = some h) (other : g ≠ h) :
    chain (newer++older) g = chain (newer++e::older) g := by
  have elsewhere : bucket e.key ≠ some g := by
    rw [place]
    simpa using Ne.symm other
  rw [chain_append,chain_append,chain_cons_of_ne elsewhere]

section
variable (layout : Layout s (newer++e::older))
include layout

lemma Layout.index_pop (place : bucket e.key = some h)
    (first : chain newer h = []) :
    Index (s.idx.file.write (h*linkSize) (headLink (chain older h)).encode)
      (update s.heads h (headLink (chain older h))) (newer++older) := by
  have rest : chain (newer++older) h = chain older h := by rw [chain_append,first,nil_append]
  have stored : ∀ g, Stored s.idx.file (chain (newer++older) g) := by
    intro g
    have list := layout.index.stored g
    by_cases same : g = h
    · subst same
      rw [chain_append,first,nil_append,chain_cons_of_eq place] at list
      rw [rest]
      exact list.2
    · rwa [chain_rest_of_ne place same]
  rw [← rest]
  refine Index.headWrite (bucket_lt place) ?_ layout.index.disk stored
    (fun x mem => layout.links x (mem_of_mem_rest mem))
  intro g inside other
  rw [chain_rest_of_ne place other]
  exact layout.index.head g inside

lemma Layout.index_unlink
    (place : bucket e.key = some h) (last : chain newer h = front++[p])
    (encoded : (p.node (chain older h)).encode = some rep) :
    Index (s.idx.file.write p.link.offset rep) s.heads (newer++older) := by
  have mem : p ∈ newer++e::older := by
    have inside : p ∈ chain newer h := by simp [last]
    exact mem_append_left _ (mem_chain.mp inside).1
  have old : chain (newer++e::older) h = front++p::(e::chain older h) := by
    rw [chain_append,chain_cons_of_eq place,last]
    simp
  have new : chain (newer++older) h = front++p::chain older h := by
    rw [chain_append,last]
    simp
  have short : rep.length ≤ p.link.size := by
    rw [Node.length_encode encoded]
    exact layout.nodeSize_le mem _
  have once : p ∉ front ++ chain older h := by
    have nodup : (front++p::(e::chain older h)).Nodup := old ▸ layout.nodup.filter _
    have split := (nodup_cons.mp (perm_middle.nodup_iff.mp nodup)).1
    intro inside
    refine split ?_
    simp only [mem_append,mem_cons] at inside ⊢
    tauto
  have tail : Stored s.idx.file (chain older h) := by
    have list := layout.index.stored h
    rw [old] at list
    exact list.append.2.2
  refine layout.index.rewrite old new (fun g other => chain_rest_of_ne place other) tail rfl encoded short
    (fun x inside => layout.links x (mem_of_mem_rest inside)) once ?_
  intro x inside other
  have size := (layout.nodeLink mem).1
  exact (layout.apart mem (mem_of_mem_rest inside) (Ne.symm other)).part (short.trans size.le)

lemma Layout.remove
    (nodes : Space NodeLink idx ((newer++e::older).map Entry.link) s.freeNode)
    (table : tableSize ≤ idx.file.size) (index : Index idx.file heads (newer++older)) :
    Layout ⟨idx,s.data,heads,s.freeNode.set e.link.totalSize e.link,s.freeData.set e.val.totalSize e.val,s.cache⟩
      (newer++older) :=
  ⟨(Layout.nodes_front nodes).release,layout.values_front.release,table,
    fun x mem => layout.keys x (mem_of_mem_rest mem),index⟩

end
end Delete

lemma delInternal_cases (layout : Layout s live) (place : bucket key = some h)
    (ran : s.delInternal h key = some (r,s')) :
    (r = false ∧ s' = s ∧ ∀ e ∈ live, e.key ≠ key) ∨
    (r = true ∧ ∃ newer e older, live = newer++e::older ∧ (∀ x ∈ newer, x.key ≠ key) ∧ e.key = key ∧
      Layout s' (newer++older) ∧ s'.cache = s.cache ∧ s'.data = s.data) := by
  unfold DB.delInternal at ran
  rcases layout.find_cases place with ⟨fresh,found⟩ | ⟨newer,e,older,rfl,fresh,same,found⟩
  · simp only [found,bind_eq_bind,bind_some] at ran
    cases ran
    exact .inl ⟨rfl,rfl,fresh⟩
  · subst same
    simp only [found,bind_eq_bind,bind_some] at ran
    refine .inr ?_
    rcases eq_nil_or_concat' (chain newer h) with first | ⟨front,p,last⟩
    · simp only [first,before] at ran
      obtain ⟨s₁,written,ran⟩ := bind_eq_some_iff.mp ran
      obtain ⟨idx,wrote,rfl⟩ := map_eq_some_iff.mp written
      cases ran
      have nodes := layout.nodes.write wrote
      have grows := Fd.size_le_write wrote
      have index := layout.index_pop place first
      obtain ⟨_,rfl⟩ := Fd.write_eq_some.mp wrote
      refine ⟨rfl,newer,e,older,rfl,fresh,rfl,layout.remove nodes (layout.table.trans grows) ?_,rfl,rfl⟩
      simpa [Entry.node,Fd.lseek] using index
    · simp only [last,before_append_singleton] at ran
      obtain ⟨s₁,written,ran⟩ := bind_eq_some_iff.mp ran
      obtain ⟨idx,inplace,rfl⟩ := map_eq_some_iff.mp written
      obtain ⟨rep,encoded,wrote⟩ := bind_eq_some_iff.mp inplace
      cases ran
      have nodes := layout.nodes.write wrote
      have grows := Fd.size_le_write wrote
      have index := layout.index_unlink place last encoded
      obtain ⟨_,rfl⟩ := Fd.write_eq_some.mp wrote
      exact ⟨rfl,newer,e,older,rfl,fresh,rfl,layout.remove nodes (layout.table.trans grows) index,rfl,rfl⟩

end
end CodeExercise.Db
