import CodeExercise.DbExtents
import Mathlib.Data.List.TakeWhile

/-!
The store against a finite map. A live entry has the value of its key when the
size in its link is the length of the value, and when no later write touches its
bytes; then every operation answers as the map does (`store_refines`). Both can
fail: a recycled link keeps the size of its old value, and the second copy of a
moved value can reach into a neighbour.
-/
namespace CodeExercise.Db
open Files SortedMaps Extents Runs List Option Function

abbrev Map := Bytes → Option Bytes

/-- What the operations do to a map: `add` only a new key, `set` only a present one. -/
def Map.step (m : Map) : Op → Res × Map
  | .add key val => if (m key).isSome then (.done false,m) else (.done true,update m key (some val))
  | .set key val => if (m key).isSome then (.done true,update m key (some val)) else (.done false,m)
  | .del key => if (m key).isSome then (.done true,update m key none) else (.done false,m)
  | .get key => (.value (m key),m)

/-- The results of a list of operations. -/
def Map.run : Map → List Op → List Res
  | _,[] => []
  | m,op::ops => (m.step op).1 :: Map.run (m.step op).2 ops

/-- The key is free of NULs and of bytes above 127. -/
def Plain (key : Bytes) : Prop := ∀ b ∈ key, b ≠ 0 ∧ b.toNat < 128
deriving Decidable

/-- A recycled link already has the size of the value, and the files stay below
the largest size. A second copy in a recycled extent does not reach the value
of another key. -/
def Careful (s : DB) : Op → Prop
  | .add key val => Plain key ∧ key.length < 2^31 ∧ s.idx.file.size+key.length+53 < 2^63 ∧
      s.data.file.size+val.length < 2^63 ∧
      (s.valueLink key = none → ∀ p, s.freeData.lowerBound val.length = some p → p.2.size = val.length)
  | .set key val => Plain key ∧ s.data.file.size+2*val.length < 2^63 ∧
      ∀ l, s.valueLink key = some l → l.totalSize < val.length →
        ∀ p, s.freeData.lowerBound val.length = some p → p.2.size = val.length ∧
          ∀ k u, k ≠ key → s.valueLink k = some u → Apart ⟨p.2.offset+val.length,val.length⟩ ⟨u.offset,u.size⟩
  | .del key => Plain key
  | .get key => Plain key

lemma Careful.plain (careful : Careful s op) : Plain op.key := by
  cases op with
  | add key val => exact careful.1
  | set key val => exact careful.1
  | del key => exact careful
  | get key => exact careful

lemma cStr_of_plain (plain : Plain key) : cStr key = key := by
  refine takeWhile_eq_self_iff.mpr fun b mem => ?_
  simpa using (plain b mem).1

lemma foldl_hash_nonneg (plain : Plain str) (start : 0 ≤ h) :
    0 ≤ str.foldl (fun h p => (31*h+char p).tmod hashTableSize) h := by
  induction str generalizing h with
  | nil => exact start
  | cons b rest ih =>
    have small := (plain b (by simp)).2
    have next : 0 ≤ 31*h+char b := by
      simp only [char,small,if_true]
      omega
    exact ih (fun x mem => plain x (mem_cons_of_mem _ mem)) (Int.tmod_nonneg _ next)

lemma exists_bucket (plain : Plain key) : ∃ h, bucket key = some h := by
  have nonneg : 0 ≤ hash key := by
    unfold hash
    rw [cStr_of_plain plain]
    exact foldl_hash_nonneg plain le_rfl
  exact ⟨_,if_pos nonneg⟩

section
variable {s : DB} {live : List Entry} {h : Nat} {key val : Bytes}

lemma Fd.exists_write (fd : Fd) (data : Bytes) (room : fd.pos+data.length < 2^63) : ∃ fd', fd.write data = some fd' :=
  ⟨_,Fd.write_eq_some.mpr ⟨room,rfl⟩⟩

lemma exists_headWrite (s : DB) (small : h < hashTableSize) : ∃ s', s.headWrite h = some s' := by
  have row : (h+1)*linkSize ≤ tableSize := Nat.mul_le_mul_right _ small
  have table : tableSize < 2^63 := by decide
  obtain ⟨idx,wrote⟩ := Fd.exists_write (s.idx.lseek (h*linkSize)) (s.heads h).encode (by
    rw [Nat.add_mul] at row
    simp only [Fd.lseek,Link.length_encode]
    omega)
  exact ⟨{ s with idx := idx },by simp [DB.headWrite,wrote]⟩

section
variable (layout : Layout s live)
include layout

lemma Layout.exists_nodeWrite (mem : e ∈ live) (n : Node) (same : n.key = e.key) :
    ∃ idx, nodeWriteInplace s.idx n e.link.offset = some idx := by
  have short : n.rep.length ≤ e.link.size := by
    have before := layout.nodeSize_le mem []
    rw [Node.length_rep]
    simpa [Node.size,Entry.node,same] using before
  have size := (layout.nodeLink mem).1
  have inside := layout.nodes.end_le (List.mem_map_of_mem mem)
  have small := layout.nodes.small
  obtain ⟨idx,wrote⟩ := Fd.exists_write (s.idx.lseek e.link.offset) n.rep (by
    simp only [Fd.lseek]
    omega)
  exact ⟨idx,by simp [nodeWriteInplace,layout.encodes mem n same,wrote]⟩

section
variable (place : bucket key = some h)
include place

lemma exists_addInternal (short : key.length < 2^31)
    (index : s.idx.file.size+key.length+53 < 2^63) (data : s.data.file.size+val.length < 2^63) :
    ∃ r, s.addInternal h key val = some r := by
  rcases layout.find_cases place with ⟨_,found⟩ | ⟨newer,e,older,_,_,_,found⟩
  · have cut : (cStr key).length ≤ key.length := (takeWhile_sublist _).length_le
    obtain ⟨valLink,data',freeData,valued⟩ := layout.values.exists_alloc val data
    have encoded : (⟨true,key,valLink,s.heads h⟩ : Node).encode = some (Node.rep ⟨true,key,valLink,s.heads h⟩) :=
      Node.encode_eq_some.mpr ⟨by simp only []; omega,rfl⟩
    obtain ⟨head,idx,freeNode,allocated⟩ :=
      layout.nodes.exists_alloc (Node.rep ⟨true,key,valLink,s.heads h⟩) (by
        rw [Node.length_rep]
        simp only [Node.size,linkSize]
        omega)
    obtain ⟨s',written⟩ := exists_headWrite
      ⟨idx,data',update s.heads h head,freeNode,freeData,s.cache⟩ (bucket_lt place)
    refine ⟨(true,s'),?_⟩
    simp only [DB.addInternal,found,some_bind,valued,encoded,allocated,written]
  · refine ⟨(false,s),?_⟩
    simp only [DB.addInternal,found,some_bind]

lemma exists_setInternal
    (data : s.data.file.size+2*val.length < 2^63) : ∃ r, s.setInternal h key val = some r := by
  rcases layout.find_cases place with ⟨_,found⟩ | ⟨newer,e,older,rfl,_,_,found⟩
  · refine ⟨(false,s),?_⟩
    simp only [DB.setInternal,found,bind_eq_bind,bind_some]
  · have mem : e ∈ newer++e::older := by simp
    have inside := layout.values.end_le (List.mem_map_of_mem mem)
    by_cases fits : val.length ≤ e.val.totalSize
    · obtain ⟨data',wrote⟩ := Fd.exists_write (s.data.lseek e.val.offset) val (by
        simp only [Fd.lseek]
        omega)
      obtain ⟨idx,written⟩ := layout.exists_nodeWrite mem
        { e.node (chain older h) with valLink := { e.val with size := val.length } } rfl
      refine ⟨(true,{ s with idx := idx, data := data' }),?_⟩
      simp only [DB.setInternal,found,bind_eq_bind,bind_some]
      rw [if_pos (show val.length ≤ (e.node (chain older h)).valLink.totalSize from fits)]
      simp only [show (e.node (chain older h)).valLink = e.val from rfl,wrote,written,bind_some]
    · obtain ⟨l,data',freeData,allocated⟩ := layout.values_front.release.exists_alloc val (by omega)
      have near := layout.values_front.release.offset_le allocated
      have pos : data'.pos+val.length < 2^63 := by
        obtain ⟨_,rfl⟩ := Fd.write_eq_some.mp (findRooMAndWrite_cases allocated).1
        simp only [Fd.lseek]
        omega
      obtain ⟨data'',wrote⟩ := Fd.exists_write data' val pos
      obtain ⟨idx,written⟩ := layout.exists_nodeWrite mem { e.node (chain older h) with valLink := l } rfl
      refine ⟨(true,{ s with idx := idx, data := data'', freeData := freeData }),?_⟩
      simp only [DB.setInternal,found,bind_eq_bind,bind_some]
      rw [if_neg (show ¬ val.length ≤ (e.node (chain older h)).valLink.totalSize from fits)]
      simp only [show (e.node (chain older h)).valLink = e.val from rfl,allocated,wrote,written,bind_some]

lemma exists_delInternal :
    ∃ r, s.delInternal h key = some r := by
  rcases layout.find_cases place with ⟨_,found⟩ | ⟨newer,e,older,rfl,_,_,found⟩
  · refine ⟨(false,s),?_⟩
    simp only [DB.delInternal,found,some_bind]
  · rcases eq_nil_or_concat' (chain newer h) with first | ⟨front,p,last⟩
    · obtain ⟨s',written⟩ := exists_headWrite
        { s with heads := update s.heads h (e.node (chain older h)).next } (bucket_lt place)
      simp only [DB.delInternal,found,some_bind,first,before,written]
      exact ⟨_,rfl⟩
    · have listed : p ∈ chain newer h := by simp [last]
      have mem : p ∈ newer++e::older := mem_append_left _ (mem_chain.mp listed).1
      obtain ⟨idx,written⟩ := layout.exists_nodeWrite mem
        { p.node (e::chain older h) with next := (e.node (chain older h)).next } rfl
      simp only [DB.delInternal,found,some_bind,last,
        before_append_singleton,written,map_some]
      exact ⟨_,rfl⟩

lemma exists_getInternal :
    ∃ r, s.getInternal h key = some r := by
  unfold DB.getInternal
  split
  · exact ⟨_,rfl⟩
  · rcases layout.find_cases place with ⟨_,found⟩ | ⟨newer,e,older,rfl,_,_,found⟩
    · simp only [found,some_bind]
      exact ⟨_,rfl⟩
    · have read := layout.getVal_eq (show e ∈ newer++e::older by simp)
      simp only [found,some_bind,Entry.node,read]
      exact ⟨_,rfl⟩

end

lemma exists_step (careful : Careful s op) : ∃ r s', s.step op = some (r,s') := by
  obtain ⟨h,place⟩ := exists_bucket careful.plain
  have forgot := layout.cache (s.cache.del op.key)
  cases op with
  | add key val =>
    obtain ⟨_,short,index,data,_⟩ := careful
    obtain ⟨⟨ok,s'⟩,ran⟩ := exists_addInternal forgot place short index data
    exact ⟨.done ok,s',bind_eq_some_iff.mpr ⟨h,place,map_eq_some_iff.mpr ⟨_,ran,rfl⟩⟩⟩
  | set key val =>
    obtain ⟨_,data,_⟩ := careful
    obtain ⟨⟨ok,s'⟩,ran⟩ := exists_setInternal forgot place data
    exact ⟨.done ok,s',bind_eq_some_iff.mpr ⟨h,place,map_eq_some_iff.mpr ⟨_,ran,rfl⟩⟩⟩
  | del key =>
    obtain ⟨⟨ok,s'⟩,ran⟩ := exists_delInternal forgot place
    exact ⟨.done ok,s',bind_eq_some_iff.mpr ⟨h,place,map_eq_some_iff.mpr ⟨_,ran,rfl⟩⟩⟩
  | get key =>
    obtain ⟨⟨found,s'⟩,ran⟩ := exists_getInternal layout place
    exact ⟨.value found,s',bind_eq_some_iff.mpr ⟨h,place,map_eq_some_iff.mpr ⟨_,ran,rfl⟩⟩⟩

end
end

/-- The live entries have exactly the values of the map, and so has the cache. -/
structure Represents (s : DB) (live : List Entry) (m : Map) : Prop where
  keys : (live.map Entry.key).Nodup
  values : ∀ e ∈ live, m e.key = some (s.data.file.slice e.val.offset e.val.size)
  complete : ∀ k v, m k = some v → ∃ e ∈ live, e.key = k
  cached : ∀ p ∈ s.cache, m p.1 = some p.2

section
variable {s s' : DB} {live : List Entry} {m : Map} {key val : Bytes}

lemma Represents.eq_none (rep : Represents s live m) (fresh : ∀ x ∈ live, x.key ≠ key) : m key = none := by
  cases found : m key with
  | none => rfl
  | some v =>
    obtain ⟨e,mem,same⟩ := rep.complete key v found
    exact absurd same (fresh e mem)

variable {e : Entry} {c : LRUCache} {newer older : List Entry}

lemma Represents.valueLink_eq (rep : Represents s live m) (layout : Layout s live) (mem : e ∈ live) :
    s.valueLink e.key = some e.val := by
  obtain ⟨newer,older,rfl⟩ := append_of_mem mem
  have fresh : ∀ x ∈ newer, x.key ≠ e.key := by
    have nodup := rep.keys
    simp only [map_append,map_cons] at nodup
    have once := (nodup_append.mp nodup).2.2
    intro x inside
    exact once _ (List.mem_map_of_mem inside) _ (by simp)
  rw [layout.valueLink_eq,find?_first fresh rfl]
  rfl

lemma mem_del (mem : p ∈ c.del key) : p ∈ c ∧ p.1 ≠ key := by
  simpa [LRUCache.del] using mem

lemma Represents.forget (rep : Represents s live m) (key : Bytes) : Represents (s.forget key) live m :=
  { rep with cached := fun p mem => rep.cached p (mem_del mem).1 }

lemma keys_rest (keys : ((newer++e::older).map Entry.key).Nodup)
    (named : e.key = key) : ∀ x ∈ newer++older, x.key ≠ key := by
  have nodup : (e.key::(newer++older).map Entry.key).Nodup := by
    refine List.Perm.nodup_iff ?_ |>.mp keys
    simp
  intro x mem same
  exact (nodup_cons.mp nodup).1 (named ▸ same ▸ List.mem_map_of_mem mem)

lemma Represents.put (rep : Represents s live m)
    (keys : ((newer++e::older).map Entry.key).Nodup) (named : e.key = key)
    (rest : ∀ x ∈ newer++older, x ∈ live ∧
      s'.data.file.slice x.val.offset x.val.size = s.data.file.slice x.val.offset x.val.size)
    (all : ∀ x ∈ live, x.key = key ∨ x ∈ newer++older) (cache : s'.cache = s.cache.del key)
    (written : s'.data.file.slice e.val.offset e.val.size = val) :
    Represents s' (newer++e::older) (update m key (some val)) := by
  have others := keys_rest keys named
  have split : ∀ x, x ∈ newer++e::older ↔ x = e ∨ x ∈ newer++older := by
    intro x
    simp only [mem_append,mem_cons]
    tauto
  refine ⟨keys,?_,?_,?_⟩
  · intro x mem
    rcases (split x).mp mem with rfl | other
    · rw [named,update_self,written]
    · rw [update_of_ne (others x other),(rest x other).2]
      exact rep.values x (rest x other).1
  · intro k v found
    by_cases same : k = key
    · exact ⟨e,by simp,named.trans same.symm⟩
    · rw [update_of_ne same] at found
      obtain ⟨x,mem,rfl⟩ := rep.complete k v found
      exact ⟨x,(split x).mpr (.inr ((all x mem).resolve_left same)),rfl⟩
  · intro p mem
    rw [cache] at mem
    obtain ⟨old,other⟩ := mem_del mem
    rw [update_of_ne other]
    exact rep.cached p old

lemma Represents.remove (rep : Represents s (newer++e::older) m)
    (named : e.key = key) (data : s'.data = s.data) (cache : s'.cache = s.cache.del key) :
    Represents s' (newer++older) (update m key none) := by
  have others := keys_rest rep.keys named
  have fewer : (newer++older).Sublist (newer++e::older) := (sublist_cons_self e older).append_left newer
  refine ⟨rep.keys.sublist (fewer.map _),?_,?_,?_⟩
  · intro x mem
    rw [update_of_ne (others x mem),data]
    exact rep.values x (mem_of_mem_rest mem)
  · intro k v found
    by_cases same : k = key
    · simp [same] at found
    · rw [update_of_ne same] at found
      obtain ⟨x,mem,rfl⟩ := rep.complete k v found
      refine ⟨x,?_,rfl⟩
      simp only [mem_append,mem_cons] at mem ⊢
      rcases mem with new | rfl | old
      · exact .inl new
      · exact absurd named same
      · exact .inr old
  · intro p mem
    rw [cache] at mem
    obtain ⟨old,other⟩ := mem_del mem
    rw [update_of_ne other]
    exact rep.cached p old

lemma Confined.slice_eq (confined : Confined s s' key) (layout : Layout s live) (rep : Represents s live m)
    (whole : cStr key = key) : ∀ x ∈ live, x.key ≠ key →
      s'.data.file.slice x.val.offset x.val.size = s.data.file.slice x.val.offset x.val.size :=
  fun x mem other => (confined.others x.key x.val (whole.symm ▸ other) (rep.valueLink_eq layout mem)).2

lemma moved_slice_eq
    (layout : Layout s (newer++e::older)) (layout' : Layout s' (newer++{ e with val := l } :: older))
    (rep : Represents s (newer++e::older) m) (careful : Careful s (.set key val)) (same : e.key = key)
    (long : e.val.totalSize < val.length)
    (allocated : findRooMAndWrite val s.data (s.freeData.set e.val.totalSize e.val) = some (l,data,s'.freeData))
    (wrote : data.write val = some s'.data) (mem : x ∈ newer++older) (other : x.key ≠ key) :
    s'.data.file.slice x.val.offset x.val.size = s.data.file.slice x.val.offset x.val.size := by
  have front : Space ValueLink s'.data (l::(newer++older).map Entry.val) s'.freeData := layout'.values_front
  obtain ⟨room,_⟩ := layout.values_front.release.alloc allocated (le_refl val.length)
  obtain ⟨_,file⟩ := moved_writes allocated wrote
  have inside : x ∈ newer++e::older := mem_of_mem_rest mem
  have size : x.val.size ≤ x.val.totalSize := layout.valueLink inside
  have below := layout.values.end_le (List.mem_map_of_mem inside)
  -- The second copy is apart from the value: beyond the old end of the file, or by the condition.
  have apart : Apart ⟨l.offset+val.length,val.length⟩ ⟨x.val.offset,x.val.size⟩ := by
    obtain ⟨_,⟨total,found,_⟩ | ⟨_,rfl,_⟩⟩ := findRooMAndWrite_cases allocated
    · rw [lowerBound_set long] at found
      have mine := rep.valueLink_eq layout (show e ∈ newer++e::older by simp)
      rw [same] at mine
      exact (careful.2.2 _ mine long _ found).2 x.key x.val other (rep.valueLink_eq layout inside)
    · refine (apart_of_end_le ?_).symm
      simp only [Extent.end]
      omega
  rw [file,slice_write_of_disjoint (fun i above below start => ?_),front.slice_write (List.mem_map_of_mem mem) le_rfl
    (by omega)]
  exact fun stop => apart i ⟨above,below⟩ ⟨start,stop⟩

lemma moved_slice_self
    (layout : Layout s (newer++e::older)) (rep : Represents s (newer++e::older) m)
    (careful : Careful s (.set key val)) (same : e.key = key) (long : e.val.totalSize < val.length)
    (allocated : findRooMAndWrite val s.data (s.freeData.set e.val.totalSize e.val) = some (l,data,s'.freeData))
    (wrote : data.write val = some s'.data) : s'.data.file.slice l.offset l.size = val := by
  obtain ⟨_,file⟩ := moved_writes allocated wrote
  have size : l.size = val.length := by
    obtain ⟨_,⟨total,found,_⟩ | ⟨_,rfl,_⟩⟩ := findRooMAndWrite_cases allocated
    · rw [lowerBound_set long] at found
      have mine := rep.valueLink_eq layout (show e ∈ newer++e::older by simp)
      rw [same] at mine
      exact (careful.2.2 _ mine long _ found).1
    · rfl
  rw [file,size,slice_write_of_disjoint (by omega),slice_write_self]

lemma Represents.keys_replace (rep : Represents s (newer++e::older) m)
    (same : e'.key = e.key) : ((newer++e'::older).map Entry.key).Nodup := by
  have keys : (newer++e'::older).map Entry.key = (newer++e::older).map Entry.key := by simp [same]
  rw [keys]
  exact rep.keys

lemma mem_rest (named : e.key = key) :
    ∀ x ∈ newer++e::older, x.key = key ∨ x ∈ newer++older := by
  intro x mem
  simp only [mem_append,mem_cons] at mem ⊢
  rcases mem with new | rfl | old
  · exact .inr (.inl new)
  · exact .inl named
  · exact .inr (.inr old)

lemma Represents.isSome (rep : Represents s live m) (mem : e ∈ live) (named : e.key = key) :
    (m key).isSome = true := by
  rw [← named,rep.values e mem]
  rfl

lemma find_mem (found : c.find key = some val) : (key,val) ∈ c := by
  obtain ⟨⟨k,v⟩,hit,rfl⟩ := map_eq_some_iff.mp found
  have same : k = key := by simpa using find?_some hit
  exact same ▸ mem_of_find?_eq_some hit

lemma mem_cache_set (mem : p ∈ c.set key val) : p = (key,val) ∨ p ∈ c := by
  unfold LRUCache.set at mem
  split at mem
  · rcases mem_cons.mp mem with rfl | old
    · exact .inl rfl
    · exact .inr (mem_del old).1
  · rcases mem_cons.mp mem with rfl | old
    · exact .inl rfl
    · split at old
      · exact .inr ((dropLast_sublist _).subset old)
      · exact .inr old

/-- A careful operation answers as the map does, and the store represents the new map. -/
lemma represents_step (layout : Layout s live) (layout' : Layout s' live')
    (effect : Effect s live op r s' live') (rep : Represents s live m) (careful : Careful s op) :
    r = (m.step op).1 ∧ Represents s' live' (m.step op).2 := by
  have whole : cStr op.key = op.key := cStr_of_plain careful.plain
  have confined := confined_iff layout layout' effect
  cases effect with
  | addPresent mem same =>
    simp only [Map.step,rep.isSome mem same,if_true]
    exact ⟨trivial,rep.forget _⟩
  | setAbsent fresh | delAbsent fresh =>
    simp only [Map.step,rep.eq_none fresh,isSome_none,if_ff]
    exact ⟨trivial,rep.forget _⟩
  | @add key val e s' fresh named cache allocated =>
    simp only [Map.step,rep.eq_none fresh,isSome_none,if_ff]
    have named : e.key = key := named.trans whole
    have kept := (confined.mpr id).slice_eq layout rep whole
    have absent : s.valueLink key = none := by
      rw [layout.valueLink_eq]
      simpa using fresh
    obtain ⟨wrote,source⟩ := findRooMAndWrite_cases allocated
    have size : e.val.size = val.length := by
      rcases source with ⟨total,found,_⟩ | ⟨_,link,_⟩
      · exact careful.2.2.2.2 absent _ found
      · rw [link]
    obtain ⟨_,data⟩ := Fd.write_eq_some.mp wrote
    refine ⟨trivial,?_⟩
    show Represents s' ([]++e::live) _
    refine rep.put ?_ named (fun x mem => ⟨mem,kept x mem (fresh x mem)⟩) (fun x mem => .inr mem) cache ?_
    · refine nodup_cons.mpr ⟨?_,rep.keys⟩
      intro mem
      obtain ⟨x,inside,same⟩ := List.mem_map.mp mem
      exact fresh x inside (same.trans named)
    · rw [data,size]
      exact slice_write_self _ _ _
  | @setInPlace key val newer older e s' split fresh named cache fits wrote =>
    subst split
    have mine := rep.valueLink_eq layout (show e ∈ newer++e::older by simp)
    have kept := (confined.mpr (by
      rintro ⟨l,stored,long,_⟩
      rw [named] at mine
      obtain rfl : e.val = l := by simpa [mine] using stored
      omega)).slice_eq layout rep whole
    obtain ⟨_,data⟩ := Fd.write_eq_some.mp wrote
    have others := keys_rest rep.keys named
    simp only [Map.step,rep.isSome (show e ∈ newer++e::older by simp) named,if_true]
    refine ⟨trivial,rep.put (rep.keys_replace rfl) named
      (fun x mem => ⟨mem_of_mem_rest mem,kept x (mem_of_mem_rest mem) (others x mem)⟩) (mem_rest named) cache ?_⟩
    rw [data]
    exact slice_write_self _ _ _
  | @setMoved key val newer older e l data s' split fresh named cache long allocated wrote =>
    subst split
    have others := keys_rest rep.keys named
    simp only [Map.step,rep.isSome (show e ∈ newer++e::older by simp) named,if_true]
    refine ⟨trivial,rep.put (rep.keys_replace rfl) named
      (fun x mem => ⟨mem_of_mem_rest mem,?_⟩) (mem_rest named) cache ?_⟩
    · exact moved_slice_eq layout layout' rep careful named long allocated wrote mem (others x mem)
    · exact moved_slice_self layout rep careful named long allocated wrote
  | @del key newer older e s' split fresh named cache data =>
    subst split
    simp only [Map.step,rep.isSome (show e ∈ newer++e::older by simp) named,if_true]
    exact ⟨trivial,rep.remove named data cache⟩
  | @getCached key val cache hit =>
    obtain ⟨v,found,same⟩ := map_eq_some_iff.mp hit
    cases same
    have cached := rep.cached _ (find_mem found)
    refine ⟨by simp only [Map.step,cached],rep.keys,rep.values,rep.complete,?_⟩
    exact forall_mem_cons.mpr ⟨cached,fun p old => rep.cached p (mem_del old).1⟩
  | getAbsent miss fresh =>
    simp only [Map.step,rep.eq_none fresh]
    exact ⟨trivial,rep⟩
  | @get key newer older e miss split fresh named =>
    have value := rep.values e (by simp [split])
    rw [named] at value
    refine ⟨by simp only [Map.step,value],rep.keys,rep.values,rep.complete,?_⟩
    intro p mem
    rcases mem_cache_set mem with rfl | old
    · exact value
    · exact rep.cached p old

lemma represents_run (layout : Layout s live) (rep : Represents s live m)
    (careful : Meets DB.next Careful s ops) : ∃ s', s.run ops = some (m.run ops,s') := by
  induction ops generalizing s live m with
  | nil => exact ⟨s,rfl⟩
  | cons op ops ih =>
    obtain ⟨r,s',ran⟩ := exists_step layout careful.1
    obtain ⟨live',layout',effect⟩ := step_effect layout ran
    obtain ⟨rfl,rep'⟩ := represents_step layout layout' effect rep careful.1
    have later := careful.2
    rw [show s.next op = some s' by simp [DB.next,ran]] at later
    obtain ⟨s'',rest⟩ := ih layout' rep' later
    exact ⟨s'',by simp [DB.run,Map.run,ran,rest]⟩

end

/-- On a new database every careful sequence of operations returns, and returns
what the map returns. -/
theorem store_refines {s : DB} (created : DB.create = some s) (ops : List Op) (careful : Meets DB.next Careful s ops) :
    ∃ s', s.run ops = some (Map.run (fun _ => none) ops,s') := by
  rw [create_eq] at created
  cases created
  exact represents_run layout_fresh ⟨nodup_nil,by simp,by simp,by simp [DB.fresh,DB.started]⟩ careful

/-- Enough for the condition, and easy to check: values go into recycled extents
only by `Add`, and only where the old value had their size. -/
def Tidy (s : DB) : Op → Prop
  | .add key val => Plain key ∧ key.length < 2^31 ∧ s.idx.file.size+key.length+53 < 2^63 ∧
      s.data.file.size+val.length < 2^63 ∧ ∀ p ∈ (s.freeData.lowerBound val.length).toList, p.2.size = val.length
  | .set key val => Plain key ∧ s.data.file.size+2*val.length < 2^63 ∧ s.freeData.lowerBound val.length = none
  | .del key => Plain key
  | .get key => Plain key
instance (s : DB) : (op : Op) → Decidable (Tidy s op)
  | .add _ _ | .set _ _ => decideAs (_ ∧ _)
  | .del _ | .get _ => decideAs (Plain _)

lemma careful_of_tidy (s : DB) (op : Op) (tidy : Tidy s op) : Careful s op := by
  cases op with
  | add key val =>
    obtain ⟨plain,short,index,data,sizes⟩ := tidy
    exact ⟨plain,short,index,data,fun _ p found => sizes p (by simp [found])⟩
  | set key val =>
    obtain ⟨plain,data,none⟩ := tidy
    exact ⟨plain,data,fun _ _ _ p found => by simp [none] at found⟩
  | del key => exact tidy
  | get key => exact tidy

/-- A value moves, is deleted, and its extent is used again for one of the same size. -/
def tidy : List Op := [.add [97] [1,1],.set [97] [2,2,2,2],.get [97],.del [97],.add [98] [3,3,3,3],.get [98],.get [97]]

theorem store_refines_tidy : ∃ s s', DB.create = some s ∧ s.run tidy = some (Map.run (fun _ => none) tidy,s') ∧
    Map.run (fun _ => none) tidy = [.done true,.done true,.value (some [2,2,2,2]),.done true,.done true,
      .value (some [3,3,3,3]),.value none] := by
  have meets : Meets DB.next Tidy DB.fresh tidy := by decide +kernel
  obtain ⟨s',ran⟩ := store_refines create_eq tidy (meets.imp careful_of_tidy)
  exact ⟨DB.fresh,s',create_eq,ran,by decide⟩

/-- The extent of a deleted value of five bytes is used again for two. -/
def recycled : List Op := [.add [97] [1,1,1,1,1],.del [97],.add [98] [2,2],.get [98]]

theorem recycled_value_keeps_old_size : (∀ op ∈ recycled, Plain op.key) ∧
    (DB.create.bind (fun s => s.run recycled)).map Prod.fst =
      some [.done true,.done true,.done true,.value (some [2,2,1,1,1])] ∧
    Map.run (fun _ => none) recycled = [.done true,.done true,.done true,.value (some [2,2])] := by
  refine ⟨by decide +kernel,?_,by decide⟩
  rw [create_eq,bind_some]
  decide +kernel

end CodeExercise.Db
