import CodeExercise.DbLayout
import CodeExercise.Runs

/-!
One operation of the store, in terms of its live entries. In a state with a layout nothing but an
`Effect` happens and the layout stays, so every state that operations reach from a new database has
one (`reach_layout`).
-/
namespace CodeExercise.Db
open CodeExercise.Files CodeExercise.SortedMaps CodeExercise.Extents CodeExercise.Runs

/-- The state after an operation. -/
def DB.next (s : DB) (op : Op) : Option DB := (s.step op).map Prod.snd
/-- `Writer` drops the key from the cache before it does anything else. -/
def DB.forget (s : DB) (key : Bytes) : DB := { s with cache := s.cache.del key }

lemma Layout.cache (layout : Layout s live) (cache : LRUCache) :
    Layout { s with cache := cache } live :=
  { layout with }

/-- The operation, its result, and the store and its live entries afterwards. -/
inductive Effect (s : DB) (live : List Entry) : Op → Res → DB → List Entry → Prop where
  | addPresent {key val : Bytes} {e : Entry} (mem : e ∈ live) (same : e.key = key) :
      Effect s live (.add key val) (.done false) (s.forget key) live
  | add {key val : Bytes} {e : Entry} {s' : DB} (fresh : ∀ x ∈ live, x.key ≠ key) (named : e.key = cStr key)
      (cache : s'.cache = s.cache.del key)
      (allocated : findRooMAndWrite val s.data s.freeData = some (e.val,s'.data,s'.freeData)) :
      Effect s live (.add key val) (.done true) s' (e::live)
  | setAbsent {key val : Bytes} (fresh : ∀ x ∈ live, x.key ≠ key) :
      Effect s live (.set key val) (.done false) (s.forget key) live
  | setInPlace {key val : Bytes} {newer older : List Entry} {e : Entry} {s' : DB} (split : live = newer++e::older)
      (fresh : ∀ x ∈ newer, x.key ≠ key) (same : e.key = key) (cache : s'.cache = s.cache.del key)
      (fits : val.length ≤ e.val.totalSize) (wrote : (s.data.lseek e.val.offset).write val = some s'.data) :
      Effect s live (.set key val) (.done true) s'
        (newer++{ e with val := { e.val with size := val.length } } :: older)
  | setMoved {key val : Bytes} {newer older : List Entry} {e : Entry} {l : Link} {data : Fd} {s' : DB}
      (split : live = newer++e::older) (fresh : ∀ x ∈ newer, x.key ≠ key) (same : e.key = key)
      (cache : s'.cache = s.cache.del key) (long : e.val.totalSize < val.length)
      (allocated : findRooMAndWrite val s.data (s.freeData.set e.val.totalSize e.val) = some (l,data,s'.freeData))
      (wrote : data.write val = some s'.data) :
      Effect s live (.set key val) (.done true) s' (newer++{ e with val := l } :: older)
  | delAbsent {key : Bytes} (fresh : ∀ x ∈ live, x.key ≠ key) :
      Effect s live (.del key) (.done false) (s.forget key) live
  | del {key : Bytes} {newer older : List Entry} {e : Entry} {s' : DB} (split : live = newer++e::older)
      (fresh : ∀ x ∈ newer, x.key ≠ key) (same : e.key = key) (cache : s'.cache = s.cache.del key)
      (data : s'.data = s.data) : Effect s live (.del key) (.done true) s' (newer++older)
  | getCached {key val : Bytes} {cache : LRUCache} (hit : s.cache.get key = some (val,cache)) :
      Effect s live (.get key) (.value (some val)) { s with cache := cache } live
  | getAbsent {key : Bytes} (miss : s.cache.get key = none) (fresh : ∀ x ∈ live, x.key ≠ key) :
      Effect s live (.get key) (.value none) s live
  | get {key : Bytes} {newer older : List Entry} {e : Entry} (miss : s.cache.get key = none)
      (split : live = newer++e::older) (fresh : ∀ x ∈ newer, x.key ≠ key) (same : e.key = key) :
      Effect s live (.get key) (.value (some (s.data.file.slice e.val.offset e.val.size)))
        { s with cache := s.cache.set key (s.data.file.slice e.val.offset e.val.size) } live

section
variable {s s' : DB} {live : List Entry} {h : Nat} {key : Bytes}

lemma Layout.getVal_eq (layout : Layout s live) (mem : e ∈ live) :
    getVal s.data.file e.val = some (s.data.file.slice e.val.offset e.val.size) := by
  have size : e.val.size ≤ e.val.totalSize := layout.valueLink mem
  have inside := layout.values.end_le (List.mem_map_of_mem mem)
  exact read_eq_some (by omega)

lemma getInternal_effect (layout : Layout s live) (place : bucket key = some h)
    (ran : s.getInternal h key = some (found,s')) : Layout s' live ∧ Effect s live (.get key) (.value found) s' live := by
  unfold DB.getInternal at ran
  split at ran
  · next val cache hit =>
    cases ran
    exact ⟨layout.cache cache,.getCached hit⟩
  · next miss =>
    rcases layout.find_cases place with ⟨fresh,none⟩ | ⟨newer,e,older,split,fresh,same,some⟩
    · simp only [none,some_bind] at ran
      cases ran
      exact ⟨layout,.getAbsent miss fresh⟩
    · have mem : e ∈ live := by simp [split]
      simp only [some,some_bind,Entry.node,layout.getVal_eq mem] at ran
      cases ran
      exact ⟨layout.cache _,.get miss split fresh same⟩

lemma step_effect (layout : Layout s live) (ran : s.step op = some (r,s')) :
    ∃ live', Layout s' live' ∧ Effect s live op r s' live' := by
  obtain ⟨h,place,inner⟩ := Option.bind_eq_some_iff.mp ran
  have forgot := layout.cache (s.cache.del op.key)
  cases op with
  | add key val =>
    obtain ⟨⟨ok,after⟩,done,same⟩ := Option.map_eq_some_iff.mp inner
    cases same
    rcases addInternal_cases forgot place done with ⟨rfl,rfl,e,mem,same⟩ | ⟨rfl,fresh,e,named,layout',cache,allocated⟩
    · exact ⟨live,forgot,.addPresent mem same⟩
    · exact ⟨_,layout',.add fresh named cache allocated⟩
  | set key val =>
    obtain ⟨⟨ok,after⟩,done,same⟩ := Option.map_eq_some_iff.mp inner
    cases same
    rcases setInternal_cases forgot place done with
      ⟨rfl,rfl,fresh⟩ | ⟨rfl,newer,e,older,l,split,fresh,same,layout',cache,inPlace | moved⟩
    · exact ⟨live,forgot,.setAbsent fresh⟩
    · obtain ⟨fits,rfl,wrote,_⟩ := inPlace
      exact ⟨_,layout',.setInPlace split fresh same cache fits wrote⟩
    · obtain ⟨long,data,allocated,wrote⟩ := moved
      exact ⟨_,layout',.setMoved split fresh same cache long allocated wrote⟩
  | del key =>
    obtain ⟨⟨ok,after⟩,done,same⟩ := Option.map_eq_some_iff.mp inner
    cases same
    rcases delInternal_cases forgot place done with
      ⟨rfl,rfl,fresh⟩ | ⟨rfl,newer,e,older,split,fresh,same,layout',cache,data⟩
    · exact ⟨live,forgot,.delAbsent fresh⟩
    · exact ⟨_,layout',.del split fresh same cache data⟩
  | get key =>
    obtain ⟨⟨found,after⟩,done,same⟩ := Option.map_eq_some_iff.mp inner
    cases same
    exact ⟨live,getInternal_effect layout place done⟩

lemma reach_layout :
    ∀ s, Reach (fun s => DB.create = some s) ok DB.next s → ∃ live, Layout s live := by
  apply Reach.invariant
  · intro s created
    rw [create_eq] at created
    cases created
    exact ⟨[],layout_fresh⟩
  · rintro s op s' ⟨live,layout⟩ _ moved
    obtain ⟨⟨r,after⟩,ran,rfl⟩ := Option.map_eq_some_iff.mp moved
    obtain ⟨live',layout',_⟩ := step_effect layout ran
    exact ⟨live',layout'⟩

/-- The nodes of a list, as `Print` walks along them. -/
def DB.nodes (s : DB) (h : Nat) : Option (List Node) := nodesFrom s.idx.file (s.idx.file.size+1) (s.heads h)

/-- The link of the value that is stored for a key. -/
def DB.valueLink (s : DB) (key : Bytes) : Option Link :=
  (bucket key).bind (fun h => (s.find h key).bind (fun found => found.map (fun f => f.node.valLink)))

lemma Layout.nodes_eq (layout : Layout s live) (inside : h < hashTableSize) :
    s.nodes h = some (nodesOf (chain live h)) := by
  unfold DB.nodes
  rw [layout.index.head h inside]
  exact nodesFrom_stored (layout.index.stored h) (fun e mem => layout.readable e (mem_chain.mp mem).1)
    (layout.chain_length h)

lemma Layout.valueLink_eq (layout : Layout s live) (key : Bytes) :
    s.valueLink key = (live.find? (fun e => e.key = key)).map Entry.val := by
  unfold DB.valueLink
  cases place : bucket key with
  | none =>
    have fresh : live.find? (fun e => e.key = key) = none := by
      rw [List.find?_eq_none]
      intro e mem same
      have named := (layout.keys e mem).2
      simp only [decide_eq_true_eq] at same
      simp [same,place] at named
    simp [fresh]
  | some h =>
    rcases layout.find_cases place with ⟨fresh,none⟩ | ⟨newer,e,older,rfl,fresh,same,some⟩
    · have found : live.find? (fun e => e.key = key) = Option.none := by simpa using fresh
      simp [none,found]
    · have found : (newer++e::older).find? (fun e => e.key = key) = Option.some e :=
        List.find?_eq_some_iff_append.mpr ⟨by simpa using same,newer,older,rfl,by simpa using fresh⟩
      simp [some,found,Entry.node]

end

/-! ## The extents of the values in the data file -/
open List Option

/-- The extents of all live values and of all entries of `free_data_`. -/
def DB.valueExtents (s : DB) : List Extent :=
  (List.range hashTableSize).flatMap (fun h => ((s.nodes h).getD []).map (fun n => n.valLink.extent)) ++
    s.freeData.values.map Link.extent

/-- What an operation on `key` may do to the data file. -/
structure Confined (s s' : DB) (key : Bytes) : Prop where
  inside : ∃ writes, s'.data.writes = writes++s.data.writes ∧
    ∀ w ∈ writes, ∀ i, w.Has i → ∃ l, s'.valueLink (cStr key) = some l ∧ l.extent.Has i
  others : ∀ k l, k ≠ cStr key → s.valueLink k = some l →
    s'.valueLink k = some l ∧ s'.data.file.slice l.offset l.size = s.data.file.slice l.offset l.size

/-- `Set` of a value that does not fit, with no free extent that has room for it
or one without room for two copies. -/
def Spills (s : DB) : Op → Prop
  | .set key val => ∃ l, s.valueLink key = some l ∧ l.totalSize < val.length ∧
      ∀ p, s.freeData.lowerBound val.length = some p → p.2.totalSize < 2*val.length
  | _ => False

lemma flatMap_chain_perm (named : ∀ e ∈ live, (bucket e.key).isSome) :
    ((List.range hashTableSize).flatMap (chain live)).Perm live := by
  induction live with
  | nil =>
    have none : (List.range hashTableSize).flatMap (chain []) = [] := flatMap_eq_nil_iff.mpr (fun _ _ => rfl)
    rw [none]
  | cons e live ih =>
    obtain ⟨b,place⟩ := isSome_iff_exists.mp (named e (by simp))
    obtain ⟨low,high,split⟩ := append_of_mem (mem_range.mpr (bucket_lt place))
    have nodup : (low++b::high).Nodup := split ▸ nodup_range
    have once := (nodup_cons.mp (perm_middle.nodup_iff.mp nodup)).1
    have elsewhere : ∀ h ∈ low++high, chain (e::live) h = chain live h := by
      intro h mem
      refine chain_cons_of_ne ?_
      rw [place]
      intro same
      obtain rfl : b = h := by simpa using same
      exact once mem
    have tail := ih (fun x mem => named x (mem_cons_of_mem _ mem))
    rw [split] at tail ⊢
    simp only [flatMap_append,flatMap_cons] at tail ⊢
    rw [chain_cons_of_eq place,flatMap_congr (fun h mem => elsewhere h (mem_append_left _ mem)),
      flatMap_congr (fun h mem => elsewhere h (mem_append_right _ mem))]
    exact perm_middle.trans (tail.cons e)

lemma map_nodesOf (es : List Entry) :
    (nodesOf es).map (fun n => n.valLink.extent) = es.map (fun e => e.val.extent) := by
  induction es with
  | nil => rfl
  | cons e es ih => simp [nodesOf,Entry.node,ih]

section
variable {s s' : DB} {live : List Entry}

lemma Layout.valueExtents_perm (layout : Layout s live) :
    s.valueExtents.Perm (extents (live.map Entry.val) s.freeData) := by
  have lists : (List.range hashTableSize).flatMap (fun h => ((s.nodes h).getD []).map (fun n => n.valLink.extent)) =
      ((List.range hashTableSize).flatMap (chain live)).map (fun e => e.val.extent) := by
    rw [map_flatMap]
    refine flatMap_congr fun h mem => ?_
    rw [layout.nodes_eq (mem_range.mp mem),getD_some,map_nodesOf]
  unfold DB.valueExtents extents
  rw [lists,map_append,List.map_map]
  exact ((flatMap_chain_perm (fun e mem => (layout.keys e mem).2)).map _).append_right _

lemma Layout.separated (layout : Layout s live) : Separated s.valueExtents :=
  layout.values.separated.perm layout.valueExtents_perm.symm

variable {l : Link} {fd : Fd} {newer older : List Entry} {e : Entry} {k : Bytes}

lemma part_has (low : l.offset ≤ off) (high : off+n ≤ l.offset+l.totalSize)
    (has : Extent.Has ⟨off,n⟩ i) : l.extent.Has i := ⟨low.trans has.1,Nat.lt_of_lt_of_le has.2 high⟩

lemma Space.slice_write {free : FreeMap} {u : Link} {off : Nat} {data : Bytes} {f : File}
    (space : Space ValueLink fd (l::used) free) (other : u ∈ used) (low : l.offset ≤ off)
    (high : off+data.length ≤ l.offset+l.totalSize) : (f.write off data).slice u.offset u.size = f.slice u.offset u.size := by
  have fits : u.size ≤ u.totalSize := space.fits u (by simp [other])
  refine slice_write_of_disjoint fun i above below start stop => ?_
  exact space.apart u other i (part_has low high ⟨above,below⟩) ⟨start,stop.trans_le (Nat.add_le_add_left fits _)⟩

lemma confined_refl (key : Bytes) (data : s'.data = s.data)
    (links : ∀ k, k ≠ cStr key → s'.valueLink k = s.valueLink k) : Confined s s' key := by
  refine ⟨⟨[],by simp [data],by simp⟩,fun k l other stored => ⟨?_,by rw [data]⟩⟩
  rwa [links k other]

lemma find?_replace (left : e.key ≠ k) (right : e'.key ≠ k) :
    (newer++e'::older).find? (fun x => x.key = k) = (newer++e::older).find? (fun x => x.key = k) := by
  simp [find?_append,left,right]

lemma find?_remove (other : e.key ≠ k) :
    (newer++older).find? (fun x => x.key = k) = (newer++e::older).find? (fun x => x.key = k) := by
  simp [find?_append,other]

lemma find?_first (fresh : ∀ x ∈ newer, x.key ≠ k)
    (same : e.key = k) : (newer++e::older).find? (fun x => x.key = k) = some e :=
  find?_eq_some_iff_append.mpr ⟨by simpa using same,newer,older,rfl,by simpa using fresh⟩

lemma exists_other (other : e.key ≠ k)
    (stored : ((newer++e::older).find? (fun x => x.key = k)).map Entry.val = some l) :
    l ∈ (newer++older).map Entry.val := by
  rw [← find?_remove other] at stored
  obtain ⟨x,found,rfl⟩ := map_eq_some_iff.mp stored
  exact List.mem_map_of_mem (mem_of_find?_eq_some found)

lemma confined_of_writes (writes : List Extent)
    (layout' : Layout s' (newer++e::older)) (fresh : ∀ x ∈ newer, x.key ≠ cStr key) (named : e.key = cStr key)
    (links : ∀ k, k ≠ cStr key → s'.valueLink k = s.valueLink k) (wrote : s'.data.writes = writes++s.data.writes)
    (inside : ∀ w ∈ writes, ∀ i, w.Has i → e.val.extent.Has i)
    (kept : ∀ u ∈ (newer++older).map Entry.val,
      s'.data.file.slice u.offset u.size = s.data.file.slice u.offset u.size) : Confined s s' key := by
  have mine : s'.valueLink (cStr key) = some e.val := by rw [layout'.valueLink_eq,find?_first fresh named]; rfl
  refine ⟨⟨writes,wrote,fun w mem i has => ⟨e.val,mine,inside w mem i has⟩⟩,?_⟩
  intro k l other stored
  rw [← links k other] at stored
  refine ⟨stored,kept l ?_⟩
  rw [layout'.valueLink_eq] at stored
  exact exists_other (named ▸ Ne.symm other) stored

lemma moved_writes
    (allocated : findRooMAndWrite val fd free = some (l,fd',free')) (wrote : fd'.write val = some fd'') :
    fd''.writes = [⟨l.offset+val.length,val.length⟩,⟨l.offset,val.length⟩]++fd.writes ∧
    fd''.file = (fd.file.write l.offset val).write (l.offset+val.length) val := by
  obtain ⟨first,_⟩ := findRooMAndWrite_cases allocated
  obtain ⟨_,rfl⟩ := Fd.write_eq_some.mp first
  obtain ⟨_,rfl⟩ := Fd.write_eq_some.mp wrote
  exact ⟨rfl,rfl⟩

lemma moved_totalSize {free free' : FreeMap} {old : Link} {val : Bytes}
    (long : old.totalSize < val.length)
    (allocated : findRooMAndWrite val fd (free.set old.totalSize old) = some (l,fd',free')) :
    (∀ p, free.lowerBound val.length = some p → p.2.totalSize < 2*val.length) ↔ l.totalSize < 2*val.length := by
  obtain ⟨_,⟨size,found,_⟩ | ⟨none,rfl,_⟩⟩ := findRooMAndWrite_cases allocated
  · rw [lowerBound_set long] at found
    simp [found]
  · rw [lowerBound_set long] at none
    simp only [none,reduceCtorEq,false_implies,implies_true,true_iff]
    omega

lemma confined_iff_moved {data : Fd}
    (layout : Layout s (newer++e::older)) (layout' : Layout s' (newer++{ e with val := l } :: older))
    (fresh : ∀ x ∈ newer, x.key ≠ key) (same : e.key = key) (long : e.val.totalSize < val.length)
    (allocated : findRooMAndWrite val s.data (s.freeData.set e.val.totalSize e.val) = some (l,data,s'.freeData))
    (wrote : data.write val = some s'.data) : Confined s s' key ↔ ¬ Spills s (.set key val) := by
  have whole : cStr key = key := same ▸ (layout.keys e (by simp)).1
  have spills : Spills s (.set key val) ↔ l.totalSize < 2*val.length := by
    rw [← moved_totalSize long allocated]
    simp only [Spills,layout.valueLink_eq,find?_first fresh same,map_some,some.injEq,exists_eq_left',
      long,true_and]
  obtain ⟨written,file⟩ := moved_writes allocated wrote
  obtain ⟨room,_⟩ := layout.values_front.release.alloc allocated (le_refl val.length)
  have front : Space ValueLink s'.data (l::(newer++older).map Entry.val) s'.freeData := layout'.values_front
  have mine : s'.valueLink key = some l := by
    rw [layout'.valueLink_eq,find?_first fresh (show ({ e with val := l } : Entry).key = key from same)]
    rfl
  rw [spills]
  constructor
  · rintro ⟨⟨writes,kept,inside⟩,_⟩ narrow
    -- The byte after the extent belongs to the second copy.
    have both : writes = [⟨l.offset+val.length,val.length⟩,⟨l.offset,val.length⟩] :=
      append_cancel_right (kept.symm.trans written)
    obtain ⟨m,assigned,has⟩ := inside ⟨l.offset+val.length,val.length⟩ (by simp [both]) (l.offset+l.totalSize)
      ⟨by simp only []; omega,by simp only []; omega⟩
    obtain rfl : l = m := by simpa [whole,mine] using assigned
    exact absurd has.2 (by simp [Link.extent])
  · intro wide
    refine confined_of_writes _ layout' (whole.symm ▸ fresh) (whole.symm ▸ same) ?_ written ?_ ?_
    · intro k other
      rw [whole] at other
      rw [layout'.valueLink_eq,layout.valueLink_eq]
      exact congrArg _ (find?_replace (same ▸ Ne.symm other) (same ▸ Ne.symm other))
    · intro w mem i has
      show l.extent.Has i
      rcases mem_pair.mp mem with rfl | rfl
      · exact part_has (by omega) (by omega) has
      · exact part_has le_rfl (by omega) has
    · intro u mem
      rw [file,front.slice_write mem (by omega) (by omega),front.slice_write mem le_rfl (by omega)]

/-- An operation is confined exactly if it is not a `Set` whose second copy spills. -/
lemma confined_iff (layout : Layout s live) (layout' : Layout s' live') (effect : Effect s live op r s' live') :
    Confined s s' op.key ↔ ¬ Spills s op := by
  have same : s'.data = s.data → live' = live → Confined s s' op.key := by
    rintro data rfl
    exact confined_refl _ data fun k _ => (layout'.valueLink_eq k).trans (layout.valueLink_eq k).symm
  have absent : ∀ {key}, (∀ x ∈ live, x.key ≠ key) → s.valueLink key = none := by
    intro key fresh
    rw [layout.valueLink_eq]
    simpa using fresh
  cases effect with
  | addPresent => exact iff_of_true (same rfl rfl) id
  | delAbsent => exact iff_of_true (same rfl rfl) id
  | getCached => exact iff_of_true (same rfl rfl) id
  | getAbsent => exact iff_of_true (same rfl rfl) id
  | get => exact iff_of_true (same rfl rfl) id
  | setAbsent fresh =>
    refine iff_of_true (same rfl rfl) ?_
    rintro ⟨l,stored,_⟩
    simp [absent fresh] at stored
  | @del key newer older e s' split fresh named cache data =>
    subst split
    have whole : cStr key = key := named ▸ (layout.keys e (by simp)).1
    refine iff_of_true (confined_refl _ data ?_) id
    intro k (other : k ≠ cStr key)
    rw [whole] at other
    rw [layout'.valueLink_eq,layout.valueLink_eq]
    exact congrArg _ (find?_remove (named ▸ Ne.symm other))
  | @add key val e s' fresh named cache allocated =>
    obtain ⟨room,_⟩ := layout.values.alloc allocated (le_refl val.length)
    obtain ⟨wrote,_⟩ := findRooMAndWrite_cases allocated
    obtain ⟨_,data⟩ := Fd.write_eq_some.mp wrote
    have front : Space ValueLink s'.data (e.val::live.map Entry.val) s'.freeData := layout'.values
    refine iff_of_true (confined_of_writes [⟨e.val.offset,val.length⟩] (show Layout s' ([]++e::live) from layout')
      (by simp) named ?_ ?_ ?_ ?_) id
    · intro k other
      rw [layout'.valueLink_eq,layout.valueLink_eq]
      have skip : e.key ≠ k := named ▸ Ne.symm other
      simp [skip]
    · rw [data]
      rfl
    · intro w mem i has
      obtain rfl := mem_singleton.mp mem
      exact part_has le_rfl (by omega) has
    · intro u mem
      rw [data]
      exact front.slice_write mem le_rfl (by simp only [Fd.lseek]; omega)
  | @setInPlace key val newer older e s' split fresh named cache fits wrote =>
    subst split
    have whole : cStr key = key := named ▸ (layout.keys e (by simp)).1
    obtain ⟨_,data⟩ := Fd.write_eq_some.mp wrote
    have front : Space ValueLink s'.data (({ e.val with size := val.length } : Link)::(newer++older).map Entry.val)
      s'.freeData := layout'.values_front
    refine iff_of_true (confined_of_writes [⟨e.val.offset,val.length⟩] layout' (whole.symm ▸ fresh)
      (whole.symm ▸ named) ?_ ?_ ?_ ?_) ?_
    · intro k (other : k ≠ cStr key)
      rw [whole] at other
      rw [layout'.valueLink_eq,layout.valueLink_eq]
      exact congrArg _ (find?_replace (named ▸ Ne.symm other) (named ▸ Ne.symm other))
    · rw [data]
      rfl
    · intro w mem i has
      show e.val.extent.Has i
      obtain rfl := mem_singleton.mp mem
      exact part_has le_rfl (by omega) has
    · intro u mem
      rw [data]
      exact front.slice_write mem le_rfl (by simp only [Fd.lseek]; omega)
    · rintro ⟨l,stored,long,_⟩
      rw [layout.valueLink_eq,find?_first fresh named] at stored
      obtain rfl : e.val = l := by simpa using stored
      omega
  | @setMoved key val newer older e l data s' split fresh named cache long allocated wrote =>
    subst split
    exact confined_iff_moved layout layout' fresh named long allocated wrote

end

/-- In every run from a new database the extents of the values are disjoint and
can be found from the heads; an operation writes inside the extent it gives to
its key and leaves the values of all others exactly if it is not a `Set` whose
second copy spills. -/
theorem extents_confined_iff {s : DB} (reached : Reach (fun s => DB.create = some s) anyStep DB.next s) :
    (∀ h, h < hashTableSize → (s.nodes h).isSome) ∧ Separated s.valueExtents ∧
      ∀ op s', s.next op = some s' → (Confined s s' op.key ↔ ¬ Spills s op) := by
  obtain ⟨live,layout⟩ := reach_layout s reached
  refine ⟨fun h inside => by simp [layout.nodes_eq inside],layout.separated,?_⟩
  intro op s' moved
  obtain ⟨⟨r,after⟩,ran,rfl⟩ := map_eq_some_iff.mp moved
  obtain ⟨live',layout',effect⟩ := step_effect layout ran
  exact confined_iff layout layout' effect

/-- A deleted value of eight bytes leaves room for two copies of three. -/
def roomy : List Op := [.add [97] [1,1,1,1,1,1,1,1],.add [98] [2],.del [97]]

theorem extents_confined_iff_roomy : ∃ s s', DB.create.bind (fun s => run DB.next s roomy) = some s ∧
    s.next (.set [98] [3,3,3]) = some s' ∧ s'.valueLink [98] = some ⟨8,8,0⟩ ∧ Confined s s' [98] := by
  obtain ⟨s,ran,free,s',set,link⟩ : ∃ s, run DB.next DB.fresh roomy = some s ∧ s.freeData.lowerBound 3 = some (8,⟨8,8,0⟩) ∧
      ∃ s', s.next (.set [98] [3,3,3]) = some s' ∧ s'.valueLink [98] = some ⟨8,8,0⟩ := by decide +kernel
  have reached : Reach (fun s => DB.create = some s) anyStep DB.next s :=
    Reach.run roomy (.start create_eq) (meets_anyStep _ _) ran
  refine ⟨s,s',by rw [create_eq,bind_some,ran],set,link,?_⟩
  refine ((extents_confined_iff reached).2.2 _ _ set).mpr ?_
  rintro ⟨_,_,_,narrow⟩
  exact absurd (narrow _ free) (by decide)

/-- `b` moves into the extent of `a`, in front of its own old one and of `c`. -/
def crowded : List Op := [.add [97] [1,1,1,1],.add [98] [2],.add [99] [3],.del [97]]

theorem set_overwrites_neighbour : ∃ s s', Reach (fun s => DB.create = some s) anyStep DB.next s ∧
    s.next (.set [98] [4,4,4,4]) = some s' ∧ s.valueLink [99] = some ⟨1,1,5⟩ ∧ s.data.file.slice 5 1 = [3] ∧
    s'.data.file.slice 5 1 = [4] ∧ ¬ Confined s s' [98] := by
  obtain ⟨s,ran,link,before,s',set,new⟩ : ∃ s, run DB.next DB.fresh crowded = some s ∧ s.valueLink [99] = some ⟨1,1,5⟩ ∧
      s.data.file.slice 5 1 = [3] ∧ ∃ s', s.next (.set [98] [4,4,4,4]) = some s' ∧ s'.data.file.slice 5 1 = [4] := by
    decide +kernel
  refine ⟨s,s',Reach.run crowded (.start create_eq) (meets_anyStep _ _) ran,set,link,before,new,?_⟩
  intro confined
  have kept := (confined.others [99] _ (by decide) link).2
  rw [before,new] at kept
  exact absurd kept (by decide)

end CodeExercise.Db
