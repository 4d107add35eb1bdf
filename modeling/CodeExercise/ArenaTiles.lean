import CodeExercise.Arena

/-!
The chunks of a page. `arena_alloc` moves a free chunk or its tail to the chunks in use,
`arena_free` moves it back and joins it with its neighbours. Both write only into free chunks
and into headers.
-/
namespace CodeExercise.Arena
open Files Extents Runs Option
open List hiding count count_append count_cons

/-- The header of size zero the free list starts with. -/
def sentinel : Chunk := ⟨16,0⟩

/-- The page has these free chunks and these chunks in use. -/
structure Tiles (page : Page) (free used : List Chunk) : Prop where
  size : page.size = pageSize
  header : freeMemHeader page = sentinel.offset
  listed : Listed page (sentinel::free)
  gaps : (sentinel::free).Pairwise Gap
  sizes : ∀ c ∈ used, getSize page c.offset = c.units
  units : ∀ c ∈ free++used, 0 < c.units
  count : ∀ i, count ((free++used).map Chunk.extent) i = if 24 ≤ i ∧ i < pageSize then 1 else 0

section
variable {page : Page} {free used : List Chunk}

lemma Tiles.separated (tiles : Tiles page free used) : Separated ((free++used).map Chunk.extent) := by
  apply separated_of_count
  intro i
  rw [tiles.count]
  split <;> omega

variable {c : Chunk} {i : Nat}

section
variable (tiles : Tiles page free used)
include tiles

lemma Tiles.inside (mem : c ∈ free++used) :
    24 ≤ c.offset ∧ c.extent.end ≤ pageSize := by
  have positive := tiles.units c mem
  have within : ∀ i, c.extent.Has i → 24 ≤ i ∧ i < pageSize := by
    intro i has
    have once := tiles.count i
    have some := count_pos.mpr ⟨c.extent,List.mem_map_of_mem mem,has⟩
    by_contra outside
    rw [if_neg outside] at once
    omega
  have first := within c.offset ⟨le_rfl,by simp only [Chunk.extent,nodeSize]; omega⟩
  have last := within (c.extent.end-1) (by simp only [Extent.Has,Extent.end,Chunk.extent,nodeSize]; omega)
  simp only [Extent.end,Chunk.extent,nodeSize] at last ⊢
  omega

lemma Tiles.units_le (mem : c ∈ free++used) : c.units ≤ 512 := by
  have inside := (tiles.inside mem).2
  simp only [Extent.end,Chunk.extent,nodeSize,pageSize] at inside
  omega

lemma Tiles.header_inside (mem : c ∈ sentinel::(free++used)) :
    16 ≤ c.offset ∧ c.offset+nodeSize ≤ pageSize := by
  rcases mem_cons.mp mem with rfl | mem
  · decide
  · have inside := tiles.inside mem
    have positive := tiles.units c mem
    simp only [Extent.end,Chunk.extent,nodeSize] at inside ⊢
    omega

end

lemma header_extent (positive : 0 < c.units) (here : Header c.offset i) : c.extent.Has i := by
  simp only [Header,Extent.Has,Chunk.extent,nodeSize] at here ⊢
  omega

section
variable (tiles : Tiles page free used)
include tiles

lemma Tiles.headers : (sentinel::(free++used)).Pairwise HeadersApart := by
  refine pairwise_cons.mpr ⟨?_,?_⟩
  · intro c mem i first second
    have := tiles.inside mem
    simp only [Header,sentinel,nodeSize] at first second
    omega
  · have separated := pairwise_map.mp tiles.separated
    refine separated.imp_of_mem fun {a b} left right apart i first second => ?_
    exact apart i (header_extent (tiles.units a left) first) (header_extent (tiles.units b right) second)

lemma Tiles.lengths : free.length+used.length ≤ pageSize := by
  have all := tiles.separated.length_le (n := pageSize)
    (fun e mem => by
      obtain ⟨c,inside,rfl⟩ := List.mem_map.mp mem
      exact Nat.mul_pos (tiles.units c inside) (by decide))
    (fun e mem => by
      obtain ⟨c,inside,rfl⟩ := List.mem_map.mp mem
      exact (tiles.inside inside).2)
  rwa [length_map,length_append] at all

lemma Tiles.length_le : free.length ≤ pageSize :=
  (Nat.le_add_right _ _).trans tiles.lengths

lemma Tiles.perm (perm : used.Perm used') :
    Tiles page free used' where
  size := tiles.size
  header := tiles.header
  listed := tiles.listed
  gaps := tiles.gaps
  sizes := fun c mem => tiles.sizes c (perm.mem_iff.mpr mem)
  units := fun c mem => tiles.units c ((perm.append_left free).mem_iff.mpr mem)
  count := fun i => by rw [← count_perm ((perm.append_left free).map Chunk.extent),tiles.count]

/-- Offsets behind the fields of the page that no chunk in use has. -/
def Outside (used : List Chunk) (i : Nat) : Prop := 16 ≤ i ∧ ∀ c ∈ used, ¬ c.extent.Has i

lemma Tiles.outside_extent (mem : d ∈ free)
    (has : d.extent.Has i) : Outside used i := by
  have inside := tiles.inside (mem_append_left used mem)
  have separated := tiles.separated
  rw [map_append] at separated
  refine ⟨(by omega : 16 ≤ d.offset).trans has.1,fun c inUse => ?_⟩
  exact (pairwise_append.mp separated).2.2 _ (List.mem_map_of_mem mem) _ (List.mem_map_of_mem inUse) i has

lemma Tiles.outside (mem : d ∈ sentinel::free)
    (here : Header d.offset i) : Outside used i := by
  rcases mem_cons.mp mem with rfl | mem
  · refine ⟨here.1,fun c inUse has => ?_⟩
    have inside := tiles.inside (mem_append_right free inUse)
    simp only [Header,sentinel,nodeSize,Extent.Has,Chunk.extent] at here has
    omega
  · exact tiles.outside_extent mem (header_extent (tiles.units d (mem_append_left used mem)) here)

end
end

section
variable {page : Page} {used : List Chunk} {k : Nat}

lemma nunits_eq {n : Nat} (small : n < 2^31) : nunits n = ((n+7)/8+1 : Nat) := by
  have units : ((n : Int)%2^64+(nodeSize-1))%2^64/nodeSize+1 = ((n+7)/8+1 : Nat) := by
    simp only [nodeSize]
    omega
  rw [nunits,units]
  refine Int.bmod_eq_of_le ?_ ?_
  all_goals omega

lemma perm_take (pre zs used : List Chunk) (c : Chunk) :
    ((pre++zs)++c::used).Perm ((pre++c::zs)++used) := by
  rw [append_assoc pre (c::zs),cons_append]
  exact perm_middle.trans (by rw [append_assoc]; exact perm_middle.symm)

variable {pre zs : List Chunk} {c : Chunk}

lemma Tiles.take (tiles : Tiles page (pre++c::zs) used)
    (last : sentinel::pre = xs++[e]) :
    Tiles (setNext page e.offset (nextOf zs)) (pre++zs) (c::used) ∧
      Only (Outside used) page (setNext page e.offset (nextOf zs)) := by
  have order : sentinel::(pre++c::zs) = xs++e::c::zs := by
    rw [← cons_append,last,append_assoc]
    rfl
  have order' : sentinel::(pre++zs) = xs++e::zs := by
    rw [← cons_append,last,append_assoc]
    rfl
  have listed := tiles.listed
  have headers := tiles.headers
  rw [← cons_append,order] at headers
  rw [order] at listed
  rw [append_assoc] at headers
  obtain ⟨_,behind,before⟩ := pairwise_append.mp headers
  rw [cons_append,pairwise_cons] at behind
  have first : e ∈ sentinel::(pre++c::zs) := by simp [order]
  have inside := (tiles.header_inside (c := e) (by rw [← cons_append]; exact mem_append_left _ first)).2
  have only := only_setNext page e.offset (nextOf zs) (tiles.size ▸ inside)
  have outside : Only (Outside used) page (setNext page e.offset (nextOf zs)) :=
    only.mono (fun i => tiles.outside first)
  have tail := listed.append xs
  have small : nextOf zs ≤ pageSize := nextOf_le (fun d mem => (tiles.header_inside (by simp [mem])).2)
  refine ⟨?_,outside⟩
  exact {
    size := only.size.trans tiles.size
    header := (outside.freeMemHeader (fun i out => out.1)).trans tiles.header
    listed := by
      rw [order']
      refine listed.replace xs only (fun d mem => before d mem e (by simp)) rfl ⟨?_,getNext_setNext small,?_⟩
      · exact getSize_setNext.trans tail.1
      · exact tail.2.2.2.2.frame only fun d mem => (behind.1 d (by simp [mem])).symm
    gaps := by
      have gaps := tiles.gaps
      exact gaps.sublist (by simp)
    sizes := by
      intro d mem
      have size : getSize page d.offset = d.units := by
        rcases mem_cons.mp mem with rfl | mem
        · exact tail.2.2.1
        · exact tiles.sizes d mem
      have apart : HeadersApart e d := behind.1 d (by
        rcases mem_cons.mp mem with rfl | mem
        · simp
        · simp [mem])
      exact (only.words apart.symm).1.trans size
    units := fun d mem => tiles.units d ((perm_take pre zs used c).mem_iff.mp mem)
    count := fun i => by rw [count_perm ((perm_take pre zs used c).map Chunk.extent),tiles.count] }

lemma Tiles.others (tiles : Tiles page (pre++c::zs) used)
    (mem : d ∈ sentinel::((pre++zs)++used)) (here : Header d.offset i) : ¬ c.extent.Has i := by
  have mine : c ∈ (pre++c::zs)++used := by simp
  rcases mem_cons.mp mem with rfl | mem
  · have inside := tiles.inside mine
    rintro ⟨low,_⟩
    simp only [Header,sentinel,nodeSize,Chunk.extent] at here low
    omega
  · have perm : ((pre++c::zs)++used).Perm (c::((pre++zs)++used)) :=
      (perm_take pre zs used c).symm.trans perm_middle
    have separated := tiles.separated.perm (perm.map Chunk.extent)
    have apart := (pairwise_cons.mp separated).1 _ (List.mem_map_of_mem mem)
    have positive := tiles.units d (perm.mem_iff.mpr (mem_cons_of_mem c mem))
    exact fun has => apart i has (header_extent positive here)

lemma gaps_shrink (pre : List Chunk) (gaps : (pre++c::zs).Pairwise Gap)
    (less : m ≤ c.units) : (pre++⟨c.offset,m⟩::zs).Pairwise Gap := by
  obtain ⟨before,behind,across⟩ := pairwise_append.mp gaps
  obtain ⟨mine,rest⟩ := pairwise_cons.mp behind
  refine pairwise_append.mpr ⟨before,pairwise_cons.mpr ⟨fun d mem => ?_,rest⟩,fun d left e right => ?_⟩
  · have gap := mine d mem
    simp only [Gap,Extent.end,Chunk.extent,nodeSize] at gap ⊢
    omega
  · rcases mem_cons.mp right with rfl | right
    · exact across d left c mem_cons_self
    · exact across d left e (mem_cons_of_mem _ right)

lemma count_carve (pre zs used : List Chunk) (offset m k i : Nat) :
    count (((pre++⟨offset,m⟩::zs)++⟨offset+m*nodeSize,k⟩::used).map Chunk.extent) i =
      count (((pre++⟨offset,m+k⟩::zs)++used).map Chunk.extent) i := by
  have parts := count_split offset (m*nodeSize) (k*nodeSize) [] i
  rw [← Nat.add_mul] at parts
  simp only [map_append,map_cons,Chunk.extent,count_append,count_cons] at parts ⊢
  omega

lemma Tiles.carve (tiles : Tiles page (pre++c::zs) used)
    (units : c.units = m+k) (more : 0 < m) (positive : 0 < k) :
    Tiles (setSize (setSize page c.offset m) (c.offset+m*nodeSize) k) (pre++⟨c.offset,m⟩::zs)
      (⟨c.offset+m*nodeSize,k⟩::used) ∧
      Only (Outside used) page (setSize (setSize page c.offset m) (c.offset+m*nodeSize) k) := by
  have mem : c ∈ pre++c::zs := by simp
  have within := (tiles.inside (mem_append_left used mem)).2
  have length : c.extent.end = c.offset+m*8+k*8 := by
    simp only [Extent.end,Chunk.extent,nodeSize,units]
    omega
  have first := only_setSize page c.offset m (by rw [tiles.size]; simp only [nodeSize]; omega)
  have second := only_setSize (setSize page c.offset m) (c.offset+m*nodeSize) k
    (by rw [first.size,tiles.size]; simp only [nodeSize]; omega)
  have only : Only c.extent.Has page (setSize (setSize page c.offset m) (c.offset+m*nodeSize) k) := by
    refine (first.mono (fun i here => ?_)).trans (second.mono (fun i here => ?_))
    all_goals
      simp only [Header,Extent.Has,Chunk.extent,nodeSize,units] at here ⊢
      omega
  have outside : Only (Outside used) page (setSize (setSize page c.offset m) (c.offset+m*nodeSize) k) :=
    only.mono (fun i => tiles.outside_extent mem)
  have tail := tiles.listed.append (sentinel::pre)
  have lower : getSize (setSize (setSize page c.offset m) (c.offset+m*nodeSize) k) c.offset = m ∧
      getNext (setSize (setSize page c.offset m) (c.offset+m*nodeSize) k) c.offset = nextOf zs := by
    have apart : ∀ i, Header c.offset i → ¬ Header (c.offset+m*nodeSize) i := by
      intro i here there
      simp only [Header,nodeSize] at here there
      omega
    obtain ⟨size,next⟩ := second.words apart
    have small : (m : Int) ≤ pageSize := by
      simp only [pageSize] at within ⊢
      omega
    rw [size,next,getSize_setSize (by omega) small,getNext_setSize]
    exact ⟨rfl,tail.2.1⟩
  refine ⟨?_,outside⟩
  exact {
    size := only.size.trans tiles.size
    header := (outside.freeMemHeader (fun i out => out.1)).trans tiles.header
    listed := by
      refine tiles.listed.replace (sentinel::pre) only
        (fun d mem i => tiles.others ?_) rfl ⟨lower.1,lower.2,?_⟩
      · rw [← cons_append,← cons_append]
        exact mem_append_left _ (mem_append_left _ mem)
      · exact tail.2.2.frame only fun d mem i => tiles.others (by simp [mem])
    gaps := gaps_shrink (sentinel::pre) tiles.gaps (by omega)
    sizes := by
      intro d mem
      rcases mem_cons.mp mem with rfl | mem
      · refine getSize_setSize (by omega) ?_
        simp only [pageSize] at within ⊢
        omega
      · exact (only.words (fun i => tiles.others (by simp [mem]))).1.trans (tiles.sizes d mem)
    units := by
      intro d mem
      simp only [mem_append,mem_cons] at mem
      rcases mem with (mem | rfl | mem) | rfl | mem
      · exact tiles.units d (by simp [mem])
      · exact more
      · exact tiles.units d (by simp [mem])
      · exact positive
      · exact tiles.units d (by simp [mem])
    count := by
      intro i
      rw [count_carve,← units]
      exact tiles.count i }

lemma Tiles.arenaAlloc (tiles : Tiles page free used) {n : Nat} (small : n < 2^31) :
    (arenaAlloc page n = some (0,page) ∧ ∀ c ∈ free, c.units*nodeSize < n+nodeSize) ∨
    ∃ c page' free', arenaAlloc page n = some (c.offset+nodeSize,page') ∧ n+nodeSize ≤ c.units*nodeSize ∧
      Tiles page' free' (c::used) ∧ Only (Outside used) page page' := by
  have fits : ∀ d ∈ free, 0 < d.offset ∧ d.offset+d.units*nodeSize ≤ pageSize := by
    intro d mem
    have inside := tiles.inside (mem_append_left used mem)
    exact ⟨by omega,inside.2⟩
  have search := allocFrom_cases tiles.listed fits (Nat.succ_pos ((n+7)/8)) tiles.length_le
  rw [Arena.arenaAlloc,tiles.header,nunits_eq small,tiles.listed.2.1]
  rcases search with ⟨result,all⟩ | ⟨pre,zs,xs,e,c,rfl,last,units,result⟩ | ⟨pre,zs,c,m,rfl,units,more,result⟩
  · refine .inl ⟨result,?_⟩
    intro d mem
    have less := all d mem
    simp only [nodeSize]
    omega
  · obtain ⟨tiles',only⟩ := tiles.take last
    refine .inr ⟨c,_,_,result,?_,tiles',only⟩
    simp only [nodeSize]
    omega
  · obtain ⟨tiles',only⟩ := tiles.carve units more (Nat.succ_pos _)
    refine .inr ⟨⟨c.offset+m*nodeSize,_⟩,_,_,result,?_,tiles',only⟩
    simp only [nodeSize]
    omega

end

section
variable {page : Page} {free used : List Chunk} {c : Chunk}

variable {d e : Chunk} {pre xs zs : List Chunk}

lemma Tiles.end_le (tiles : Tiles page free (c::used)) (mem : d ∈ free) :
    (d.offset ≤ c.offset → d.extent.end ≤ c.offset) ∧ (c.offset ≤ d.offset → c.extent.end ≤ d.offset) := by
  have separated := tiles.separated
  rw [map_append] at separated
  have apart := (pairwise_append.mp separated).2.2 _ (List.mem_map_of_mem mem) _
    (List.mem_map_of_mem (mem_cons_self (a := c) (l := used)))
  have mine := tiles.units c (by simp)
  have other := tiles.units d (by simp [mem])
  exact ⟨fun before => apart.end_le before (Nat.mul_pos mine (by decide)),
    fun behind => apart.symm.end_le behind (Nat.mul_pos other (by decide))⟩

lemma release_free (last : sentinel::pre = xs++[e])
    (beyond : sentinel.offset < c.offset) (units : ∀ d ∈ pre++c::zs, 0 < d.units ∧ d.units ≤ bound) :
    ∃ free, xs ++ joinHead e (joinHead c zs) = sentinel::free ∧ ∀ d ∈ free, 0 < d.units := by
  have joined : ∀ d ∈ joinHead c zs, 0 < d.units ∧ d.units ≤ c.units+bound :=
    units_joinHead (fun d mem => units d (mem_append_right pre mem))
  cases xs with
  | nil =>
    obtain ⟨rfl,rfl⟩ : sentinel = e ∧ pre = [] := by simpa using last
    refine ⟨joinHead c zs,?_,fun d mem => (joined d mem).1⟩
    cases list : joinHead c zs with
    | nil => rfl
    | cons d rest =>
      have offset : d.offset = c.offset := by
        have head : nextOf (joinHead c zs) = c.offset := nextOf_joinHead
        rwa [list] at head
      have apart : ¬ sentinel.extent.end = d.offset := by
        rw [offset]
        simp only [Extent.end,Chunk.extent,sentinel] at beyond ⊢
        omega
      rw [nil_append,joinHead,if_neg apart]
  | cons x xs =>
    obtain ⟨rfl,rfl⟩ : sentinel = x ∧ pre = xs++[e] := by simpa using last
    refine ⟨xs++joinHead e (joinHead c zs),rfl,fun d mem => ?_⟩
    rcases mem_append.mp mem with mem | mem
    · exact (units d (by simp [mem])).1
    · have mine := units e (by simp)
      have all : ∀ d ∈ e::joinHead c zs, 0 < d.units ∧ d.units ≤ c.units+bound :=
        forall_mem_cons.mpr ⟨⟨mine.1,by omega⟩,joined⟩
      exact (units_joinHead all d mem).1

lemma count_release (last : sentinel::pre = xs++[e])
    (order : xs++joinHead e (joinHead c zs) = sentinel::free') (i : Nat) :
    count (free'.map Chunk.extent) i = count ((pre++c::zs).map Chunk.extent) i := by
  have empty : ∀ cs : List Chunk, count ((sentinel::cs).map Chunk.extent) i = count (cs.map Chunk.extent) i := by
    intro cs
    have nothing : ¬ sentinel.extent.Has i := by
      rintro ⟨low,high⟩
      simp only [sentinel,Chunk.extent] at low high
      omega
    rw [map_cons,count_cons,if_neg nothing]
    rfl
  calc count (free'.map Chunk.extent) i
      = count ((xs++joinHead e (joinHead c zs)).map Chunk.extent) i := by rw [order,empty]
    _ = count ((xs++e::c::zs).map Chunk.extent) i := by
        rw [map_append,count_append,count_joinHead,map_cons,count_cons,count_joinHead,map_append,
          count_append]
        simp only [map_cons,count_cons]
    _ = count ((sentinel::(pre++c::zs)).map Chunk.extent) i := by
        rw [← cons_append,last,append_assoc]
        rfl
    _ = count ((pre++c::zs).map Chunk.extent) i := empty _

lemma Tiles.release (tiles : Tiles page (pre++zs) (c::used))
    (last : sentinel::pre = xs++[e]) (before : ∀ d ∈ pre, d.offset < c.offset) (behind : ∀ d ∈ zs, c.offset ≤ d.offset) :
    ∃ free, Tiles (link (link page c.offset (nextOf zs)) e.offset c.offset) free used ∧
      Only (fun i => Outside (c::used) i ∨ Header c.offset i) page (link (link page c.offset (nextOf zs)) e.offset c.offset) := by
  have order : sentinel::(pre++zs) = xs++e::zs := by
    rw [← cons_append,last,append_assoc]
    rfl
  have first : e ∈ sentinel::(pre++zs) := by simp [order]
  have mine : c ∈ (pre++zs)++c::used := by simp
  have beyond : sentinel.offset < c.offset := by
    have inside := tiles.inside mine
    simp only [sentinel]
    omega
  have listed := tiles.listed
  have headers := tiles.headers
  have gaps := tiles.gaps
  rw [← cons_append,order] at headers
  rw [order] at listed gaps
  obtain ⟨chain,rest,apart⟩ := pairwise_append.mp headers
  have units : ∀ d ∈ pre++c::zs, 0 < d.units ∧ d.units ≤ 512 := by
    intro d mem
    have member' : d ∈ (pre++zs)++c::used := by
      simp only [mem_append,mem_cons] at mem ⊢
      tauto
    exact ⟨tiles.units d member',tiles.units_le member'⟩
  have fits : ∀ d ∈ c::(xs++e::zs), 0 < d.offset ∧ d.offset+nodeSize ≤ pageSize := by
    intro d mem
    rw [← order] at mem
    have inside := tiles.header_inside (c := d) (by
      simp only [mem_append,mem_cons] at mem ⊢
      tauto)
    omega
  have small : e.units ≤ 512 := by
    rcases mem_cons.mp first with rfl | mem
    · decide
    · exact tiles.units_le (mem_append_left _ mem)
  have endE : e.extent.end ≤ c.offset := by
    have mem : e ∈ sentinel::pre := by simp [last]
    rcases mem_cons.mp mem with rfl | mem
    · exact beyond.le
    · exact (tiles.end_le (mem_append_left zs mem)).1 (before e mem).le
  obtain ⟨listed',only⟩ := listed.release tiles.size (tiles.sizes c mem_cons_self) chain
    (fun d mem => apart d mem c mem_cons_self) fits
    (fun d mem => units d (mem_append_right pre mem)) small
  have gaps' := gaps_release gaps endE (fun d mem => (tiles.end_le (mem_append_right pre mem)).2 (behind d mem))
  obtain ⟨free',order',positive⟩ := release_free last beyond units
  have outside : Only (fun i => Outside (c::used) i ∨ Header c.offset i) page
      (link (link page c.offset (nextOf zs)) e.offset c.offset) :=
    only.mono (fun i => Or.rec .inr (fun here => .inl (tiles.outside first here)))
  rw [order'] at listed' gaps'
  refine ⟨free',?_,outside⟩
  exact {
    size := only.size.trans tiles.size
    header := by
      refine (only.freeMemHeader ?_).trans tiles.header
      rintro i (here | here)
      · exact (tiles.header_inside (mem_cons_of_mem _ mine)).1.trans here.1
      · exact (tiles.outside first here).1
    listed := listed'
    gaps := gaps'
    sizes := by
      intro d mem
      refine (only.words ?_).1.trans (tiles.sizes d (mem_cons_of_mem _ mem))
      rintro i here (there | there)
      · exact (pairwise_cons.mp rest).1 d mem i there here
      · exact apart e (by simp) d (mem_cons_of_mem _ mem) i there here
    units := by
      exact forall_mem_append.mpr ⟨positive,fun d mem => tiles.units d (by simp [mem])⟩
    count := by
      intro i
      have whole := tiles.count i
      have lists := count_release last order' i
      simp only [map_append,map_cons,count_append,count_cons] at whole lists ⊢
      omega }

lemma Tiles.arenaFree (tiles : Tiles page free (c::used)) :
    ∃ page' free', arenaFree page (c.offset+nodeSize) = some page' ∧ Tiles page' free' used ∧
      Only (fun i => Outside (c::used) i ∨ Header c.offset i) page page' := by
  have positive : ∀ d ∈ free, 0 < d.offset := by
    intro d mem
    have inside := tiles.inside (mem_append_left (c::used) mem)
    omega
  obtain ⟨pre,zs,xs,e,rfl,last,before,behind,found⟩ := seekFree_eq c.offset tiles.listed positive
    (pairwise_cons.mp tiles.gaps).2 tiles.length_le
  obtain ⟨free',tiles',only⟩ := tiles.release last before behind
  refine ⟨_,free',?_,tiles',only⟩
  have passes : nextOf zs = 0 ∨ nextOf zs > c.offset := by
    cases zs with
    | nil => exact .inl rfl
    | cons d zs =>
      have ends := (tiles.end_le (d := d) (by simp)).2 (behind d mem_cons_self)
      have some := tiles.units c (by simp)
      simp only [Extent.end,Chunk.extent,nodeSize] at ends
      exact .inr (by simp only [nextOf]; omega)
  rw [Arena.arenaFree,tiles.header,tiles.listed.2.1,Nat.add_sub_cancel,found]
  exact if_pos passes

lemma btreeNodeInit_eq (page : Page) : btreeNodeInit page = setInt (setInt (setInt (setInt
    (setInt (setInt (setInt (setInt page 0 1) 4 0) 8 16) 12 0) 24 509) 28 0) 16 0) 20 24 := by
  have header : freeMemHeader (setInt (setInt (setInt (setInt page 0 1) 4 0) 8 16) 12 0) = 16 := by
    rw [freeMemHeader,getInt_setInt_of_ne (by omega),getInt_setInt (by omega) (by omega)]
    rfl
  rw [btreeNodeInit,arenaInit]
  simp only [header]
  rfl

lemma tiles_init (size : page.size = pageSize) : Tiles (btreeNodeInit page) [⟨24,509⟩] [] := by
  rw [btreeNodeInit_eq]
  exact {
    size := by
      have keeps : ∀ {p : Page} {off : Nat} {n : Int}, off ≤ 28 → p.size = pageSize → (setInt p off n).size = pageSize := by
        intro p off n small same
        rw [size_setInt (by rw [same,pageSize]; omega),same]
      iterate 8 refine keeps (by omega) ?_
      exact size
    header := by
      simp (disch := omega) only [freeMemHeader,getInt_setInt_of_ne,getInt_setInt]
      rfl
    listed := by
      simp (disch := omega) [Listed,sentinel,getSize,getNext,nextOf,getInt_setInt_of_ne,getInt_setInt]
    gaps := by
      refine pairwise_cons.mpr ⟨?_,pairwise_singleton _ _⟩
      intro d mem
      obtain rfl := mem_singleton.mp mem
      show sentinel.extent.end < 24
      decide
    sizes := by simp
    units := by simp
    count := by
      intro i
      rw [append_nil,map_cons,map_nil,count_cons]
      exact Nat.zero_add _ }

lemma Tiles.freeChunks (tiles : Tiles page free used) : freeChunks page = some free := by
  rw [Arena.freeChunks,tiles.header,tiles.listed.2.1]
  refine tiles.listed.2.2.freeFrom (fun d mem => ?_) tiles.length_le
  have inside := tiles.inside (mem_append_left used mem)
  omega

lemma Tiles.covers (tiles : Tiles page free used) (i : Nat) :
    (∃ c ∈ free++used, c.extent.Has i) ↔ 24 ≤ i ∧ i < pageSize := by
  have listed : (∃ c ∈ free++used, c.extent.Has i) ↔ 0 < Extents.count ((free++used).map Chunk.extent) i := by
    rw [count_pos]
    simp only [List.mem_map,exists_exists_and_eq_and]
  rw [listed,tiles.count]
  by_cases within : 24 ≤ i ∧ i < pageSize <;> simp [within]

/-- What the caller may write: the bytes of a chunk behind its header. -/
def Block (c : Chunk) (i : Nat) : Prop := c.offset+nodeSize ≤ i ∧ i < c.extent.end

lemma Block.has (block : Block c i) : c.extent.Has i :=
  ⟨(Nat.le_add_right _ _).trans block.1,block.2⟩

lemma Tiles.used_apart (tiles : Tiles page free used) : used.Pairwise (fun c d => Apart c.extent d.extent) := by
  have separated := tiles.separated
  rw [map_append] at separated
  exact pairwise_map.mp (pairwise_append.mp separated).2.1

lemma Tiles.apart_head (tiles : Tiles page free (c::used)) (mem : d ∈ used) :
    Apart c.extent d.extent := (pairwise_cons.mp tiles.used_apart).1 d mem

lemma Tiles.eq_of_has (tiles : Tiles page free used) (left : c ∈ used) (right : d ∈ used)
    (mine : c.extent.Has i) (other : d.extent.Has i) : c = d := by
  by_contra differ
  have apart := tiles.used_apart
  have symm : Std.Symm (fun a b : Chunk => Apart a.extent b.extent) := ⟨fun _ _ => Apart.symm⟩
  exact apart.forall left right differ i mine other

/-- The field `cell_list` and the blocks are not part of the allocator's data. -/
lemma Tiles.write (tiles : Tiles page free used) (only : Only S page page')
    (data : ∀ i, S i → (12 ≤ i ∧ i < 16) ∨ ∃ c ∈ used, Block c i) : Tiles page' free used := by
  have words : ∀ d ∈ sentinel::free, ∀ i, Header d.offset i → ¬ S i := by
    intro d mem i here written
    obtain ⟨behind,outside⟩ := tiles.outside mem here
    rcases data i written with field | ⟨c,inUse,block⟩
    · omega
    · exact outside c inUse block.has
  exact {
    size := only.size.trans tiles.size
    header := by
      refine (congrArg Int.toNat (only.getInt (fun i _ high written => ?_))).trans tiles.header
      rcases data i written with field | ⟨c,inUse,block⟩
      · omega
      · have inside := tiles.inside (mem_append_right free inUse)
        have low := block.1
        omega
    listed := tiles.listed.frame only words
    gaps := tiles.gaps
    sizes := by
      intro c mem
      refine (only.words (fun i here written => ?_)).1.trans (tiles.sizes c mem)
      have inside := tiles.inside (mem_append_right free mem)
      rcases data i written with field | ⟨d,inUse,block⟩
      · have low := here.1
        omega
      · have mine := header_extent (tiles.units c (mem_append_right free mem)) here
        obtain rfl := tiles.eq_of_has mem inUse mine block.has
        have low := block.1
        have high := here.2
        omega
    units := tiles.units
    count := tiles.count }

end

/-- The page and the blocks that are allocated in it. -/
structure State where
  page : Page
  blocks : List Nat

inductive Op where
  | alloc (nbytes : Nat)
  | free (mp : Nat)

/-- No result when an operation fails; an allocation that finds no chunk returns 0. -/
def State.next (s : State) : Op → Option State
  | .alloc nbytes => (arenaAlloc s.page nbytes).map (fun (mp,page) =>
      if mp = 0 then ⟨page,s.blocks⟩ else ⟨page,mp::s.blocks⟩)
  | .free mp => (arenaFree s.page mp).map (fun page => ⟨page,s.blocks.erase mp⟩)

/-- The size of an allocation is an `int`, and only allocated blocks are freed. -/
def Proper (s : State) : Op → Prop
  | .alloc nbytes => nbytes < 2^31
  | .free mp => mp ∈ s.blocks
instance (s : State) : ∀ op, Decidable (Proper s op)
  | .alloc _ => decideAs (_ < _)
  | .free _ => decideAs (_ ∈ _)

/-- A new page. -/
def Initial (s : State) : Prop := ∃ page : Page, page.size = pageSize ∧ s = ⟨btreeNodeInit page,[]⟩
/-- The chunks of the blocks. -/
def State.used (s : State) : List Chunk := s.blocks.map (chunkOf s.page)

/-- The blocks start behind the headers of the chunks in use. -/
def Holds (s : State) (free used : List Chunk) : Prop :=
  Tiles s.page free used ∧ s.blocks.Perm (used.map (fun c => c.offset+nodeSize))

section
variable {s t : State} {free used : List Chunk}

lemma Tiles.chunkOf (tiles : Tiles page free used) (mem : c ∈ used) :
    chunkOf page (c.offset+nodeSize) = c := by
  rw [Arena.chunkOf,Nat.add_sub_cancel,tiles.sizes c mem]
  rfl

lemma Holds.used_perm (holds : Holds s free used) : s.used.Perm used := by
  have same : (used.map (fun c => c.offset+nodeSize)).map (chunkOf s.page) = used := by
    rw [List.map_map]
    exact (map_congr_left (fun c mem => holds.1.chunkOf mem)).trans (List.map_id used)
  exact (holds.2.map (chunkOf s.page)).trans (.of_eq same)

lemma Holds.tiles (holds : Holds s free used) : Tiles s.page free s.used := holds.1.perm holds.used_perm.symm

lemma holds_initial (initial : Initial s) : ∃ free used, Holds s free used := by
  obtain ⟨page,size,rfl⟩ := initial
  exact ⟨_,[],tiles_init size,.refl _⟩

lemma Holds.alloc {n : Nat} (holds : Holds s free used) (small : n < 2^31) (moved : s.next (.alloc n) = some t) :
    ∃ free used, Holds t free used := by
  simp only [State.next,map_eq_some_iff] at moved
  obtain ⟨⟨mp,page⟩,result,rfl⟩ := moved
  rcases holds.1.arenaAlloc small with ⟨failed,_⟩ | ⟨c,page',free',allocated,_,tiles,_⟩
  · obtain ⟨rfl,rfl⟩ : 0 = mp ∧ s.page = page := by simpa [failed] using result
    exact ⟨free,used,holds⟩
  · obtain ⟨rfl,rfl⟩ : c.offset+nodeSize = mp ∧ page' = page := by simpa [allocated] using result
    have other : ¬ c.offset+nodeSize = 0 := by
      simp only [nodeSize]
      omega
    simp only [other,if_false]
    exact ⟨free',c::used,tiles,holds.2.cons _⟩

variable {mp : Nat}

lemma Holds.chunk (holds : Holds s free used) (mem : mp ∈ s.blocks) :
    ∃ c rest, mp = c.offset+nodeSize ∧ Tiles s.page free (c::rest) ∧
      (s.blocks.erase mp).Perm (rest.map (fun c => c.offset+nodeSize)) := by
  obtain ⟨c,inUse,rfl⟩ := List.mem_map.mp (holds.2.mem_iff.mp mem)
  have perm := perm_cons_erase inUse
  refine ⟨c,used.erase c,rfl,holds.1.perm perm,?_⟩
  have erased := (holds.2.trans (perm.map _)).erase (c.offset+nodeSize)
  rwa [map_cons,erase_cons_head] at erased

lemma Holds.release (holds : Holds s free used) (mem : mp ∈ s.blocks) (moved : s.next (.free mp) = some t) :
    ∃ free used, Holds t free used := by
  obtain ⟨c,rest,rfl,tiles,perm⟩ := holds.chunk mem
  simp only [State.next,map_eq_some_iff] at moved
  obtain ⟨page,result,rfl⟩ := moved
  obtain ⟨page',free',freed,tiles',_⟩ := tiles.arenaFree
  obtain rfl : page' = page := by simpa [freed] using result
  exact ⟨free',rest,tiles',perm⟩

lemma reach_holds : ∀ s, Reach Initial Proper State.next s → ∃ free used, Holds s free used := by
  apply Reach.invariant
  · intro s initial
    exact holds_initial initial
  · rintro s op t ⟨free,used,holds⟩ proper moved
    cases op with
    | alloc n => exact holds.alloc proper moved
    | free mp => exact holds.release proper moved

lemma Holds.block (holds : Holds s free used) (mem : mp ∈ s.blocks) :
    ∃ c ∈ used, mp = c.offset+nodeSize := by
  obtain ⟨c,inUse,rfl⟩ := List.mem_map.mp (holds.2.mem_iff.mp mem)
  exact ⟨c,inUse,rfl⟩

/-- An allocation fails when no free chunk is large enough, and finds a new chunk otherwise. -/
lemma Holds.allocation {n : Nat} (holds : Holds s free used) (small : n < 2^31) :
    ∃ mp page, arenaAlloc s.page n = some (mp,page) ∧
      (mp = 0 → page = s.page ∧ ∀ c ∈ free, c.units*nodeSize < n+nodeSize) ∧
      (mp ≠ 0 → mp+n ≤ (chunkOf page mp).extent.end ∧ ∀ b ∈ s.blocks,
        chunkOf page b = chunkOf s.page b ∧ Apart (chunkOf page mp).extent (chunkOf page b).extent) := by
  rcases holds.1.arenaAlloc small with ⟨failed,full⟩ | ⟨c,page,free',allocated,large,tiles,_⟩
  · exact ⟨0,s.page,failed,fun _ => ⟨rfl,full⟩,fun other => absurd rfl other⟩
  · have mine : chunkOf page (c.offset+nodeSize) = c := tiles.chunkOf mem_cons_self
    refine ⟨_,page,allocated,fun none => ?_,fun _ => ⟨?_,fun b mem => ?_⟩⟩
    · simp only [nodeSize] at none
      omega
    · rw [mine]
      simp only [Extent.end,Chunk.extent]
      omega
    · obtain ⟨d,inUse,rfl⟩ := holds.block mem
      rw [mine,tiles.chunkOf (mem_cons_of_mem _ inUse),holds.1.chunkOf inUse]
      exact ⟨rfl,tiles.apart_head inUse⟩

end

/-- In every state reached the free chunks and the chunks of the blocks tile the page. -/
theorem arena_tiles {s : State} (reached : Reach Initial Proper State.next s) :
    ∃ free, freeChunks s.page = some free ∧ free.Pairwise Gap ∧ Separated ((free++s.used).map Chunk.extent) ∧
      (∀ i, (∃ c ∈ free++s.used, c.extent.Has i) ↔ 24 ≤ i ∧ i < pageSize) ∧
      (∀ n : Nat, n < 2^31 → ∃ mp page, arenaAlloc s.page n = some (mp,page) ∧
        (mp = 0 → page = s.page ∧ ∀ c ∈ free, c.units*nodeSize < n+nodeSize) ∧
        (mp ≠ 0 → mp+n ≤ (chunkOf page mp).extent.end ∧ ∀ b ∈ s.blocks,
          chunkOf page b = chunkOf s.page b ∧ Apart (chunkOf page mp).extent (chunkOf page b).extent)) ∧
      ∀ mp ∈ s.blocks, (arenaFree s.page mp).isSome := by
  obtain ⟨free,used,holds⟩ := reach_holds s reached
  have tiles := holds.tiles
  refine ⟨free,tiles.freeChunks,(pairwise_cons.mp tiles.gaps).2,tiles.separated,tiles.covers,
    fun n => holds.allocation,fun mp mem => ?_⟩
  obtain ⟨c,rest,rfl,tiles',_⟩ := holds.chunk mem
  obtain ⟨page,_,freed,_⟩ := tiles'.arenaFree
  rw [freed]
  rfl

/-- Two blocks, a request that is too large, and the first block is freed. -/
def fragmented : List Op := [.alloc 10,.alloc 20,.alloc 5000,.free 4080]

theorem arena_tiles_fragmented : ∃ s, Reach Initial Proper State.next s ∧ s.blocks = [4048] ∧ freeChunks s.page = some [⟨24,502⟩,⟨4072,3⟩] ∧
    Separated ((([⟨24,502⟩,⟨4072,3⟩] : List Chunk)++s.used).map Chunk.extent) ∧ (arenaFree s.page 4048).isSome := by
  have initial : Initial ⟨btreeNodeInit (File.zeros pageSize),[]⟩ := ⟨File.zeros pageSize,rfl,rfl⟩
  have seen : ∃ s, Reach Initial Proper State.next s ∧
      (s.blocks = [4048] ∧ freeChunks s.page = some [⟨24,502⟩,⟨4072,3⟩]) :=
    exists_reach_from initial fragmented (by decide +kernel)
  obtain ⟨s,reached,blocks,listed⟩ := seen
  obtain ⟨free,read,_,separated,_,_,releases⟩ := arena_tiles reached
  obtain rfl := some.inj (listed.symm.trans read)
  exact ⟨s,reached,blocks,listed,separated,releases 4048 (by simp [blocks])⟩

end CodeExercise.Arena
