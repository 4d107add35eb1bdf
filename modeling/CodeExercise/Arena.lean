import CodeExercise.Extents
import CodeExercise.Files
import CodeExercise.Runs

/-!
The allocator of `arena.c` inside a page of 4096 bytes. A chunk is measured in units of eight bytes
and starts with a header, its size and the next free chunk; the free chunks are linked in the order
of their addresses behind a header of size zero. Allocated and free chunks tile the page
(`arena_tiles`).
-/
namespace CodeExercise.Arena
open Files Extents Runs

/-- `PAGE_SIZE` -/
def pageSize : Nat := 4096
/-- `sizeof(list_node)` -/
def nodeSize : Nat := 8
abbrev Page := File
def getInt (page : Page) (off : Nat) : Int := intOf (page.slice off 4)
def setInt (page : Page) (off : Nat) (n : Int) : Page := page.write off (intBytes n)
/-- The third field of `btree_node`. -/
def freeMemHeader (page : Page) : Nat := (getInt page 8).toNat
def getSize (page : Page) (ptr : Nat) : Int := getInt page ptr
def setSize (page : Page) (ptr : Nat) (size : Int) : Page := setInt page ptr size
def getNext (page : Page) (ptr : Nat) : Nat := (getInt page (ptr+4)).toNat
def setNext (page : Page) (ptr next : Nat) : Page := setInt page (ptr+4) next

def arenaInit (page : Page) : Page :=
  let header := freeMemHeader page
  let start := header+nodeSize
  let page := setNext (setSize page start ((pageSize-start)/nodeSize : Nat)) start 0
  setNext (setSize page header 0) header start

/-- The fields `isleaf`, `nkeys`, `free_mem_header` and `cell_list`, and the arena behind them. -/
def btreeNodeInit (page : Page) : Page :=
  arenaInit (setInt (setInt (setInt (setInt page 0 1) 4 0) 8 16) 12 0)

/-- The units for `nbytes` bytes and a header: computed as `size_t`, kept in an `int`. -/
def nunits (nbytes : Int) : Int := Int.bmod ((nbytes%2^64+(nodeSize-1))%2^64/nodeSize+1) (2^32)

/-- The tail of a chunk becomes a chunk; no result when it lies outside the page. -/
def carve (page : Page) (nunits : Int) (ptr : Nat) : Option (Nat × Page) :=
  let page := setSize page ptr (getSize page ptr-nunits)
  let ptr := Int.bmod (ptr+getSize page ptr*nodeSize) (2^32)
  if 0 ≤ ptr ∧ ptr+nodeSize ≤ pageSize then some (ptr.toNat+nodeSize,setSize page ptr.toNat nunits) else none

/-- The search for the first chunk that is large enough. -/
def allocFrom (page : Page) (nunits : Int) : Nat → Nat → Nat → Option (Nat × Page)
  | fuel,prev,ptr =>
    if ptr = 0 then some (0,page)
    else
      match fuel with
      | 0 => none
      | fuel+1 =>
        if getSize page ptr ≥ nunits then
          if getSize page ptr = nunits then some (ptr+nodeSize,setNext page prev (getNext page ptr))
          else carve page nunits ptr
        else allocFrom page nunits fuel ptr (getNext page ptr)

/-- The offset behind the header of the chunk, or 0, and the page. -/
def arenaAlloc (page : Page) (nbytes : Int) : Option (Nat × Page) :=
  let header := freeMemHeader page
  allocFrom page (nunits nbytes) pageSize header (getNext page header)

/-- The free chunks around an address. -/
def seekFree (page : Page) (ptr : Nat) : Nat → Nat → Nat → Option (Nat × Nat)
  | fuel,prev,p =>
    if p ≠ 0 ∧ p < ptr then
      match fuel with
      | 0 => none
      | fuel+1 => seekFree page ptr fuel p (getNext page p)
    else some (prev,p)

/-- Link a chunk to the one behind it, or join them. -/
def link (page : Page) (ptr p : Nat) : Page :=
  if ptr+getSize page ptr*nodeSize = p then
    let page := setSize page ptr (getSize page ptr+getSize page p)
    setNext page ptr (getNext page p)
  else setNext page ptr p

/-- No result when the `assert` fails. -/
def arenaFree (page : Page) (mp : Nat) : Option Page :=
  let header := freeMemHeader page
  let ptr := mp-nodeSize
  (seekFree page ptr pageSize header (getNext page header)).bind (fun (prev,p) =>
    if p = 0 ∨ p > ptr then some (link (link page ptr p) prev ptr) else none)

structure Chunk where
  offset : Nat
  units : Nat
  deriving DecidableEq

def Chunk.extent (c : Chunk) : Extent := ⟨c.offset,c.units*nodeSize⟩

def freeFrom (page : Page) : Nat → Nat → Option (List Chunk)
  | fuel,p =>
    if p = 0 then some []
    else
      match fuel with
      | 0 => none
      | fuel+1 => (freeFrom page fuel (getNext page p)).map (⟨p,(getSize page p).toNat⟩ :: ·)

/-- The free chunks in the order of the list. -/
def freeChunks (page : Page) : Option (List Chunk) := freeFrom page pageSize (getNext page (freeMemHeader page))
/-- The chunk of a block that was allocated. -/
def chunkOf (page : Page) (mp : Nat) : Chunk := ⟨mp-nodeSize,(getSize page (mp-nodeSize)).toNat⟩

/-! ## The free list of a page -/
open List hiding count

section
variable {page : Page} {off i : Nat} {n : Int}

lemma getInt_setInt (low : -2^31 ≤ n) (high : n < 2^31) : getInt (setInt page off n) off = n := by
  have read := slice_write_self page off (intBytes n)
  rw [length_intBytes] at read
  rw [getInt,setInt,read,intOf_intBytes low high]

lemma byte_setInt (outside : i < off ∨ off+4 ≤ i) : (setInt page off n).byte i = page.byte i := by
  apply byte_write_of_not_mem
  rw [length_intBytes]
  omega

lemma getInt_congr (same : ∀ i, off ≤ i → i < off+4 → page'.byte i = page.byte i) :
    getInt page' off = getInt page off := by
  rw [getInt,getInt,slice_congr same]

lemma getInt_setInt_of_ne (apart : off+4 ≤ off' ∨ off'+4 ≤ off) : getInt (setInt page off n) off' = getInt page off' :=
  getInt_congr (fun _ _ _ => byte_setInt (by omega))

lemma size_setInt (inside : off+4 ≤ page.size) : (setInt page off n).size = page.size := by
  rw [setInt,size_write (by omega),length_intBytes]
  omega

end

/-- Only these offsets were written. -/
structure Only (S : Nat → Prop) (page page' : Page) : Prop where
  size : page'.size = page.size
  byte : ∀ i, ¬ S i → page'.byte i = page.byte i

variable {S : Nat → Prop} {page' : Page} {off : Nat} {cs : List Chunk}

lemma Only.getInt (only : Only S page page')
    (outside : ∀ i, off ≤ i → i < off+4 → ¬ S i) : getInt page' off = getInt page off :=
  getInt_congr (fun i low high => only.byte i (outside i low high))

lemma Only.slice (only : Only S page page')
    (outside : ∀ i, off ≤ i → i < off+n → ¬ S i) : page'.slice off n = page.slice off n :=
  slice_congr (fun i low high => only.byte i (outside i low high))

lemma Only.trans (first : Only S a b) (second : Only S b c) : Only S a c :=
  ⟨second.size.trans first.size,fun i out => (second.byte i out).trans (first.byte i out)⟩

lemma Only.mono (only : Only S page page') (more : ∀ i, S i → T i) :
    Only T page page' := ⟨only.size,fun i out => only.byte i (fun inside => out (more i inside))⟩

lemma only_write (page : Page) (off : Nat) (data : List UInt8) (inside : off+data.length ≤ page.size) :
    Only (fun i => off ≤ i ∧ i < off+data.length) page (page.write off data) := by
  refine ⟨?_,fun i out => byte_write_of_not_mem (by omega)⟩
  rw [size_write (by omega)]
  omega

lemma only_setInt (page : Page) (off : Nat) (n : Int) (inside : off+4 ≤ page.size) :
    Only (fun i => off ≤ i ∧ i < off+4) page (setInt page off n) :=
  ⟨size_setInt inside,fun i out => byte_setInt (by omega)⟩

/-- The header of a chunk at an offset. -/
def Header (off i : Nat) : Prop := off ≤ i ∧ i < off+nodeSize

lemma Only.words (only : Only S page page')
    (outside : ∀ i, Header off i → ¬ S i) : getSize page' off = getSize page off ∧ getNext page' off = getNext page off := by
  have first : ∀ i, off ≤ i → i < off+4 → ¬ S i := by
    intro i low high
    refine outside i ⟨low,?_⟩
    simp only [nodeSize]
    omega
  have second : ∀ i, off+4 ≤ i → i < off+4+4 → ¬ S i := by
    intro i low high
    refine outside i ⟨by omega,?_⟩
    simp only [nodeSize]
    omega
  exact ⟨only.getInt first,congrArg Int.toNat (only.getInt second)⟩

lemma Only.freeMemHeader (only : Only S page page') (behind : ∀ i, S i → 16 ≤ i) :
    freeMemHeader page' = freeMemHeader page := by
  refine congrArg Int.toNat (only.getInt (fun i _ high inside => ?_))
  have := behind i inside
  omega

lemma only_setSize (page : Page) (off : Nat) (n : Int) (inside : off+nodeSize ≤ page.size) :
    Only (Header off) page (setSize page off n) := by
  simp only [nodeSize] at inside
  refine (only_setInt page _ n (by omega)).mono fun i here => ⟨here.1,?_⟩
  simp only [nodeSize]
  omega

lemma only_setNext (page : Page) (off : Nat) (n : Nat) (inside : off+nodeSize ≤ page.size) :
    Only (Header off) page (setNext page off n) := by
  simp only [nodeSize] at inside
  refine (only_setInt page _ n (by omega)).mono fun i here => ⟨by omega,?_⟩
  simp only [nodeSize]
  omega

section
variable {page : Page}

variable {off : Nat}

lemma getSize_setSize {n : Int} (low : 0 ≤ n) (high : n ≤ pageSize) :
    getSize (setSize page off n) off = n := by
  simp only [pageSize] at high
  exact getInt_setInt (by omega) (by omega)

lemma getNext_setNext {next : Nat} (small : next ≤ pageSize) : getNext (setNext page off next) off = next := by
  simp only [pageSize] at small
  rw [getNext,setNext,getInt_setInt (by omega) (by omega)]
  rfl

lemma getSize_setNext {next : Nat} : getSize (setNext page off next) off = getSize page off :=
  getInt_setInt_of_ne (.inr (by omega))

lemma getNext_setSize : getNext (setSize page off n) off = getNext page off :=
  congrArg Int.toNat (getInt_setInt_of_ne (.inl (by omega)))

end

/-- What points to a list of chunks. -/
def nextOf : List Chunk → Nat
  | [] => 0
  | c::_ => c.offset

/-- The headers of the chunks are linked in this order. -/
def Listed (page : Page) : List Chunk → Prop
  | [] => True
  | c::rest => getSize page c.offset = c.units ∧ getNext page c.offset = nextOf rest ∧ Listed page rest

lemma nextOf_le (fits : ∀ d ∈ cs, d.offset+nodeSize ≤ pageSize) : nextOf cs ≤ pageSize := by
  cases cs with
  | nil => exact Nat.zero_le _
  | cons d cs => exact (Nat.le_add_right _ _).trans (fits d mem_cons_self)

lemma Listed.replace (pre : List Chunk)
    (listed : Listed page (pre++cs))
    (only : Only S page page') (outside : ∀ c ∈ pre, ∀ i, Header c.offset i → ¬ S i) (same : nextOf cs' = nextOf cs)
    (new : Listed page' cs') : Listed page' (pre++cs') := by
  induction pre with
  | nil => exact new
  | cons c pre ih =>
    obtain ⟨size,next,rest⟩ := listed
    obtain ⟨size',next'⟩ := only.words (outside c mem_cons_self)
    have behind : nextOf (pre++cs') = nextOf (pre++cs) := by
      cases pre with
      | nil => exact same
      | cons d pre => rfl
    exact ⟨size'.trans size,(next'.trans next).trans behind.symm,
      ih rest (fun d mem => outside d (mem_cons_of_mem _ mem))⟩

lemma Listed.frame (listed : Listed page cs)
    (only : Only S page page') (outside : ∀ c ∈ cs, ∀ i, Header c.offset i → ¬ S i) : Listed page' cs := by
  rw [← append_nil cs] at listed ⊢
  exact listed.replace cs only outside rfl trivial

lemma Listed.append (pre : List Chunk) (listed : Listed page (pre++cs)) : Listed page cs := by
  induction pre with
  | nil => exact listed
  | cons c pre ih => exact ih listed.2.2

/-- A chunk in front of another one, with something between them. -/
def Gap (a b : Chunk) : Prop := a.extent.end < b.offset
/-- The headers of two chunks do not overlap. -/
def HeadersApart (a b : Chunk) : Prop := ∀ i, Header a.offset i → ¬ Header b.offset i

lemma HeadersApart.symm (apart : HeadersApart a b) : HeadersApart b a :=
  fun i right left => apart i left right

section
variable {page : Page} {k : Nat}

lemma carve_eq (size : getSize page off = (m+k : Nat)) (positive : 0 < k)
    (inside : off+(m+k)*nodeSize ≤ pageSize) :
    carve page k off = some (off+m*nodeSize+nodeSize,setSize (setSize page off m) (off+m*nodeSize) k) := by
  simp only [nodeSize,pageSize] at inside
  have left : getSize page off-k = (m : Int) := by
    rw [size]
    omega
  have read : getSize (setSize page off m) off = m := getSize_setSize (by omega) (by simp only [pageSize]; omega)
  have tail : Int.bmod ((off : Int)+(m : Int)*nodeSize) (2^32) = (off+m*nodeSize : Nat) := by
    rw [Int.bmod_eq_of_le]
    · push_cast
      rfl
    all_goals
      simp only [nodeSize]
      omega
  have within : (0 : Int) ≤ ((off+m*nodeSize : Nat) : Int) ∧ ((off+m*nodeSize : Nat) : Int)+nodeSize ≤ pageSize := by
    simp only [nodeSize,pageSize]
    omega
  simp only [carve,left,read,tail,within,Int.toNat_natCast]
  rfl

/-- What the search finds: no chunk, one of this size, or one whose tail is cut off. -/
lemma allocFrom_cases (listed : Listed page (e::ys))
    (fits : ∀ d ∈ ys, 0 < d.offset ∧ d.offset+d.units*nodeSize ≤ pageSize) (positive : 0 < k) (enough : ys.length ≤ fuel) :
    (allocFrom page k fuel e.offset (nextOf ys) = some (0,page) ∧ ∀ d ∈ ys, d.units < k) ∨
    (∃ pre zs xs e' c, ys = pre++c::zs ∧ e::pre = xs++[e'] ∧ c.units = k ∧
      allocFrom page k fuel e.offset (nextOf ys) = some (c.offset+nodeSize,setNext page e'.offset (nextOf zs))) ∨
    (∃ pre zs c m, ys = pre++c::zs ∧ c.units = m+k ∧ 0 < m ∧ allocFrom page k fuel e.offset (nextOf ys) =
      some (c.offset+m*nodeSize+nodeSize,setSize (setSize page c.offset m) (c.offset+m*nodeSize) k)) := by
  induction ys generalizing e fuel with
  | nil =>
    refine .inl ⟨?_,by simp⟩
    cases fuel <;> simp [allocFrom,nextOf]
  | cons c ys ih =>
    obtain _ | fuel := fuel
    · simp at enough
    have behind := listed.2.2
    obtain ⟨size,next,_⟩ := behind
    obtain ⟨beyond,small⟩ := fits c mem_cons_self
    have other : ¬ c.offset = 0 := by omega
    rw [nextOf,allocFrom,if_neg other,size,next]
    by_cases large : k ≤ c.units
    · have ge : (c.units : Int) ≥ k := by omega
      simp only [ge,if_true]
      by_cases exactly : c.units = k
      · have eq : (c.units : Int) = k := by omega
        rw [if_pos eq]
        exact .inr (.inl ⟨[],ys,[],e,c,rfl,rfl,exactly,rfl⟩)
      · have ne : ¬ (c.units : Int) = k := by omega
        obtain ⟨m,parts⟩ : ∃ m, c.units = m+k := ⟨c.units-k,by omega⟩
        rw [parts] at size small
        rw [if_neg ne]
        exact .inr (.inr ⟨[],ys,c,m,rfl,parts,by omega,carve_eq size positive small⟩)
    · have less : ¬ (c.units : Int) ≥ k := by omega
      rw [if_neg less]
      rcases ih listed.2.2 (fun d mem => fits d (mem_cons_of_mem _ mem))
        (by simpa using enough) with ⟨result,all⟩ | ⟨pre,zs,xs,e',d,split,last,units,result⟩ |
          ⟨pre,zs,d,m,split,units,rest,result⟩
      · refine .inl ⟨result,?_⟩
        intro d mem
        rcases mem_cons.mp mem with rfl | mem
        · omega
        · exact all d mem
      · refine .inr (.inl ⟨c::pre,zs,e::xs,e',d,?_,?_,units,result⟩)
        · rw [split,cons_append]
        · rw [last,cons_append]
      · refine .inr (.inr ⟨c::pre,zs,d,m,?_,units,rest,result⟩)
        rw [split,cons_append]

lemma seekFree_eq (ptr : Nat) (listed : Listed page (e::ys))
    (fits : ∀ d ∈ ys, 0 < d.offset) (sorted : ys.Pairwise Gap) (enough : ys.length ≤ fuel) :
    ∃ pre zs xs e', ys = pre++zs ∧ e::pre = xs++[e'] ∧ (∀ d ∈ pre, d.offset < ptr) ∧
      (∀ d ∈ zs, ptr ≤ d.offset) ∧ seekFree page ptr fuel e.offset (nextOf ys) = some (e'.offset,nextOf zs) := by
  induction ys generalizing e fuel with
  | nil =>
    refine ⟨[],[],[],e,rfl,rfl,by simp,by simp,?_⟩
    cases fuel <;> simp [seekFree,nextOf]
  | cons d ys ih =>
    obtain _ | fuel := fuel
    · simp at enough
    have positive := fits d mem_cons_self
    obtain ⟨mine,others⟩ := pairwise_cons.mp sorted
    by_cases before : d.offset < ptr
    · have continues : d.offset ≠ 0 ∧ d.offset < ptr := ⟨by omega,before⟩
      obtain ⟨pre,zs,xs,e',split,last,left,right,result⟩ := ih listed.2.2
        (fun f mem => fits f (mem_cons_of_mem _ mem)) others (by simpa using enough)
      refine ⟨d::pre,zs,e::xs,e',?_,?_,?_,right,?_⟩
      · rw [split,cons_append]
      · rw [last,cons_append]
      · exact forall_mem_cons.mpr ⟨before,left⟩
      · rwa [nextOf,seekFree,if_pos continues,listed.2.2.2.1]
    · have stops : ¬ (d.offset ≠ 0 ∧ d.offset < ptr) := fun both => before both.2
      refine ⟨[],d::ys,[],e,rfl,rfl,by simp,?_,?_⟩
      · refine forall_mem_cons.mpr ⟨by omega,fun f mem => ?_⟩
        have gap := mine f mem
        simp only [Gap,Extent.end,Chunk.extent] at gap
        omega
      · rw [nextOf,seekFree,if_neg stops]

end

lemma Listed.freeFrom (listed : Listed page cs)
    (fits : ∀ d ∈ cs, 0 < d.offset) (enough : cs.length ≤ fuel) : freeFrom page fuel (nextOf cs) = some cs := by
  induction cs generalizing fuel with
  | nil => cases fuel <;> simp [Arena.freeFrom,nextOf]
  | cons c cs ih =>
    obtain _ | fuel := fuel
    · simp at enough
    obtain ⟨size,next,rest⟩ := listed
    have positive := fits c mem_cons_self
    have other : ¬ c.offset = 0 := by omega
    rw [nextOf,Arena.freeFrom,if_neg other,size,next,
      ih rest (fun d mem => fits d (mem_cons_of_mem _ mem)) (by simpa using enough)]
    rfl

/-- The chunk and the list behind it, or the two joined where they meet. -/
def joinHead (c : Chunk) : List Chunk → List Chunk
  | [] => [c]
  | d::rest => if c.extent.end = d.offset then ⟨c.offset,c.units+d.units⟩ :: rest else c :: d::rest

section
variable {c : Chunk} {ys : List Chunk}

lemma nextOf_joinHead : nextOf (joinHead c ys) = c.offset := by
  cases ys with
  | nil => rfl
  | cons d rest =>
    rw [joinHead]
    split <;> rfl

lemma mem_joinHead (mem : d ∈ joinHead c ys) : d.offset = c.offset ∨ d ∈ ys := by
  cases ys with
  | nil => exact .inl (congrArg Chunk.offset (mem_singleton.mp mem))
  | cons f rest =>
    rw [joinHead] at mem
    split at mem
    all_goals
      rcases mem_cons.mp mem with rfl | mem
      · exact .inl rfl
      · exact .inr (by simp_all)

lemma units_joinHead (units : ∀ d ∈ c::ys, 0 < d.units ∧ d.units ≤ bound) :
    ∀ d ∈ joinHead c ys, 0 < d.units ∧ d.units ≤ c.units+bound := by
  obtain ⟨mine,others⟩ := forall_mem_cons.mp units
  intro d mem
  cases ys with
  | nil =>
    obtain rfl := mem_singleton.mp mem
    omega
  | cons f rest =>
    have next := others f mem_cons_self
    rw [joinHead] at mem
    split at mem
    · rcases mem_cons.mp mem with rfl | mem
      · simp only
        omega
      · have := others d (mem_cons_of_mem _ mem)
        omega
    · rcases mem_cons.mp mem with rfl | mem
      · omega
      · have := others d mem
        omega

lemma count_joinHead (i : Nat) : count ((joinHead c ys).map Chunk.extent) i = count ((c::ys).map Chunk.extent) i := by
  cases ys with
  | nil => rfl
  | cons d rest =>
    rw [joinHead]
    split
    · rename_i meet
      have parts := count_split c.offset (c.units*nodeSize) (d.units*nodeSize) (rest.map Chunk.extent) i
      rw [← Nat.add_mul] at parts
      rw [map_cons,map_cons,map_cons,Chunk.extent,Chunk.extent,parts,Chunk.extent,← meet]
      rfl
    · rfl

lemma gaps_joinHead (gaps : ys.Pairwise Gap) (after : ∀ d ∈ ys, c.extent.end ≤ d.offset) :
    (joinHead c ys).Pairwise Gap := by
  cases ys with
  | nil => exact pairwise_singleton _ _
  | cons d rest =>
    obtain ⟨mine,others⟩ := pairwise_cons.mp gaps
    have next := after d mem_cons_self
    rw [joinHead]
    split
    · rename_i meet
      refine pairwise_cons.mpr ⟨fun f mem => ?_,others⟩
      have gap := mine f mem
      simp only [Gap,Extent.end,Chunk.extent] at gap meet ⊢
      rw [Nat.add_mul]
      omega
    · rename_i apart
      refine pairwise_cons.mpr ⟨fun f mem => ?_,gaps⟩
      have first : c.extent.end < d.offset := by omega
      rcases mem_cons.mp mem with rfl | mem
      · exact first
      · have gap := mine f mem
        simp only [Gap,Extent.end,Chunk.extent] at gap first ⊢
        omega

lemma gaps_release (gaps : (xs++e::zs).Pairwise Gap)
    (before : e.extent.end ≤ c.offset) (behind : ∀ d ∈ zs, c.extent.end ≤ d.offset) :
    (xs++joinHead e (joinHead c zs)).Pairwise Gap := by
  obtain ⟨first,last,across⟩ := pairwise_append.mp gaps
  obtain ⟨mine,rest⟩ := pairwise_cons.mp last
  refine pairwise_append.mpr ⟨first,gaps_joinHead (gaps_joinHead rest behind) ?_,?_⟩
  · intro d mem
    rcases mem_joinHead mem with same | mem
    · omega
    · exact (mine d mem).le
  · intro d left f right
    have gap := across d left e mem_cons_self
    simp only [Gap,Extent.end,Chunk.extent] at gap before ⊢
    rcases mem_joinHead right with same | right
    · omega
    · rcases mem_joinHead right with same | right
      · omega
      · exact across d left f (mem_cons_of_mem _ right)

end

section
variable {page : Page} {c : Chunk}

lemma Listed.linked (size : getSize page c.offset = c.units) (listed : Listed page ys) (file : page.size = pageSize)
    (fits : ∀ d ∈ c::ys, 0 < d.offset ∧ d.offset+nodeSize ≤ pageSize)
    (units : ∀ d ∈ ys, c.units+d.units ≤ pageSize) (apart : ∀ d ∈ ys, ∀ i, Header d.offset i → ¬ Header c.offset i) :
    Listed (link page c.offset (nextOf ys)) (joinHead c ys) ∧
      Only (Header c.offset) page (link page c.offset (nextOf ys)) := by
  obtain ⟨positive,inside⟩ := fits c mem_cons_self
  rw [← file] at inside
  have value : (c.offset : Int)+getSize page c.offset*nodeSize = (c.extent.end : Nat) := by
    rw [size]
    simp [Extent.end,Chunk.extent]
  cases ys with
  | nil =>
    have other : ¬ (c.offset : Int)+getSize page c.offset*nodeSize = (nextOf [] : Nat) := by
      rw [value]
      simp only [Extent.end,Chunk.extent,nextOf]
      omega
    rw [link,if_neg other]
    refine ⟨⟨getSize_setNext.trans size,getNext_setNext (Nat.zero_le _),trivial⟩,only_setNext _ _ _ inside⟩
  | cons d rest =>
    obtain ⟨sizeD,nextD,restD⟩ := listed
    obtain ⟨positiveD,insideD⟩ := fits d (by simp)
    have smallD : d.offset ≤ pageSize := by
      simp only [nodeSize] at insideD
      omega
    by_cases meet : c.extent.end = d.offset
    · have same : (c.offset : Int)+getSize page c.offset*nodeSize = (nextOf (d::rest) : Nat) := by
        rw [value,meet]
        rfl
      have sum : getSize page c.offset+getSize page d.offset = (c.units+d.units : Nat) := by
        rw [size,sizeD]
        rfl
      have enough := units d mem_cons_self
      have sized := only_setSize page c.offset ((c.units+d.units : Nat) : Int) inside
      have kept : getNext (setSize page c.offset ((c.units+d.units : Nat) : Int)) d.offset = nextOf rest :=
        (sized.words (apart d mem_cons_self)).2.trans nextD
      have small : nextOf rest ≤ pageSize := by
        cases rest with
        | nil => exact Nat.zero_le _
        | cons e rest => exact (Nat.le_add_right _ _).trans (fits e (by simp)).2
      have only := sized.trans (only_setNext _ _ (nextOf rest) (by rw [sized.size]; exact inside))
      have written : link page c.offset (nextOf (d::rest)) =
          setNext (setSize page c.offset ((c.units+d.units : Nat) : Int)) c.offset (nextOf rest) := by
        rw [link,if_pos same]
        show setNext (setSize page c.offset (getSize page c.offset+getSize page d.offset)) c.offset
          (getNext (setSize page c.offset (getSize page c.offset+getSize page d.offset)) d.offset) = _
        rw [sum,kept]
      rw [written,joinHead,if_pos meet]
      refine ⟨⟨?_,getNext_setNext small,?_⟩,only⟩
      · rw [getSize_setNext,getSize_setSize (by omega) (by omega)]
      · exact restD.frame only fun e mem => apart e (mem_cons_of_mem _ mem)
    · have other : ¬ (c.offset : Int)+getSize page c.offset*nodeSize = (nextOf (d::rest) : Nat) := by
        rw [value]
        simp only [nextOf]
        omega
      have only := only_setNext page c.offset d.offset inside
      rw [link,if_neg other,joinHead,if_neg meet]
      refine ⟨⟨getSize_setNext.trans size,getNext_setNext smallD,?_⟩,only⟩
      exact Listed.frame ⟨sizeD,nextD,restD⟩ only apart

lemma Listed.release (listed : Listed page (xs++e::zs)) (file : page.size = pageSize)
    (size : getSize page c.offset = c.units) (headers : (xs++e::zs).Pairwise HeadersApart)
    (apart : ∀ d ∈ xs++e::zs, HeadersApart d c) (fits : ∀ d ∈ c::(xs++e::zs), 0 < d.offset ∧ d.offset+nodeSize ≤ pageSize)
    (units : ∀ d ∈ c::zs, 0 < d.units ∧ d.units ≤ 512) (first : e.units ≤ 512) :
    Listed (link (link page c.offset (nextOf zs)) e.offset c.offset) (xs++joinHead e (joinHead c zs)) ∧
      Only (fun i => Header c.offset i ∨ Header e.offset i) page (link (link page c.offset (nextOf zs)) e.offset c.offset) := by
  obtain ⟨_,tail,left⟩ := pairwise_append.mp headers
  have behind := (pairwise_cons.mp tail).1
  have mine := units c mem_cons_self
  obtain ⟨listed1,only1⟩ := Listed.linked size (listed.append xs).2.2 file
    (fun d mem => fits d (by
      rcases mem_cons.mp mem with rfl | mem
      · simp
      · simp [mem]))
    (fun d mem => by
      have other := units d (mem_cons_of_mem _ mem)
      simp only [pageSize]
      omega)
    (fun d mem => apart d (by simp [mem]))
  have size1 : getSize (link page c.offset (nextOf zs)) e.offset = e.units :=
    (only1.words (apart e (by simp))).1.trans (listed.append xs).1
  obtain ⟨listed2,only2⟩ := listed1.linked size1 (only1.size.trans file)
    (fun d mem => by
      rcases mem_cons.mp mem with rfl | mem
      · exact fits _ (by simp)
      · rcases mem_joinHead mem with same | mem
        · rw [same]
          exact fits c mem_cons_self
        · exact fits d (by simp [mem]))
    (fun d mem => by
      have other := units_joinHead units d mem
      simp only [pageSize]
      omega)
    (fun d mem => by
      rcases mem_joinHead mem with same | mem
      · rw [same]
        exact (apart e (by simp)).symm
      · exact (behind d mem).symm)
  rw [nextOf_joinHead] at listed2 only2
  have only := (only1.mono (fun i here => .inl here)).trans (only2.mono (fun i here => .inr here) :
    Only (fun i => Header c.offset i ∨ Header e.offset i) _ _)
  refine ⟨listed.replace xs only (fun d mem i here => ?_) nextOf_joinHead listed2,only⟩
  rintro (there | there)
  · exact apart d (mem_append_left _ mem) i here there
  · exact left d mem e mem_cons_self i here there

end
end CodeExercise.Arena
