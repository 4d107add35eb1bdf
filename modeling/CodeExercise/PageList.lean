import CodeExercise.ArenaTiles

/-!
The list of `page_list.c`: key-value cells in blocks of the allocator, linked in the order of their
keys. `list_add` compares only as many bytes as the new key has, which decides the order of keys that
end with their only NUL; `list_del` reads the link of a cell after it was freed. The sum of the lengths
is not checked (`add_overflows`).
-/
namespace CodeExercise.PageList
open Files Extents Runs Arena

abbrev Bytes := List UInt8
/-- `sizeof(list_node)`: the lengths and the link; the key and the value follow. -/
def cellSize : Nat := 12
/-- The address of the field `cell_list`. -/
def cellList : Nat := 12
def keyLen (page : Page) (np : Nat) : Int := getInt page np
def valLen (page : Page) (np : Nat) : Int := getInt page (np+4)
/-- The address of the field `next`. -/
def nextAt (np : Nat) : Nat := np+8
def keyAt (np : Nat) : Nat := np+cellSize
def valAt (page : Page) (np : Nat) : Nat := np+cellSize+(keyLen page np).toNat

/-- The sign tells the order of the first bytes that differ. -/
def memcmp : Bytes → Bytes → Int
  | a::as,b::bs => if a = b then memcmp as bs else (a.toNat : Int)-b.toNat
  | _,_ => 0

/-- No result when bytes outside the page are written. -/
def memcpy (page : Page) (off : Nat) (data : Bytes) : Option Page :=
  if off+data.length ≤ pageSize then some (page.write off data) else none

/-- The address of the link to the first cell with a larger key. -/
def seekLarger (page : Page) (key : Bytes) : Nat → Nat → Option Nat
  | fuel,i =>
    if getInt page i = 0 then some i
    else
      let tmp := (getInt page i).toNat
      if memcmp (page.slice (keyAt tmp) key.length) key > 0 then some i
      else
        match fuel with
        | 0 => none
        | fuel+1 => seekLarger page key fuel (nextAt tmp)

/-- The size of a new cell: computed as `size_t`, passed as an `int`. -/
def cellBytes (key val : Bytes) : Int := Int.bmod ((cellSize+key.length+val.length : Nat) : Int) (2^32)

/-- The lengths, the key and the value of a new cell. -/
def fill (page : Page) (mem : Nat) (key val : Bytes) : Option Page :=
  let page := setInt (setInt page mem key.length) (mem+4) val.length
  (memcpy page (keyAt mem) key).bind (fun page => memcpy page (valAt page mem) val)

/-- The result 0 or 1 and the page. -/
def listAdd (page : Page) (key val : Bytes) : Option (Nat × Page) :=
  (arenaAlloc page (cellBytes key val)).bind (fun (mem,page) =>
    if mem = 0 then some (0,page)
    else (fill page mem key val).bind (fun page =>
      (seekLarger page key pageSize cellList).map (fun i =>
        (1,setInt (setInt page (nextAt mem) (getInt page i)) i mem))))

def delFrom (key : Bytes) : Nat → Page → Nat → Nat → Option (Nat × Page)
  | fuel,page,i,ndel =>
    if getInt page i = 0 then some (ndel,page)
    else
      match fuel with
      | 0 => none
      | fuel+1 =>
        let np := (getInt page i).toNat
        if keyLen page np = key.length ∧ memcmp (page.slice (keyAt np) key.length) key = 0 then
          (arenaFree page np).bind (fun page =>
            -- the link of the cell that was freed
            delFrom key fuel (setInt page i (getInt page (nextAt np))) i (ndel+1))
        else delFrom key fuel page (nextAt np) ndel

/-- The number of cells deleted and the page. -/
def listDel (page : Page) (key : Bytes) : Option (Nat × Page) := delFrom key pageSize page cellList 0

/-- What is read back from a cell. -/
structure Cell where
  mem : Nat
  key : Bytes
  val : Bytes
  deriving DecidableEq

def cellOf (page : Page) (np : Nat) : Cell :=
  ⟨np,page.slice (keyAt np) (keyLen page np).toNat,page.slice (valAt page np) (valLen page np).toNat⟩

def cellsFrom (page : Page) : Nat → Nat → Option (List Cell)
  | fuel,i =>
    if getInt page i = 0 then some []
    else
      match fuel with
      | 0 => none
      | fuel+1 =>
        let np := (getInt page i).toNat
        (cellsFrom page fuel (nextAt np)).map (cellOf page np :: ·)

/-- The cells in the order of the list. -/
def cells (page : Page) : Option (List Cell) := cellsFrom page pageSize cellList

/-- The key ends with its only NUL. -/
def Terminated : Bytes → Prop
  | [] => False
  | b::rest => if b = 0 then rest = [] else Terminated rest
instance decidableTerminated : ∀ key, Decidable (Terminated key)
  | [] => isFalse id
  | b::rest =>
    have := decidableTerminated rest
    decideAs (if b = 0 then rest = [] else Terminated rest)

/-! ## The cells of a page as a list of entries, each with its chunk -/
open List

lemma memcmp_eq_zero (same : as.length = bs.length) : memcmp as bs = 0 ↔ as = bs := by
  induction as generalizing bs with
  | nil =>
    obtain rfl := length_eq_zero_iff.mp same.symm
    simp [memcmp]
  | cons a as ih =>
    cases bs with
    | nil => simp at same
    | cons b bs =>
      by_cases equal : a = b
      · rw [memcmp,if_pos equal,ih (by simpa using same),List.cons.injEq]
        exact ⟨fun rest => ⟨equal,rest⟩,And.right⟩
      · have differ : ¬ (a.toNat : Int)-b.toNat = 0 := by
          intro zero
          exact equal (UInt8.toNat_inj.mp (by omega))
        rw [memcmp,if_neg equal,List.cons.injEq]
        exact ⟨fun zero => absurd zero differ,fun both => absurd both.1 equal⟩

lemma memcmp_pos {page : Page} {off : Nat} {key other : Bytes} (terminated : Terminated key)
    (terminated' : Terminated other) (stored : page.slice off other.length = other) :
    memcmp (page.slice off key.length) key > 0 ↔ key < other := by
  induction key generalizing off other with
  | nil => exact terminated.elim
  | cons b key ih =>
    cases other with
    | nil => exact terminated'.elim
    | cons a other =>
      rw [length_cons,slice_succ,List.cons.injEq] at stored
      obtain ⟨first,rest⟩ := stored
      rw [length_cons,slice_succ,first,memcmp,cons_lt_cons_iff]
      simp only [Terminated] at terminated terminated'
      by_cases equal : a = b
      · subst equal
        rw [if_pos rfl]
        by_cases nul : a = 0
        · rw [if_pos nul] at terminated terminated'
          subst terminated terminated'
          simp [memcmp,UInt8.lt_irrefl]
        · rw [if_neg nul] at terminated terminated'
          rw [ih terminated terminated' rest]
          simp [UInt8.lt_irrefl]
      · have differ : ¬ a.toNat = b.toNat := fun same => equal (UInt8.toNat_inj.mp same)
        rw [if_neg equal,UInt8.lt_iff_toNat_lt]
        constructor
        · intro positive
          exact .inl (by omega)
        · rintro (less | ⟨same,_⟩)
          · omega
          · exact absurd same.symm equal

/-- A cell and its chunk. -/
structure Entry where
  chunk : Chunk
  key : Bytes
  val : Bytes

def Entry.mem (e : Entry) : Nat := e.chunk.offset+nodeSize
def Entry.cell (e : Entry) : Cell := ⟨e.mem,e.key,e.val⟩
/-- The cell lies in the block of its chunk. -/
def Entry.Fits (e : Entry) : Prop := e.mem+cellSize+e.key.length+e.val.length ≤ e.chunk.extent.end

/-- The lengths, the key and the value of the cell are in the page. -/
structure Stored (page : Page) (e : Entry) : Prop where
  keyLen : keyLen page e.mem = e.key.length
  valLen : valLen page e.mem = e.val.length
  key : page.slice (keyAt e.mem) e.key.length = e.key
  val : page.slice (keyAt e.mem+e.key.length) e.val.length = e.val

/-- The links lead from the address `i` through the entries. -/
def Chain (page : Page) : Nat → List Entry → Prop
  | i,[] => getInt page i = 0
  | i,e::rest => getInt page i = e.mem ∧ Chain page (nextAt e.mem) rest

/-- The address of the link behind the entries. -/
def linkBehind : Nat → List Entry → Nat
  | i,[] => i
  | _,e::rest => linkBehind (nextAt e.mem) rest

/-- The addresses of the links to the entries. -/
def linksTo : Nat → List Entry → List Nat
  | _,[] => []
  | i,e::rest => i :: linksTo (nextAt e.mem) rest

/-- The bytes of a word. -/
def Word (w i : Nat) : Prop := w ≤ i ∧ i < w+4

section
variable {page page' : Page} {i : Nat} {e : Entry} {pre post : List Entry}

lemma linksTo_append (i : Nat) (pre : List Entry) :
    linksTo i pre ++ [linkBehind i pre] = i::pre.map (fun e => nextAt e.mem) := by
  induction pre generalizing i with
  | nil => rfl
  | cons e pre ih => rw [linksTo,linkBehind,cons_append,ih,map_cons]

lemma linkBehind_concat : linkBehind i (pre++[e]) = nextAt e.mem := by
  induction pre generalizing i with
  | nil => rfl
  | cons d pre ih => exact ih

lemma Chain.append (chain : Chain page i (pre++post)) : Chain page (linkBehind i pre) post := by
  induction pre generalizing i with
  | nil => exact chain
  | cons e pre ih => exact ih chain.2

lemma Chain.move (chain : Chain page i post) (first : getInt page' i' = getInt page i)
    (others : ∀ e ∈ post, getInt page' (nextAt e.mem) = getInt page (nextAt e.mem)) : Chain page' i' post := by
  induction post generalizing i i' with
  | nil => exact first.trans chain
  | cons e post ih =>
    refine ⟨first.trans chain.1,ih chain.2 (others e mem_cons_self) ?_⟩
    exact fun d mem => others d (mem_cons_of_mem _ mem)

lemma Chain.relink (chain : Chain page i (pre++post))
    (links : ∀ w ∈ linksTo i pre, getInt page' w = getInt page w) (new : Chain page' (linkBehind i pre) post') :
    Chain page' i (pre++post') := by
  induction pre generalizing i with
  | nil => exact new
  | cons e pre ih =>
    refine ⟨(links i mem_cons_self).trans chain.1,ih chain.2 (fun w mem => links w ?_) new⟩
    exact mem_cons_of_mem _ mem

lemma Stored.frame (stored : Stored page e) (fits : e.Fits) (only : Only S page page')
    (outside : ∀ j, Block e.chunk j → ¬ Word (nextAt e.mem) j → ¬ S j) : Stored page' e := by
  have bound := fits
  simp only [Entry.Fits,Entry.mem,cellSize] at bound
  have block : ∀ j, e.mem ≤ j → j < e.mem+cellSize+e.key.length+e.val.length → Block e.chunk j :=
    fun j low high => ⟨low,high.trans_le fits⟩
  have data : ∀ {off n : Nat}, keyAt e.mem ≤ off → off+n ≤ e.mem+cellSize+e.key.length+e.val.length →
      page'.slice off n = page.slice off n := by
    intro off n low high
    refine slice_congr fun j above below => only.byte j (outside j (block j ?_ (by omega)) ?_)
    · simp only [keyAt,cellSize] at low
      omega
    · simp only [Word,nextAt,keyAt,cellSize] at low ⊢
      omega
  have word : ∀ {off : Nat}, e.mem ≤ off → off+4 ≤ nextAt e.mem → getInt page' off = getInt page off := by
    intro off low high
    refine only.getInt fun j above below => outside j (block j (by omega) ?_) ?_
    · simp only [nextAt,cellSize] at high ⊢
      omega
    · simp only [Word]
      omega
  exact {
    keyLen := (word le_rfl (by simp only [nextAt]; omega)).trans stored.keyLen
    valLen := (word (Nat.le_add_right _ _) le_rfl).trans stored.valLen
    key := (data le_rfl (by simp only [keyAt]; omega)).trans stored.key
    val := (data (Nat.le_add_right _ _) le_rfl).trans stored.val }

end

/-- The page holds the cells of these entries, in any order. -/
structure Placed (page : Page) (free : List Chunk) (entries : List Entry) : Prop where
  tiles : Tiles page free (entries.map Entry.chunk)
  stored : ∀ e ∈ entries, Stored page e
  fits : ∀ e ∈ entries, e.Fits

/-- The addresses of all links. -/
def links (entries : List Entry) : List Nat := cellList::entries.map (fun e => nextAt e.mem)
def WordsApart (v w : Nat) : Prop := ∀ j, Word v j → ¬ Word w j
lemma WordsApart.symm (apart : WordsApart v w) : WordsApart w v := fun j right left => apart j left right

section
variable {page : Page} {free : List Chunk} {entries pre post : List Entry} {e : Entry}

lemma Placed.perm (placed : Placed page free entries) (perm : entries.Perm entries') :
    Placed page free entries' where
  tiles := placed.tiles.perm (perm.map _)
  stored := fun e mem => placed.stored e (perm.mem_iff.mpr mem)
  fits := fun e mem => placed.fits e (perm.mem_iff.mpr mem)

lemma Entry.Fits.word (fits : e.Fits) (word : Word (nextAt e.mem) j) : Block e.chunk j := by
  simp only [Entry.Fits,Entry.mem,cellSize] at fits
  simp only [Word,nextAt,Entry.mem] at word
  exact ⟨by omega,by omega⟩

section
variable (placed : Placed page free entries)
include placed

lemma Placed.block_low (mem : e ∈ entries)
    (block : Block e.chunk j) : 32 ≤ j := by
  have inside := placed.tiles.inside (mem_append_right free (mem_map_of_mem mem))
  have low := block.1
  simp only [nodeSize] at low
  omega

lemma Placed.word_cases (link : w ∈ links entries) (word : Word w j) :
    (12 ≤ j ∧ j < 16) ∨ ∃ e ∈ entries, w = nextAt e.mem ∧ Block e.chunk j := by
  rcases mem_cons.mp link with rfl | mem
  · exact .inl word
  · obtain ⟨e,inside,rfl⟩ := mem_map.mp mem
    exact .inr ⟨e,inside,rfl,(placed.fits e inside).word word⟩

lemma Placed.links_apart : (links entries).Pairwise WordsApart := by
  refine pairwise_cons.mpr ⟨?_,pairwise_map.mpr ?_⟩
  · intro w mem j field word
    obtain ⟨e,inside,rfl⟩ := mem_map.mp mem
    have low := placed.block_low inside ((placed.fits e inside).word word)
    have high := field.2
    simp only [cellList] at high
    omega
  · have apart := pairwise_map.mp placed.tiles.used_apart
    refine apart.imp_of_mem fun {a b} left right disjoint j mine other => ?_
    exact disjoint j ((placed.fits a left).word mine).has ((placed.fits b right).word other).has

end

lemma links_append (pre post : List Entry) :
    links (pre++post) = linksTo cellList pre ++ linkBehind cellList pre :: post.map (fun e => nextAt e.mem) := by
  rw [links,map_append,← cons_append,← linksTo_append,append_assoc]
  rfl

section
variable (placed : Placed page free entries)
include placed

lemma Placed.length_le : entries.length ≤ pageSize := by
  have lengths := placed.tiles.lengths
  rw [length_map] at lengths
  omega

lemma Placed.mem_lt (mem : e ∈ entries) : e.mem < pageSize := by
  have inside := (placed.tiles.inside (mem_append_right free (mem_map_of_mem mem))).2
  have fits := placed.fits e mem
  simp only [Entry.Fits,cellSize] at fits
  omega

lemma Placed.setLink (link : w ∈ links entries) (n : Int) :
    Placed (setInt page w n) free entries ∧ Only (Word w) page (setInt page w n) := by
  have low : w+4 ≤ page.size := by
    rw [placed.tiles.size]
    have first := placed.word_cases link ⟨Nat.le_add_right w 3,by omega⟩
    rcases first with field | ⟨e,inside,_,block⟩
    · simp only [pageSize]
      omega
    · have last := (placed.tiles.inside (mem_append_right free (mem_map_of_mem inside))).2
      have high := block.2
      omega
  have only : Only (Word w) page (setInt page w n) := only_setInt page w n low
  refine ⟨⟨placed.tiles.write only ?_,?_,placed.fits⟩,only⟩
  · intro j word
    rcases placed.word_cases link word with field | ⟨e,inside,_,block⟩
    · exact .inl field
    · exact .inr ⟨e.chunk,mem_map_of_mem inside,block⟩
  · intro d mem
    refine (placed.stored d mem).frame (placed.fits d mem) only fun j block outside word => ?_
    rcases placed.word_cases link word with field | ⟨e,inside,rfl,block'⟩
    · have := placed.block_low mem block
      omega
    · have same := placed.tiles.eq_of_has (mem_map_of_mem mem) (mem_map_of_mem inside) block.has block'.has
      refine outside ?_
      rwa [Entry.mem,same]

end

lemma seekLarger_eq {fuel : Nat} (chain : Chain page i post) (stored : ∀ e ∈ post, Stored page e)
    (terminated : Terminated key) (others : ∀ e ∈ post, Terminated e.key) (enough : post.length ≤ fuel) :
    ∃ pre rest, post = pre++rest ∧ (∀ e ∈ pre, e.key ≤ key) ∧ (∀ e ∈ rest.head?, key < e.key) ∧
      seekLarger page key fuel i = some (linkBehind i pre) := by
  induction post generalizing i fuel with
  | nil =>
    refine ⟨[],[],rfl,by simp,by simp,?_⟩
    have last : getInt page i = 0 := chain
    cases fuel <;> simp [seekLarger,last,linkBehind]
  | cons e post ih =>
    obtain ⟨link,rest⟩ := chain
    have other : ¬ (e.mem : Int) = 0 := by
      simp only [Entry.mem,nodeSize]
      omega
    have order := memcmp_pos terminated (others e mem_cons_self) (stored e mem_cons_self).key
    by_cases larger : key < e.key
    · refine ⟨[],e::post,rfl,by simp,by simpa using larger,?_⟩
      rw [seekLarger]
      simp only [link,other,if_false,Int.toNat_natCast,order.mpr larger,if_true]
      rfl
    · obtain _ | fuel := fuel
      · simp at enough
      obtain ⟨pre,rest',split,smaller,head,found⟩ := ih rest (fun d mem => stored d (mem_cons_of_mem _ mem))
        (fun d mem => others d (mem_cons_of_mem _ mem)) (by simpa using enough)
      refine ⟨e::pre,rest',by rw [split,cons_append],forall_mem_cons.mpr ⟨larger,smaller⟩,head,?_⟩
      rw [seekLarger]
      simp only [link,other,if_false,Int.toNat_natCast,mt order.mp larger,linkBehind]
      exact found

end

/-! ## Additions, deletions and runs -/
open Option

/-- The page holds these entries, linked in this order. -/
def Listing (page : Page) (free : List Chunk) (entries : List Entry) : Prop :=
  Placed page free entries ∧ Chain page cellList entries

section
variable {page page' : Page} {free : List Chunk} {entries pre post : List Entry} {e : Entry}

lemma memcpy_eq (off : Nat) (data : Bytes) (size : page.size = pageSize) (inside : off+data.length ≤ pageSize) :
    ∃ page', memcpy page off data = some page' ∧ page'.slice off data.length = data ∧
      Only (fun i => off ≤ i ∧ i < off+data.length) page page' :=
  ⟨_,if_pos inside,slice_write_self ..,only_write page off data (size ▸ inside)⟩

lemma setLengths (mem m n : Nat) (size : page.size = pageSize) (inside : mem+8 ≤ pageSize) (left : m ≤ pageSize)
    (right : n ≤ pageSize) :
    keyLen (setInt (setInt page mem m) (mem+4) n) mem = m ∧ valLen (setInt (setInt page mem m) (mem+4) n) mem = n ∧
      Only (fun i => mem ≤ i ∧ i < mem+8) page (setInt (setInt page mem m) (mem+4) n) := by
  simp only [pageSize] at left right
  have first := only_setInt page mem m (by omega)
  have second := only_setInt (setInt page mem m) (mem+4) n (by rw [first.size]; omega)
  refine ⟨?_,getInt_setInt (by omega) (by omega),?_⟩
  · exact (getInt_setInt_of_ne (.inr le_rfl)).trans (getInt_setInt (by omega) (by omega))
  · exact (first.mono (fun i here => ⟨here.1,by omega⟩)).trans (second.mono (fun i here => ⟨by omega,by omega⟩))

lemma fill_eq (size : page.size = pageSize) (fits : e.Fits) (inside : e.chunk.extent.end ≤ pageSize) :
    ∃ page', fill page e.mem e.key e.val = some page' ∧ Stored page' e ∧ Only (Block e.chunk) page page' := by
  have room : e.mem+12+e.key.length+e.val.length ≤ pageSize := fits.trans inside
  obtain ⟨keyLen1,valLen1,only1⟩ := setLengths e.mem e.key.length e.val.length size
    (by omega) (by omega) (by omega)
  obtain ⟨page2,copied2,key2,only2⟩ := memcpy_eq (keyAt e.mem) e.key (only1.size.trans size)
    (by simp only [keyAt,cellSize]; omega)
  have keyLen2 : keyLen page2 e.mem = e.key.length :=
    (only2.getInt (fun i _ high there => by simp only [keyAt,cellSize] at there; omega)).trans keyLen1
  have valLen2 : valLen page2 e.mem = e.val.length :=
    (only2.getInt (fun i _ high there => by simp only [keyAt,cellSize] at there; omega)).trans valLen1
  have start : valAt page2 e.mem = keyAt e.mem+e.key.length := by
    rw [valAt,keyLen2]
    rfl
  obtain ⟨page3,copied3,val3,only3⟩ := memcpy_eq (valAt page2 e.mem) e.val
    (only2.size.trans (only1.size.trans size)) (by simp only [start,keyAt,cellSize]; omega)
  rw [start] at val3 only3
  refine ⟨page3,?_,⟨?_,?_,?_,val3⟩,?_⟩
  · simp only [fill,copied2,bind_some,copied3]
  · exact (only3.getInt (fun i _ high there => by simp only [keyAt,cellSize] at there; omega)).trans keyLen2
  · exact (only3.getInt (fun i _ high there => by simp only [keyAt,cellSize] at there; omega)).trans valLen2
  · exact (only3.slice (fun i _ high there => by omega)).trans key2
  · have block : ∀ i, e.mem ≤ i → i < e.mem+12+e.key.length+e.val.length → Block e.chunk i :=
      fun i low high => ⟨low,high.trans_le fits⟩
    simp only [keyAt,cellSize] at only2 only3
    exact ((only1.mono (fun i here => block i (by omega) (by omega))).trans
      (only2.mono (fun i here => block i (by omega) (by omega)))).trans
      (only3.mono (fun i here => block i (by omega) (by omega)))

lemma Placed.word_frame (placed : Placed page free entries) (only : Only S page page')
    (field : ∀ j, Word cellList j → ¬ S j) (blocks : ∀ e ∈ entries, ∀ j, Block e.chunk j → ¬ S j)
    (link : w ∈ links entries) : getInt page' w = getInt page w := by
  refine only.getInt fun j low high => ?_
  rcases placed.word_cases link ⟨low,high⟩ with inField | ⟨e,inside,_,block⟩
  · exact field j inField
  · exact blocks e inside j block

lemma getInt_setLink (apart : WordsApart v w) : getInt (setInt page v n) w = getInt page w := by
  apply getInt_setInt_of_ne
  have common := apart (max v w)
  simp only [Word] at common
  omega

lemma Chain.first (placed : Placed page free entries) (chain : Chain page i post)
    (inside : ∀ d ∈ post, d ∈ entries) : 0 ≤ getInt page i ∧ getInt page i < pageSize := by
  cases post with
  | nil =>
    have last : getInt page i = 0 := chain
    rw [last]
    decide
  | cons d post =>
    have below := placed.mem_lt (inside d mem_cons_self)
    rw [chain.1]
    omega

lemma Listing.linked (placed : Placed page free (e::(pre++post))) (chain : Chain page cellList (pre++post)) :
    Listing (setInt (setInt page (nextAt e.mem) (getInt page (linkBehind cellList pre))) (linkBehind cellList pre) e.mem)
      free (pre++e::post) := by
  have order : links (e::(pre++post)) = cellList::nextAt e.mem :: (pre++post).map (fun d => nextAt d.mem) := rfl
  have mine : nextAt e.mem ∈ links (e::(pre++post)) := by simp [order]
  have slot : linkBehind cellList pre ∈ links (e::(pre++post)) := by
    have member : linkBehind cellList pre ∈ links (pre++post) := by simp [links_append]
    rw [order]
    simp only [links,mem_cons] at member ⊢
    tauto
  have apart := placed.links_apart
  have swapped : (links (e::(pre++post))).Perm (nextAt e.mem :: links (pre++post)) := List.Perm.swap ..
  rw [swapped.pairwise_iff WordsApart.symm,pairwise_cons,links_append,pairwise_append,pairwise_cons] at apart
  obtain ⟨new,_,⟨behind,_⟩,before⟩ := apart
  obtain ⟨placed1,_⟩ := placed.setLink mine (getInt page (linkBehind cellList pre))
  obtain ⟨placed2,_⟩ := placed1.setLink slot e.mem
  have bounds := Chain.first placed chain.append (fun d member => by simp [member])
  have small := placed.mem_lt mem_cons_self
  simp only [pageSize] at bounds small
  have written : ∀ w ∈ linksTo cellList pre ++ post.map (fun d => nextAt d.mem), getInt (setInt (setInt page (nextAt e.mem)
      (getInt page (linkBehind cellList pre))) (linkBehind cellList pre) e.mem) w = getInt page w := by
    intro w member
    have other : WordsApart (linkBehind cellList pre) w := by
      rcases mem_append.mp member with member | member
      · exact (before w member _ mem_cons_self).symm
      · exact behind w member
    have other' : WordsApart (nextAt e.mem) w := new w (by
      simp only [mem_append,mem_cons] at member ⊢
      tauto)
    rw [getInt_setLink other,getInt_setLink other']
  refine ⟨placed2.perm (perm_middle.symm),chain.relink (fun w member => written w (mem_append_left _ member)) ⟨?_,?_⟩⟩
  · exact getInt_setInt (by omega) (by omega)
  · refine chain.append.move ?_ fun d member => written _ (mem_append_right _ (List.mem_map_of_mem member))
    have other := (new (linkBehind cellList pre) (by simp)).symm
    rw [getInt_setLink other,getInt_setInt (by omega) (by omega)]

lemma cellBytes_eq (small : cellSize+key.length+val.length < 2^31) :
    cellBytes key val = (cellSize+key.length+val.length : Nat) := by
  refine Int.bmod_eq_of_le ?_ ?_
  all_goals omega

lemma Listing.filled (listing : Listing page free entries)
    (tiles : Tiles page1 free' (e.chunk::entries.map Entry.chunk)) (only : Only (Outside (entries.map Entry.chunk)) page page1)
    (fits : e.Fits) : ∃ page2, fill page1 e.mem e.key e.val = some page2 ∧ Placed page2 free' (e::entries) ∧
      Chain page2 cellList entries := by
  obtain ⟨placed,chain⟩ := listing
  have inside := tiles.inside (mem_append_right free' mem_cons_self)
  obtain ⟨page2,filled,stored,only'⟩ := fill_eq tiles.size fits inside.2
  have whole : Only (fun j => Outside (entries.map Entry.chunk) j ∨ Block e.chunk j) page page2 :=
    (only.mono (fun j outside => .inl outside)).trans (only'.mono (fun j block => .inr block))
  have field : ∀ j, Word cellList j → ¬ (Outside (entries.map Entry.chunk) j ∨ Block e.chunk j) := by
    rintro j ⟨_,high⟩ written
    have low : 16 ≤ j := by
      rcases written with outside | block
      · exact outside.1
      · have := block.1
        omega
    simp only [cellList] at high
    omega
  have blocks : ∀ d ∈ entries, ∀ j, Block d.chunk j → ¬ (Outside (entries.map Entry.chunk) j ∨ Block e.chunk j) := by
    rintro d member j block (outside | new)
    · exact outside.2 d.chunk (List.mem_map_of_mem member) block.has
    · exact tiles.apart_head (List.mem_map_of_mem member) j new.has block.has
  refine ⟨page2,filled,⟨?_,?_,?_⟩,?_⟩
  · exact tiles.write only' fun j block => .inr ⟨e.chunk,mem_cons_self,block⟩
  · refine forall_mem_cons.mpr ⟨stored,fun d member => ?_⟩
    exact (placed.stored d member).frame (placed.fits d member) whole fun j block _ => blocks d member j block
  · exact forall_mem_cons.mpr ⟨fits,placed.fits⟩
  · exact chain.move (placed.word_frame whole field blocks mem_cons_self)
      (fun d member => placed.word_frame whole field blocks (mem_cons_of_mem _ (List.mem_map_of_mem member)))

lemma Listing.listAdd (listing : Listing page free entries) (terminated : Terminated key)
    (others : ∀ e ∈ entries, Terminated e.key) (small : cellSize+key.length+val.length < 2^31) :
    listAdd page key val = some (0,page) ∨
    ∃ pre post c page' free', entries = pre++post ∧ (∀ e ∈ pre, e.key ≤ key) ∧ (∀ e ∈ post.head?, key < e.key) ∧
      listAdd page key val = some (1,page') ∧ Listing page' free' (pre++⟨c,key,val⟩::post) := by
  rcases listing.1.tiles.arenaAlloc small with ⟨failed,_⟩ | ⟨c,page1,free',allocated,large,tiles,only⟩
  · left
    rw [PageList.listAdd,cellBytes_eq small,failed]
    rfl
  · right
    have fits : Entry.Fits ⟨c,key,val⟩ := by
      simp only [Entry.Fits,Entry.mem,Extent.end,Chunk.extent]
      omega
    obtain ⟨page2,filled,placed,chain⟩ := listing.filled tiles only fits
    have stored := fun e member => placed.stored e (mem_cons_of_mem _ member)
    obtain ⟨pre,post,rfl,smaller,head,found⟩ := seekLarger_eq chain stored terminated others listing.1.length_le
    refine ⟨pre,post,c,_,free',rfl,smaller,head,?_,Listing.linked placed chain⟩
    have other : ¬ Entry.mem ⟨c,key,val⟩ = 0 := by
      simp only [Entry.mem,nodeSize]
      omega
    rw [PageList.listAdd,cellBytes_eq small,allocated,bind_some]
    change (if Entry.mem ⟨c,key,val⟩ = 0 then _ else (fill page1 (Entry.mem ⟨c,key,val⟩) key val).bind _) = _
    rw [if_neg other,filled,bind_some,found]
    rfl

/-- The allocator leaves the links alone, also that of the cell that is freed. -/
lemma Placed.freed (placed : Placed page free (e::entries)) :
    ∃ page1 free', arenaFree page e.mem = some page1 ∧ Placed page1 free' entries ∧
      ∀ w ∈ links (e::entries), getInt page1 w = getInt page w := by
  obtain ⟨page1,free',freed,tiles,only⟩ := placed.tiles.arenaFree
  have inside := placed.tiles.inside (mem_append_right free mem_cons_self)
  have units := placed.tiles.units e.chunk (mem_append_right free mem_cons_self)
  have field : ∀ j, Word cellList j → ¬ (Outside ((e::entries).map Entry.chunk) j ∨ Header e.chunk.offset j) := by
    rintro j ⟨_,high⟩ written
    have low : 16 ≤ j := by
      rcases written with outside | header
      · exact outside.1
      · have := header.1
        omega
    simp only [cellList] at high
    omega
  have blocks : ∀ d ∈ e::entries, ∀ j, Block d.chunk j →
      ¬ (Outside ((e::entries).map Entry.chunk) j ∨ Header e.chunk.offset j) := by
    rintro d member j block (outside | header)
    · exact outside.2 d.chunk (List.mem_map_of_mem member) block.has
    · rcases mem_cons.mp member with rfl | member
      · have low := block.1
        have high := header.2
        omega
      · exact placed.tiles.apart_head (List.mem_map_of_mem member) j (header_extent units header) block.has
  refine ⟨page1,free',freed,⟨tiles,fun d member => ?_,fun d member => ?_⟩,fun w link => ?_⟩
  · have member' := mem_cons_of_mem e member
    exact (placed.stored d member').frame (placed.fits d member') only fun j block _ => blocks d member' j block
  · exact placed.fits d (mem_cons_of_mem e member)
  · exact placed.word_frame only field blocks link

lemma Listing.unlinked (listing : Listing page free (pre++e::post)) :
    ∃ page1 free', arenaFree page e.mem = some page1 ∧
      Listing (setInt page1 (linkBehind cellList pre) (getInt page1 (nextAt e.mem))) free' (pre++post) := by
  obtain ⟨placed,chain⟩ := listing
  obtain ⟨page1,free',freed,placed1,words⟩ := (placed.perm perm_middle).freed
  have slot : linkBehind cellList pre ∈ links (pre++post) := by simp [links_append]
  have kept : ∀ w ∈ links (pre++post), getInt page1 w = getInt page w := by
    intro w link
    refine words w ?_
    simp only [links,map_cons,mem_cons] at link ⊢
    tauto
  have mine : getInt page1 (nextAt e.mem) = getInt page (nextAt e.mem) := words _ (by simp [links])
  have behind : Chain page (nextAt e.mem) post := chain.append.2
  have bounds := Chain.first placed behind (fun d member => by simp [member])
  rw [← mine] at bounds
  simp only [pageSize] at bounds
  have apart := placed1.links_apart
  rw [links_append,pairwise_append,pairwise_cons] at apart
  obtain ⟨_,⟨after,_⟩,before⟩ := apart
  refine ⟨page1,free',freed,(placed1.setLink slot _).1,chain.relink (fun w member => ?_) (behind.move ?_ (fun d member => ?_))⟩
  · rw [getInt_setLink (before w member _ mem_cons_self).symm,kept w (by simp [links_append,member])]
  · rw [getInt_setInt (by omega) (by omega),mine]
  · have member' := List.mem_map_of_mem (f := fun d => nextAt d.mem) member
    have link : nextAt d.mem ∈ links (pre++post) := by
      rw [links_append]
      exact mem_append_right _ (mem_cons_of_mem _ member')
    rw [getInt_setLink (after _ member'),kept _ link]

lemma Stored.matches (stored : Stored page e) (key : Bytes) :
    (PageList.keyLen page e.mem = key.length ∧ memcmp (page.slice (keyAt e.mem) key.length) key = 0) ↔ e.key = key := by
  rw [memcmp_eq_zero (length_slice ..),stored.keyLen,Nat.cast_inj]
  constructor
  · rintro ⟨same,equal⟩
    rwa [← same,stored.key] at equal
  · rintro rfl
    exact ⟨rfl,stored.key⟩

lemma Listing.delFrom (key : Bytes) (n : Nat) (listing : Listing page free (pre++post)) (enough : post.length ≤ fuel) :
    ∃ page' free', delFrom key fuel page (linkBehind cellList pre) n = some (n+post.countP (fun e => e.key = key),page') ∧
      Listing page' free' (pre++post.filter (fun e => e.key ≠ key)) := by
  induction post generalizing page free pre fuel n with
  | nil =>
    have last : getInt page (linkBehind cellList pre) = 0 := listing.2.append
    refine ⟨page,free,?_,listing⟩
    cases fuel <;> simp [PageList.delFrom,last]
  | cons e post ih =>
    obtain _ | fuel := fuel
    · simp at enough
    have link : getInt page (linkBehind cellList pre) = e.mem := listing.2.append.1
    have other : ¬ (e.mem : Int) = 0 := by
      simp only [Entry.mem,nodeSize]
      omega
    have decides := (listing.1.stored e (by simp)).matches key
    by_cases same : e.key = key
    · obtain ⟨page1,free',freed,listing1⟩ := listing.unlinked
      obtain ⟨page2,free2,result,listing2⟩ := ih (n+1) listing1 (by simpa using enough)
      refine ⟨page2,free2,?_,?_⟩
      · have total : n+1+post.countP (fun e => e.key = key) = n+(e::post).countP (fun e => e.key = key) := by
          simp only [countP_cons,same,decide_true,if_true]
          omega
        rw [PageList.delFrom]
        simp only [link,other,if_false,Int.toNat_natCast,decides.mpr same,freed,bind_some]
        rwa [← total]
      · simpa [same] using listing2
    · have next : Listing page free ((pre++[e])++post) := by simpa using listing
      obtain ⟨page2,free2,result,listing2⟩ := ih n next (by simpa using enough)
      rw [linkBehind_concat] at result
      refine ⟨page2,free2,?_,?_⟩
      · rw [PageList.delFrom]
        simp only [link,other,if_false,Int.toNat_natCast,mt decides.mp same,countP_cons,same,decide_false]
        exact result
      · simpa [same] using listing2

lemma Listing.listDel (listing : Listing page free entries) (key : Bytes) :
    ∃ page' free', listDel page key = some (entries.countP (fun e => e.key = key),page') ∧
      Listing page' free' (entries.filter (fun e => e.key ≠ key)) := by
  obtain ⟨page',free',result,listing'⟩ := Listing.delFrom key 0
    (show Listing page free ([]++entries) from listing) listing.1.length_le
  rw [Nat.zero_add] at result
  exact ⟨page',free',result,listing'⟩

lemma Stored.cellOf (stored : Stored page e) : cellOf page e.mem = e.cell := by
  rw [PageList.cellOf,valAt,stored.keyLen,stored.valLen,Int.toNat_natCast,Int.toNat_natCast,stored.key]
  exact congrArg (Cell.mk e.mem e.key) stored.val

lemma cellsFrom_eq (chain : Chain page i post) (stored : ∀ e ∈ post, Stored page e)
    (enough : post.length ≤ fuel) : cellsFrom page fuel i = some (post.map Entry.cell) := by
  induction post generalizing i fuel with
  | nil =>
    have last : getInt page i = 0 := chain
    cases fuel <;> simp [cellsFrom,last]
  | cons e post ih =>
    obtain _ | fuel := fuel
    · simp at enough
    have other : ¬ (e.mem : Int) = 0 := by
      simp only [Entry.mem,nodeSize]
      omega
    have rest := ih chain.2 (fun d member => stored d (mem_cons_of_mem _ member)) (by simpa using enough)
    rw [cellsFrom]
    simp only [chain.1,other,if_false,Int.toNat_natCast,rest,(stored e mem_cons_self).cellOf,map_some,
      map_cons]

lemma Listing.cells (listing : Listing page free entries) : cells page = some (entries.map Entry.cell) :=
  cellsFrom_eq listing.2 listing.1.stored listing.1.length_le

end

/-- The page, and the pairs that were added and not deleted. -/
structure State where
  page : Page
  pairs : List (Bytes × Bytes)

inductive Op where
  | add (key val : Bytes)
  | del (key : Bytes)

/-- No result when an operation does not return. -/
def State.next (s : State) : Op → Option State
  | .add key val => (listAdd s.page key val).map (fun (added,page) =>
      ⟨page,if added = 0 then s.pairs else (key,val) :: s.pairs⟩)
  | .del key => (listDel s.page key).map (fun (_,page) => ⟨page,s.pairs.filter (fun p => p.1 ≠ key)⟩)

/-- Keys end with their only NUL, and the size of a cell is an `int`. -/
def Sized (_ : State) : Op → Prop
  | .add key val => Terminated key ∧ cellSize+key.length+val.length < 2^31
  | .del key => Terminated key
instance (s : State) : ∀ op, Decidable (Sized s op)
  | .add _ _ => decideAs (_ ∧ _)
  | .del key => decideAs (Terminated key)

/-- A new page. -/
def Initial (s : State) : Prop := ∃ page : Page, page.size = pageSize ∧ s = ⟨btreeNodeInit page,[]⟩

/-- The page holds the pairs of the state, sorted by their keys. -/
structure Refines (s : State) (free : List Chunk) (entries : List Entry) : Prop where
  listing : Listing s.page free entries
  terminated : ∀ e ∈ entries, Terminated e.key
  sorted : entries.Pairwise (fun a b => a.key ≤ b.key)
  pairs : (entries.map (fun e => (e.key,e.val))).Perm s.pairs

section
variable {s t : State} {free : List Chunk} {entries : List Entry}

lemma refines_initial (initial : Initial s) : ∃ free entries, Refines s free entries := by
  obtain ⟨page,size,rfl⟩ := initial
  refine ⟨[⟨24,509⟩],[],⟨⟨tiles_init size,by simp,by simp⟩,?_⟩,by simp,List.Pairwise.nil,.refl _⟩
  show getInt (btreeNodeInit page) 12 = 0
  rw [btreeNodeInit_eq]
  simp (disch := omega) only [getInt_setInt_of_ne,getInt_setInt]

lemma sorted_insert {e : Entry} (sorted : (pre++post).Pairwise (fun a b => a.key ≤ b.key))
    (smaller : ∀ d ∈ pre, d.key ≤ e.key) (head : ∀ d ∈ post.head?, e.key < d.key) :
    (pre++e::post).Pairwise (fun a b => a.key ≤ b.key) := by
  obtain ⟨before,behind,across⟩ := pairwise_append.mp sorted
  have larger : ∀ d ∈ post, e.key ≤ d.key := by
    cases post with
    | nil => simp
    | cons f post =>
      have first : e.key ≤ f.key := List.le_of_lt (head f rfl)
      refine forall_mem_cons.mpr ⟨first,fun d member => ?_⟩
      exact List.le_trans first ((pairwise_cons.mp behind).1 d member)
  refine pairwise_append.mpr ⟨before,pairwise_cons.mpr ⟨larger,behind⟩,fun d left f right => ?_⟩
  rcases mem_cons.mp right with rfl | right
  · exact smaller d left
  · exact across d left f right

lemma Refines.add {key val : Bytes} (refines : Refines s free entries) (terminated : Terminated key)
    (small : cellSize+key.length+val.length < 2^31) (moved : s.next (.add key val) = some t) :
    ∃ free entries, Refines t free entries := by
  simp only [State.next,map_eq_some_iff] at moved
  obtain ⟨⟨added,page⟩,result,rfl⟩ := moved
  rcases refines.listing.listAdd terminated refines.terminated small with
    full | ⟨pre,post,c,page',free',rfl,smaller,head,found,listing⟩
  · obtain ⟨rfl,rfl⟩ : 0 = added ∧ s.page = page := by simpa [full] using result
    exact ⟨free,entries,refines.listing,refines.terminated,refines.sorted,refines.pairs⟩
  · obtain ⟨rfl,rfl⟩ : 1 = added ∧ page' = page := by simpa [found] using result
    refine ⟨free',_,listing,?_,sorted_insert refines.sorted smaller head,?_⟩
    · intro e member
      simp only [mem_append,mem_cons] at member
      rcases member with member | rfl | member
      · exact refines.terminated e (mem_append_left _ member)
      · exact terminated
      · exact refines.terminated e (mem_append_right _ member)
    · exact (perm_middle.map _).trans (refines.pairs.cons (key,val))

lemma Refines.del (refines : Refines s free entries) (moved : s.next (.del key) = some t) :
    ∃ free entries, Refines t free entries := by
  simp only [State.next,map_eq_some_iff] at moved
  obtain ⟨⟨n,page⟩,result,rfl⟩ := moved
  obtain ⟨page',free',deleted,listing⟩ := refines.listing.listDel key
  obtain ⟨rfl,rfl⟩ : entries.countP (fun e => e.key = key) = n ∧ page' = page := by simpa [deleted] using result
  refine ⟨free',_,listing,?_,refines.sorted.sublist filter_sublist,?_⟩
  · exact fun e member => refines.terminated e (mem_of_mem_filter member)
  · have kept := refines.pairs.filter (fun p => p.1 ≠ key)
    rwa [List.filter_map] at kept

lemma reach_refines : ∀ s, Reach Initial Sized State.next s → ∃ free entries, Refines s free entries := by
  apply Reach.invariant
  · intro s initial
    exact refines_initial initial
  · rintro s op t ⟨free,entries,refines⟩ sized moved
    cases op with
    | add key val => exact refines.add sized.1 sized.2 moved
    | del key => exact refines.del moved

end

/-- In every state reached the page is a sorted list of the pairs, and each cell lies in a chunk of its own. -/
theorem page_list_refines {s : State} (reached : Reach Initial Sized State.next s) :
    ∃ list free, cells s.page = some list ∧ freeChunks s.page = some free ∧
      list.Pairwise (fun a b => a.key ≤ b.key) ∧ (list.map (fun c => (c.key,c.val))).Perm s.pairs ∧
      (∀ c ∈ list, (chunkOf s.page c.mem).offset+nodeSize = c.mem ∧
        c.mem+cellSize+c.key.length+c.val.length ≤ (chunkOf s.page c.mem).extent.end) ∧
      Separated ((free++list.map (fun c => chunkOf s.page c.mem)).map Chunk.extent) ∧
      (∀ key val, Terminated key → cellSize+key.length+val.length < 2^31 →
        listAdd s.page key val = some (0,s.page) ∨ ∃ page, listAdd s.page key val = some (1,page)) ∧
      ∀ key, ∃ page, listDel s.page key = some (list.countP (fun c => c.key = key),page) ∧
        cells page = some (list.filter (fun c => c.key ≠ key)) := by
  obtain ⟨free,entries,refines⟩ := reach_refines s reached
  have listing := refines.listing
  have tiles := listing.1.tiles
  have chunk : ∀ e ∈ entries, chunkOf s.page e.mem = e.chunk := fun e member => tiles.chunkOf (List.mem_map_of_mem member)
  have chunks : (entries.map Entry.cell).map (fun c => chunkOf s.page c.mem) = entries.map Entry.chunk := by
    rw [List.map_map]
    exact map_congr_left chunk
  refine ⟨entries.map Entry.cell,free,listing.cells,tiles.freeChunks,?_,?_,?_,?_,?_,?_⟩
  · exact pairwise_map.mpr refines.sorted
  · rw [List.map_map]
    exact refines.pairs
  · intro c member
    obtain ⟨e,inside,rfl⟩ := List.mem_map.mp member
    have mine : chunkOf s.page e.cell.mem = e.chunk := chunk e inside
    rw [mine]
    exact ⟨rfl,listing.1.fits e inside⟩
  · rw [chunks]
    exact tiles.separated
  · intro key val terminated small
    rcases listing.listAdd terminated refines.terminated small with full | ⟨_,_,_,page,_,_,_,_,found,_⟩
    · exact .inl full
    · exact .inr ⟨page,found⟩
  · intro key
    obtain ⟨page,free',deleted,listing'⟩ := listing.listDel key
    refine ⟨page,?_,?_⟩
    · rw [deleted,countP_map]
      rfl
    · rw [listing'.cells,List.filter_map]
      rfl

/-- The second cell stays between the two that are deleted. -/
def shuffled : List Op := [.add [98,0] [1],.add [98,98,0] [2],.add [97,0] [3],.add [98,0] [4],.del [97,0]]

theorem page_list_refines_shuffled : ∃ s, Reach Initial Sized State.next s ∧ cells s.page =
      some [⟨4080,[98,0],[1]⟩,⟨4008,[98,0],[4]⟩,⟨4056,[98,98,0],[2]⟩] ∧
    s.pairs.Perm [([98,0],[1]),([98,0],[4]),([98,98,0],[2])] ∧ ∃ page, listDel s.page [98,0] = some (2,page) ∧
      cells page = some [⟨4056,[98,98,0],[2]⟩] := by
  have initial : Initial ⟨btreeNodeInit (File.zeros pageSize),[]⟩ := ⟨File.zeros pageSize,rfl,rfl⟩
  have seen : ∃ s, Reach Initial Sized State.next s ∧
      cells s.page = some [⟨4080,[98,0],[1]⟩,⟨4008,[98,0],[4]⟩,⟨4056,[98,98,0],[2]⟩] :=
    exists_reach_from initial shuffled (by decide +kernel)
  obtain ⟨s,reached,read⟩ := seen
  obtain ⟨list,_,read',_,_,pairs,_,_,_,deletes⟩ := page_list_refines reached
  obtain rfl := some.inj (read'.symm.trans read)
  exact ⟨s,reached,read,pairs.symm,deletes [98,0]⟩

/-- A value of 2^31-1 bytes: the size of the cell wraps around, and the chunk would begin outside the page. -/
theorem add_overflows : ∃ key val : Bytes, Terminated key ∧ key.length < 2^31 ∧ val.length < 2^31 ∧
    listAdd (btreeNodeInit (File.zeros pageSize)) key val = none := by
  have wraps : Int.bmod 2147483661 (2^32) = -2147483635 := by decide +kernel
  have outside : arenaAlloc (btreeNodeInit (File.zeros pageSize)) (-2147483635) = none := by
    rw [← isNone_iff_eq_none]
    decide +kernel
  obtain ⟨val,length⟩ : ∃ val : Bytes, val.length = 2147483647 := ⟨List.replicate _ 120,length_replicate ..⟩
  refine ⟨[97,0],val,by decide,by decide,by omega,?_⟩
  have size : cellBytes [97,0] val = -2147483635 := by
    have two : ([97,0] : Bytes).length = 2 := rfl
    have total : ((cellSize+([97,0] : Bytes).length+val.length : Nat) : Int) = 2147483661 := by
      simp only [cellSize]
      omega
    exact (congrArg (fun n => Int.bmod n (2^32)) total).trans wraps
  rw [listAdd,size,outside]
  rfl

end CodeExercise.PageList
