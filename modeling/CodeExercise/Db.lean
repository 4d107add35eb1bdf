import CodeExercise.Extents
import CodeExercise.Files
import CodeExercise.SortedMaps
import Mathlib.Logic.Function.Basic

/-!
The key-value store of `db.cpp`, byte for byte: the index file with the table of list heads and the
nodes of the hash lists, the data file with the values, the maps of freed extents, and the read cache.
An operation has no result where the program ends (a failed write) or is undefined (a short read, a
negative index). Locking is left out.
-/
namespace CodeExercise.Db
open Files SortedMaps Extents List

abbrev Bytes := List UInt8

def hashTableSize : Nat := 4993
def maxCacheSize : Nat := 5

structure Link where
  totalSize : Nat
  size : Nat
  offset : Nat
  deriving DecidableEq

/-- `Link()`. -/
def Link.null : Link := ⟨0,0,0⟩
def Link.isNull (l : Link) : Bool := l.offset == 0
/-- `Link::Size`. -/
def linkSize : Nat := 8+8+8
def Link.encode (l : Link) : Bytes := toLE 8 l.totalSize ++ toLE 8 l.size ++ toLE 8 l.offset

def Link.decode (buf : Bytes) : Link :=
  ⟨ofLE (buf.take 8),ofLE ((buf.drop 8).take 8),ofLE ((buf.drop 16).take 8)⟩

/-- The bytes allocated for the link. -/
def Link.extent (l : Link) : Extent := ⟨l.offset,l.totalSize⟩
/-- The bytes of a string that C sees: up to the first NUL. -/
def cStr (s : Bytes) : Bytes := s.takeWhile (· ≠ 0)

structure Node where
  valid : Bool
  key : Bytes
  valLink : Link
  next : Link
  deriving DecidableEq

def Node.size (n : Node) : Nat := 1+4+(cStr n.key).length+linkSize+linkSize

/-- The buffer that `Node::Encode` fills. -/
def Node.rep (n : Node) : Bytes :=
  let key := cStr n.key
  (if n.valid then 1 else 0) :: (toLE 4 key.length ++ (key++(n.valLink.encode++n.next.encode)))

/-- `Node::Encode`; `key_len` is an `int`. -/
def Node.encode (n : Node) : Option Bytes := if (cStr n.key).length < 2^31 then some n.rep else none

/-- `Node::Decode` of a buffer, which has to be long enough. -/
def Node.decode (buf : Bytes) : Option Node :=
  match buf with
  | [] => none
  | valid::rest =>
    let keyLen := ofLE (rest.take 4)
    if 4 ≤ rest.length ∧ keyLen < 2^31 ∧ 4+keyLen+linkSize+linkSize ≤ rest.length then
      let rest := rest.drop 4
      some ⟨valid ≠ 0,rest.take keyLen,Link.decode (rest.drop keyLen),Link.decode ((rest.drop keyLen).drop linkSize)⟩
    else none

/-- An open file: its contents, the position, and the extents written so far. -/
structure Fd where
  file : File
  pos : Nat
  writes : List Extent

def Fd.lseek (fd : Fd) (offset : Nat) : Fd := { fd with pos := offset }

/-- `Write` at the position; the program ends when the file would get too large. -/
def Fd.write (fd : Fd) (data : Bytes) : Option Fd :=
  if fd.pos+data.length < 2^63 then
    some ⟨fd.file.write fd.pos data,fd.pos+data.length,⟨fd.pos,data.length⟩::fd.writes⟩
  else none

/-- `free_node_` and `free_data_`, by total size. -/
abbrev FreeMap := SortedMap Nat Link

def findRooMAndWrite (data : Bytes) (fd : Fd) (freeSpace : FreeMap) : Option (Link × Fd × FreeMap) :=
  match freeSpace.lowerBound data.length with
  | some (size,l) => ((fd.lseek l.offset).write data).map (fun fd => (l,fd,freeSpace.erase size))
  | none =>
    let l : Link := ⟨data.length,data.length,fd.file.size⟩
    ((fd.lseek l.offset).write data).map (fun fd => (l,fd,freeSpace))

def nodeRead (idx : File) (l : Link) : Option Node := (idx.read l.offset l.size).bind Node.decode

def nodeWriteInplace (idx : Fd) (np : Node) (offset : Nat) : Option Fd :=
  np.encode.bind (fun rep => (idx.lseek offset).write rep)

def getVal (data : File) (l : Link) : Option Bytes := data.read l.offset l.size

/-- What `DList::Find` returns: the node, its link, and the node before it. -/
structure Found where
  node : Node
  link : Link
  prev : Option (Node × Link)
  deriving DecidableEq

/-- The loop of `DList::Find`. -/
def findFrom (idx : File) (key : Bytes) : Nat → Option (Node × Link) → Link → Option (Option Found)
  | 0,_,_ => none
  | fuel+1,prev,l =>
    if l.isNull then some none
    else match nodeRead idx l with
      | none => none
      | some np =>
        if np.valid && np.key == key then some (some ⟨np,l,prev⟩)
        else findFrom idx key fuel (some (np,l)) np.next

/-- The nodes that the loop of `DList::Print` goes through. -/
def nodesFrom (idx : File) : Nat → Link → Option (List Node)
  | 0,_ => none
  | fuel+1,l =>
    if l.isNull then some []
    else (nodeRead idx l).bind (fun np => (nodesFrom idx fuel np.next).map (np::·))

/-- The list of the cache from its head; the map has the same nodes. -/
abbrev LRUCache := List (Bytes × Bytes)
def LRUCache.find (c : LRUCache) (key : Bytes) : Option Bytes := (List.find? (fun p => p.1 == key) c).map Prod.snd
def LRUCache.del (c : LRUCache) (key : Bytes) : LRUCache := List.filter (fun p => p.1 != key) c

def LRUCache.set (c : LRUCache) (key val : Bytes) : LRUCache :=
  match c.find key with
  | some _ => (key,val) :: c.del key
  | none => (key,val) :: (if maxCacheSize ≤ c.length then c.dropLast else c)

def LRUCache.get (c : LRUCache) (key : Bytes) : Option (Bytes × LRUCache) :=
  (c.find key).map (fun val => (val,(key,val)::c.del key))

/-- A `DB` with its open files; `heads` are the heads of `list_arr_`. -/
structure DB where
  idx : Fd
  data : Fd
  heads : Nat → Link
  freeNode : FreeMap
  freeData : FreeMap
  cache : LRUCache

/-- A `char`, which is signed. -/
def char (c : UInt8) : Int := if c.toNat < 128 then c.toNat else (c.toNat : Int)-256
/-- `DB::hash`; `%` has the sign of its left operand. -/
def hash (str : Bytes) : Int := (cStr str).foldl (fun h p => (31*h+char p).tmod hashTableSize) 0
/-- The list of a key; `list_arr_` has no negative index. -/
def bucket (key : Bytes) : Option Nat := if 0 ≤ hash key then some (hash key).toNat else none

def DB.find (s : DB) (h : Nat) (key : Bytes) : Option (Option Found) :=
  findFrom s.idx.file key (s.idx.file.size+1) none (s.heads h)

def DB.headWrite (s : DB) (h : Nat) : Option DB :=
  ((s.idx.lseek (h*linkSize)).write (s.heads h).encode).map (fun idx => { s with idx := idx })

def DB.addInternal (s : DB) (h : Nat) (key val : Bytes) : Option (Bool × DB) := do
  match ← s.find h key with
  | some _ => some (false,s)
  | none =>
    let (valLink,data,freeData) ← findRooMAndWrite val s.data s.freeData
    let rep ← Node.encode ⟨true,key,valLink,s.heads h⟩
    let (head,idx,freeNode) ← findRooMAndWrite rep s.idx s.freeNode
    let s' : DB := ⟨idx,data,Function.update s.heads h head,freeNode,freeData,s.cache⟩
    let s'' ← s'.headWrite h
    some (true,s'')

def DB.setInternal (s : DB) (h : Nat) (key val : Bytes) : Option (Bool × DB) := do
  match ← s.find h key with
  | none => some (false,s)
  | some found =>
    let old := found.node.valLink
    let (valLink,data,freeData) ←
      if val.length ≤ old.totalSize then some ({ old with size := val.length },s.data.lseek old.offset,s.freeData)
      else findRooMAndWrite val s.data (s.freeData.set old.totalSize old)
    -- This write follows the one of `findRooMAndWrite`, too.
    let data ← data.write val
    let idx ← nodeWriteInplace s.idx { found.node with valLink := valLink } found.link.offset
    some (true,{ s with idx := idx, data := data, freeData := freeData })

def DB.delInternal (s : DB) (h : Nat) (key : Bytes) : Option (Bool × DB) := do
  match ← s.find h key with
  | none => some (false,s)
  | some found =>
    let s' ← match found.prev with
      | none => ({ s with heads := Function.update s.heads h found.node.next } : DB).headWrite h
      | some (prev,prevLink) =>
        (nodeWriteInplace s.idx { prev with next := found.node.next } prevLink.offset).map (fun idx => { s with idx := idx })
    let valLink := found.node.valLink
    some (true,{ s' with freeNode := s'.freeNode.set found.link.totalSize found.link
                         freeData := s'.freeData.set valLink.totalSize valLink })

def DB.getInternal (s : DB) (h : Nat) (key : Bytes) : Option (Option Bytes × DB) :=
  match s.cache.get key with
  | some (val,cache) => some (some val,{ s with cache := cache })
  | none => do
    match ← s.find h key with
    | none => some (none,s)
    | some found =>
      let val ← getVal s.data.file found.node.valLink
      some (some val,{ s with cache := s.cache.set key val })

inductive Op where
  | add (key val : Bytes)
  | set (key val : Bytes)
  | del (key : Bytes)
  | get (key : Bytes)
  deriving DecidableEq

/-- The result of `Add`, `Set` and `Del`, or the value that `Get` finds. -/
inductive Res where
  | done (ok : Bool)
  | value (val : Option Bytes)
  deriving DecidableEq

def Op.key : Op → Bytes
  | .add key _ | .set key _ | .del key | .get key => key

/-- `DB::Add`, `Set`, `Del` (through `Writer`) and `Get`. -/
def DB.step (s : DB) (op : Op) : Option (Res × DB) := do
  let h ← bucket op.key
  let s' : DB := { s with cache := s.cache.del op.key }
  match op with
  | .add key val => (s'.addInternal h key val).map (fun r => (.done r.1,r.2))
  | .set key val => (s'.setInternal h key val).map (fun r => (.done r.1,r.2))
  | .del key => (s'.delInternal h key).map (fun r => (.done r.1,r.2))
  | .get key => (s.getInternal h key).map (fun r => (.value r.1,r.2))

/-- `DB::Open` of a new database. -/
def DB.create : Option DB :=
  (List.range hashTableSize).foldlM DB.headWrite
    ⟨⟨.zeros 0,0,[]⟩,⟨.zeros 0,0,[]⟩,fun _ => .null,.empty,.empty,[]⟩

/-- The store after the heads of the first `n` lists are written. -/
def DB.started (n : Nat) : DB :=
  ⟨⟨.zeros (n*linkSize),n*linkSize,((List.range n).map (fun h => ⟨h*linkSize,linkSize⟩)).reverse⟩,⟨.zeros 0,0,[]⟩,
    fun _ => .null,.empty,.empty,[]⟩

def DB.fresh : DB := DB.started hashTableSize

lemma zeros_write_null (n : Nat) : (File.zeros (n*linkSize)).write (n*linkSize) Link.null.encode =
    .zeros ((n+1)*linkSize) := by
  have zero : ∀ i, Link.null.encode.getD i 0 = 0 := by
    intro i
    rw [show Link.null.encode = List.replicate linkSize 0 from rfl,getD_eq_getElem?_getD,getElem?_replicate]
    split <;> rfl
  ext1
  · rw [size_write (by simp [File.zeros])]
    simp only [File.zeros,show Link.null.encode.length = linkSize from rfl]
    rw [Nat.add_mul]
    omega
  · funext i
    simp only [File.write,zero]
    exact ite_self _

lemma headWrite_started (small : n < hashTableSize) :
    (DB.started n).headWrite n = some (DB.started (n+1)) := by
  have room : n*linkSize+linkSize < 2^63 := by
    simp only [hashTableSize,linkSize] at *
    omega
  simp only [DB.headWrite,Fd.write,Fd.lseek,DB.started,show Link.null.encode.length = linkSize from rfl,room,if_true,
    Option.map_some,zeros_write_null,range_succ,map_append,reverse_append,Nat.add_mul,Nat.one_mul]
  rfl

lemma create_eq : DB.create = some DB.fresh := by
  have loop : ∀ n, n ≤ hashTableSize → (List.range n).foldlM DB.headWrite (DB.started 0) = some (DB.started n) := by
    intro n
    induction n with
    | zero => intro _; rfl
    | succ n ih =>
      intro small
      rw [range_succ,foldlM_append,ih (by omega)]
      simp [headWrite_started (show n < hashTableSize by omega)]
  exact loop hashTableSize le_rfl

/-- The state after a list of operations, and their results. -/
def DB.run : DB → List Op → Option (List Res × DB)
  | s,[] => some ([],s)
  | s,op::ops => do
    let (r,s') ← s.step op
    let (rs,s'') ← DB.run s' ops
    some (r::rs,s'')

/-! ## What the index file says about a node -/
open Option

/-- The numbers of a link fit into 64 bits. -/
structure Link.Small (l : Link) : Prop where
  totalSize : l.totalSize < 2^64
  size : l.size < 2^64
  offset : l.offset < 2^64

lemma Link.small_null : Link.null.Small := by constructor <;> decide
@[simp] lemma Link.length_encode (l : Link) : l.encode.length = linkSize := by simp [Link.encode,linkSize]

variable {l : Link} {n : Node} {f : File} {es : List Entry}

lemma Link.decode_encode (small : l.Small) (rest : Bytes) : Link.decode (l.encode++rest) = l := by
  have word : (2:Nat)^64 = 256^8 := by decide
  obtain ⟨total,size,offset⟩ := small
  rw [word] at total size offset
  simp only [Link.decode,Link.encode,append_assoc]
  rw [take_left' (by simp),drop_left' (by simp),take_left' (by simp)]
  rw [show 16 = 8+8 from rfl,← drop_drop,drop_left' (by simp),drop_left' (by simp),
    take_left' (by simp)]
  rw [ofLE_toLE_of_lt total,ofLE_toLE_of_lt size,ofLE_toLE_of_lt offset]

lemma cStr_cStr (s : Bytes) : cStr (cStr s) = cStr s := by
  unfold cStr
  induction s with
  | nil => rfl
  | cons b rest ih =>
    by_cases nul : b = 0
    · simp [nul]
    · simp only [takeWhile_cons,nul,ne_eq,not_false_eq_true,decide_true,if_true]
      rw [ih]

lemma Node.encode_eq_some {rep : Bytes} :
    n.encode = some rep ↔ (cStr n.key).length < 2^31 ∧ n.rep = rep := by
  unfold Node.encode
  split
  · next short => simp only [short,true_and,some.injEq]
  · next long => simp only [long,false_and,reduceCtorEq]

lemma Node.length_rep (n : Node) : n.rep.length = n.size := by
  simp [Node.rep,Node.size]
  omega

lemma Node.length_encode {rep : Bytes} (encoded : n.encode = some rep) : rep.length = n.size := by
  rw [← (Node.encode_eq_some.mp encoded).2,Node.length_rep]

lemma Node.decode_encode {rep : Bytes} (encoded : n.encode = some rep) (val : n.valLink.Small)
    (next : n.next.Small) (rest : Bytes) : Node.decode (rep++rest) = some { n with key := cStr n.key } := by
  obtain ⟨short,rfl⟩ := Node.encode_eq_some.mp encoded
  have word : (2:Nat)^31 ≤ 256^4 := by decide
  have keyLen : ofLE (toLE 4 (cStr n.key).length) = (cStr n.key).length :=
    ofLE_toLE_of_lt (Nat.lt_of_lt_of_le short word)
  have flag : (((if n.valid then 1 else 0) : UInt8) ≠ 0) = (n.valid = true) := by
    cases n.valid <;> simp
  simp only [Node.decode,Node.rep,cons_append,append_assoc]
  rw [take_left' (by simp),keyLen]
  rw [if_pos ⟨by simp,short,by simp; omega⟩]
  rw [drop_left' (by simp),take_left' rfl,drop_left' rfl,Link.decode_encode val,
    drop_left' (by simp),Link.decode_encode next]
  simp [flag]

/-- The bytes of the node stand at the link, which is long enough for them. -/
def NodeAt (f : File) (l : Link) (n : Node) : Prop :=
  ∃ rep, n.encode = some rep ∧ f.slice l.offset rep.length = rep ∧ rep.length ≤ l.size

lemma nodeRead_of_nodeAt (stored : NodeAt f l n) (inside : l.offset+l.size ≤ f.size)
    (val : n.valLink.Small) (next : n.next.Small) : nodeRead f l = some { n with key := cStr n.key } := by
  obtain ⟨rep,encoded,bytes,short⟩ := stored
  unfold nodeRead
  rw [read_eq_some inside,bind_some]
  obtain ⟨more,long⟩ := Nat.exists_eq_add_of_le short
  rw [long,slice_add,bytes]
  exact Node.decode_encode encoded val next _

lemma NodeAt.write {off : Nat} {data : Bytes} (stored : NodeAt f l n)
    (exact : l.size ≤ l.totalSize) (apart : Apart ⟨off,data.length⟩ l.extent) : NodeAt (f.write off data) l n := by
  obtain ⟨rep,encoded,bytes,short⟩ := stored
  refine ⟨rep,encoded,?_,short⟩
  rw [slice_write_of_disjoint,bytes]
  intro i above below low high
  exact apart i ⟨above,below⟩ ⟨low,Nat.lt_of_lt_of_le high (Nat.add_le_add_left (short.trans exact) _)⟩

lemma NodeAt.written (encoded : n.encode = some rep)
    (short : rep.length ≤ l.size) : NodeAt (f.write l.offset rep) l n :=
  ⟨rep,encoded,slice_write_self _ _ _,short⟩

/-- A node of a list: its link, its key and the link of its value. -/
structure Entry where
  link : Link
  key : Bytes
  val : Link
  deriving DecidableEq

/-- What points to a list: its first node, or nothing. -/
def headLink : List Entry → Link
  | [] => Link.null
  | e::_ => e.link

def Entry.node (e : Entry) (rest : List Entry) : Node := ⟨true,e.key,e.val,headLink rest⟩

/-- Each entry is stored with a pointer to the next one. -/
def Stored (f : File) : List Entry → Prop
  | [] => True
  | e::rest => NodeAt f e.link (e.node rest) ∧ Stored f rest

lemma Stored.append (stored : Stored f (es++fs)) : Stored f fs := by
  induction es with
  | nil => exact stored
  | cons e es ih => exact ih stored.2

lemma Stored.write {off : Nat} {data : Bytes} (stored : Stored f es)
    (exact : ∀ e ∈ es, e.link.size ≤ e.link.totalSize)
    (apart : ∀ e ∈ es, Apart ⟨off,data.length⟩ e.link.extent) : Stored (f.write off data) es := by
  induction es with
  | nil => trivial
  | cons e es ih =>
    refine ⟨stored.1.write (exact e (by simp)) (apart e (by simp)),ih stored.2 ?_ ?_⟩
    · exact fun x mem => exact x (mem_cons_of_mem _ mem)
    · exact fun x mem => apart x (mem_cons_of_mem _ mem)

lemma Stored.replace {old new : List Entry} {e e' : Entry} {rep : Bytes}
    (stored : Stored f (es++e::old)) (tail : Stored f new) (link : e'.link = e.link)
    (encoded : (e'.node new).encode = some rep) (short : rep.length ≤ e.link.size)
    (exact : ∀ x ∈ es++new, x.link.size ≤ x.link.totalSize)
    (apart : ∀ x ∈ es++new, Apart ⟨e.link.offset,rep.length⟩ x.link.extent) :
    Stored (f.write e.link.offset rep) (es++e'::new) := by
  induction es with
  | nil =>
    have here : NodeAt (f.write e'.link.offset rep) e'.link (e'.node new) := NodeAt.written encoded (link ▸ short)
    rw [link] at here
    exact ⟨link ▸ here,tail.write exact apart⟩
  | cons first es ih =>
    have same : first.node (es++e'::new) = first.node (es++e::old) := by
      cases es with
      | nil => simp [Entry.node,headLink,link]
      | cons second es => rfl
    refine ⟨?_,ih stored.2 ?_ ?_⟩
    · show NodeAt _ _ (first.node (es++e'::new))
      rw [same]
      exact stored.1.write (exact first (by simp)) (apart first (by simp))
    · exact fun x mem => exact x (mem_cons_of_mem _ mem)
    · exact fun x mem => apart x (mem_cons_of_mem _ mem)

/-- What reading an entry needs besides its bytes. -/
structure Entry.Readable (f : File) (e : Entry) : Prop where
  place : e.link.offset ≠ 0
  inside : e.link.offset+e.link.size ≤ f.size
  link : e.link.Small
  val : e.val.Small
  key : cStr e.key = e.key

lemma headLink_small (readable : ∀ e ∈ es, e.Readable f) : (headLink es).Small := by
  cases es with
  | nil => exact Link.small_null
  | cons e es => exact (readable e (by simp)).link

section
variable {f : File} {es : List Entry} {key : Bytes} {prev : Option (Node × Link)} {fuel : Nat}

variable {e : Entry}

lemma nodeRead_stored (stored : Stored f (e::es)) (readable : ∀ x ∈ e::es, x.Readable f) :
    nodeRead f e.link = some (e.node es) := by
  have mine := readable e (by simp)
  have small : (headLink es).Small := headLink_small (fun x mem => readable x (mem_cons_of_mem _ mem))
  rw [nodeRead_of_nodeAt stored.1 mine.inside mine.val small]
  simp [Entry.node,mine.key]

lemma isNull_headLink_cons (readable : ∀ x ∈ e::es, x.Readable f) :
    (headLink (e::es)).isNull = false := by
  simpa [headLink,Link.isNull] using (readable e (by simp)).place

lemma findFrom_none (stored : Stored f es) (readable : ∀ e ∈ es, e.Readable f) (fresh : ∀ e ∈ es, e.key ≠ key)
    (enough : es.length < fuel) : findFrom f key fuel prev (headLink es) = some none := by
  induction es generalizing fuel prev with
  | nil =>
    cases fuel with
    | zero => simp at enough
    | succ fuel => rfl
  | cons e es ih =>
    cases fuel with
    | zero => simp at enough
    | succ fuel =>
      have other : (e.key == key) = false := by simpa using fresh e (by simp)
      simp only [findFrom,isNull_headLink_cons readable,Bool.false_eq_true,if_false]
      simp only [headLink,nodeRead_stored stored readable]
      simp only [Entry.node,other,Bool.and_false,Bool.false_eq_true,if_false]
      refine ih stored.2 (fun x mem => readable x (mem_cons_of_mem _ mem))
        (fun x mem => fresh x (mem_cons_of_mem _ mem)) ?_
      simpa using enough

/-- The node before the rest of a list: the last of the entries before it. -/
def before (prev : Option (Node × Link)) : List Entry → List Entry → Option (Node × Link)
  | [],_ => prev
  | e::es,rest => before (some (e.node (es++rest),e.link)) es rest

lemma before_append_singleton (es rest : List Entry) (p : Entry) :
    before prev (es++[p]) rest = some (p.node rest,p.link) := by
  induction es generalizing prev with
  | nil => rfl
  | cons e es ih => exact ih

lemma findFrom_some (stored : Stored f (es++e::rest))
    (readable : ∀ x ∈ es++e::rest, x.Readable f) (fresh : ∀ x ∈ es, x.key ≠ key) (same : e.key = key)
    (enough : (es++e::rest).length < fuel) :
    findFrom f key fuel prev (headLink (es++e::rest)) =
      some (some ⟨e.node rest,e.link,before prev es (e::rest)⟩) := by
  induction es generalizing fuel prev with
  | nil =>
    cases fuel with
    | zero => simp at enough
    | succ fuel =>
      have read := nodeRead_stored stored readable
      have null := isNull_headLink_cons readable
      simp only [headLink] at null
      simp [findFrom,headLink,null,read,Entry.node,same,before]
  | cons first es ih =>
    cases fuel with
    | zero => simp at enough
    | succ fuel =>
      have read := nodeRead_stored stored readable
      have null := isNull_headLink_cons readable
      have other : (first.key == key) = false := by simpa using fresh first (by simp)
      simp only [headLink] at null
      simp only [cons_append,headLink,findFrom,null,Bool.false_eq_true,if_false,read,Entry.node,other,
        Bool.and_false]
      refine ih stored.2 (fun x mem => readable x (mem_cons_of_mem _ mem))
        (fun x mem => fresh x (mem_cons_of_mem _ mem)) ?_
      simpa using enough

/-- The nodes of a stored list. -/
def nodesOf : List Entry → List Node
  | [] => []
  | e::es => e.node es :: nodesOf es

lemma nodesFrom_stored (stored : Stored f es) (readable : ∀ e ∈ es, e.Readable f) (enough : es.length < fuel) :
    nodesFrom f fuel (headLink es) = some (nodesOf es) := by
  induction es generalizing fuel with
  | nil =>
    cases fuel with
    | zero => simp at enough
    | succ fuel => rfl
  | cons e es ih =>
    cases fuel with
    | zero => simp at enough
    | succ fuel =>
      have null := isNull_headLink_cons readable
      have tail := ih stored.2 (fun x mem => readable x (mem_cons_of_mem _ mem)) (by simpa using enough)
      simp only [headLink] at null
      simp only [nodesFrom,headLink,null,Bool.false_eq_true,if_false,nodeRead_stored stored readable,bind_some]
      simp [Entry.node,tail,nodesOf]

end
end CodeExercise.Db
