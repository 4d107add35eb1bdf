import CodeExercise.BTreeMmap

/-!
Serialized byte slices and the slots that point to them. Data that is appended while there is unused
memory leaves what the slots point to alone (`Room.append`, `insertKey_fill`, `insertKv_fill`).
-/
namespace CodeExercise.BTreeMmap
open Slices Files Uvarints List Option

def serialize (s : Bytes) : Bytes := putUvarint s.length ++ s
def size (s : Bytes) : Nat := (serialize s).length
def total (xs : List Bytes) : Nat := (xs.map size).sum

@[simp] lemma total_nil : total [] = 0 := rfl
@[simp] lemma total_cons (x : Bytes) (xs : List Bytes) : total (x::xs) = size x+total xs := by simp [total]
@[simp] lemma total_append (xs ys : List Bytes) : total (xs++ys) = total xs+total ys := by simp [total]

lemma size_pos (s : Bytes) : 0 < size s := by
  have := length_putUvarint_pos s.length
  simp only [size,serialize,length_append]
  omega

lemma size_le_total (member : x ∈ xs) : size x ≤ total xs := by
  obtain ⟨pre,post,rfl⟩ := append_of_mem member
  simp only [total_append,total_cons]
  omega

variable {n m : Nat}

lemma uint16_of_lt (small : n < 65536) : uint16 n = n := Nat.mod_eq_of_lt small

lemma sub16_of_le (less : b ≤ a) (small : a < 65536) : sub16 a b = a-b := by
  rw [sub16,show a+(65536-b) = a-b+65536 by omega,Nat.add_mod_right,Nat.mod_eq_of_lt (by omega)]

lemma calcRequiredMemSerialized_eq (small : size s < 65536) : calcRequiredMemSerialized s = size s := by
  rw [size,serialize,length_append] at small
  rw [calcRequiredMemSerialized,uint16,Nat.mod_eq_of_lt small,size,serialize,length_append]

lemma putByteSlice_eq (room : off+size s ≤ f.size) :
    putByteSlice f off s = some (f.write off (serialize s),size s) := by
  have whole : (serialize s).take (f.size-off) = serialize s := take_of_length_le (by rw [← size]; omega)
  rw [size,serialize,length_append] at room
  rw [putByteSlice,if_pos (by omega),← serialize,whole,size,serialize,length_append]

section
variable {f : File} {off : Nat} {s : Bytes}

section
variable (stored : f.slice off (size s) = serialize s)
include stored

section
variable (room : off+size s ≤ f.size)
include room

lemma uvarint_stored
    (small : size s < 2^64) :
    uvarint (fun i => f.byte (off+i)) (f.size-off) = (s.length,((putUvarint s.length).length : Int)) := by
  have parts : size s = (putUvarint s.length).length+s.length := by rw [size,serialize,length_append]
  refine uvarint_putUvarint (by omega) ?_ (by omega)
  intro j b here
  refine byte_of_slice stored ?_
  rw [serialize,getElem?_append_left (List.getElem?_eq_some_iff.mp here).1,here]

lemma getByteSlice_eq
    (small : size s < 2^64) : getByteSlice f off = some s := by
  have parts : size s = (putUvarint s.length).length+s.length := by rw [size,serialize,length_append]
  have content : f.slice (off+(putUvarint s.length).length) s.length = s := by
    rw [parts,slice_add,serialize] at stored
    exact (append_inj stored (by simp)).2
  simp only [getByteSlice,uvarint_stored stored room small,Int.toNat_natCast]
  rw [if_pos (by omega),content]

lemma getByteSliceSize_eq
    (small : size s < 2^64) : getByteSliceSize f off = some (size s : Int) := by
  have parts : size s = (putUvarint s.length).length+s.length := by rw [size,serialize,length_append]
  simp only [getByteSliceSize,uvarint_stored stored room small]
  rw [if_pos (by omega),parts,Nat.cast_add]

end
end

/-- A byte slice that is put into a buffer is read back, and its size is what all four
functions say. -/
theorem putByteSlice_roundtrip (short : s.length < 65533) (room : off+size s ≤ f.size) :
    ∃ f' n, putByteSlice f off s = some (f',n) ∧ getByteSlice f' off = some s ∧
      getByteSliceSize f' off = some (n : Int) ∧ calcRequiredMemSerialized s = n ∧
      f'.size = f.size ∧ ∀ i, i < off ∨ off+n ≤ i → f'.byte i = f.byte i := by
  have small : size s < 65536 := by
    have := length_groups_le (n := 2) 10 (show s.length < 128^3 by omega)
    rw [size,serialize,length_append,putUvarint]
    omega
  have stored : (f.write off (serialize s)).slice off (size s) = serialize s := slice_write_self f off _
  have kept : (f.write off (serialize s)).size = f.size := by
    rw [size_write (by omega),← size]
    omega
  refine ⟨_,_,putByteSlice_eq room,getByteSlice_eq stored (by omega) (by omega),
    getByteSliceSize_eq stored (by omega) (by omega),calcRequiredMemSerialized_eq small,kept,fun i outside => ?_⟩
  refine byte_write_of_not_mem ?_
  rw [← size]
  omega

end

theorem putByteSlice_roundtrip_two :
    ∃ f n, putByteSlice (.zeros 3) 0 [1,2] = some (f,n) ∧ getByteSlice f 0 = some [1,2] := by
  obtain ⟨f,n,put,get,_⟩ := @putByteSlice_roundtrip (.zeros 3) 0 [1,2] (by decide) (by decide)
  exact ⟨f,n,put,get⟩

/-- Where the data of a block is: from `lo` to `hi`, with offsets counted by `addr`. -/
structure Area where
  addr : Nat → Nat
  lo : Nat
  hi : Nat

/-- The offset `p` points to `x`. -/
def Cell (f : File) (area : Area) (p : Nat) (x : Bytes) : Prop :=
  area.lo ≤ p ∧ p+size x ≤ area.hi ∧ f.slice (area.addr p) (size x) = serialize x

/-- The slots point to `xs`. -/
def Column (f : File) (area : Area) (d : Nat) (ptrs : List Nat) (xs : List Bytes) : Prop :=
  ∃ cells : List (Nat × Bytes), xs = cells.map Prod.snd ∧ Slices.Holds d (cells.map Prod.fst) ptrs ∧
    ∀ c ∈ cells, Cell f area c.1 c.2

/-- The slots point to `pre` and, behind one that is free, to `post`. -/
def Gap (f : File) (area : Area) (d : Nat) (ptrs : List Nat) (pre post : List Bytes) : Prop :=
  ∃ (before : List (Nat × Bytes)) (z : Nat) (after : List (Nat × Bytes)),
    pre = before.map Prod.snd ∧ post = after.map Prod.snd ∧
    Slices.Holds d (before.map Prod.fst ++ z::after.map Prod.fst) ptrs ∧ ∀ c ∈ before++after, Cell f area c.1 c.2

/-- The slots from `k` on point to `xs`. -/
def Tail (f : File) (area : Area) (d k : Nat) (ptrs : List Nat) (xs : List Bytes) : Prop :=
  ∃ (front : List Nat) (cells : List (Nat × Bytes)), front.length = k ∧ xs = cells.map Prod.snd ∧
    Slices.Holds d (front++cells.map Prod.fst) ptrs ∧ ∀ c ∈ cells, Cell f area c.1 c.2

/-- What an area holds is kept in a larger one. -/
def Keeps (f g : File) (area area' : Area) : Prop :=
  ∀ p x, Cell f area p x → Cell g area' p x

section
variable {f g : File} {area area' : Area} {d k p : Nat} {ptrs : List Nat} {xs pre post : List Bytes} {x y : Bytes}

lemma Column.length_le (column : Column f area d ptrs xs) : xs.length ≤ d := by
  obtain ⟨cells,rfl,⟨rest,rfl,len⟩,_⟩ := column
  simp at len
  simp
  omega

lemma Column.cut (column : Column f area d ptrs (pre++x::post)) :
    ∃ (before : List (Nat × Bytes)) (p : Nat) (after : List (Nat × Bytes)),
      pre = before.map Prod.snd ∧ post = after.map Prod.snd ∧
      Slices.Holds d (before.map Prod.fst ++ p::after.map Prod.fst) ptrs ∧ Cell f area p x ∧
      ∀ c ∈ before++after, Cell f area c.1 c.2 := by
  obtain ⟨cells,same,holds,stored⟩ := column
  obtain ⟨before,rest,rfl,rfl,tail⟩ := map_eq_append_iff.mp same.symm
  obtain ⟨c,after,rfl,rfl,rfl⟩ := map_eq_cons_iff.mp tail
  rw [map_append,map_cons] at holds
  refine ⟨before,c.1,after,rfl,rfl,holds,stored c (by simp),fun c' member => stored c' ?_⟩
  simp only [mem_append,mem_cons] at member ⊢
  exact member.imp_right .inr

lemma Column.get (column : Column f area d ptrs (pre++x::post)) :
    ∃ p, ptrs[pre.length]? = some p ∧ Cell f area p x := by
  obtain ⟨before,p,after,rfl,rfl,holds,cell,_⟩ := column.cut
  exact ⟨p,holds.get (by simp),cell⟩

lemma Column.mono (column : Column f area d ptrs xs) (keeps : Keeps f g area area') : Column g area' d ptrs xs := by
  obtain ⟨cells,same,holds,stored⟩ := column
  exact ⟨cells,same,holds,fun c member => keeps _ _ (stored c member)⟩

lemma Gap.mono (gap : Gap f area d ptrs pre post) (keeps : Keeps f g area area') : Gap g area' d ptrs pre post := by
  obtain ⟨before,z,after,first,last,holds,stored⟩ := gap
  exact ⟨before,z,after,first,last,holds,fun c member => keeps _ _ (stored c member)⟩

lemma Tail.mono (tail : Tail f area d k ptrs xs) (keeps : Keeps f g area area') : Tail g area' d k ptrs xs := by
  obtain ⟨front,cells,at_k,same,holds,stored⟩ := tail
  exact ⟨front,cells,at_k,same,holds,fun c member => keeps _ _ (stored c member)⟩

lemma Gap.place (gap : Gap f area d ptrs pre post) (p : Nat) :
    ∃ ptrs', put ptrs pre.length p = some ptrs' ∧ ∀ g area' y, Keeps f g area area' → Cell g area' p y →
      Column g area' d ptrs' (pre++y::post) := by
  obtain ⟨before,z,after,rfl,rfl,holds,stored⟩ := gap
  obtain ⟨ptrs',written,held⟩ := holds.put (y := p) rfl
  rw [length_map] at written ⊢
  refine ⟨ptrs',written,fun g area' y keeps cell => ⟨before++(p,y)::after,by simp,by simpa using held,?_⟩⟩
  intro c member
  simp only [mem_append,mem_cons] at member stored
  rcases member with early | rfl | late
  · exact keeps _ _ (stored c (.inl early))
  · exact cell
  · exact keeps _ _ (stored c (.inr late))

lemma Gap.fill (gap : Gap f area d ptrs pre post) (cell : Cell f area p y) :
    ∃ ptrs', put ptrs pre.length p = some ptrs' ∧ Column f area d ptrs' (pre++y::post) := by
  obtain ⟨ptrs',written,column⟩ := gap.place p
  exact ⟨ptrs',written,column f area y (fun _ _ => id) cell⟩

lemma Column.shiftUp (column : Column f area d ptrs (pre++post)) (room : (pre++post).length < d) :
    ∃ ptrs', Slices.shiftUp pre.length post.length ptrs = some ptrs' ∧ Gap f area d ptrs' pre post := by
  obtain ⟨cells,same,holds,stored⟩ := column
  obtain ⟨before,after,rfl,rfl,rfl⟩ := map_eq_append_iff.mp same.symm
  rw [map_append] at holds
  obtain ⟨z,ptrs',moved,held⟩ := holds.shiftUp (by simpa using room) rfl
  rw [length_map,length_map] at moved
  exact ⟨ptrs',by simpa using moved,before,z,after,rfl,rfl,held,stored⟩

lemma Column.gap (column : Column f area d ptrs (pre++x::post)) : Gap f area d ptrs pre post := by
  obtain ⟨before,p,after,first,last,holds,_,stored⟩ := column.cut
  exact ⟨before,p,after,first,last,holds,stored⟩

lemma Column.push (column : Column f area d ptrs xs) (room : xs.length < d) : Gap f area d ptrs xs [] := by
  obtain ⟨cells,rfl,holds,stored⟩ := column
  obtain ⟨z,rest,rfl,len⟩ := holds.room (by simpa using room)
  exact ⟨cells,z,[],rfl,rfl,⟨rest,by simp,len⟩,by simpa using stored⟩

lemma Column.delete (column : Column f area d ptrs (pre++x::post))
    (count : n = pre.length+post.length+1) : ∃ cleared ptrs', put ptrs pre.length 0 = some cleared ∧
      (Slices.shiftDown pre.length (n-(pre.length+1)) cleared).bind (Node.clearLast · n) = some ptrs' ∧
      Column f area d ptrs' (pre++post) := by
  obtain ⟨before,p,after,rfl,rfl,holds,_,stored⟩ := column.cut
  simp only [length_map] at count ⊢
  obtain ⟨cleared,zeroed,held⟩ := holds.put (i := before.length) (y := 0) (by simp)
  obtain ⟨ptrs',moved,kept⟩ := held.delete (i := before.length) (j := before.length+after.length) (y := 0)
    (by simp) (by simp)
  rw [length_map] at moved
  subst count
  refine ⟨cleared,ptrs',zeroed,?_,before++after,by simp,by simpa using kept,stored⟩
  rwa [show before.length+after.length+1-(before.length+1) = after.length by omega]

lemma Column.dropLast (column : Column f area d ptrs (xs++[x])) :
    ∃ ptrs', put ptrs xs.length 0 = some ptrs' ∧ Column f area d ptrs' xs := by
  obtain ⟨before,p,after,rfl,_,holds,_,stored⟩ := column.cut
  obtain ⟨ptrs',zeroed,held⟩ := holds.put (i := before.length) (y := 0) (by simp)
  exact ⟨ptrs',by simpa using zeroed,before,rfl,held.take,fun c member => stored c (mem_append_left _ member)⟩

lemma Tail.place (tail : Tail f area d (k+1) ptrs xs) (p : Nat) :
    ∃ ptrs', put ptrs k p = some ptrs' ∧ ∀ g area' y, Keeps f g area area' → Cell g area' p y →
      Tail g area' d k ptrs' (y::xs) := by
  obtain ⟨front,cells,at_k,rfl,holds,stored⟩ := tail
  obtain ⟨front,z,rfl⟩ := (eq_nil_or_concat' front).resolve_left (by rintro rfl; simp at at_k)
  have at_front : front.length = k := by simpa using at_k
  rw [append_assoc,singleton_append] at holds
  obtain ⟨ptrs',written,held⟩ := holds.put (y := p) at_front
  refine ⟨ptrs',written,fun g area' y keeps cell => ⟨front,(p,y)::cells,at_front,by simp,by simpa using held,?_⟩⟩
  exact forall_mem_cons.mpr ⟨cell,fun c later => keeps _ _ (stored c later)⟩

lemma Tail.fill (tail : Tail f area d (k+1) ptrs xs) (cell : Cell f area p y) :
    ∃ ptrs', put ptrs k p = some ptrs' ∧ Tail f area d k ptrs' (y::xs) := by
  obtain ⟨ptrs',written,filled⟩ := tail.place p
  exact ⟨ptrs',written,filled f area y (fun _ _ => id) cell⟩

lemma Tail.column (tail : Tail f area d 0 ptrs xs) : Column f area d ptrs xs := by
  obtain ⟨front,cells,none,same,holds,stored⟩ := tail
  obtain rfl := length_eq_zero_iff.mp none
  exact ⟨cells,same,holds,stored⟩

end

/-- Where the data of a node is. -/
def Node.area (node : Node) : Area := ⟨fun p => p+node.blockId*blockSize,node.unusedMemStart,node.unusedMemOffset⟩

/-- The history is as it should be: no compaction writes past its buffer, and every
slot that an operation keeps reads the same at its new place. -/
def Event.Kept : Event → Prop
  | .compact len written => written ≤ len
  | .edit keys keys' vals vals' moved keyOut valOut =>
    (∀ j < keys.length, keyOut ≠ some j → keys'[moved j]? = keys[j]?) ∧
    ∀ j < vals.length, valOut ≠ some j → vals'[moved j]? = vals[j]?

instance : DecidablePred Event.Kept
  | .compact _ _ => decideAs (_ ≤ _)
  | .edit _ _ _ _ _ _ _ => decideAs (_ ∧ _)

def Mem.Kept (mem : Mem) : Prop := ∀ e ∈ mem.history, e.Kept
deriving Decidable

/-- Only the block `b` was written to. -/
structure Local (b : Nat) (mem mem' : Mem) : Prop where
  size : mem'.mmap.size = mem.mmap.size
  outside : ∀ a, a < b*blockSize ∨ (b+1)*blockSize ≤ a → mem'.mmap.byte a = mem.mmap.byte a
  kept : mem.Kept → mem'.Kept

lemma Local.refl (b : Nat) (mem : Mem) : Local b mem mem := ⟨rfl,fun _ _ => rfl,id⟩

lemma Local.trans (first : Local b mem mem') (second : Local b mem' mem'') :
    Local b mem mem'' :=
  ⟨second.size.trans first.size,fun a out => (second.outside a out).trans (first.outside a out),
    second.kept ∘ first.kept⟩

/-- A block has the same position, kind and children as before. -/
structure Node.Same (node node' : Node) : Prop where
  blockId : node'.blockId = node.blockId
  isLeaf : node'.isLeaf = node.isLeaf
  nkeys : node'.nkeys = node.nkeys
  start : node'.unusedMemStart = node.unusedMemStart
  children : node'.childNodeId = node.childNodeId

lemma Node.Same.refl (node : Node) : node.Same node := ⟨rfl,rfl,rfl,rfl,rfl⟩

lemma Node.Same.trans {a b c : Node} (first : a.Same b) (second : b.Same c) : a.Same c :=
  ⟨second.blockId.trans first.blockId,second.isLeaf.trans first.isLeaf,second.nkeys.trans first.nkeys,
    second.start.trans first.start,second.children.trans first.children⟩

/-- `n` bytes were appended to the data of a block. -/
structure Appended (n : Nat) (node : Node) (mem : Mem) (node' : Node) (mem' : Mem) : Prop where
  same : node.Same node'
  offset : node'.unusedMemOffset = node.unusedMemOffset+n
  actual : node'.actualMemRequired = node.actualMemRequired+n
  keeps : Keeps mem.mmap mem'.mmap node.area node'.area
  only : Local node.blockId mem mem'

lemma Appended.trans {mem mem' mem'' : Mem} (first : Appended m a mem b mem')
    (second : Appended n b mem' c mem'') : Appended (m+n) a mem c mem'' where
  same := first.same.trans second.same
  offset := by rw [second.offset,first.offset]; omega
  actual := by rw [second.actual,first.actual]; omega
  keeps p x cell := second.keeps p x (first.keeps p x cell)
  only := first.only.trans (first.same.blockId ▸ second.only)

/-- There is unused memory for `n` bytes. -/
structure Room (n : Nat) (node : Node) (mem : Mem) : Prop where
  file : mem.mmap.size = dbSize
  inside : node.blockId < 5120
  low : node.unusedMemStart+node.actualMemRequired ≤ node.unusedMemOffset
  room : node.unusedMemOffset+n ≤ blockSize

lemma Room.less (room : Room m node mem) (less : n ≤ m) : Room n node mem :=
  { room with room := by have := room.room; omega }

lemma Appended.room (appended : Appended m node mem node' mem')
    (room : Room (m+n) node mem) : Room n node' mem' where
  file := appended.only.size.trans room.file
  inside := by rw [appended.same.blockId]; exact room.inside
  low := by
    have := room.low
    rw [appended.same.start,appended.offset,appended.actual]
    omega
  room := by
    have := room.room
    rw [appended.offset]
    omega

section
variable {node : Node} {mem : Mem} {x key val : Bytes} {i : Nat} {ptrs : List Nat}

lemma Room.spaceIsEnough (room : Room n node mem) : node.spaceIsEnough mem n = some (node,mem,true) :=
  if_pos room.room

section
variable (room : Room (size x) node mem)
include room

lemma Room.size_lt : size x < 65536 := by
  have := room.room
  simp only [blockSize] at this
  omega

/-- What the data appended for `x` does to the file. -/
def Mem.append (mem : Mem) (node : Node) (x : Bytes) : Mem :=
  { mem with mmap := mem.mmap.write (node.unusedMemOffset+node.blockId*blockSize) (serialize x) }

lemma appendToFreeMem_eq :
    node.appendToFreeMem mem x = some ({ node with unusedMemOffset := node.unusedMemOffset+size x },mem.append node x,
      node.unusedMemOffset+node.blockId*blockSize) := by
  obtain ⟨file,inside,_,room⟩ := room
  have fits : node.unusedMemOffset+node.blockId*blockSize+size x ≤ mem.mmap.size := by
    rw [file]
    simp only [blockSize,dbSize] at room ⊢
    omega
  have small : uint16 (node.unusedMemOffset+size x) = node.unusedMemOffset+size x := by
    refine Nat.mod_eq_of_lt ?_
    simp only [blockSize] at room
    omega
  simp only [Node.appendToFreeMem,putByteSlice_eq fits,some_bind,small]
  rfl

lemma Room.append (node' : Node) (same : node.Same node')
    (offset : node'.unusedMemOffset = node.unusedMemOffset+size x)
    (actual : node'.actualMemRequired = node.actualMemRequired+size x) :
    Appended (size x) node mem node' (mem.append node x) ∧
      Cell (mem.append node x).mmap node'.area node.unusedMemOffset x := by
  obtain ⟨file,inside,low,room⟩ := room
  refine ⟨⟨same,offset,actual,?_,?_,?_,id⟩,?_,?_,?_⟩
  · rintro p y ⟨start,stop,stored⟩
    simp only [Node.area] at start stop stored
    refine ⟨?_,?_,?_⟩
    · simpa only [Node.area,same.start] using start
    · simp only [Node.area,offset]
      omega
    · simp only [Node.area,same.blockId]
      rw [← stored]
      refine slice_write_of_disjoint fun i above below start' => ?_
      simp only [blockSize] at *
      omega
  · simp only [Mem.append]
    rw [size_write (by rw [file]; simp only [blockSize,dbSize] at room ⊢; omega),← size,file]
    simp only [blockSize,dbSize] at room ⊢
    omega
  · intro a out
    refine byte_write_of_not_mem ?_
    rw [← size]
    simp only [blockSize] at room out ⊢
    omega
  · simp only [Node.area,same.start]
    omega
  · simp only [Node.area,offset]
    exact le_rfl
  · simp only [Node.area,same.blockId]
    exact slice_write_self _ _ _

end

lemma insertKeyInPos_map (room : Room (size key) node mem) (i : Nat) :
    node.insertKeyInPos mem i key = (put node.keyPtrArr i node.unusedMemOffset).map (fun ptrs =>
      ({ node with
          unusedMemOffset := node.unusedMemOffset+size key
          keyPtrArr := ptrs
          actualMemRequired := node.actualMemRequired+size key },mem.append node key)) := by
  have := room.room
  have := room.low
  simp only [blockSize] at *
  simp only [Node.insertKeyInPos,calcRequiredMemSerialized_eq room.size_lt,room.spaceIsEnough,appendToFreeMem_eq room,
    bind_eq_bind,bind_some,if_true,Node.setKeyPtr,Nat.add_sub_cancel,uint16]
  rw [Nat.mod_eq_of_lt (show node.unusedMemOffset < 65536 by have := size_pos key; omega)]
  cases put node.keyPtrArr i node.unusedMemOffset with
  | none => rfl
  | some ptrs =>
    simp only [bind_some,Option.pure_def,map_some]
    rw [Nat.mod_eq_of_lt (by omega)]

lemma insertValInPos_map (room : Room (size val) node mem) (i : Nat) :
    node.insertValInPos mem i val = (put node.valPtrArr i node.unusedMemOffset).map (fun ptrs =>
      ({ node with
          unusedMemOffset := node.unusedMemOffset+size val
          valPtrArr := ptrs
          actualMemRequired := node.actualMemRequired+size val },mem.append node val,true)) := by
  have := room.room
  have := room.low
  simp only [blockSize] at *
  simp only [Node.insertValInPos,calcRequiredMemSerialized_eq room.size_lt,room.spaceIsEnough,appendToFreeMem_eq room,
    bind_eq_bind,bind_some,if_true,Node.setValPtr,Nat.add_sub_cancel,uint16]
  rw [Nat.mod_eq_of_lt (show node.unusedMemOffset < 65536 by have := size_pos val; omega)]
  cases put node.valPtrArr i node.unusedMemOffset with
  | none => rfl
  | some ptrs =>
    simp only [bind_some,Option.pure_def,map_some]
    rw [Nat.mod_eq_of_lt (by omega)]

lemma insertKvInPos_eq (room : Room (size key+size val) node mem) :
    node.insertKvInPos mem i key val = (node.insertKeyInPos mem i key).bind (fun r => r.1.insertValInPos r.2 i val) := by
  have small := room.room
  simp only [blockSize] at small
  have sizes : uint16 (size key+size val) = size key+size val := Nat.mod_eq_of_lt (by omega)
  simp only [Node.insertKvInPos,calcRequiredMemSerialized_eq (show size key < 65536 by omega),
    calcRequiredMemSerialized_eq (show size val < 65536 by omega),sizes,room.spaceIsEnough,bind_eq_bind,
    bind_some,if_true]

variable {Q : File → Area → List Nat → Prop}

lemma insertKey_fill (room : Room (size key) node mem)
    (fill : ∀ f area p, Keeps mem.mmap f node.area area → Cell f area p key →
      ∃ ptrs, put node.keyPtrArr i p = some ptrs ∧ Q f area ptrs) :
    ∃ node' mem', node.insertKeyInPos mem i key = some (node',mem') ∧ Appended (size key) node mem node' mem' ∧
      Q mem'.mmap node'.area node'.keyPtrArr ∧ node'.valPtrArr = node.valPtrArr := by
  obtain ⟨appended,cell⟩ := room.append
    { node with
      unusedMemOffset := node.unusedMemOffset+size key
      actualMemRequired := node.actualMemRequired+size key } ⟨rfl,rfl,rfl,rfl,rfl⟩ rfl rfl
  obtain ⟨ptrs,written,filled⟩ := fill _ _ _ appended.keeps cell
  have inserted := insertKeyInPos_map room i
  rw [written] at inserted
  exact ⟨_,_,inserted,⟨⟨rfl,rfl,rfl,rfl,rfl⟩,rfl,rfl,appended.keeps,appended.only⟩,filled,rfl⟩

lemma insertVal_fill (room : Room (size val) node mem)
    (fill : ∀ f area p, Keeps mem.mmap f node.area area → Cell f area p val →
      ∃ ptrs, put node.valPtrArr i p = some ptrs ∧ Q f area ptrs) :
    ∃ node' mem', node.insertValInPos mem i val = some (node',mem',true) ∧ Appended (size val) node mem node' mem' ∧
      Q mem'.mmap node'.area node'.valPtrArr ∧ node'.keyPtrArr = node.keyPtrArr := by
  obtain ⟨appended,cell⟩ := room.append
    { node with
      unusedMemOffset := node.unusedMemOffset+size val
      actualMemRequired := node.actualMemRequired+size val } ⟨rfl,rfl,rfl,rfl,rfl⟩ rfl rfl
  obtain ⟨ptrs,written,filled⟩ := fill _ _ _ appended.keeps cell
  have inserted := insertValInPos_map room i
  rw [written] at inserted
  exact ⟨_,_,inserted,⟨⟨rfl,rfl,rfl,rfl,rfl⟩,rfl,rfl,appended.keeps,appended.only⟩,filled,rfl⟩

lemma insertKv_fill {R : File → Area → List Nat → Prop} (room : Room (size key+size val) node mem)
    (fillKey : ∀ f area p, Keeps mem.mmap f node.area area → Cell f area p key →
      ∃ ptrs, put node.keyPtrArr i p = some ptrs ∧ Q f area ptrs)
    (fillVal : ∀ f area p, Keeps mem.mmap f node.area area → Cell f area p val →
      ∃ ptrs, put node.valPtrArr i p = some ptrs ∧ R f area ptrs)
    (mono : ∀ f g area area' ptrs, Keeps f g area area' → Q f area ptrs → Q g area' ptrs) :
    ∃ node' mem', node.insertKvInPos mem i key val = some (node',mem',true) ∧
      Appended (size key+size val) node mem node' mem' ∧
      Q mem'.mmap node'.area node'.keyPtrArr ∧ R mem'.mmap node'.area node'.valPtrArr := by
  obtain ⟨node1,mem1,first,appended1,keyed,vals⟩ := insertKey_fill (room.less (Nat.le_add_right _ _)) fillKey
  obtain ⟨node2,mem2,second,appended2,valued,keys⟩ := insertVal_fill (i := i) (Q := R) (appended1.room room)
    (fun f area p keeps cell => by
      rw [vals]
      exact fillVal f area p (fun q x old => keeps q x (appended1.keeps q x old)) cell)
  refine ⟨node2,mem2,?_,appended1.trans appended2,?_,valued⟩
  · rwa [insertKvInPos_eq room,first]
  · rw [keys]
    exact mono _ _ _ _ _ appended2.keeps keyed

lemma Room.insertKeyInPos_history (room : Room (size key) node mem)
    (done : node.insertKeyInPos mem i key = some (node',mem')) :
    Appended (size key) node mem node' mem' ∧ mem'.history = mem.history := by
  rw [insertKeyInPos_map room,map_eq_some_iff] at done
  obtain ⟨ptrs,_,same⟩ := done
  obtain ⟨rfl,rfl⟩ := Prod.mk.inj same
  refine ⟨And.left (room.append _ ?_ ?_ ?_),rfl⟩
  · exact ⟨rfl,rfl,rfl,rfl,rfl⟩
  · rfl
  · rfl

lemma Room.insertKvInPos_history (room : Room (size key+size val) node mem)
    (done : node.insertKvInPos mem i key val = some (node',mem',enough)) :
    Appended (size key+size val) node mem node' mem' ∧ mem'.history = mem.history := by
  rw [insertKvInPos_eq room] at done
  obtain ⟨⟨node1,mem1⟩,first,second⟩ := bind_eq_some_iff.mp done
  obtain ⟨appended,same⟩ := (room.less (Nat.le_add_right _ _)).insertKeyInPos_history first
  have rest := appended.room room
  rw [insertValInPos_map rest,map_eq_some_iff] at second
  obtain ⟨ptrs,_,equal⟩ := second
  cases equal
  refine ⟨appended.trans (And.left (rest.append _ ?_ ?_ ?_)),same⟩
  · exact ⟨rfl,rfl,rfl,rfl,rfl⟩
  · rfl
  · rfl

end
end CodeExercise.BTreeMmap
