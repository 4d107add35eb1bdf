import CodeExercise.Files
import CodeExercise.SortedMaps
import Mathlib.Data.Int.Order.Basic
import Mathlib.Data.List.Rotate
import Mathlib.Data.List.Sort
import Mathlib.Data.Nat.Bitwise

/-!
The Huffman coder of `huffman.cpp`. Reading the output back gives the input exactly when the input has
two different bytes and none of them is `0xff` (`round_trip_iff`): as a signed `char` this letter is
`COMPOUND`. A file is written through one descriptor and read through another, and every `read` and
`write` is complete. An `int` has 32 bits, the low byte first.
-/
namespace CodeExercise.Huffman
open Files SortedMaps

abbrev Bytes := List UInt8

/-- An open file. -/
structure Fd where
  file : File
  offset : Nat

def Fd.write (fd : Fd) (data : Bytes) : Fd := ⟨fd.file.write fd.offset data,fd.offset+data.length⟩

/-- No result when the file has fewer bytes left. -/
def Fd.read (fd : Fd) (count : Nat) : Option (Bytes × Fd) :=
  (fd.file.read fd.offset count).map (fun data => (data,⟨fd.file,fd.offset+count⟩))

/-- `COMPOUND`, the letter of an inner node. -/
def compound : Int := -1

structure Node where
  letter : Int
  count : Int
  parent : Int
  left : Int
  right : Int
  deriving DecidableEq

def Node.size : Nat := 20

def Node.serialize (np : Node) : Bytes :=
  intBytes np.letter ++ intBytes np.count ++ intBytes np.parent ++ intBytes np.left ++ intBytes np.right

def Node.unserialize (buf : Bytes) : Node where
  letter := intOf (buf.take 4)
  count := intOf ((buf.drop 4).take 4)
  parent := intOf ((buf.drop 8).take 4)
  left := intOf ((buf.drop 12).take 4)
  right := intOf ((buf.drop 16).take 4)

/-- `node_vec_[i]`, which is undefined outside of the vector. -/
def nodeAt (nodes : List Node) (i : Int) : Option Node := if i < 0 then none else nodes[i.toNat]?

/-- `BUF_SZ` -/
def bufSz : Nat := 4096

structure BitVec where
  bitIdx : Nat
  vec : Bytes

def BitVec.new : BitVec := ⟨0,List.replicate bufSz 0⟩
def BitVec.full (v : BitVec) : Bool := decide (v.bitIdx/8 ≥ bufSz)

def BitVec.add (v : BitVec) (bit : Bool) : BitVec :=
  { bitIdx := v.bitIdx+1
    vec := if bit then v.vec.set (v.bitIdx/8) (v.vec.getD (v.bitIdx/8) 0 ||| UInt8.ofNat (1 <<< (v.bitIdx%8)))
      else v.vec }

/-- The number of bits written, and the file; the vector is reset. -/
def BitVec.output (v : BitVec) (fd : Fd) : Nat × BitVec × Fd :=
  let i := if v.bitIdx%8 > 0 then v.bitIdx/8+1 else v.bitIdx/8
  (v.bitIdx,.new,if i > 0 then fd.write (v.vec.take i) else fd)

/-- Of `buf_` the bytes that were read into it. -/
structure BitStream where
  infd : Fd
  remainBits : Int
  buf : Bytes
  currIdx : Nat
  endIdx : Nat

def BitStream.new (infd : Fd) (nbits : Int) : BitStream := ⟨infd,nbits,[],0,0⟩
def BitStream.empty (s : BitStream) : Bool := decide (s.remainBits ≤ 0)

/-- Read the next bytes into the buffer. Without bits left it would keep its old content,
for which there is no result here. -/
def BitStream.fill (s : BitStream) : Option BitStream :=
  if s.remainBits ≤ 0 then none
  else
    let bytesleft := if s.remainBits.toNat%8 > 0 then s.remainBits.toNat/8+1 else s.remainBits.toNat/8
    let nbytes := if bytesleft < bufSz then bytesleft else bufSz
    (s.infd.read nbytes).map (fun r => { s with infd := r.2, buf := r.1, currIdx := 0, endIdx := nbytes*8 })

def BitStream.get (s : BitStream) : Option (Bool × BitStream) :=
  (if s.currIdx = s.endIdx then s.fill else some s).map (fun s =>
    (s.buf.getD (s.currIdx/8) 0 &&& UInt8.ofNat (1 <<< (s.currIdx%8)) != 0,
      { s with currIdx := s.currIdx+1, remainBits := s.remainBits-1 }))

/-- `make_heap`, `pop_heap` and `push_heap` with a comparison. They rearrange the vector;
that the least count comes first does not matter here. -/
structure Heap where
  makeHeap : (Nat → Nat → Bool) → List Nat → List Nat
  popHeap : (Nat → Nat → Bool) → List Nat → List Nat
  pushHeap : (Nat → Nat → Bool) → List Nat → List Nat
  make_perm : ∀ less xs, (makeHeap less xs).Perm xs
  pop_perm : ∀ less xs, (popHeap less xs).Perm xs
  push_perm : ∀ less xs, (pushHeap less xs).Perm xs

/-- A byte as a `char`. -/
def char (b : UInt8) : Int := b.toInt8.toInt

def letterCount (input : Bytes) : SortedMap Int Int :=
  input.foldl (fun m b => m.set (char b) ((m.get (char b)).getD 0+1)) .empty

/-- `HeapCmp` -/
def heapCmp (nodes : List Node) (a b : Nat) : Bool :=
  decide (((nodes[a]?).map Node.count).getD 0 > ((nodes[b]?).map Node.count).getD 0)

def setParent (nodes : List Node) (i parent : Nat) : List Node := nodes.modify i (fun np => { np with parent := parent })

/-- The node over `min1` and `min2`, which become its children. -/
def join (nodes : List Node) (min1 min2 : Nat) : List Node :=
  let newCnt := ((nodes[min1]?).map Node.count).getD 0+((nodes[min2]?).map Node.count).getD 0
  setParent (setParent (nodes++[⟨compound,newCnt,nodes.length,min1,min2⟩]) min1 nodes.length) min2 nodes.length

/-- Take the two least nodes until one is left. Each round takes one node off the heap. -/
def joinAll (heap : Heap) : Nat → List Node → List Nat → List Node × List Nat
  | 0,nodes,minHeap => (nodes,minHeap)
  | rounds+1,nodes,minHeap =>
    if minHeap.length > 1 then
      let first := heap.popHeap (heapCmp nodes) minHeap
      let min1 := first.getLastD 0
      let second := heap.popHeap (heapCmp nodes) first.dropLast
      let min2 := second.getLastD 0
      let nodes' := join nodes min1 min2
      joinAll heap rounds nodes' (heap.pushHeap (heapCmp nodes') (second.dropLast++[nodes.length]))
    else (nodes,minHeap)

/-- A node for each letter, its own parent. -/
def leaves (letters : SortedMap Int Int) : List Node :=
  letters.entries.zipIdx.map (fun e => ⟨e.1.1,e.1.2,e.2,-1,-1⟩)

def nodeIdx (letters : SortedMap Int Int) : SortedMap Int Nat :=
  .setAll .empty ((leaves letters).zipIdx.map (fun e => (e.1.letter,e.2)))

def buildTree (heap : Heap) (letters : SortedMap Int Int) : List Node × List Nat :=
  let minHeap := heap.makeHeap (heapCmp (leaves letters)) (List.range (leaves letters).length)
  joinAll heap minHeap.length (leaves letters) minHeap

def outputTree (nodes : List Node) (outfd : Fd) : Fd :=
  (outfd.write (intBytes nodes.length)).write (nodes.flatMap Node.serialize)

/-- The bits from a node up to the root; a parent comes after its children. -/
def climb (nodes : List Node) : Nat → Int → Option (List Bool)
  | fuel,i =>
    (nodeAt nodes i).bind (fun np =>
      if np.parent = i then some []
      else
        match fuel with
        | 0 => none
        | fuel+1 =>
          (nodeAt nodes np.parent).bind (fun parent =>
            (climb nodes fuel np.parent).map (fun bits => decide (i ≠ parent.left) :: bits)))

/-- The code of a byte, from the root down. -/
def code (nodes : List Node) (idx : SortedMap Int Nat) (c : UInt8) : Option (List Bool) :=
  (climb nodes nodes.length ((idx.get (char c)).getD 0 : Nat)).map List.reverse

structure Output where
  bitvec : BitVec
  nbits : Nat
  outfd : Fd

def Output.flush (o : Output) : Output :=
  let r := o.bitvec.output o.outfd
  ⟨r.2.1,o.nbits+r.1,r.2.2⟩

def Output.add (o : Output) (bit : Bool) : Output :=
  let o := { o with bitvec := o.bitvec.add bit }
  if o.bitvec.full then o.flush else o

/-- The bits of the letters of a file. -/
def lettersEncodeAndOutput (nodes : List Node) (idx : SortedMap Int Nat) (input : Bytes) (outfd : Fd) :
    Option (Nat × Fd) :=
  (input.foldlM (fun o c => (code nodes idx c).map (fun bits => bits.foldl Output.add o)) ⟨.new,0,outfd⟩).map
    (fun o => (o.flush.nbits,o.flush.outfd))

/-- The offset of an `int` that is left out at the end of the file. -/
def reserveRoomInt (fd : Fd) : Nat × Fd := (fd.offset,⟨fd.file,fd.file.size+4⟩)

/-- No result when the `assert` fails. -/
def encode (heap : Heap) (input : Bytes) : Option File :=
  let letters := letterCount input
  let tree := buildTree heap letters
  if tree.2.length = 1 then
    let room := reserveRoomInt (outputTree tree.1 ⟨.zeros 0,0⟩)
    (lettersEncodeAndOutput tree.1 (nodeIdx letters) input room.2).map (fun out =>
      (Fd.write ⟨out.2.file,room.1⟩ (intBytes out.1)).file)
  else none

def readNodes (buf : Bytes) : Nat → List Node
  | 0 => []
  | n+1 => .unserialize (buf.take Node.size) :: readNodes (buf.drop Node.size) n

def readTree (fd : Fd) : Option (List Node × Fd) :=
  (fd.read 4).bind (fun r =>
    let nnodes := intOf r.1
    if nnodes < 0 then none
    else (r.2.read (nnodes.toNat*Node.size)).map (fun r => (readNodes r.1 nnodes.toNat,r.2)))

/-- From a node down to a letter. -/
def descend (nodes : List Node) : Nat → Int → BitStream → Option (Int × BitStream)
  | fuel,curr,stream =>
    (nodeAt nodes curr).bind (fun np =>
      if np.letter = compound then
        match fuel with
        | 0 => none
        | fuel+1 => stream.get.bind (fun r => descend nodes fuel (if r.1 then np.right else np.left) r.2)
      else some (np.letter,stream))

/-- What `%c` prints. -/
def byteOf (letter : Int) : UInt8 := UInt8.ofNat (letter%256).toNat

def decodeLoop (nodes : List Node) : Nat → BitStream → Option Bytes
  | fuel,stream =>
    if stream.empty then some []
    else
      match fuel with
      | 0 => none
      | fuel+1 =>
        (descend nodes (fuel+1) (nodes.length-1) stream).bind (fun r =>
          (decodeLoop nodes fuel r.2).map (fun out => byteOf r.1 :: out))

def decodeAndOutput (nodes : List Node) (fuel : Nat) (infd : Fd) : Option Bytes :=
  (infd.read 4).bind (fun r => decodeLoop nodes fuel (.new r.2 (intOf r.1)))

/-- The output, when it is complete after so many letters. -/
def decode (fuel : Nat) (infile : File) : Option Bytes :=
  (readTree ⟨infile,0⟩).bind (fun r => decodeAndOutput r.1 fuel r.2)

/-- The number of bits of the encoded letters. -/
def bitCount (heap : Heap) (input : Bytes) : Nat :=
  (input.map (fun c => ((code (buildTree heap (letterCount input)).1 (nodeIdx (letterCount input)) c).getD []).length)).sum

/-- Decoding what was encoded gives the input. -/
def RoundTrips (heap : Heap) (input : Bytes) : Prop :=
  ∃ out, encode heap input = some out ∧ ∃ fuel, decode fuel out = some input

/-- A heap that is a sorted vector, whose first element comes last in the order. -/
def sortedHeap : Heap where
  makeHeap less xs := xs.insertionSort (fun a b => less a b = false)
  popHeap _ xs := xs.rotate 1
  pushHeap less xs := xs.insertionSort (fun a b => less a b = false)
  make_perm _ xs := xs.perm_insertionSort _
  pop_perm _ xs := List.rotate_perm xs 1
  push_perm _ xs := xs.perm_insertionSort _

/-! ## The bits of `huffman.cpp` -/
open List Option

def bitAt (bytes : Bytes) (j : Nat) : Bool := (bytes.getD (j/8) 0).toNat.testBit (j%8)
def fileBit (f : File) (start j : Nat) : Bool := (f.byte (start+j/8)).toNat.testBit (j%8)

variable {k : Nat} {f : File} {s : BitStream}

lemma toNat_mask (low : k < 8) : (UInt8.ofNat (1 <<< k)).toNat = 2^k := by
  have small : 2^k < 2^8 := Nat.pow_lt_pow_right (by decide) low
  rw [Nat.one_shiftLeft,UInt8.toNat_ofNat',Nat.mod_eq_of_lt small]

lemma and_mask (b : UInt8) (low : k < 8) : (b &&& UInt8.ofNat (1 <<< k) != 0) = b.toNat.testBit k := by
  have value : (b &&& UInt8.ofNat (1 <<< k)).toNat = (b.toNat.testBit k).toNat*2^k := by
    rw [UInt8.toNat_and,toNat_mask low,Nat.and_two_pow]
  cases bit : b.toNat.testBit k with
  | false =>
    have zero : b &&& UInt8.ofNat (1 <<< k) = 0 := by
      apply UInt8.toNat_inj.mp
      simpa [bit] using value
    simp [zero]
  | true =>
    have some : b &&& UInt8.ofNat (1 <<< k) ≠ 0 := by
      intro zero
      have positive : 0 < 2^k := Nat.two_pow_pos k
      rw [zero,bit] at value
      simp at value
      omega
    simpa using some

lemma testBit_or_mask (b : UInt8) (low : k < 8) (j : Nat) :
    (b ||| UInt8.ofNat (1 <<< k)).toNat.testBit j = (b.toNat.testBit j || decide (k = j)) := by
  rw [UInt8.toNat_or,toNat_mask low,Nat.testBit_or,Nat.testBit_two_pow]

lemma bitAt_slice (inside : j < 8*n) : bitAt (f.slice start n) j = fileBit f start j := by
  have here : j/8 < n := by omega
  simp [bitAt,fileBit,File.slice,here]

lemma fileBit_add (f : File) (start n j : Nat) : fileBit f (start+n) j = fileBit f start (8*n+j) := by
  have byte : (8*n+j)/8 = n+j/8 := by omega
  have bit : (8*n+j)%8 = j%8 := by omega
  simp only [fileBit,byte,bit,Nat.add_assoc]

/-- The vector has these bits, and zeros behind them. -/
structure BitVec.Holds (v : BitVec) (bits : List Bool) : Prop where
  idx : v.bitIdx = bits.length
  length : v.vec.length = bufSz
  bit : ∀ j, bitAt v.vec j = bits.getD j false

lemma BitVec.holds_new : BitVec.new.Holds [] := by
  refine ⟨rfl,by simp [BitVec.new],fun j => ?_⟩
  have zero : (List.replicate bufSz (0 : UInt8)).getD (j/8) 0 = 0 := by
    rw [getD_eq_getElem?_getD,getElem?_replicate]
    split <;> rfl
  simp [bitAt,BitVec.new]

lemma getD_concat (bits : List Bool) (b : Bool) (j : Nat) :
    (bits++[b]).getD j false = (bits.getD j false || b && decide (bits.length = j)) := by
  simp only [getD_eq_getElem?_getD,getElem?_append]
  split
  · next inside => simp [Nat.ne_of_gt inside]
  · next beyond =>
    rw [getElem?_eq_none (Nat.le_of_not_lt beyond)]
    cases later : j-bits.length with
    | zero =>
      have here : bits.length = j := by omega
      simp [here]
    | succ k =>
      have there : bits.length ≠ j := by omega
      simp [there]

lemma BitVec.Holds.add {v : BitVec} {bits : List Bool} (holds : v.Holds bits) (room : bits.length < 8*bufSz) (b : Bool) :
    (v.add b).Holds (bits++[b]) := by
  refine ⟨by simp [BitVec.add,holds.idx],?_,fun j => ?_⟩
  · cases b <;> simp [BitVec.add,holds.length]
  · rw [getD_concat,← holds.bit j]
    cases b with
    | false => simp [BitVec.add]
    | true =>
      simp only [BitVec.add,if_true,holds.idx,bitAt,Bool.true_and]
      by_cases byte : bits.length/8 = j/8
      · have within : j/8 < v.vec.length := by
          rw [holds.length]
          omega
        have bit : bits.length%8 = j%8 ↔ bits.length = j := by omega
        rw [byte,getD_eq_getElem?_getD,getElem?_set_self within,getD_some,
          testBit_or_mask _ (Nat.mod_lt _ (by decide))]
        simp only [bit]
      · have other : bits.length ≠ j := fun same => byte (by rw [same])
        simp only [getD_eq_getElem?_getD,getElem?_set_ne byte,other,decide_false,Bool.or_false]

/-- The bits are in the file from an offset on. -/
structure Packed (f : File) (start : Nat) (bits : List Bool) : Prop where
  bit : ∀ j (_ : j < bits.length), fileBit f start j = bits[j]
  size : bits ≠ [] → start+(bits.length+7)/8 ≤ f.size

lemma packed_nil (f : File) (start : Nat) : Packed f start [] := ⟨by simp,by simp⟩

lemma Packed.write {start off : Nat} {bits : List Bool} {data : Bytes} (packed : Packed f start bits)
    (apart : off+data.length ≤ start ∨ start+(bits.length+7)/8 ≤ off) : Packed (f.write off data) start bits := by
  refine ⟨fun j inside => ?_,fun some => (packed.size some).trans (size_le_write f off data)⟩
  rw [← packed.bit j inside]
  have outside : ¬ (off ≤ start+j/8 ∧ start+j/8 < off+data.length) := by omega
  rw [fileBit,byte_write_of_not_mem outside,fileBit]

lemma Packed.drop (packed : Packed f start bits) (n : Nat) :
    Packed f (start+n) (bits.drop (8*n)) := by
  refine ⟨fun j inside => ?_,fun some => ?_⟩
  · rw [length_drop] at inside
    rw [fileBit_add,packed.bit (8*n+j) (by omega),getElem_drop]
  · have left : 0 < (bits.drop (8*n)).length := length_pos_iff.mpr some
    rw [length_drop] at left ⊢
    have size := packed.size (ne_nil_of_length_pos (by omega))
    omega

lemma Packed.append {done bits : List Bool} {v : BitVec} (packed : Packed f start done)
    (whole : done.length%8 = 0) (holds : v.Holds bits) (room : bits.length ≤ 8*bufSz) (some : bits ≠ []) :
    Packed (f.write (start+done.length/8) (v.vec.take ((bits.length+7)/8))) start (done++bits) := by
  have length : (v.vec.take ((bits.length+7)/8)).length = (bits.length+7)/8 := by
    rw [length_take,holds.length]
    omega
  have positive : 0 < bits.length := length_pos_iff.mpr some
  refine ⟨fun j inside => ?_,fun _ => ?_⟩
  · rw [length_append] at inside
    by_cases old : j < done.length
    · rw [getElem_append_left old]
      exact (packed.write (.inr (by omega))).bit j old
    · have shift : 8*(done.length/8)+(j-done.length) = j := by omega
      have within : j-done.length < bits.length := by omega
      have read := slice_write_self f (start+done.length/8) (v.vec.take ((bits.length+7)/8))
      have moved := fileBit_add (f.write (start+done.length/8) (v.vec.take ((bits.length+7)/8))) start
        (done.length/8) (j-done.length)
      rw [length] at read
      rw [shift,← bitAt_slice (n := (bits.length+7)/8) (by omega),read] at moved
      rw [getElem_append_right (Nat.le_of_not_lt old),← moved]
      have bit := holds.bit (j-done.length)
      rw [getD_eq_getElem?_getD,getElem?_eq_getElem within,getD_some] at bit
      rw [← bit]
      have byte : (j-done.length)/8 < (bits.length+7)/8 := by omega
      simp [bitAt,getD_eq_getElem?_getD,byte]
  · have written : v.vec.take ((bits.length+7)/8) ≠ [] := ne_nil_of_length_pos (by omega)
    simp only [File.write,if_neg written,length,length_append]
    omega

/-- What was added so far: whole buffers are in the file, the rest is in the vector. -/
structure Output.Written (o : Output) (start : Nat) (before : File) (done bits : List Bool) : Prop where
  packed : Packed o.outfd.file start done
  whole : done.length%8 = 0
  offset : o.outfd.offset = start+done.length/8
  nbits : o.nbits = done.length
  holds : o.bitvec.Holds bits
  kept : ∀ i, i < start → o.outfd.file.byte i = before.byte i

section
variable {o : Output} {start : Nat} {before : File} {done bits : List Bool}

lemma Output.written_new (f : File) (start : Nat) : Output.Written ⟨.new,0,⟨f,start⟩⟩ start f [] [] :=
  ⟨packed_nil f start,rfl,rfl,rfl,BitVec.holds_new,fun _ _ => rfl⟩

section
variable (written : o.Written start before done bits)
include written

lemma Output.Written.flush (room : bits.length ≤ 8*bufSz) :
    Packed o.flush.outfd.file start (done++bits) ∧ o.flush.outfd.offset = start+((done++bits).length+7)/8 ∧
      o.flush.nbits = (done++bits).length ∧ ∀ i, i < start → o.flush.outfd.file.byte i = before.byte i := by
  have whole := written.whole
  have bytes : (if bits.length%8 > 0 then bits.length/8+1 else bits.length/8) = (bits.length+7)/8 := by
    split <;> omega
  simp only [Output.flush,BitVec.output,written.holds.idx,bytes,length_append,written.nbits]
  by_cases none : bits = []
  · subst none
    have offset := written.offset
    simp only [length_nil,append_nil]
    refine ⟨written.packed,?_,trivial,written.kept⟩
    simp only [Nat.zero_add,show 7/8 = 0 from rfl,Nat.lt_irrefl,if_false,offset]
    omega
  · have positive : 0 < bits.length := length_pos_iff.mpr none
    have length : (o.bitvec.vec.take ((bits.length+7)/8)).length = (bits.length+7)/8 := by
      rw [length_take,written.holds.length]
      omega
    rw [if_pos (show (bits.length+7)/8 > 0 by omega)]
    simp only [Fd.write,length,written.offset]
    refine ⟨written.packed.append whole written.holds room none,by omega,trivial,?_⟩
    intro i low
    rw [byte_write_of_not_mem (by omega)]
    exact written.kept i low

lemma Output.Written.add (room : bits.length < 8*bufSz) (b : Bool) :
    ∃ done' bits', done' ++ bits' = done++bits++[b] ∧ (o.add b).Written start before done' bits' ∧
      bits'.length < 8*bufSz := by
  have next : Output.Written { o with bitvec := o.bitvec.add b } start before done (bits++[b]) :=
    { written with holds := written.holds.add room b }
  have length : (bits++[b]).length = bits.length+1 := by simp
  simp only [Output.add]
  split
  · next full =>
    have all : (bits++[b]).length = 8*bufSz := by
      have idx : (o.bitvec.add b).bitIdx = (bits++[b]).length := next.holds.idx
      simp only [BitVec.full,decide_eq_true_eq] at full
      omega
    obtain ⟨packed,offset,nbits,kept⟩ := next.flush (by omega)
    have whole : (done++(bits++[b])).length%8 = 0 := by
      have := written.whole
      rw [length_append,all]
      omega
    refine ⟨done++(bits++[b]),[],by simp,⟨packed,whole,?_,nbits,BitVec.holds_new,kept⟩,by decide⟩
    rw [offset]
    omega
  · next open_ =>
    refine ⟨done,bits++[b],by simp,next,?_⟩
    have idx : (o.bitvec.add b).bitIdx = (bits++[b]).length := next.holds.idx
    simp only [BitVec.full,decide_eq_true_eq] at open_
    omega

lemma Output.Written.addAll (room : bits.length < 8*bufSz) (more : List Bool) :
    ∃ done' bits', done' ++ bits' = done++bits++more ∧ (more.foldl Output.add o).Written start before done' bits' ∧
      bits'.length < 8*bufSz := by
  induction more generalizing o done bits with
  | nil => exact ⟨done,bits,by simp,written,room⟩
  | cons b more ih =>
    obtain ⟨done₁,bits₁,same₁,written₁,room₁⟩ := written.add room b
    obtain ⟨done₂,bits₂,same₂,written₂,room₂⟩ := ih written₁ room₁
    exact ⟨done₂,bits₂,by rw [same₂,same₁]; simp,written₂,room₂⟩

end
end

/-- The bits that are left: some in the buffer, the others in the file. -/
structure BitStream.Left (s : BitStream) (held rest : List Bool) : Prop where
  remain : s.remainBits = (held++rest).length
  bit : ∀ j (_ : j < held.length), bitAt s.buf (s.currIdx+j) = held[j]
  inside : s.currIdx+held.length ≤ s.endIdx
  full : rest ≠ [] → s.currIdx+held.length = s.endIdx
  packed : Packed s.infd.file s.infd.offset rest

lemma BitStream.left_new (packed : Packed f start bits) :
    (BitStream.new ⟨f,start⟩ bits.length).Left [] bits :=
  ⟨by simp [BitStream.new],by simp,by simp [BitStream.new],by simp [BitStream.new],packed⟩

lemma BitStream.Left.fill (left : s.Left [] bits) (more : bits ≠ []) :
    ∃ s' held rest, s.fill = some s' ∧ s'.Left held rest ∧ held++rest = bits ∧ held ≠ [] := by
  have remain : s.remainBits = bits.length := by simpa using left.remain
  have positive : 0 < bits.length := length_pos_iff.mpr more
  have bytes : (if bits.length%8 > 0 then bits.length/8+1 else bits.length/8) = (bits.length+7)/8 := by
    split <;> omega
  obtain ⟨n,count⟩ : ∃ n, n = if (bits.length+7)/8 < bufSz then (bits.length+7)/8 else bufSz := ⟨_,rfl⟩
  have small : n ≤ (bits.length+7)/8 ∧ 0 < n ∧ (8*n < bits.length → n = bufSz) := by
    have : 0 < bufSz := by decide
    split at count <;> omega
  have size := left.packed.size more
  have read : s.infd.read n = some (s.infd.file.slice s.infd.offset n,⟨s.infd.file,s.infd.offset+n⟩) := by
    simp only [Fd.read,read_eq_some (show s.infd.offset+n ≤ s.infd.file.size by omega),map_some]
  refine ⟨⟨⟨s.infd.file,s.infd.offset+n⟩,s.remainBits,s.infd.file.slice s.infd.offset n,0,n*8⟩,bits.take (8*n),bits.drop (8*n),?_,?_,take_append_drop _ _,?_⟩
  · have left : ¬ (bits.length : Int) ≤ 0 := by omega
    simp only [BitStream.fill,remain,if_neg left,Int.toNat_natCast,bytes,← count,read,map_some]
  · refine ⟨?_,fun j inside => ?_,?_,fun behind => ?_,left.packed.drop n⟩
    · simpa using remain
    · rw [length_take] at inside
      rw [Nat.zero_add,bitAt_slice (by omega),left.packed.bit j (by omega),getElem_take]
    · simp only [length_take]
      omega
    · have : (bits.drop (8*n)).length ≠ 0 := fun none => behind (length_eq_zero_iff.mp none)
      rw [length_drop] at this
      simp only [length_take]
      omega
  · apply ne_nil_of_length_pos
    rw [length_take]
    omega

lemma BitStream.Left.take (left : s.Left (b::held) rest) :
    (s.buf.getD (s.currIdx/8) 0 &&& UInt8.ofNat (1 <<< (s.currIdx%8)) != 0) = b ∧
      BitStream.Left { s with currIdx := s.currIdx+1, remainBits := s.remainBits-1 } held rest := by
  constructor
  · rw [and_mask _ (Nat.mod_lt _ (by decide))]
    exact left.bit 0 (by simp)
  · refine ⟨?_,fun j inside => ?_,?_,fun behind => ?_,left.packed⟩
    · have remain := left.remain
      simp only [cons_append,length_cons] at remain
      simp only [remain]
      omega
    · have bit := left.bit (j+1) (by simpa using inside)
      rw [show s.currIdx+(j+1) = s.currIdx+1+j by omega] at bit
      simpa using bit
    · have inside := left.inside
      simp only [length_cons] at inside
      simp only
      omega
    · have full := left.full behind
      simp only [length_cons] at full
      simp only
      omega

lemma BitStream.Left.get (left : s.Left held rest)
    (all : held++rest = b::bits) :
    ∃ s' held' rest', s.get = some (b,s') ∧ s'.Left held' rest' ∧ held'++rest' = bits := by
  cases held with
  | cons c held =>
    obtain ⟨rfl,same⟩ := List.cons.inj all
    have unread : s.currIdx ≠ s.endIdx := by
      have := left.inside
      simp only [length_cons] at this
      omega
    obtain ⟨bit,left'⟩ := left.take
    refine ⟨_,held,rest,?_,left',same⟩
    simp only [BitStream.get,if_neg unread,map_some,bit]
  | nil =>
    have rest_eq : rest = b::bits := all
    subst rest_eq
    have used : s.currIdx = s.endIdx := left.full (by simp)
    obtain ⟨s₁,held₁,rest₁,filled,left₁,same₁,some₁⟩ := left.fill (by simp)
    cases held₁ with
    | nil => exact absurd rfl some₁
    | cons c held₁ =>
      obtain ⟨rfl,same⟩ := List.cons.inj same₁
      obtain ⟨bit,left'⟩ := left₁.take
      refine ⟨_,held₁,rest₁,?_,left',same⟩
      simp only [BitStream.get,if_pos used,filled,map_some,bit]

def writeBits (bits : List Bool) (outfd : Fd) : Output := (bits.foldl Output.add ⟨.new,0,outfd⟩).flush
/-- The stream of that many bits. The number is an `int`. -/
def BitStream.ofCount (infd : Fd) (nbits : Nat) : BitStream := .new infd (intOf (intBytes nbits))

def BitStream.readBits : Nat → BitStream → Option (List Bool × BitStream)
  | 0,s => some ([],s)
  | k+1,s => s.get.bind (fun r => (r.2.readBits k).map (fun t => (r.1::t.1,t.2)))

lemma packed_writeBits (bits : List Bool) (f : File) (start : Nat) :
    Packed (writeBits bits ⟨f,start⟩).outfd.file start bits ∧ (writeBits bits ⟨f,start⟩).nbits = bits.length ∧
      ∀ i, i < start → (writeBits bits ⟨f,start⟩).outfd.file.byte i = f.byte i := by
  obtain ⟨done,held,all,written,room⟩ := (Output.written_new f start).addAll (by decide) bits
  obtain ⟨packed,_,nbits,kept⟩ := written.flush room.le
  rw [nil_append,nil_append] at all
  rw [all] at packed nbits
  exact ⟨packed,nbits,kept⟩

lemma BitStream.endIdx_get (small : s.endIdx ≤ 8*bufSz) (got : s.get = some (b,s')) : s'.endIdx ≤ 8*bufSz := by
  simp only [BitStream.get,map_eq_some_iff,Prod.mk.injEq] at got
  obtain ⟨s₁,opened,_,rfl⟩ := got
  split at opened
  · simp only [BitStream.fill,ite_eq_iff,reduceCtorEq,and_false,false_or,map_eq_some_iff] at opened
    obtain ⟨_,r,_,rfl⟩ := opened
    generalize (if s.remainBits.toNat%8 > 0 then s.remainBits.toNat/8+1 else s.remainBits.toNat/8) = bytesleft
    simp only
    split <;> omega
  · obtain rfl := some.inj opened
    exact small

lemma BitStream.Left.readBits (left : s.Left held rest) (small : s.endIdx ≤ 8*bufSz)
    (all : held++rest = bits++more) :
    ∃ s' held' rest', s.readBits bits.length = some (bits,s') ∧ s'.Left held' rest' ∧ held'++rest' = more ∧
      s'.endIdx ≤ 8*bufSz := by
  induction bits generalizing s held rest with
  | nil => exact ⟨s,held,rest,rfl,left,all,small⟩
  | cons b bits ih =>
    obtain ⟨s₁,held₁,rest₁,got,left₁,all₁⟩ := left.get all
    obtain ⟨s₂,held₂,rest₂,read,after⟩ := ih left₁ (endIdx_get small got) all₁
    refine ⟨s₂,held₂,rest₂,?_,after⟩
    rw [length_cons,BitStream.readBits,got,bind_some,read,map_some]

/-- Fewer than 2^31 bits are read back in order, the stream is empty exactly behind
the last one, and neither buffer is used behind its end. -/
theorem bits_round_trip (bits : List Bool) (f : File) (start : Nat) (few : bits.length < 2^31) :
    (writeBits bits ⟨f,start⟩).nbits = bits.length ∧
      (∀ k ≤ bits.length, ∃ s, (BitStream.ofCount ⟨(writeBits bits ⟨f,start⟩).outfd.file,start⟩
          (writeBits bits ⟨f,start⟩).nbits).readBits k = some (bits.take k,s) ∧
        (s.empty = true ↔ k = bits.length) ∧ s.currIdx ≤ 8*bufSz) ∧
      ∀ pre b post, bits = pre++b::post →
        (pre.foldl Output.add ⟨.new,0,⟨f,start⟩⟩).bitvec.bitIdx/8 < bufSz := by
  obtain ⟨packed,nbits,_⟩ := packed_writeBits bits f start
  refine ⟨nbits,fun k le => ?_,fun pre b post _ => ?_⟩
  · have length : (bits.take k).length = k := by rw [length_take,Nat.min_eq_left le]
    rw [nbits,BitStream.ofCount,intOf_intBytes (by omega) (by omega)]
    obtain ⟨s,held,rest,read,left,all,small⟩ := (BitStream.left_new packed).readBits (by simp [BitStream.new])
      (take_append_drop k bits).symm
    rw [length] at read
    refine ⟨s,read,?_,by have := left.inside; omega⟩
    rw [BitStream.empty,left.remain,all,length_drop,decide_eq_true_eq]
    omega
  · obtain ⟨done,held,_,written,room⟩ := (Output.written_new f start).addAll (by decide) pre
    rw [written.holds.idx]
    omega

theorem bits_round_trip_byte : (writeBits [true,false,true] ⟨.zeros 0,0⟩).nbits = 3 ∧
    (∃ s, (BitStream.ofCount ⟨(writeBits [true,false,true] ⟨.zeros 0,0⟩).outfd.file,0⟩ 3).readBits 3 = some ([true,false,true],s) ∧ s.empty = true) ∧
    ([true,false].foldl Output.add ⟨.new,0,⟨.zeros 0,0⟩⟩).bitvec.bitIdx/8 < bufSz := by
  obtain ⟨nbits,reads,inside⟩ := bits_round_trip [true,false,true] (.zeros 0) 0 (by decide)
  obtain ⟨s,read,empty,_⟩ := reads 3 (by decide)
  rw [nbits] at read
  exact ⟨nbits,⟨s,read,empty.mpr rfl⟩,inside [true,false] true [] rfl⟩

/-- As an `int`, 2^31 bits are none. -/
theorem bits_unread : ∃ bits : List Bool, bits ≠ [] ∧
    (BitStream.ofCount ⟨(writeBits bits ⟨.zeros 0,0⟩).outfd.file,0⟩ (writeBits bits ⟨.zeros 0,0⟩).nbits).empty = true := by
  obtain ⟨bits,length⟩ : ∃ bits : List Bool, bits.length = 2^31 := ⟨replicate (2^31) true,length_replicate⟩
  refine ⟨bits,ne_nil_of_length_pos (by omega),?_⟩
  have negative : intOf (intBytes ((2^31 : Nat) : Int)) ≤ 0 := by decide +kernel
  rw [(packed_writeBits bits _ 0).2.1,length,BitStream.empty,decide_eq_true_eq]
  exact negative

end CodeExercise.Huffman
