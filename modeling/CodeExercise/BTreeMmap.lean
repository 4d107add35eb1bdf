import CodeExercise.Runs
import CodeExercise.Slices
import CodeExercise.Uvarints
import Mathlib.Data.List.Lex
import Mathlib.Order.Lattice

/-!
The B+tree in a mapped file. Every node has a block of 4096 bytes, with a flatbuffers table at its
front and the serialized keys and values behind it; the slots of the table hold their offsets. A
table is kept as the record of its fields and vectors, beside the bytes of the file. New data is
appended at `unusedMemOffset`; when a block is full, `compactMem` moves what its slots point to to
the front. `none` is a panic. A history that nothing in the program reads records the compactions
and what the slots of the nodes read before and afterwards.
-/
namespace CodeExercise.BTreeMmap
open Slices Files Uvarints

abbrev Bytes := List UInt8

instance linearOrderUInt8 : LinearOrder UInt8 where
  le_refl a := UInt8.le_refl a
  le_trans a b c := UInt8.le_trans
  le_antisymm a b := UInt8.le_antisymm
  le_total a b := UInt8.le_total a b
  lt_iff_le_not_ge a b := by simp [UInt8.le_iff_toNat_le,UInt8.lt_iff_toNat_lt]; omega
  toDecidableLE := inferInstance
  toDecidableEq := inferInstance
  toDecidableLT := inferInstance

def blockSize : Nat := 4096
/-- `BLOCK_MAGIC`, "BLKSTART". -/
def blockMagic : Bytes := [66,76,75,83,84,65,82,84]
/-- `defaultDBSize`, 20M. -/
def dbSize : Nat := 20*1024*1024

def uint16 (n : Nat) : Nat := n%65536
/-- The difference of two `uint16`. -/
def sub16 (a b : Nat) : Nat := (a+(65536-b))%65536

inductive Err where
  /-- `ERR_KEY_NOT_EXIST`, "key not exist". -/
  | keyNotExist
  /-- "not enough memory in this block". -/
  | notEnoughMemory
  deriving DecidableEq

/-- `copy(f[off:], data)`. -/
def copyAt (f : File) (off : Nat) (data : Bytes) : Option File :=
  if off ≤ f.size then some (f.write off (data.take (f.size-off))) else none

/-- The file, and the size that the slice needs; only what fits is copied. -/
def putByteSlice (f : File) (off : Nat) (s : Bytes) : Option (File × Nat) :=
  let slen := putUvarint s.length
  if off+slen.length ≤ f.size then some (f.write off ((slen++s).take (f.size-off)),slen.length+s.length) else none

def getByteSlice (f : File) (off : Nat) : Option Bytes :=
  let n := uvarint (fun i => f.byte (off+i)) (f.size-off)
  if off ≤ f.size ∧ 0 ≤ n.2 ∧ n.2.toNat+n.1 ≤ f.size-off then some (f.slice (off+n.2.toNat) n.1) else none

def getByteSliceSize (f : File) (off : Nat) : Option Int :=
  let n := uvarint (fun i => f.byte (off+i)) (f.size-off)
  if off ≤ f.size then some (n.2+n.1) else none

/-- `uint16(sz)` of an `int`. -/
def uint16OfInt (sz : Int) : Nat := (sz%65536).toNat
def calcRequiredMemSerialized (s : Bytes) : Nat := uint16 ((putUvarint s.length).length+s.length)

inductive Event where
  /-- `compactMem` with a buffer of `len` bytes. -/
  | compact (len written : Nat)
  /-- An operation on a node: what its slots read before and afterwards, where they
      go, and the slots whose key or value is replaced. -/
  | edit (keys keys' vals vals' : List (Option Bytes)) (moved : Nat → Nat) (keyOut valOut : Option Nat)

/-- The mapped file with the history. -/
structure Mem where
  mmap : File
  history : List Event

/-- A node with its table; a leaf has no children and an internal node no values. -/
structure Node where
  blockId : Nat
  isLeaf : Bool
  nkeys : Nat
  actualMemRequired : Nat
  unusedMemStart : Nat
  unusedMemOffset : Nat
  keyPtrArr : List Nat
  valPtrArr : List Nat
  childNodeId : List Nat

namespace Node

def setNKeys (node : Node) (n : Nat) : Node := { node with nkeys := uint16 n }

/-- A slot outside of its vector is a panic here; the generated accessors do not check it. -/
def getKey (node : Node) (mem : Mem) (i : Nat) : Option Bytes := do
  let p ← node.keyPtrArr[i]?
  getByteSlice mem.mmap (p+node.blockId*blockSize)

def getKeySize (node : Node) (mem : Mem) (i : Nat) : Option Nat := do
  let p ← node.keyPtrArr[i]?
  (getByteSliceSize mem.mmap (p+node.blockId*blockSize)).map uint16OfInt

def getVal (node : Node) (mem : Mem) (i : Nat) : Option Bytes := do
  let p ← node.valPtrArr[i]?
  getByteSlice mem.mmap (p+node.blockId*blockSize)

def getValSize (node : Node) (mem : Mem) (i : Nat) : Option Nat := do
  let p ← node.valPtrArr[i]?
  (getByteSliceSize mem.mmap (p+node.blockId*blockSize)).map uint16OfInt

def getChildBlockId (node : Node) (i : Nat) : Option Nat := node.childNodeId[i]?

/-- The offset is stored relative to the block. -/
def setKeyPtr (node : Node) (i off : Nat) : Option Node := do
  let keyPtrArr ← put node.keyPtrArr i (uint16 (off-node.blockId*blockSize))
  return { node with keyPtrArr }

def setValPtr (node : Node) (i off : Nat) : Option Node := do
  let valPtrArr ← put node.valPtrArr i (uint16 (off-node.blockId*blockSize))
  return { node with valPtrArr }

def setChildBlockId (node : Node) (i blockId : Nat) : Option Node := do
  let childNodeId ← put node.childNodeId i blockId
  return { node with childNodeId }

/-- What the slots in use read, for the history. -/
def keys (node : Node) (mem : Mem) : List (Option Bytes) := (List.range node.nkeys).map (node.getKey mem)
def vals (node : Node) (mem : Mem) : List (Option Bytes) :=
  if node.isLeaf then (List.range node.nkeys).map (node.getVal mem) else []

/-- Record that `node` with `mem` became `after`. -/
def note (node : Node) (mem : Mem) (after : Node) (mem' : Mem) (moved : Nat → Nat) (keyOut valOut : Option Nat) : Mem :=
  { mem' with history := mem'.history ++
      [.edit (node.keys mem) (after.keys mem') (node.vals mem) (after.vals mem') moved keyOut valOut] }

/-- The first of the slots from `i` on whose key has the property. -/
def seek (node : Node) (mem : Mem) (p : Bytes → Bool) : Nat → Nat → Option Nat
  | i,0 => some i
  | i,k+1 => do
    let key ← node.getKey mem i
    if p key then some i else node.seek mem p (i+1) k

/-- The loop of `compactMem`: `k` slots from `i` on, into `tmpMem` from `start` on. -/
def compactLoop (mem : Mem) (unusedMemStart : Nat) : Nat → Nat → Node → File → Nat → Option (Node × File × Nat)
  | 0,_,node,tmpMem,start => some (node,tmpMem,start)
  | k+1,i,node,tmpMem,start => do
    let key ← node.getKey mem i
    let (tmpMem,size) ← putByteSlice tmpMem start key
    let keyPtrArr ← put node.keyPtrArr i (uint16 (unusedMemStart+start))
    let start := start+size
    if node.isLeaf then
      let val ← node.getVal mem i
      let (tmpMem,size) ← putByteSlice tmpMem start val
      let valPtrArr ← put node.valPtrArr i (uint16 (unusedMemStart+start))
      compactLoop mem unusedMemStart k (i+1) { node with keyPtrArr, valPtrArr } tmpMem (start+size)
    else
      compactLoop mem unusedMemStart k (i+1) { node with keyPtrArr } tmpMem start

def compactMem (node : Node) (mem : Mem) : Option (Node × Mem) := do
  let len := sub16 node.unusedMemOffset node.unusedMemStart
  let (node,tmpMem,start) ← compactLoop mem node.unusedMemStart node.nkeys 0 node (File.zeros len) 0
  let mmap ← copyAt mem.mmap (node.blockId*blockSize+node.unusedMemStart) (tmpMem.slice 0 len)
  return ({ node with unusedMemOffset := uint16 (node.unusedMemStart+start) },
    { mmap, history := mem.history++[.compact len start] })

/-- Whether there is space for `valSize` bytes, if need be after a compaction. -/
def spaceIsEnough (node : Node) (mem : Mem) (valSize : Nat) : Option (Node × Mem × Bool) :=
  if node.unusedMemOffset+valSize ≤ blockSize then some (node,mem,true)
  else if uint16 valSize ≤ sub16 (sub16 blockSize node.unusedMemStart) node.actualMemRequired then do
    let (node,mem) ← node.compactMem mem
    return (node,mem,true)
  else some (node,mem,false)

def appendToFreeMem (node : Node) (mem : Mem) (content : Bytes) : Option (Node × Mem × Nat) := do
  let freeMemOffset := node.unusedMemOffset+node.blockId*blockSize
  let (mmap,size) ← putByteSlice mem.mmap freeMemOffset content
  return ({ node with unusedMemOffset := uint16 (node.unusedMemOffset+size) },{ mem with mmap },freeMemOffset)

/-- It panics without space for the key. -/
def insertKeyInPos (node : Node) (mem : Mem) (i : Nat) (key : Bytes) : Option (Node × Mem) := do
  let sizeKey := calcRequiredMemSerialized key
  let (node,mem,enough) ← node.spaceIsEnough mem sizeKey
  if enough then
    let (node,mem,newKeyOffset) ← node.appendToFreeMem mem key
    let node ← node.setKeyPtr i newKeyOffset
    return ({ node with actualMemRequired := uint16 (node.actualMemRequired+sizeKey) },mem)
  else none

/-- Whether there was space for the value. -/
def insertValInPos (node : Node) (mem : Mem) (i : Nat) (val : Bytes) : Option (Node × Mem × Bool) := do
  let sizeVal := calcRequiredMemSerialized val
  let (node,mem,enough) ← node.spaceIsEnough mem sizeVal
  if enough then
    let (node,mem,newValOffset) ← node.appendToFreeMem mem val
    let node ← node.setValPtr i newValOffset
    return ({ node with actualMemRequired := uint16 (node.actualMemRequired+sizeVal) },mem,true)
  else return (node,mem,false)

def insertKvInPos (node : Node) (mem : Mem) (i : Nat) (key val : Bytes) : Option (Node × Mem × Bool) := do
  let sizeKey := calcRequiredMemSerialized key
  let sizeVal := calcRequiredMemSerialized val
  let (node,mem,enough) ← node.spaceIsEnough mem (uint16 (sizeKey+sizeVal))
  if enough then
    let (node,mem) ← node.insertKeyInPos mem i key
    node.insertValInPos mem i val
  else return (node,mem,false)

def clearKey (node : Node) (mem : Mem) (i : Nat) : Option Node := do
  let sizeKey ← node.getKeySize mem i
  let keyPtrArr ← put node.keyPtrArr i 0
  return { node with keyPtrArr, actualMemRequired := sub16 node.actualMemRequired sizeKey }

def clearVal (node : Node) (mem : Mem) (i : Nat) : Option Node := do
  let sizeVal ← node.getValSize mem i
  let valPtrArr ← put node.valPtrArr i 0
  return { node with valPtrArr, actualMemRequired := sub16 node.actualMemRequired sizeVal }

def updateKey (node : Node) (mem : Mem) (i : Nat) (key : Bytes) : Option (Node × Mem) := do
  let sizeOldKey ← node.getKeySize mem i
  let (after,mem') ← node.insertKeyInPos mem i key
  let after := { after with actualMemRequired := sub16 after.actualMemRequired sizeOldKey }
  return (after,node.note mem after mem' id (some i) none)

def updateVal (node : Node) (mem : Mem) (i : Nat) (val : Bytes) : Option (Node × Mem × Bool) := do
  let sizeOldVal ← node.getValSize mem i
  let (after,mem',enough) ← node.insertValInPos mem i val
  if enough then
    let after := { after with actualMemRequired := sub16 after.actualMemRequired sizeOldVal }
    return (after,node.note mem after mem' id none (some i),true)
  else return (after,mem',false)

/-- `clearKeyPtr(n-1)` on the slots. For `n = 0` it writes to the length in front of
the vector, which nothing reads. -/
def clearLast (ptrs : List Nat) : Nat → Option (List Nat)
  | 0 => some ptrs
  | n+1 => put ptrs n 0

def delKeyValByIndex (node : Node) (mem : Mem) (i : Nat) : Option Node := do
  let node ← node.clearKey mem i
  let node ← node.clearVal mem i
  let keyPtrArr ← (shiftDown i (node.nkeys-(i+1)) node.keyPtrArr).bind (clearLast · node.nkeys)
  let valPtrArr ← (shiftDown i (node.nkeys-(i+1)) node.valPtrArr).bind (clearLast · node.nkeys)
  return { node with nkeys := sub16 node.nkeys 1, keyPtrArr, valPtrArr }

/-- A key that is larger than all keys of the leaf is taken for the one behind them. -/
def deleteInLeaf (node : Node) (mem : Mem) (key : Bytes) : Option Node := do
  let i ← node.seek mem (fun k => key ≤ k) 0 node.nkeys
  if i < node.nkeys ∧ (node.getKey mem i).any (key < ·) then
    return node
  node.delKeyValByIndex mem i

def removeMinKeyVal (node : Node) (mem : Mem) : Option (Node × Bytes × Bytes) := do
  let key ← node.getKey mem 0
  let val ← node.getVal mem 0
  let node ← node.delKeyValByIndex mem 0
  return (node,key,val)

def removeMaxKeyVal (node : Node) (mem : Mem) : Option (Node × Bytes × Bytes) := do
  let key ← node.getKey mem (node.nkeys-1)
  let val ← node.getVal mem (node.nkeys-1)
  let node ← node.delKeyValByIndex mem (node.nkeys-1)
  return (node,key,val)

def appendMaxKeyVal (node : Node) (mem : Mem) (key val : Bytes) : Option (Node × Mem) := do
  let (after,mem',_) ← node.insertKvInPos mem node.nkeys key val
  let after := after.setNKeys (after.nkeys+1)
  return (after,node.note mem after mem' id none none)

/-- What `insertKVInLeaf` does with a new key at `i`, up to the split. The error of
`insertKvInPos` is dropped. -/
def insertNew (node : Node) (mem : Mem) (i : Nat) (key val : Bytes) : Option (Node × Mem) := do
  let keyPtrArr ← shiftUp i (node.nkeys-i) node.keyPtrArr
  let valPtrArr ← shiftUp i (node.nkeys-i) node.valPtrArr
  let (after,mem',_) ← insertKvInPos { node with keyPtrArr, valPtrArr } mem i key val
  let after := after.setNKeys (after.nkeys+1)
  return (after,node.note mem after mem' (fun j => if j < i then j else j+1) none none)

/-- The loop of the split: the entries from `base` on go to the right sibling, the
last one first. -/
def moveEntries (base : Nat) : Nat → Node → Node → Mem → Option (Node × Node × Mem)
  | 0,node,rightSibling,mem => some (node,rightSibling,mem)
  | r+1,node,rightSibling,mem => do
    let k ← node.getKey mem (base+r)
    let v ← node.getVal mem (base+r)
    let (rightSibling,mem,_) ← rightSibling.insertKvInPos mem r k v
    let node ← node.clearKey mem (base+r)
    let node ← node.clearVal mem (base+r)
    moveEntries base r node rightSibling mem

/-- The loop of `mergeWithRightLeaf`: `k` entries from `i` on go to `j`. -/
def mergeEntries (right : Node) : Nat → Nat → Nat → Node → Mem → Option (Node × Mem)
  | 0,_,_,left,mem => some (left,mem)
  | k+1,i,j,left,mem => do
    let key ← right.getKey mem i
    let val ← right.getVal mem i
    let (left,mem,_) ← left.insertKvInPos mem j key val
    mergeEntries right k (i+1) (j+1) left mem

/-- Blocks are not recycled. -/
def mergeWithRightLeaf (left : Node) (mem : Mem) (right : Node) : Option (Node × Mem) := do
  let (after,mem') ← mergeEntries right right.nkeys 0 left.nkeys left mem
  let after := after.setNKeys (after.nkeys+right.nkeys)
  return (after,left.note mem after mem' id none none)

/-- What `insert` does with a new child behind the one at `i`, up to the split. -/
def insertChild (node : Node) (mem : Mem) (i : Nat) (key : Bytes) (blockId : Nat) : Option (Node × Mem) := do
  let keyPtrArr ← shiftUp i (node.nkeys-i) node.keyPtrArr
  let childNodeId ← shiftUp (i+1) (node.nkeys-i) node.childNodeId
  let (after,mem') ← insertKeyInPos { node with keyPtrArr, childNodeId } mem i key
  let after ← after.setChildBlockId (i+1) blockId
  let after := after.setNKeys (after.nkeys+1)
  return (after,node.note mem after mem' (fun j => if j < i then j else j+1) none none)

/-- The loop of the split: the keys from `base` on and the children behind them go
to the right sibling, the last ones first. -/
def moveChildren (base : Nat) : Nat → Node → Node → Mem → Option (Node × Node × Mem)
  | 0,node,rightSibling,mem => some (node,rightSibling,mem)
  | r+1,node,rightSibling,mem => do
    let key ← node.getKey mem (base+r)
    let (rightSibling,mem) ← rightSibling.insertKeyInPos mem r key
    let blockId ← node.getChildBlockId (base+r+1)
    let rightSibling ← rightSibling.setChildBlockId (r+1) blockId
    let node ← node.clearKey mem (base+r)
    let node ← node.setChildBlockId (base+r+1) 0
    moveChildren base r node rightSibling mem

def delKeyandBlockIdByIndex (node : Node) (mem : Mem) (keyStart blockIdStart : Nat) : Option (Node × Bytes × Nat) := do
  let deletedKey ← node.getKey mem keyStart
  let deletedBlockId ← node.getChildBlockId blockIdStart
  let node ← node.clearKey mem keyStart
  let keyPtrArr ← (shiftDown keyStart (node.nkeys-(keyStart+1)) node.keyPtrArr).bind (clearLast · node.nkeys)
  let childNodeId ← (shiftDown blockIdStart (node.nkeys-blockIdStart) node.childNodeId).bind (put · node.nkeys 0)
  return ({ node with nkeys := sub16 node.nkeys 1, keyPtrArr, childNodeId },deletedKey,deletedBlockId)

def removeMinKeyAndBlockId (node : Node) (mem : Mem) : Option (Node × Bytes × Nat) :=
  node.delKeyandBlockIdByIndex mem 0 0

def removeMaxKeyAndBlockId (node : Node) (mem : Mem) : Option (Node × Bytes × Nat) :=
  node.delKeyandBlockIdByIndex mem (node.nkeys-1) node.nkeys

def appendMaxKeyAndBlockId (node : Node) (mem : Mem) (key : Bytes) (blockId : Nat) : Option (Node × Mem) := do
  let (after,mem') ← node.insertKeyInPos mem node.nkeys key
  let after ← after.setChildBlockId (node.nkeys+1) blockId
  let after := after.setNKeys (node.nkeys+1)
  return (after,node.note mem after mem' id none none)

/-- The number of keys is raised before the slots are moved. -/
def appendMinKeyAndBlockId (node : Node) (mem : Mem) (key : Bytes) (ptr : Nat) : Option (Node × Mem) := do
  let keyPtrArr ← shiftUp 0 node.nkeys node.keyPtrArr
  let childNodeId ← shiftUp 0 (node.nkeys+1) node.childNodeId
  let (after,mem') ← insertKeyInPos { node.setNKeys (node.nkeys+1) with keyPtrArr, childNodeId } mem 0 key
  let after ← after.setChildBlockId 0 ptr
  return (after,node.note mem after mem' (· + 1) none none)

/-- The loop of `mergeWithRight`: `k` keys and children from `i` on go to `j`. -/
def mergeKeys (right : Node) : Nat → Nat → Nat → Node → Mem → Option (Node × Mem)
  | 0,i,j,left,mem => do
    let blockId ← right.getChildBlockId i
    let left ← left.setChildBlockId j blockId
    return (left,mem)
  | k+1,i,j,left,mem => do
    let key ← right.getKey mem i
    let (left,mem) ← left.insertKeyInPos mem j key
    let blockId ← right.getChildBlockId i
    let left ← left.setChildBlockId j blockId
    mergeKeys right k (i+1) (j+1) left mem

/-- `mergeWithRight` of internal nodes. -/
def mergeInternal (left : Node) (mem : Mem) (right : Node) (parentKey : Bytes) : Option (Node × Mem) := do
  let (after,mem') ← left.insertKeyInPos mem left.nkeys parentKey
  let (after,mem') ← mergeKeys right right.nkeys 0 (left.nkeys+1) after mem'
  let after := after.setNKeys (left.nkeys+1+right.nkeys)
  return (after,left.note mem after mem' id none none)

end Node

/-- The fields of the meta block, the tables of the nodes and the bytes of the file. -/
structure DB where
  degree : Nat
  rootBlockId : Nat
  nusedBlocks : Nat
  blocks : Nat → Option Node
  mem : Mem

namespace DB

/-- A block without a table has no fields to read. -/
def loadNode (db : DB) (blockId : Nat) : Option Node := db.blocks blockId

/-- The table of a node and the bytes of the file were changed in place. -/
def save (db : DB) (node : Node) (mem : Mem) : DB :=
  { db with blocks := Function.update db.blocks node.blockId (some node), mem }

/-- The size of the table that `newNodeBlock` builds with the flatbuffers builder, which is
not among the sources: this is its layout. In front are the root offset, the
vtable and the fields; each vector has its length in front and is aligned to four
bytes. The vectors have `degree` slots of two bytes, or of four bytes for the
`degree+1` children. -/
def tableSize (degree : Nat) (isLeaf : Bool) : Nat :=
  let keys := 4+2*degree+2*(degree%2)
  if isLeaf then 48+keys+keys else 52+keys+(4+4*(degree+1))

/-- `newBlock` and `newNodeBlock`. It panics when the file has no further block. -/
def newNode (db : DB) (isLeaf : Bool) : Option (DB × Node) :=
  let blockId := db.nusedBlocks
  let start := blockId*blockSize
  if start+blockMagic.length ≤ db.mem.mmap.size then
    let unusedMemOffset := uint16 (blockMagic.length+tableSize db.degree isLeaf)
    let node : Node :=
      { blockId
        isLeaf
        nkeys := 0
        actualMemRequired := 0
        unusedMemStart := unusedMemOffset
        unusedMemOffset
        keyPtrArr := List.replicate db.degree 0
        valPtrArr := if isLeaf then List.replicate db.degree 0 else []
        childNodeId := if isLeaf then [] else List.replicate (db.degree+1) 0 }
    some (save { db with nusedBlocks := blockId+1 } node { db.mem with mmap := db.mem.mmap.write start blockMagic },node)
  else none

/-- The search of `find`, with `ERR_KEY_NOT_EXIST` for a key that is not there. -/
def find : Nat → DB → Nat → Bytes → Option (Except Err Bytes)
  | 0,_,_,_ => none
  | fuel+1,db,blockId,key => do
    let node ← db.loadNode blockId
    if node.isLeaf then
      let i ← node.seek db.mem (fun k => key ≤ k) 0 node.nkeys
      if i < node.nkeys ∧ node.getKey db.mem i = some key then
        let val ← node.getVal db.mem i
        return .ok val
      return .error .keyNotExist
    else
      let i ← node.seek db.mem (fun k => key < k) 0 node.nkeys
      let childBlockId ← node.getChildBlockId i
      find fuel db childBlockId key

/-- Move the upper half to a new leaf and promote its first key. -/
def splitLeaf (db : DB) (node : Node) : Option (DB × Bytes × Nat) := do
  let (db,rightSibling) ← db.newNode true
  let nLeft := db.degree/2
  let nRight := db.degree-nLeft
  let (node,rightSibling,mem) ← Node.moveEntries (node.nkeys-nRight) nRight node rightSibling db.mem
  let (node,mem) ← (node.setNKeys nLeft).compactMem mem
  let rightSibling := rightSibling.setNKeys nRight
  let promotedKey ← rightSibling.getKey mem 0
  return ((db.save node mem).save rightSibling mem,promotedKey,rightSibling.blockId)

/-- The promoted key and the new sibling, if the leaf was split, or an error. -/
def insertKVInLeaf (db : DB) (node : Node) (key val : Bytes) : Option (DB × Except Err (Option (Bytes × Nat))) := do
  let i ← node.seek db.mem (fun k => k = key || key < k) 0 node.nkeys
  if i < node.nkeys ∧ node.getKey db.mem i = some key then
    let (node,mem,enough) ← node.updateVal db.mem i val
    return (db.save node mem,if enough then .ok none else .error .notEnoughMemory)
  let (node,mem) ← node.insertNew db.mem i key val
  let db := db.save node mem
  if node.nkeys = db.degree then
    let (db,promotedKey,newSibling) ← db.splitLeaf node
    return (db,.ok (some (promotedKey,newSibling)))
  return (db,.ok none)

/-- Move the upper keys and children to a new node and promote the key between the halves. -/
def splitInternal (db : DB) (node : Node) : Option (DB × Bytes × Nat) := do
  let (db,rightSibling) ← db.newNode false
  let nLeft := db.degree/2
  let nRight := db.degree-nLeft-1
  let l := node.nkeys-nRight
  let (node,rightSibling,mem) ← Node.moveChildren l nRight node rightSibling db.mem
  let blockId ← node.getChildBlockId l
  let rightSibling ← rightSibling.setChildBlockId 0 blockId
  let node ← node.setChildBlockId l 0
  let pKey ← node.getKey mem (l-1)
  let node ← node.clearKey mem (l-1)
  let (node,mem) ← (node.setNKeys nLeft).compactMem mem
  let rightSibling := rightSibling.setNKeys nRight
  return ((db.save node mem).save rightSibling mem,pKey,rightSibling.blockId)

/-- The promoted key and the new sibling, if the node was split, or an error. -/
def insert : Nat → DB → Nat → Bytes → Bytes → Option (DB × Except Err (Option (Bytes × Nat)))
  | 0,_,_,_,_ => none
  | fuel+1,db,blockId,key,val => do
    let node ← db.loadNode blockId
    if node.isLeaf then
      db.insertKVInLeaf node key val
    else
      let i ← node.seek db.mem (fun k => key < k) 0 node.nkeys
      let childBlockId ← node.getChildBlockId i
      match ← insert fuel db childBlockId key val with
      | (db,.error err) => return (db,.error err)
      | (db,.ok none) => return (db,.ok none)
      | (db,.ok (some (childPromotedKey,newChild))) =>
        let node ← db.loadNode blockId
        let (node,mem) ← node.insertChild db.mem i childPromotedKey newChild
        let db := db.save node mem
        if node.nkeys = db.degree then
          let (db,pKey,rightSibling) ← db.splitInternal node
          return (db,.ok (some (pKey,rightSibling)))
        return (db,.ok none)

def stealFromRight (db : DB) (node right : Node) (parentKey : Bytes) : Option (DB × Bytes) :=
  if right.isLeaf then do
    let (right,key,val) ← right.removeMinKeyVal db.mem
    let (node,mem) ← node.appendMaxKeyVal db.mem key val
    let midKey ← right.getKey mem 0
    return ((db.save right mem).save node mem,midKey)
  else do
    let (right,key,ptr) ← right.removeMinKeyAndBlockId db.mem
    let (node,mem) ← node.appendMaxKeyAndBlockId db.mem parentKey ptr
    return ((db.save right mem).save node mem,key)

def stealFromLeft (db : DB) (node left : Node) (parentKey : Bytes) : Option (DB × Bytes) :=
  if left.isLeaf then do
    let (left,key,val) ← left.removeMaxKeyVal db.mem
    let (db,_) ← (db.save left db.mem).insertKVInLeaf node key val
    return (db,key)
  else do
    let (left,key,ptr) ← left.removeMaxKeyAndBlockId db.mem
    let (node,mem) ← node.appendMinKeyAndBlockId db.mem parentKey ptr
    return ((db.save left mem).save node mem,key)

def mergeWithRight (db : DB) (node right : Node) (parentKey : Bytes) : Option DB :=
  if node.isLeaf then do
    let (node,mem) ← node.mergeWithRightLeaf db.mem right
    return db.save node mem
  else do
    let (node,mem) ← node.mergeInternal db.mem right parentKey
    return db.save node mem

/-- The child at `i`. -/
def child (db : DB) (node : Node) (i : Nat) : Option Node := do
  let blockId ← node.getChildBlockId i
  db.loadNode blockId

/-- `i+1 <= nKeys && rightNode.nKeys() > minKeys`. -/
def spareRight (db : DB) (node : Node) (i minKeys : Nat) : Option Bool :=
  if i+1 ≤ node.nkeys then (db.child node (i+1)).map (fun c => decide (minKeys < c.nkeys)) else some false

/-- `i-1 >= 0 && leftNode.nKeys() > minKeys`. The source loads the left sibling also
for `i = 0`, but reads it only behind the first condition. -/
def spareLeft (db : DB) (node : Node) (i minKeys : Nat) : Option Bool :=
  if 0 < i then (db.child node (i-1)).map (fun c => decide (minKeys < c.nkeys)) else some false

/-- The child at `i` steals from the one at `i+1`. -/
def stealRight (db : DB) (node : Node) (i : Nat) : Option DB := do
  let childNode ← db.child node i
  let rightNode ← db.child node (i+1)
  let parentKey ← node.getKey db.mem i
  let (db,midKey) ← db.stealFromRight childNode rightNode parentKey
  let (node,mem) ← node.updateKey db.mem i midKey
  return db.save node mem

/-- The child at `i+1` steals from the one at `i`. -/
def stealLeft (db : DB) (node : Node) (i : Nat) : Option DB := do
  let childNode ← db.child node (i+1)
  let leftNode ← db.child node i
  let parentKey ← node.getKey db.mem i
  let (db,midKey) ← db.stealFromLeft childNode leftNode parentKey
  let (node,mem) ← node.updateKey db.mem i midKey
  return db.save node mem

/-- The child at `i` takes over the one at `i+1`, whose key and block id go. -/
def mergeChildren (db : DB) (node : Node) (i : Nat) : Option DB := do
  let left ← db.child node i
  let right ← db.child node (i+1)
  let parentKey ← node.getKey db.mem i
  let db ← db.mergeWithRight left right parentKey
  let (node,_,_) ← node.delKeyandBlockIdByIndex db.mem i (i+1)
  return db.save node db.mem

/-- What `delete` does when the child at `i` has too few keys. -/
def rebalance (db : DB) (node : Node) (i minKeys : Nat) : Option DB := do
  if ← db.spareRight node i minKeys then
    db.stealRight node i
  else if ← db.spareLeft node i minKeys then
    db.stealLeft node (i-1)
  else if i+1 ≤ node.nkeys then
    db.mergeChildren node i
  else if 0 < i then
    db.mergeChildren node (i-1)
  else
    return db

def delete : Nat → DB → Nat → Bytes → Option DB
  | 0,_,_,_ => none
  | fuel+1,db,blockId,key => do
    let node ← db.loadNode blockId
    if node.isLeaf then
      let node ← node.deleteInLeaf db.mem key
      return db.save node db.mem
    else
      let i ← node.seek db.mem (fun k => key < k) 0 node.nkeys
      let childBlockId ← node.getChildBlockId i
      let db ← delete fuel db childBlockId key
      let childNode ← db.loadNode childBlockId
      let minKeys := db.degree/2
      if childNode.nkeys < minKeys then
        let node ← db.loadNode blockId
        db.rebalance node i minKeys
      else
        return db

/-- `CreateDB`: the meta block and an empty root. -/
def createDB (degree : Nat) : Option DB := do
  let mmap := (File.zeros dbSize).write 0 blockMagic
  let (db,_) ← newNode ⟨degree,1,1,fun _ => none,⟨mmap,[]⟩⟩ true
  return db

/-- `DB.Find`. The depth of the tree is below the number of blocks. -/
def Find (db : DB) (key : Bytes) : Option (Except Err Bytes) := db.find db.nusedBlocks db.rootBlockId key

/-- `DB.Insert`, with `nil` or an error. -/
def Insert (db : DB) (key val : Bytes) : Option (DB × Option Err) := do
  let rootBlockId := db.rootBlockId
  match ← db.insert db.nusedBlocks rootBlockId key val with
  | (db,.error err) => return (db,some err)
  | (db,.ok none) => return (db,none)
  | (db,.ok (some (promotedKey,rightSibling))) =>
    let (db,newRoot) ← db.newNode false
    let (newRoot,mem) ← newRoot.insertKeyInPos db.mem 0 promotedKey
    let newRoot := newRoot.setNKeys 1
    let newRoot ← newRoot.setChildBlockId 0 rootBlockId
    let newRoot ← newRoot.setChildBlockId 1 rightSibling
    return ({ db.save newRoot mem with rootBlockId := newRoot.blockId },none)

/-- `DB.Delete`. A root that is left without keys gives way to its only child. -/
def Delete (db : DB) (key : Bytes) : Option DB := do
  let db ← db.delete db.nusedBlocks db.rootBlockId key
  let rootNode ← db.loadNode db.rootBlockId
  if !rootNode.isLeaf && rootNode.nkeys = 0 then
    let blockId ← rootNode.getChildBlockId 0
    return { db with rootBlockId := blockId }
  return db

end DB

inductive Op where
  | insert (key val : Bytes)
  | delete (key : Bytes)
  deriving DecidableEq

def next (db : DB) : Op → Option DB
  | .insert key val => (db.Insert key val).map Prod.fst
  | .delete key => db.Delete key

end CodeExercise.BTreeMmap
