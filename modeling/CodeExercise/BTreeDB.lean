import CodeExercise.BTreeMmapSlots
import CodeExercise.Words

/-!
The B+tree in a mapped file without flatbuffers. The table of a node is in the bytes of its block: a
flag, the number of keys, the offset of the unused memory, the offsets of the keys, and behind them
the offsets of the values or the block ids of the children. New data goes to the unused memory;
nothing checks whether it ends within the block. `none` is a panic. A history that nothing in the
program reads records the writes and the blocks handed out.
-/
namespace CodeExercise.BTreeDB
open Files Words
open BTreeMmap (Bytes blockSize blockMagic dbSize uint16 copyAt putByteSlice getByteSlice)

inductive Err where
  /-- "not found". -/
  | notFound
  deriving DecidableEq

/-- `putUint16`, `putUint32` and `putUint64`, for the number of bytes. -/
def putUint (w : Nat) (f : File) (off v : Nat) : Option File :=
  if off+w ≤ f.size then some (f.write off (toBE w v)) else none

def putUint16 := putUint 2
def putUint32 := putUint 4
def putUint64 := putUint 8

/-- `getUint16`, `getUint32` and `getUint64`. -/
def getUint (w : Nat) (f : File) (off : Nat) : Option Nat := if off+w ≤ f.size then some (word w f off) else none

def getUint16 := getUint 2
def getUint32 := getUint 4
def getUint64 := getUint 8

/-- `mmap[off] = b`. -/
def putByte (f : File) (off : Nat) (b : UInt8) : Option File := if off < f.size then some (f.write off [b]) else none
def getByte (f : File) (off : Nat) : Option UInt8 := if off < f.size then some (f.byte off) else none

inductive Event where
  /-- `len` bytes at `addr` were written for a node in the block. -/
  | wrote (blockId addr len : Nat)
  | handedOut (blockId : Nat)
  deriving DecidableEq

/-- The mapped file with the history. -/
structure Mem where
  mmap : File
  history : List Event

structure Node where
  blockId : Nat
  degree : Nat
  isLeaf : Bool
  nKeys : Nat
  unusedOffset : Nat
  deriving DecidableEq

namespace Node

def getKeyPtrOffset (node : Node) (i : Nat) : Nat := node.blockId*blockSize+blockMagic.length+1+1+2+2+2*i

def getValPtrOffset (node : Node) (i : Nat) : Nat :=
  node.blockId*blockSize+blockMagic.length+1+1+2+2+2*node.degree+2*i

def getChildBlockIdOffset (node : Node) (i : Nat) : Nat :=
  node.blockId*blockSize+blockMagic.length+1+1+2+2+2*node.degree+4*i

def getKeyPtr (node : Node) (f : File) (i : Nat) : Option Nat := do
  let p ← getUint16 f (node.getKeyPtrOffset i)
  return p+node.blockId*blockSize

/-- The offset is stored relative to the block. -/
def setKeyPtr (node : Node) (f : File) (i val : Nat) : Option File :=
  putUint16 f (node.getKeyPtrOffset i) (uint16 (val-node.blockId*blockSize))

def clearKeyPtr (node : Node) (f : File) (i : Nat) : Option File := putUint16 f (node.getKeyPtrOffset i) 0

def getValPtr (node : Node) (f : File) (i : Nat) : Option Nat := do
  let p ← getUint16 f (node.getValPtrOffset i)
  return p+node.blockId*blockSize

def setValPtr (node : Node) (f : File) (i val : Nat) : Option File :=
  putUint16 f (node.getValPtrOffset i) (uint16 (val-node.blockId*blockSize))

def clearValPtr (node : Node) (f : File) (i : Nat) : Option File := putUint16 f (node.getValPtrOffset i) 0

def getKey (node : Node) (f : File) (i : Nat) : Option Bytes := do
  let keyOffset ← node.getKeyPtr f i
  getByteSlice f keyOffset

def getVal (node : Node) (f : File) (i : Nat) : Option Bytes := do
  let valOffset ← node.getValPtr f i
  getByteSlice f valOffset

def getChildBlockId (node : Node) (f : File) (i : Nat) : Option Nat := getUint32 f (node.getChildBlockIdOffset i)

def setChildBlockId (node : Node) (f : File) (i blockId : Nat) : Option File :=
  putUint32 f (node.getChildBlockIdOffset i) blockId

/-- Where the block keeps `unusedOffset`. -/
def unuseOffsetAddr (node : Node) : Nat := node.blockId*blockSize+blockMagic.length+1+1+2

/-- `setNKeys`, with the number of keys of the node itself. -/
def setNKeys (node : Node) (f : File) : Option File :=
  putUint16 f (node.blockId*blockSize+blockMagic.length+1+1) (uint16 node.nKeys)

def needSplit (node : Node) : Bool := node.nKeys = node.degree

def insertKeyInPos (node : Node) (mem : Mem) (i : Nat) (key : Bytes) : Option (Node × Mem) := do
  let newKeyOffset := node.unusedOffset+node.blockId*blockSize
  let (mmap,size) ← putByteSlice mem.mmap newKeyOffset key
  let mmap ← node.setKeyPtr mmap i newKeyOffset
  let unusedOffset := uint16 (node.unusedOffset+uint16 size)
  let mmap ← putUint16 mmap node.unuseOffsetAddr unusedOffset
  return ({ node with unusedOffset },
    { mmap, history := mem.history++[.wrote node.blockId newKeyOffset size,.wrote node.blockId (node.getKeyPtrOffset i) 2,
        .wrote node.blockId node.unuseOffsetAddr 2] })

def insertValInPos (node : Node) (mem : Mem) (i : Nat) (val : Bytes) : Option (Node × Mem) := do
  let newValOffset := node.unusedOffset+node.blockId*blockSize
  let (mmap,size) ← putByteSlice mem.mmap newValOffset val
  let mmap ← node.setValPtr mmap i newValOffset
  let unusedOffset := uint16 (node.unusedOffset+uint16 size)
  let mmap ← putUint16 mmap node.unuseOffsetAddr unusedOffset
  return ({ node with unusedOffset },
    { mmap, history := mem.history++[.wrote node.blockId newValOffset size,.wrote node.blockId (node.getValPtrOffset i) 2,
        .wrote node.blockId node.unuseOffsetAddr 2] })

def insertKvInPos (node : Node) (mem : Mem) (i : Nat) (key val : Bytes) : Option (Node × Mem) := do
  let (node,mem) ← node.insertKeyInPos mem i key
  node.insertValInPos mem i val

/-- The first of the slots from `i` on whose key has the property. -/
def seek (node : Node) (f : File) (p : Bytes → Bool) : Nat → Nat → Option Nat
  | i,0 => some i
  | i,k+1 => do
    let key ← node.getKey f i
    if p key then some i else node.seek f p (i+1) k

def findByKey (node : Node) (f : File) (key : Bytes) : Option (Except Err Bytes) := do
  let i ← node.seek f (fun k => k = key || key < k) 0 node.nKeys
  if i < node.nKeys ∧ node.getKey f i = some key then
    let val ← node.getVal f i
    return .ok val
  else
    return .error .notFound

/-- `for l := nKeys-1; l >= i; l--` in `insertKVInLeaf`, with `k` slots left. -/
def shiftKvs (node : Node) (i : Nat) : Nat → File → Option File
  | 0,f => some f
  | k+1,f => do
    let p ← node.getKeyPtr f (i+k)
    let f ← node.setKeyPtr f (i+k+1) p
    let p ← node.getValPtr f (i+k)
    let f ← node.setValPtr f (i+k+1) p
    node.shiftKvs i k f

/-- The same loop in `insert`. -/
def shiftChildren (node : Node) (i : Nat) : Nat → File → Option File
  | 0,f => some f
  | k+1,f => do
    let p ← node.getKeyPtr f (i+k)
    let f ← node.setKeyPtr f (i+k+1) p
    let c ← node.getChildBlockId f (i+k+1)
    let f ← node.setChildBlockId f (i+k+2) c
    node.shiftChildren i k f

/-- `for r := nRight-1; r >= 0; r--` in `insertKVInLeaf`; `l` is `r` above `b`. -/
def moveKvs (node : Node) (b : Nat) : Nat → Node → Mem → Option (Node × Mem)
  | 0,rightSibling,mem => some (rightSibling,mem)
  | r+1,rightSibling,mem => do
    let k ← node.getKey mem.mmap (b+r)
    let v ← node.getVal mem.mmap (b+r)
    let (rightSibling,mem) ← rightSibling.insertKvInPos mem r k v
    let f ← node.clearKeyPtr mem.mmap (b+r)
    let f ← node.clearValPtr f (b+r)
    node.moveKvs b r rightSibling { mem with mmap := f }

/-- The same loop in `insert`. -/
def moveChildren (node : Node) (b : Nat) : Nat → Node → Mem → Option (Node × Mem)
  | 0,rightSibling,mem => some (rightSibling,mem)
  | r+1,rightSibling,mem => do
    let k ← node.getKey mem.mmap (b+r)
    let (rightSibling,mem) ← rightSibling.insertKeyInPos mem r k
    let c ← node.getChildBlockId mem.mmap (b+r+1)
    let f ← rightSibling.setChildBlockId mem.mmap (r+1) c
    let f ← node.clearKeyPtr f (b+r)
    let f ← node.setChildBlockId f (b+r+1) 0
    node.moveChildren b r rightSibling { mem with mmap := f }

end Node

/-- `maxKeySize` is left out: nothing reads it. -/
structure DB where
  file : String
  degree : Nat
  rootBlockId : Nat
  nKeysInDB : Nat
  nUsedBlock : Nat
  mem : Mem

namespace DB

def newBlock (db : DB) : Option (DB × Nat × Nat) := do
  let blockId := db.nUsedBlock
  let start := blockId*blockSize
  let mmap ← copyAt db.mem.mmap start blockMagic
  return ({ db with nUsedBlock := blockId+1, mem := { mmap, history := db.mem.history++[.handedOut blockId] } },
    blockId,start+blockMagic.length)

/-- `newNodeBlock`. The flag of a leaf is set, but that of an internal node is not cleared. -/
def newNodeBlock (db : DB) (isLeaf : Bool) : Option (DB × Node) := do
  let (db,blockId,start) ← db.newBlock
  let f ← if isLeaf then putByte db.mem.mmap start 1 else some db.mem.mmap
  let start := start+1+1
  let f ← putUint16 f start 0
  let start := start+2
  let unusedMemOffset := if isLeaf then start+2+4*db.degree else start+2+2*db.degree+4*(db.degree+1)
  let unusedMemOffset := unusedMemOffset-blockId*blockSize
  let f ← putUint16 f start (uint16 unusedMemOffset)
  return ({ db with mem := { db.mem with mmap := f } },
    { blockId, degree := db.degree, isLeaf, nKeys := 0, unusedOffset := uint16 unusedMemOffset })

def loadNode (db : DB) (blockId : Nat) : Option Node := do
  let start := blockId*blockSize+blockMagic.length
  let flag ← getByte db.mem.mmap start
  let start := start+1+1
  let nKeys ← getUint16 db.mem.mmap start
  let start := start+2
  let unusedOffset ← getUint16 db.mem.mmap start
  return { blockId, degree := db.degree, isLeaf := flag = 1, nKeys, unusedOffset }

def setMmap (db : DB) (f : File) : DB := { db with mem := { db.mem with mmap := f } }

def find : Nat → DB → Nat → Bytes → Option (Except Err Bytes)
  | 0,_,_,_ => none
  | fuel+1,db,blockId,key => do
    let node ← db.loadNode blockId
    if node.isLeaf then
      node.findByKey db.mem.mmap key
    else
      let i ← node.seek db.mem.mmap (fun k => key < k) 0 node.nKeys
      let childBlockId ← node.getChildBlockId db.mem.mmap i
      find fuel db childBlockId key

/-- The end of `insertKVInLeaf` for a full leaf. -/
def splitLeaf (db : DB) (node : Node) : Option (DB × Bytes × Node) := do
  let deg := node.degree
  let (db,rightSibling) ← db.newNodeBlock true
  let nLeft := deg/2
  let nRight := deg-nLeft
  let (rightSibling,mem) ← node.moveKvs (node.nKeys-nRight) nRight rightSibling db.mem
  let f ← { node with nKeys := nLeft }.setNKeys mem.mmap
  let rightSibling := { rightSibling with nKeys := nRight }
  let f ← rightSibling.setNKeys f
  let pKey ← rightSibling.getKey f 0
  return ({ db with mem := { mem with mmap := f } },pKey,rightSibling)

/-- A key that is there keeps its value. -/
def insertKVInLeaf (db : DB) (node : Node) (key val : Bytes) : Option (DB × Option (Bytes × Node)) := do
  let i ← node.seek db.mem.mmap (fun k => k = key || key < k) 0 node.nKeys
  if i < node.nKeys ∧ node.getKey db.mem.mmap i = some key then
    return (db,none)
  let f ← node.shiftKvs i (node.nKeys-i) db.mem.mmap
  let (node,mem) ← node.insertKvInPos { db.mem with mmap := f } i key val
  let node := { node with nKeys := node.nKeys+1 }
  let f ← node.setNKeys mem.mmap
  let db := { db with mem := { mem with mmap := f } }
  if node.needSplit then
    let (db,promotedKey,rightSibling) ← db.splitLeaf node
    return (db,some (promotedKey,rightSibling))
  return (db,none)

/-- The end of `insert` for a full internal node. -/
def splitInternal (db : DB) (node : Node) : Option (DB × Bytes × Node) := do
  let deg := node.degree
  let (db,rightSibling) ← db.newNodeBlock false
  let nLeft := deg/2
  let nRight := deg-nLeft-1
  let l := node.nKeys-1-nRight
  let (rightSibling,mem) ← node.moveChildren (l+1) nRight rightSibling db.mem
  let c ← node.getChildBlockId mem.mmap (l+1)
  let f ← rightSibling.setChildBlockId mem.mmap 0 c
  let f ← node.setChildBlockId f (l+1) 0
  let pKey ← node.getKey f l
  let f ← node.clearKeyPtr f l
  let f ← { node with nKeys := nLeft }.setNKeys f
  let rightSibling := { rightSibling with nKeys := nRight }
  let f ← rightSibling.setNKeys f
  return ({ db with mem := { mem with mmap := f } },pKey,rightSibling)

/-- The error that `insert` returns is always `nil`. -/
def insert : Nat → DB → Nat → Bytes → Bytes → Option (DB × Option (Bytes × Node))
  | 0,_,_,_,_ => none
  | fuel+1,db,blockId,key,val => do
    let node ← db.loadNode blockId
    if node.isLeaf then
      db.insertKVInLeaf node key val
    else
      let i ← node.seek db.mem.mmap (fun k => key < k) 0 node.nKeys
      let childBlockId ← node.getChildBlockId db.mem.mmap i
      match ← insert fuel db childBlockId key val with
      | (db,none) => return (db,none)
      | (db,some (childPromtedKey,newChild)) =>
        let f ← node.shiftChildren i (node.nKeys-i) db.mem.mmap
        let (node,mem) ← node.insertKeyInPos { db.mem with mmap := f } i childPromtedKey
        let f ← node.setChildBlockId mem.mmap (i+1) newChild.blockId
        let node := { node with nKeys := node.nKeys+1 }
        let f ← node.setNKeys f
        let db := { db with mem := { mem with mmap := f } }
        if node.needSplit then
          let (db,pKey,rightSibling) ← db.splitInternal node
          return (db,some (pKey,rightSibling))
        return (db,none)

/-- The number of blocks in the file. A search that takes more steps has come to a
block for the second time and goes on without end. -/
def maxDepth : Nat := dbSize/blockSize

def Find (db : DB) (key : Bytes) : Option (Except Err Bytes) := db.find maxDepth db.rootBlockId key

def Insert (db : DB) (key val : Bytes) : Option DB := do
  match ← db.insert maxDepth db.rootBlockId key val with
  | (db,none) => return db
  | (db,some (promotedKey,rightSibling)) =>
    let (db,newRoot) ← db.newNodeBlock false
    let (newRoot,mem) ← newRoot.insertKeyInPos db.mem 0 promotedKey
    let newRoot := { newRoot with nKeys := 1 }
    let f ← newRoot.setNKeys mem.mmap
    let f ← newRoot.setChildBlockId f 0 db.rootBlockId
    let f ← newRoot.setChildBlockId f 1 rightSibling.blockId
    let f ← putUint32 f (blockMagic.length+4) newRoot.blockId
    return { db with rootBlockId := newRoot.blockId, mem := { mem with mmap := f } }

def initMetaBlock (db : DB) : Option DB := do
  let (db,_,start) ← db.newBlock
  let (db,_) ← db.newNodeBlock true
  let f ← putUint32 db.mem.mmap start db.degree
  let f ← putUint32 f (start+4) db.rootBlockId
  let f ← putUint64 f (start+4+4) db.nKeysInDB
  let f ← putUint32 f (start+4+4+8) db.nUsedBlock
  return db.setMmap f

def createDB (fileName : String) (degree : Nat) : Option DB :=
  initMetaBlock ⟨fileName,degree,1,0,0,⟨File.zeros dbSize,[]⟩⟩

def readMetaBlockInfo (db : DB) : Option DB := do
  let degree ← getUint32 db.mem.mmap 8
  let rootBlockId ← getUint32 db.mem.mmap (8+4)
  let nKeysInDB ← getUint64 db.mem.mmap (8+4+4)
  let nUsedBlock ← getUint32 db.mem.mmap (8+4+4+8)
  return { db with degree, rootBlockId, nKeysInDB, nUsedBlock }

end DB

/-- `OpenDB` of one of the files, each with the history of what was done to it. It opens "test.db" for every path. -/
def openDB (files : String → Option Mem) (_filePath : String) : Option DB := do
  let mem ← files "test.db"
  DB.readMetaBlockInfo ⟨"test.db",0,0,0,0,mem⟩

/-! ## The tables of the nodes, as they are in the bytes of the file -/
open Slices List Option
open BTreeMmap (Bytes blockSize blockMagic dbSize uint16 putByteSlice getByteSlice serialize size total Area Cell Keeps uint16_of_lt
  putByteSlice_eq getByteSlice_eq size_pos)

/-- Where the data of a block begins. -/
def dataStart (d : Nat) (isLeaf : Bool) : Nat := if isLeaf then 14+4*d else 18+6*d

lemma dataStart_leaf (d : Nat) : dataStart d true = 14+4*d := rfl
lemma dataStart_internal (d : Nat) : dataStart d false = 18+6*d := rfl

lemma keys_end_le (d : Nat) (isLeaf : Bool) : 14+2*d ≤ dataStart d isLeaf := by
  rw [dataStart]
  split <;> omega

structure Table where
  flag : UInt8
  count : Nat
  offset : Nat
  keys : List Nat
  slots : List Nat

/-- The table in the block of a node. -/
def Node.table (node : Node) (f : File) : Table where
  flag := f.byte (node.blockId*blockSize+8)
  count := word 2 f (node.blockId*blockSize+10)
  offset := word 2 f (node.blockId*blockSize+12)
  keys := words 2 node.degree f (node.blockId*blockSize+14)
  slots := if node.isLeaf then words 2 node.degree f (node.blockId*blockSize+14+2*node.degree)
    else words 4 (node.degree+1) f (node.blockId*blockSize+14+2*node.degree)

/-- The block is in the file and its table in the block. -/
structure Node.Placed (node : Node) (f : File) : Prop where
  file : f.size = dbSize
  inside : node.blockId < 5120
  room : dataStart node.degree node.isLeaf ≤ blockSize

/-- Only the table of the block was written to. -/
structure InTable (node : Node) (f g : File) : Prop where
  size : g.size = f.size
  bytes : ∀ a, a < node.blockId*blockSize ∨ node.blockId*blockSize+dataStart node.degree node.isLeaf ≤ a → g.byte a = f.byte a

lemma InTable.refl (node : Node) (f : File) : InTable node f f := ⟨rfl,fun _ _ => rfl⟩

lemma InTable.trans (first : InTable node f g) (second : InTable node g h) : InTable node f h :=
  ⟨second.size.trans first.size,fun a out => (second.bytes a out).trans (first.bytes a out)⟩

lemma InTable.placed (written : InTable node f g) (placed : node.Placed f) : node.Placed g :=
  ⟨written.size.trans placed.file,placed.inside,placed.room⟩

section
variable {node : Node} {f g : File} {i k p r x : Nat} {data : List UInt8} {xs ys : List Nat}

lemma Node.Placed.write (placed : node.Placed f) (inside : r+data.length ≤ dataStart node.degree node.isLeaf) :
    InTable node f (f.write (node.blockId*blockSize+r) data) := by
  have file := placed.file
  have block := placed.inside
  have room := placed.room
  simp only [blockSize,dbSize] at *
  constructor
  · rw [size_write (by omega)]
    omega
  · intro a out
    simp only [blockSize] at out
    exact byte_write_of_not_mem (by omega)

lemma Node.Placed.putUint (placed : node.Placed f) (inside : r+w ≤ blockSize) :
    BTreeDB.putUint w f (node.blockId*blockSize+r) x = some (f.write (node.blockId*blockSize+r) (toBE w x)) := by
  have file := placed.file
  have block := placed.inside
  refine if_pos ?_
  simp only [blockSize,dbSize] at *
  omega

lemma Node.Placed.getUint (placed : node.Placed f) (inside : r+w ≤ blockSize) :
    BTreeDB.getUint w f (node.blockId*blockSize+r) = some (word w f (node.blockId*blockSize+r)) := by
  have file := placed.file
  have block := placed.inside
  refine if_pos ?_
  simp only [blockSize,dbSize] at *
  omega

lemma flag_write (apart : r+data.length ≤ 8 ∨ 9 ≤ r) :
    (node.table (f.write (node.blockId*blockSize+r) data)).flag = (node.table f).flag :=
  byte_write_of_not_mem (by simp only [blockSize]; omega)

lemma count_write (apart : r+data.length ≤ 10 ∨ 12 ≤ r) :
    (node.table (f.write (node.blockId*blockSize+r) data)).count = (node.table f).count :=
  word_write_of_disjoint (by omega)

lemma offset_write (apart : r+data.length ≤ 12 ∨ 14 ≤ r) :
    (node.table (f.write (node.blockId*blockSize+r) data)).offset = (node.table f).offset :=
  word_write_of_disjoint (by omega)

lemma keys_write (apart : r+data.length ≤ 14 ∨ 14+2*node.degree ≤ r) :
    (node.table (f.write (node.blockId*blockSize+r) data)).keys = (node.table f).keys :=
  words_write_of_disjoint (by omega)

lemma slots_write (apart : r+data.length ≤ 14+2*node.degree ∨ dataStart node.degree node.isLeaf ≤ r) :
    (node.table (f.write (node.blockId*blockSize+r) data)).slots = (node.table f).slots := by
  simp only [Node.table,dataStart] at apart ⊢
  split
  · next kind =>
    rw [if_pos kind] at apart
    exact words_write_of_disjoint (by omega)
  · next kind =>
    rw [if_neg kind] at apart
    exact words_write_of_disjoint (by omega)

@[ext] lemma Table.ext {s t : Table} (flag : s.flag = t.flag) (count : s.count = t.count) (offset : s.offset = t.offset)
    (keys : s.keys = t.keys) (slots : s.slots = t.slots) : s = t := by
  cases s
  cases t
  cases flag
  cases count
  cases offset
  cases keys
  cases slots
  rfl

lemma table_write_data (behind : dataStart node.degree node.isLeaf ≤ r) :
    node.table (f.write (node.blockId*blockSize+r) data) = node.table f := by
  have least := keys_end_le node.degree node.isLeaf
  exact Table.ext (flag_write (by omega)) (count_write (by omega)) (offset_write (by omega)) (keys_write (by omega))
    (slots_write (by omega))

lemma table_congr (room : dataStart node.degree node.isLeaf ≤ blockSize)
    (same : ∀ a, node.blockId*blockSize ≤ a → a < (node.blockId+1)*blockSize → g.byte a = f.byte a) :
    node.table g = node.table f := by
  have least := keys_end_le node.degree node.isLeaf
  have bytes : ∀ off n, node.blockId*blockSize ≤ off → off+n ≤ node.blockId*blockSize+blockSize →
      ∀ a, off ≤ a → a < off+n → g.byte a = f.byte a := by
    intro off n low high a above below
    refine same a (low.trans above) ?_
    rw [Nat.succ_mul]
    omega
  refine Table.ext ?_ (word_congr (bytes _ 2 (by omega) (by omega))) (word_congr (bytes _ 2 (by omega) (by omega)))
    (words_congr (bytes _ _ (by omega) (by omega))) ?_
  · exact bytes (node.blockId*blockSize+8) 1 (by omega) (by omega) _ le_rfl (by omega)
  simp only [Node.table]
  rw [dataStart] at room
  split
  · next kind =>
    rw [if_pos kind] at room
    exact words_congr (bytes _ _ (by omega) (by omega))
  · next kind =>
    rw [if_neg kind] at room
    exact words_congr (bytes _ _ (by omega) (by omega))

lemma put_eq_some (done : put xs i x = some ys) : i < xs.length ∧ ys = xs.set i x := by
  rw [put] at done
  split at done
  · next inside => exact ⟨inside,(some.inj done).symm⟩
  · cases done

lemma keyPtrOffset_eq (node : Node) (i : Nat) : node.getKeyPtrOffset i = node.blockId*blockSize+(14+2*i) := by
  simp only [Node.getKeyPtrOffset,blockMagic,length_cons,length_nil]
  omega

lemma valPtrOffset_eq (node : Node) (i : Nat) : node.getValPtrOffset i = node.blockId*blockSize+(14+2*node.degree+2*i) := by
  simp only [Node.getValPtrOffset,blockMagic,length_cons,length_nil]
  omega

lemma childBlockIdOffset_eq (node : Node) (i : Nat) :
    node.getChildBlockIdOffset i = node.blockId*blockSize+(14+2*node.degree+4*i) := by
  simp only [Node.getChildBlockIdOffset,blockMagic,length_cons,length_nil]
  omega

section
variable (placed : node.Placed f)
include placed

lemma Node.Placed.putKey (small : x < 65536) (done : put (node.table f).keys i x = some xs) :
    ∃ g, putUint16 f (node.getKeyPtrOffset i) x = some g ∧ node.table g = { node.table f with keys := xs } ∧ InTable node f g := by
  obtain ⟨inside,rfl⟩ := put_eq_some done
  have below : i < node.degree := by simpa [Node.table] using inside
  have least := keys_end_le node.degree node.isLeaf
  have room := placed.room
  rw [keyPtrOffset_eq]
  refine ⟨_,placed.putUint (by omega),?_,placed.write (by rw [length_toBE]; omega)⟩
  refine Table.ext (flag_write (by omega)) (count_write (by omega)) (offset_write (by omega)) ?_
    (slots_write (by rw [length_toBE]; omega))
  rw [← Nat.add_assoc]
  exact words_write (by omega)

lemma Node.Placed.putVal (kind : node.isLeaf = true) (small : x < 65536)
    (done : put (node.table f).slots i x = some xs) :
    ∃ g, putUint16 f (node.getValPtrOffset i) x = some g ∧ node.table g = { node.table f with slots := xs } ∧ InTable node f g := by
  obtain ⟨inside,rfl⟩ := put_eq_some done
  have below : i < node.degree := by simpa [Node.table,kind] using inside
  have least : dataStart node.degree node.isLeaf = 14+4*node.degree := by rw [kind,dataStart_leaf]
  have room := placed.room
  rw [valPtrOffset_eq]
  refine ⟨_,placed.putUint (by omega),?_,placed.write (by rw [length_toBE]; omega)⟩
  refine Table.ext (flag_write (by omega)) (count_write (by omega)) (offset_write (by omega)) (keys_write (by omega)) ?_
  simp only [Node.table,kind,if_true]
  rw [← Nat.add_assoc,← Nat.add_assoc]
  exact words_write (by omega)

lemma Node.Placed.putChild (kind : node.isLeaf = false) (small : x < 4294967296)
    (done : put (node.table f).slots i x = some xs) :
    ∃ g, node.setChildBlockId f i x = some g ∧ node.table g = { node.table f with slots := xs } ∧ InTable node f g := by
  obtain ⟨inside,rfl⟩ := put_eq_some done
  have below : i < node.degree+1 := by simpa [Node.table,kind] using inside
  have least : dataStart node.degree node.isLeaf = 18+6*node.degree := by rw [kind,dataStart_internal]
  have room := placed.room
  rw [Node.setChildBlockId,childBlockIdOffset_eq]
  refine ⟨_,placed.putUint (by omega),?_,placed.write (by rw [length_toBE]; omega)⟩
  refine Table.ext (flag_write (by omega)) (count_write (by omega)) (offset_write (by omega)) (keys_write (by omega)) ?_
  simp only [Node.table,kind,if_ff]
  rw [← Nat.add_assoc,← Nat.add_assoc]
  exact words_write (by omega)

lemma Node.Placed.setNKeys (small : node.nKeys < 65536) :
    ∃ g, node.setNKeys f = some g ∧ node.table g = { node.table f with count := node.nKeys } ∧ InTable node f g := by
  have least := keys_end_le node.degree node.isLeaf
  have room := placed.room
  have place : node.blockId*blockSize+blockMagic.length+1+1 = node.blockId*blockSize+10 := rfl
  rw [Node.setNKeys,place,uint16_of_lt small]
  refine ⟨_,placed.putUint (by omega),?_,placed.write (by rw [length_toBE]; omega)⟩
  exact Table.ext (flag_write (by omega)) (word_write (by omega)) (offset_write (by simp)) (keys_write (by simp))
    (slots_write (by rw [length_toBE]; omega))

lemma Node.Placed.putOffset (small : x < 65536) :
    ∃ g, putUint16 f node.unuseOffsetAddr x = some g ∧ node.table g = { node.table f with offset := x } ∧ InTable node f g := by
  have least := keys_end_le node.degree node.isLeaf
  have room := placed.room
  have place : node.unuseOffsetAddr = node.blockId*blockSize+12 := rfl
  rw [place]
  refine ⟨_,placed.putUint (by omega),?_,placed.write (by rw [length_toBE]; omega)⟩
  exact Table.ext (flag_write (by omega)) (count_write (by simp)) (word_write (by omega)) (keys_write (by simp))
    (slots_write (by rw [length_toBE]; omega))

end

section
variable (placed : node.Placed f)
include placed

lemma Node.Placed.getKeyPtr (read : (node.table f).keys[i]? = some p) :
    node.getKeyPtr f i = some (p+node.blockId*blockSize) ∧ p < 65536 := by
  obtain ⟨inside,rfl⟩ := eq_word_of_getElem? read
  have least := keys_end_le node.degree node.isLeaf
  have room := placed.room
  have got := placed.getUint (show 14+2*i+2 ≤ blockSize by omega)
  simp only [← Nat.add_assoc] at got
  refine ⟨?_,word_lt 2 f _⟩
  simp only [Node.getKeyPtr,getUint16,keyPtrOffset_eq,← Nat.add_assoc,got,some_bind]
  rfl

lemma Node.Placed.getValPtr (kind : node.isLeaf = true) (read : (node.table f).slots[i]? = some p) :
    node.getValPtr f i = some (p+node.blockId*blockSize) ∧ p < 65536 := by
  simp only [Node.table,kind,if_true] at read
  obtain ⟨inside,rfl⟩ := eq_word_of_getElem? read
  have room := placed.room
  rw [kind,dataStart_leaf] at room
  have got := placed.getUint (show 14+2*node.degree+2*i+2 ≤ blockSize by omega)
  simp only [← Nat.add_assoc] at got
  refine ⟨?_,word_lt 2 f _⟩
  simp only [Node.getValPtr,getUint16,valPtrOffset_eq,← Nat.add_assoc,got,some_bind]
  rfl

lemma Node.Placed.getChildBlockId (kind : node.isLeaf = false) (read : (node.table f).slots[i]? = some p) :
    node.getChildBlockId f i = some p ∧ p < 4294967296 := by
  simp only [Node.table,kind,if_ff] at read
  obtain ⟨inside,rfl⟩ := eq_word_of_getElem? read
  have room := placed.room
  rw [kind,dataStart_internal] at room
  have got := placed.getUint (show 14+2*node.degree+4*i+4 ≤ blockSize by omega)
  simp only [← Nat.add_assoc] at got
  refine ⟨?_,word_lt 4 f _⟩
  simp only [Node.getChildBlockId,getUint32,childBlockIdOffset_eq,← Nat.add_assoc,got]

lemma Node.Placed.setKeyPtr (small : p < 65536) (done : put (node.table f).keys i p = some xs) :
    ∃ g, node.setKeyPtr f i (p+node.blockId*blockSize) = some g ∧ node.table g = { node.table f with keys := xs } ∧
      InTable node f g := by
  rw [Node.setKeyPtr,Nat.add_sub_cancel,uint16_of_lt small]
  exact placed.putKey small done

lemma Node.Placed.setValPtr (kind : node.isLeaf = true) (small : p < 65536)
    (done : put (node.table f).slots i p = some xs) :
    ∃ g, node.setValPtr f i (p+node.blockId*blockSize) = some g ∧ node.table g = { node.table f with slots := xs } ∧
      InTable node f g := by
  rw [Node.setValPtr,Nat.add_sub_cancel,uint16_of_lt small]
  exact placed.putVal kind small done

end

lemma shiftUp_succ {a b : List Nat} (moved : shiftUp i (k+1) a = some b) :
    ∃ y c, a[i+k]? = some y ∧ put a (i+k+1) y = some c ∧ shiftUp i k c = some b := by
  obtain ⟨y,read,rest⟩ := bind_eq_some_iff.mp moved
  obtain ⟨c,done,rest⟩ := bind_eq_some_iff.mp rest
  exact ⟨y,c,read,done,rest⟩

lemma Node.Placed.shiftKvs (placed : node.Placed f) (kind : node.isLeaf = true) (keys : shiftUp i k (node.table f).keys = some xs)
    (slots : shiftUp i k (node.table f).slots = some ys) :
    ∃ g, node.shiftKvs i k f = some g ∧ node.table g = { node.table f with keys := xs, slots := ys } ∧ InTable node f g := by
  induction k generalizing f with
  | zero =>
    cases keys
    cases slots
    exact ⟨f,rfl,rfl,.refl node f⟩
  | succ k ih =>
    obtain ⟨p,ps,readKey,putKey,restKeys⟩ := shiftUp_succ keys
    obtain ⟨q,qs,readVal,putVal,restVals⟩ := shiftUp_succ slots
    obtain ⟨gotKey,smallKey⟩ := placed.getKeyPtr readKey
    obtain ⟨f1,setKey,table1,only1⟩ := placed.setKeyPtr smallKey putKey
    have placed1 := only1.placed placed
    have slots1 : (node.table f1).slots = (node.table f).slots := by rw [table1]
    obtain ⟨gotVal,smallVal⟩ := placed1.getValPtr kind (slots1 ▸ readVal)
    obtain ⟨f2,setVal,table2,only2⟩ := placed1.setValPtr kind smallVal (slots1 ▸ putVal)
    rw [table1] at table2
    obtain ⟨g,moved,table3,only3⟩ := ih (only2.placed placed1) (by rw [table2]; exact restKeys) (by rw [table2]; exact restVals)
    refine ⟨g,?_,by rw [table3,table2],(only1.trans only2).trans only3⟩
    simp only [Node.shiftKvs,gotKey,setKey,gotVal,setVal,some_bind]
    exact moved

lemma Node.Placed.shiftChildren (placed : node.Placed f) (kind : node.isLeaf = false)
    (keys : shiftUp i k (node.table f).keys = some xs) (slots : shiftUp (i+1) k (node.table f).slots = some ys) :
    ∃ g, node.shiftChildren i k f = some g ∧ node.table g = { node.table f with keys := xs, slots := ys } ∧ InTable node f g := by
  induction k generalizing f with
  | zero =>
    cases keys
    cases slots
    exact ⟨f,rfl,rfl,.refl node f⟩
  | succ k ih =>
    obtain ⟨p,ps,readKey,putKey,restKeys⟩ := shiftUp_succ keys
    obtain ⟨q,qs,readVal,putVal,restVals⟩ := shiftUp_succ slots
    rw [show i+1+k = i+k+1 by omega] at readVal putVal
    obtain ⟨gotKey,smallKey⟩ := placed.getKeyPtr readKey
    obtain ⟨f1,setKey,table1,only1⟩ := placed.setKeyPtr smallKey putKey
    have placed1 := only1.placed placed
    have slots1 : (node.table f1).slots = (node.table f).slots := by rw [table1]
    obtain ⟨gotVal,smallVal⟩ := placed1.getChildBlockId kind (slots1 ▸ readVal)
    obtain ⟨f2,setVal,table2,only2⟩ := placed1.putChild kind smallVal (slots1 ▸ putVal)
    rw [table1] at table2
    obtain ⟨g,moved,table3,only3⟩ := ih (only2.placed placed1) (by rw [table2]; exact restKeys) (by rw [table2]; exact restVals)
    refine ⟨g,?_,by rw [table3,table2],(only1.trans only2).trans only3⟩
    simp only [Node.shiftChildren,gotKey,setKey,gotVal,setVal,some_bind]
    exact moved

end

/-- A write for a node is within its block. -/
def Event.Inside : Event → Prop
  | .wrote blockId addr len => blockId*blockSize ≤ addr ∧ addr+len ≤ (blockId+1)*blockSize
  | .handedOut _ => True

instance : DecidablePred Event.Inside
  | .wrote _ _ _ => decideAs (_ ∧ _)
  | .handedOut _ => isTrue trivial

def Mem.Inside (mem : Mem) : Prop := ∀ e ∈ mem.history, e.Inside
deriving Decidable

def Event.handed : Event → Option Nat
  | .wrote _ _ _ => none
  | .handedOut blockId => some blockId

/-- The blocks that `newBlock` has handed out, in their order. -/
def Mem.handed (mem : Mem) : List Nat := mem.history.filterMap Event.handed

/-- Only the block `b` was written to. -/
structure Local (b : Nat) (mem mem' : Mem) : Prop where
  size : mem'.mmap.size = mem.mmap.size
  outside : ∀ a, a < b*blockSize ∨ (b+1)*blockSize ≤ a → mem'.mmap.byte a = mem.mmap.byte a
  inside : mem.Inside → mem'.Inside
  handed : mem'.handed = mem.handed

lemma Local.trans (first : Local b mem mem') (second : Local b mem' mem'') :
    Local b mem mem'' :=
  ⟨second.size.trans first.size,fun a out => (second.outside a out).trans (first.outside a out),
    second.inside ∘ first.inside,second.handed.trans first.handed⟩

lemma InTable.only (mem : Mem) (written : InTable node mem.mmap g) (placed : node.Placed mem.mmap) :
    Local node.blockId mem { mem with mmap := g } := by
  refine ⟨written.size,fun a out => written.bytes a ?_,id,rfl⟩
  have room := placed.room
  simp only [blockSize] at *
  omega

/-- Where the data of a node is. -/
def Node.area (node : Node) : Area :=
  ⟨fun p => p+node.blockId*blockSize,dataStart node.degree node.isLeaf,node.unusedOffset⟩

lemma InTable.keeps (written : InTable node f g) : Keeps f g node.area node.area := by
  rintro p x ⟨low,high,stored⟩
  refine ⟨low,high,(slice_congr (fun a above below => ?_)).trans stored⟩
  refine written.bytes a (.inr ?_)
  simp only [Node.area] at low above
  omega

section
variable {node : Node} {f : File} {mem : Mem} {i : Nat} {s key val : Bytes} {xs : List Nat}

/-- The unused memory behind the table takes `n` more bytes. -/
structure Node.Room (n : Nat) (node : Node) (f : File) : Prop extends node.Placed f where
  low : dataStart node.degree node.isLeaf ≤ node.unusedOffset
  free : node.unusedOffset+n ≤ blockSize

/-- The node after `n` more bytes of data. -/
def Node.raise (node : Node) (n : Nat) : Node := { node with unusedOffset := node.unusedOffset+n }

lemma Node.Room.append (setPtr : File → Option File) (room : node.Room (size s) f)
    (slot : ∀ g, node.Placed g → node.table g = node.table f → ∃ h, setPtr g = some h ∧ node.table h = T ∧ InTable node g h) :
    ∃ f1 f2 g, putByteSlice f (node.unusedOffset+node.blockId*blockSize) s = some (f1,size s) ∧ setPtr f1 = some f2 ∧
      putUint16 f2 node.unuseOffsetAddr (uint16 (node.unusedOffset+uint16 (size s))) = some g ∧
      node.table g = { T with offset := node.unusedOffset+size s } ∧ Cell g (node.raise (size s)).area node.unusedOffset s ∧
      Keeps f g node.area (node.raise (size s)).area ∧ g.size = f.size ∧
      ∀ a, a < node.blockId*blockSize ∨ (node.blockId+1)*blockSize ≤ a → g.byte a = f.byte a := by
  have file := room.file
  have block := room.inside
  have low := room.low
  have free := room.free
  have small : node.unusedOffset+size s < 65536 := by
    simp only [blockSize] at free
    omega
  have fits : node.unusedOffset+node.blockId*blockSize+size s ≤ f.size := by
    simp only [blockSize,dbSize] at *
    omega
  have length : (serialize s).length = size s := rfl
  have written := putByteSlice_eq fits
  have swap : node.unusedOffset+node.blockId*blockSize = node.blockId*blockSize+node.unusedOffset := Nat.add_comm _ _
  have size1 : (f.write (node.unusedOffset+node.blockId*blockSize) (serialize s)).size = f.size := by
    rw [size_write (by omega)]
    omega
  have table1 : node.table (f.write (node.unusedOffset+node.blockId*blockSize) (serialize s)) = node.table f := by
    rw [swap]
    exact table_write_data low
  have placed1 : node.Placed (f.write (node.unusedOffset+node.blockId*blockSize) (serialize s)) := ⟨size1.trans file,block,room.room⟩
  obtain ⟨f2,set,table2,only2⟩ := slot _ placed1 table1
  obtain ⟨g,put,table3,only3⟩ := (only2.placed placed1).putOffset small
  have only := only2.trans only3
  rw [table2] at table3
  refine ⟨_,f2,g,written,set,?_,table3,⟨low,le_rfl,?_⟩,?_,only.size.trans size1,fun a out => ?_⟩
  · rwa [uint16_of_lt (show size s < 65536 by omega),uint16_of_lt small]
  · refine (slice_congr (fun a above below => ?_)).trans (slice_write_self f (node.unusedOffset+node.blockId*blockSize) (serialize s))
    refine only.bytes a (.inr ?_)
    simp only [Node.raise,Node.area] at above
    omega
  · rintro p x ⟨above,below,stored⟩
    simp only [Node.area] at above below stored
    refine ⟨above,by simp only [Node.raise,Node.area]; omega,(slice_congr (fun a left right => ?_)).trans stored⟩
    simp only [Node.raise,Node.area] at left right
    rw [only.bytes a (.inr (by omega))]
    exact byte_write_of_not_mem (by omega)
  · have bound := room.room
    simp only [blockSize] at *
    rw [only.bytes a (by simp only [blockSize]; omega)]
    exact byte_write_of_not_mem (by rw [length]; omega)

/-- What appending data to a node leaves. -/
structure Appended (s : Bytes) (node : Node) (mem mem' : Mem) : Prop where
  cell : Cell mem'.mmap (node.raise (size s)).area node.unusedOffset s
  keeps : Keeps mem.mmap mem'.mmap node.area (node.raise (size s)).area
  only : Local node.blockId mem mem'

lemma Node.Room.logged (room : node.Room (size s) mem.mmap) (table : r+2 ≤ dataStart node.degree node.isLeaf)
    (before : mem.Inside) : Mem.Inside ⟨g,mem.history++[.wrote node.blockId (node.unusedOffset+node.blockId*blockSize) (size s),
      .wrote node.blockId (node.blockId*blockSize+r) 2,.wrote node.blockId node.unuseOffsetAddr 2]⟩ := by
  have bound := room.room
  have free := room.free
  have least := keys_end_le node.degree node.isLeaf
  have place : node.unuseOffsetAddr = node.blockId*blockSize+12 := rfl
  simp only [blockSize] at bound free
  intro e member
  simp only [mem_append,mem_cons,not_mem_nil,or_false] at member
  rcases member with old | rfl | rfl | rfl
  · exact before e old
  · exact ⟨by omega,by simp only [blockSize]; omega⟩
  · exact ⟨by omega,by simp only [blockSize]; omega⟩
  · rw [place]
    exact ⟨by omega,by simp only [blockSize]; omega⟩

lemma handed_append (quiet : es.filterMap Event.handed = []) (g : File) :
    Mem.handed ⟨g,mem.history++es⟩ = mem.handed := by
  rw [Mem.handed,filterMap_append,quiet,append_nil]
  rfl

lemma Node.Room.insertKeyInPos (room : node.Room (size key) mem.mmap)
    (done : put (node.table mem.mmap).keys i node.unusedOffset = some xs) :
    ∃ mem', node.insertKeyInPos mem i key = some (node.raise (size key),mem') ∧
      node.table mem'.mmap = { node.table mem.mmap with keys := xs, offset := node.unusedOffset+size key } ∧
      Appended key node mem mem' := by
  have free := room.free
  have below : i < node.degree := by simpa [Node.table] using (put_eq_some done).1
  have least := keys_end_le node.degree node.isLeaf
  simp only [blockSize] at free
  obtain ⟨f1,f2,g,data,slot,offset,table,cell,keeps,size,outside⟩ := room.append (T := { node.table mem.mmap with keys := xs })
    (fun g => node.setKeyPtr g i (node.unusedOffset+node.blockId*blockSize)) (fun g placed same => by
      obtain ⟨h,set,table,only⟩ := placed.setKeyPtr (show node.unusedOffset < 65536 by omega) (by rw [same]; exact done)
      exact ⟨h,set,by rw [table,same],only⟩)
  refine ⟨_,?_,table,cell,keeps,size,outside,fun before => room.logged (r := 14+2*i) (by omega) before,handed_append rfl g⟩
  simp only [Node.insertKeyInPos,data,slot,offset,some_bind,keyPtrOffset_eq]
  rw [uint16_of_lt (show BTreeMmap.size key < 65536 by omega),uint16_of_lt (by omega)]
  rfl

lemma Node.Room.insertValInPos (room : node.Room (size val) mem.mmap) (kind : node.isLeaf = true)
    (done : put (node.table mem.mmap).slots i node.unusedOffset = some xs) :
    ∃ mem', node.insertValInPos mem i val = some (node.raise (size val),mem') ∧
      node.table mem'.mmap = { node.table mem.mmap with slots := xs, offset := node.unusedOffset+size val } ∧
      Appended val node mem mem' := by
  have free := room.free
  have below : i < node.degree := by simpa [Node.table,kind] using (put_eq_some done).1
  have least : dataStart node.degree node.isLeaf = 14+4*node.degree := by rw [kind,dataStart_leaf]
  simp only [blockSize] at free
  obtain ⟨f1,f2,g,data,slot,offset,table,cell,keeps,size,outside⟩ := room.append (T := { node.table mem.mmap with slots := xs })
    (fun g => node.setValPtr g i (node.unusedOffset+node.blockId*blockSize)) (fun g placed same => by
      obtain ⟨h,set,table,only⟩ := placed.setValPtr kind (show node.unusedOffset < 65536 by omega) (by rw [same]; exact done)
      exact ⟨h,set,by rw [table,same],only⟩)
  refine ⟨_,?_,table,cell,keeps,size,outside,fun before => room.logged (r := 14+2*node.degree+2*i) (by omega) before,
    handed_append rfl g⟩
  simp only [Node.insertValInPos,data,slot,offset,some_bind,valPtrOffset_eq]
  rw [uint16_of_lt (show BTreeMmap.size val < 65536 by omega),uint16_of_lt (by omega)]
  rfl

lemma Node.Room.insertKvInPos (room : node.Room (size key+size val) mem.mmap) (kind : node.isLeaf = true)
    (keyed : put (node.table mem.mmap).keys i node.unusedOffset = some xs)
    (valued : put (node.table mem.mmap).slots i (node.unusedOffset+size key) = some ys) :
    ∃ mem' mem'', node.insertKvInPos mem i key val = some (node.raise (size key+size val),mem'') ∧
      node.table mem''.mmap = { node.table mem.mmap with keys := xs, slots := ys, offset := node.unusedOffset+(size key+size val) } ∧
      Appended key node mem mem' ∧ Appended val (node.raise (size key)) mem' mem'' := by
  have free := room.free
  have first : node.Room (size key) mem.mmap := ⟨room.toPlaced,room.low,by omega⟩
  obtain ⟨mem',insertedKey,table1,appended1⟩ := first.insertKeyInPos keyed
  have low := room.low
  have second : (node.raise (size key)).Room (size val) mem'.mmap := by
    refine ⟨⟨appended1.only.size.trans room.file,room.inside,room.room⟩,?_,?_⟩
    · simp only [Node.raise]
      omega
    · simp only [Node.raise]
      omega
  have table1' : (node.raise (size key)).table mem'.mmap = { node.table mem.mmap with keys := xs, offset := node.unusedOffset+size key } :=
    table1
  have valued' : put ((node.raise (size key)).table mem'.mmap).slots i (node.raise (size key)).unusedOffset = some ys := by
    rwa [table1']
  obtain ⟨mem'',insertedVal,table2,appended2⟩ := second.insertValInPos kind valued'
  refine ⟨mem',mem'',?_,?_,appended1,appended2⟩
  · simp only [Node.insertKvInPos,insertedKey,insertedVal,some_bind]
    simp only [Node.raise,Nat.add_assoc]
  · rw [table1'] at table2
    exact table2.trans (by simp only [Node.raise,Nat.add_assoc])

end
end CodeExercise.BTreeDB
