import CodeExercise.Runs
import CodeExercise.Slices
import Mathlib.Order.Lattice

/-!
The in-memory B+tree. A node keeps its keys and values, or its keys and child pointers, in slices
of a length fixed by the degree, with `nkeys` in use. A child pointer holds the child itself, so an
operation returns the nodes it changed. The links between leaves cross the tree; they are kept in a
`Heap` under the ids of the leaves. `none` is a panic: an index out of range, a nil pointer or a
failed type assertion. Where a loop of the source moves two slices at once, they are moved one after
the other.
-/
namespace CodeExercise.BTree
open Slices Function

structure LeafNode (K V : Type) where
  id : Nat
  nkeys : Nat
  keys : List K
  vals : List V
deriving DecidableEq

/-- `P` is what the pointers point to. -/
structure InternalNode (K P : Type) where
  id : Nat
  nkeys : Nat
  keys : List K
  ptrs : List (Option P)

inductive Node (K V : Type) where
  | leaf (node : LeafNode K V)
  | internal (node : InternalNode K (Node K V))

/-- The counter `id`, and the fields `prev` and `next` of the leaves. -/
structure Heap where
  id : Nat
  prev : Nat → Option Nat
  next : Nat → Option Nat

variable {K V P : Type} [LinearOrder K] [Inhabited K] [Inhabited V]

/-- `n-1` as an index. -/
def lastIndex : Nat → Option Nat
  | 0 => none
  | n+1 => some n

/-- A new id, for a leaf without neighbours. -/
def Heap.newLeaf (h : Heap) : Heap :=
  ⟨h.id+1,update h.prev (h.id+1) none,update h.next (h.id+1) none⟩

def newLeafNode (h : Heap) (degree : Nat) : Heap × LeafNode K V :=
  (h.newLeaf,⟨h.newLeaf.id,0,List.replicate degree default,List.replicate degree default⟩)

/-- `right.prev = node; right.next = node.next; node.next.prev = right; node.next = right`. -/
def Heap.linkAfter (h : Heap) (node right : Nat) : Heap :=
  let prev := update h.prev right (some node)
  { h with
    prev := match h.next node with
      | some after => update prev after (some right)
      | none => prev
    next := update (update h.next right (h.next node)) node (some right) }

/-- `left.next = right.next; right.next.prev = left`. -/
def Heap.unlink (h : Heap) (left right : Nat) : Heap :=
  { h with
    prev := match h.next right with
      | some after => update h.prev after (some left)
      | none => h.prev
    next := update h.next left (h.next right) }

namespace LeafNode

def degree (node : LeafNode K V) : Nat := node.keys.length
def needSplit (node : LeafNode K V) : Bool := node.nkeys = node.keys.length
def getLeftMostKey (node : LeafNode K V) : Option K := node.keys[0]?

/-- The index of the first key that is not below the one sought, if there is one. -/
def find (node : LeafNode K V) (key : K) : Option (Option Nat) := do
  let i ← seek (fun x => key ≤ x) node.keys 0 node.nkeys
  if i = node.nkeys then
    return none
  return some i

/-- Move the upper half to a new leaf, link it in and promote its first key. -/
def split (h : Heap) (node : LeafNode K V) : Option (Heap × LeafNode K V × Option (K × LeafNode K V)) := do
  let deg := node.degree
  let (h,rightSibling) := newLeafNode (K := K) (V := V) h deg
  let nLeft := deg/2
  let nRight := deg-nLeft
  let (keys,rightKeys) ← moveTail default (node.nkeys-nRight) nRight node.keys rightSibling.keys
  let (vals,rightVals) ← moveTail default (node.nkeys-nRight) nRight node.vals rightSibling.vals
  let rightSibling := { rightSibling with nkeys := nRight, keys := rightKeys, vals := rightVals }
  let promoted ← rightSibling.getLeftMostKey
  return (h.linkAfter node.id rightSibling.id,{ node with nkeys := nLeft, keys, vals },some (promoted,rightSibling))

/-- The place is the first key that is equal or above; only an equal key is updated in place. -/
def insertKV (h : Heap) (node : LeafNode K V) (key : K) (val : V) :
    Option (Heap × LeafNode K V × Option (K × LeafNode K V)) := do
  let i ← seek (fun x => x = key ∨ key < x) node.keys 0 node.nkeys
  if i < node.nkeys ∧ node.keys[i]? = some key then
    let vals ← put node.vals i val
    return (h,{ node with vals },none)
  let keys ← (shiftUp i (node.nkeys-i) node.keys).bind (fun keys => put keys i key)
  let vals ← (shiftUp i (node.nkeys-i) node.vals).bind (fun vals => put vals i val)
  let node := { node with nkeys := node.nkeys+1, keys, vals }
  if node.needSplit then
    node.split h
  else
    return (h,node,none)

def delKeyValByIndex (node : LeafNode K V) (i : Nat) : Option (LeafNode K V) := do
  let last ← lastIndex node.nkeys
  let keys ← (shiftDown i (node.nkeys-(i+1)) node.keys).bind (fun keys => put keys last default)
  let vals ← (shiftDown i (node.nkeys-(i+1)) node.vals).bind (fun vals => put vals last default)
  return { node with nkeys := last, keys, vals }

def delete (node : LeafNode K V) (key : K) : Option (LeafNode K V) := do
  let i ← seek (fun x => key < x ∨ key = x) node.keys 0 node.nkeys
  if i < node.nkeys ∧ node.keys[i]? = some key then
    node.delKeyValByIndex i
  else
    return node

def removeMinKeyVal (node : LeafNode K V) : Option (LeafNode K V × K × V) := do
  let key ← node.keys[0]?
  let val ← node.vals[0]?
  let node ← node.delKeyValByIndex 0
  return (node,key,val)

def removeMaxKeyVal (node : LeafNode K V) : Option (LeafNode K V × K × V) := do
  let last ← lastIndex node.nkeys
  let key ← node.keys[last]?
  let val ← node.vals[last]?
  let keys ← put node.keys last default
  let vals ← put node.vals last default
  return ({ node with nkeys := last, keys, vals },key,val)

def appendMaxKeyVal (node : LeafNode K V) (key : K) (val : V) : Option (LeafNode K V) := do
  let keys ← put node.keys node.nkeys key
  let vals ← put node.vals node.nkeys val
  return { node with nkeys := node.nkeys+1, keys, vals }

/-- The node, its left sibling and the new separator between them. -/
def stealFromLeft (h : Heap) (node left : LeafNode K V) : Option (Heap × LeafNode K V × LeafNode K V × K) := do
  let (left,key,val) ← left.removeMaxKeyVal
  let (h,node,_) ← node.insertKV h key val
  return (h,node,left,key)

def stealFromRight (node right : LeafNode K V) : Option (LeafNode K V × LeafNode K V × K) := do
  let (right,key,val) ← right.removeMinKeyVal
  let node ← node.appendMaxKeyVal key val
  let midKey ← right.getLeftMostKey
  return (node,right,midKey)

def mergeWithRight (h : Heap) (left right : LeafNode K V) : Option (Heap × LeafNode K V) := do
  let keys ← copyTo right.keys left.nkeys 0 right.nkeys left.keys
  let vals ← copyTo right.vals left.nkeys 0 right.nkeys left.vals
  return (h.unlink left.id right.id,{ left with nkeys := left.nkeys+right.nkeys, keys, vals })

end LeafNode

def newInternalNode (h : Heap) (degree : Nat) : Heap × InternalNode K P :=
  ({ h with id := h.id+1 },⟨h.id+1,0,List.replicate degree default,List.replicate (degree+1) none⟩)

namespace InternalNode

def degree (node : InternalNode K P) : Nat := node.keys.length
def needSplit (node : InternalNode K P) : Bool := node.nkeys = node.keys.length
/-- The child at a pointer that must not be nil. -/
def child (node : InternalNode K P) (i : Nat) : Option P := node.ptrs[i]?.join

/-- The child was changed in place. -/
def setChild (node : InternalNode K P) (i : Nat) (c : P) : Option (InternalNode K P) := do
  let ptrs ← put node.ptrs i (some c)
  return { node with ptrs }

/-- The child a key belongs to: the one before the first key above it. -/
def childIndex (node : InternalNode K P) (key : K) : Option Nat := seek (fun x => key < x) node.keys 0 node.nkeys

def delKeyandPtrByIndex (node : InternalNode K P) (keyStart ptrStart : Nat) : Option (InternalNode K P) := do
  let last ← lastIndex node.nkeys
  let keys ← (shiftDown keyStart (node.nkeys-(keyStart+1)) node.keys).bind (fun keys => put keys last default)
  let ptrs ← (shiftDown ptrStart (node.nkeys-ptrStart) node.ptrs).bind (fun ptrs => put ptrs node.nkeys none)
  return { node with nkeys := last, keys, ptrs }

def removeMinKeyAndPtr (node : InternalNode K P) : Option (InternalNode K P × K × Option P) := do
  let key ← node.keys[0]?
  let ptr ← node.ptrs[0]?
  let node ← node.delKeyandPtrByIndex 0 0
  return (node,key,ptr)

def removeMaxKeyAndPtr (node : InternalNode K P) : Option (InternalNode K P × K × Option P) := do
  let last ← lastIndex node.nkeys
  let key ← node.keys[last]?
  let keys ← put node.keys last default
  let ptr ← node.ptrs[node.nkeys]?
  let ptrs ← put node.ptrs node.nkeys none
  return ({ node with nkeys := last, keys, ptrs },key,ptr)

def appendMaxKeyAndPtr (node : InternalNode K P) (key : K) (ptr : Option P) : Option (InternalNode K P) := do
  let keys ← put node.keys node.nkeys key
  let ptrs ← put node.ptrs (node.nkeys+1) ptr
  return { node with nkeys := node.nkeys+1, keys, ptrs }

def appendMinKeyAndPtr (node : InternalNode K P) (key : K) (ptr : Option P) : Option (InternalNode K P) := do
  let keys ← (shiftUp 0 node.nkeys node.keys).bind (fun keys => put keys 0 key)
  let ptrs ← (shiftUp 0 (node.nkeys+1) node.ptrs).bind (fun ptrs => put ptrs 0 ptr)
  return { node with nkeys := node.nkeys+1, keys, ptrs }

def stealFromLeft (node left : InternalNode K P) (parentKey : K) :
    Option (InternalNode K P × InternalNode K P × K) := do
  let (left,key,ptr) ← left.removeMaxKeyAndPtr
  let node ← node.appendMinKeyAndPtr parentKey ptr
  return (node,left,key)

def stealFromRight (node right : InternalNode K P) (parentKey : K) :
    Option (InternalNode K P × InternalNode K P × K) := do
  let (right,key,ptr) ← right.removeMinKeyAndPtr
  let node ← node.appendMaxKeyAndPtr parentKey ptr
  return (node,right,key)

/-- The last pointer, copied behind the loop of the source, is part of the copy. -/
def mergeWithRight (left right : InternalNode K P) (parentKey : K) : Option (InternalNode K P) := do
  let keys ← put left.keys left.nkeys parentKey
  let keys ← copyTo right.keys (left.nkeys+1) 0 right.nkeys keys
  let ptrs ← copyTo right.ptrs (left.nkeys+1) 0 (right.nkeys+1) left.ptrs
  return { left with nkeys := left.nkeys+1+right.nkeys, keys, ptrs }

/-- Move the upper keys and pointers to a new node and promote the key between the
halves. The leftmost pointer, moved behind the loop of the source, is part of the move. -/
def split (h : Heap) (node : InternalNode K P) : Option (Heap × InternalNode K P × Option (K × InternalNode K P)) := do
  let deg := node.degree
  let (h,rightSibling) := newInternalNode (K := K) (P := P) h deg
  let nLeft := deg/2
  let nRight := deg-nLeft-1
  let (keys,rightKeys) ← moveTail default (node.nkeys-nRight) nRight node.keys rightSibling.keys
  let (ptrs,rightPtrs) ← moveTail none (node.nkeys-nRight) (nRight+1) node.ptrs rightSibling.ptrs
  let l ← lastIndex (node.nkeys-nRight)
  let pKey ← keys[l]?
  let keys ← put keys l default
  return (h,{ node with nkeys := nLeft, keys, ptrs },
    some (pKey,{ rightSibling with nkeys := nRight, keys := rightKeys, ptrs := rightPtrs }))

/-- What `insertKV` does when the child at `i` was split. -/
def insertChild (h : Heap) (node : InternalNode K P) (i : Nat) (promotedKey : K) (newChild : P) :
    Option (Heap × InternalNode K P × Option (K × InternalNode K P)) := do
  let keys ← (shiftUp i (node.nkeys-i) node.keys).bind (fun keys => put keys i promotedKey)
  let ptrs ← (shiftUp (i+1) (node.nkeys-i) node.ptrs).bind (fun ptrs => put ptrs (i+1) (some newChild))
  let node := { node with nkeys := node.nkeys+1, keys, ptrs }
  if node.needSplit then
    node.split h
  else
    return (h,node,none)

end InternalNode

namespace Node

mutual

/-- The number of levels. -/
def height : Node K V → Nat
  | leaf _ => 1
  | internal ⟨_,_,_,ptrs⟩ => heights ptrs+1

def heights : List (Option (Node K V)) → Nat
  | [] => 0
  | none::rest => heights rest
  | some c :: rest => max c.height (heights rest)

end

def degree : Node K V → Nat
  | leaf node => node.degree
  | internal node => node.degree

def getNKeys : Node K V → Nat
  | leaf node => node.nkeys
  | internal node => node.nkeys

/-- The leaf and the index in it, or `nil`. -/
def find : Nat → Node K V → K → Option (Option (LeafNode K V × Nat))
  | 0,_,_ => none
  | _+1,leaf node,key => do
    let i ← node.find key
    return i.map (fun i => (node,i))
  | fuel+1,internal node,key => do
    let i ← node.childIndex key
    let c ← node.child i
    find fuel c key

/-- The node with its split-off right sibling and the key promoted with it. -/
def insertKV : Nat → Heap → Node K V → K → V → Option (Heap × Node K V × Option (K × Node K V))
  | 0,_,_,_,_ => none
  | _+1,h,leaf node,key,val => do
    let (h,node,grown) ← node.insertKV h key val
    return (h,leaf node,grown.map (fun (promoted,right) => (promoted,leaf right)))
  | fuel+1,h,internal node,key,val => do
    let i ← node.childIndex key
    let c ← node.child i
    let (h,c,grown) ← insertKV fuel h c key val
    let node ← node.setChild i c
    match grown with
    | none => return (h,internal node,none)
    | some (promotedKey,newChild) =>
      let (h,node,grown) ← node.insertChild h i promotedKey newChild
      return (h,internal node,grown.map (fun (promoted,right) => (promoted,internal right)))

/-- Siblings of different kinds fail the type assertion. -/
def stealFromRight : Node K V → Node K V → K → Option (Node K V × Node K V × K)
  | leaf node,leaf right,_ => do
    let (node,right,midKey) ← node.stealFromRight right
    return (leaf node,leaf right,midKey)
  | internal node,internal right,parentKey => do
    let (node,right,midKey) ← node.stealFromRight right parentKey
    return (internal node,internal right,midKey)
  | _,_,_ => none

def stealFromLeft (h : Heap) : Node K V → Node K V → K → Option (Heap × Node K V × Node K V × K)
  | leaf node,leaf left,_ => do
    let (h,node,left,midKey) ← node.stealFromLeft h left
    return (h,leaf node,leaf left,midKey)
  | internal node,internal left,parentKey => do
    let (node,left,midKey) ← node.stealFromLeft left parentKey
    return (h,internal node,internal left,midKey)
  | _,_,_ => none

def mergeWithRight (h : Heap) : Node K V → Node K V → K → Option (Heap × Node K V)
  | leaf node,leaf right,_ => do
    let (h,node) ← node.mergeWithRight h right
    return (h,leaf node)
  | internal node,internal right,parentKey => do
    let node ← node.mergeWithRight right parentKey
    return (h,internal node)
  | _,_,_ => none

end Node

namespace InternalNode

/-- `i+1 <= nkeys && ptrs[i+1].getNKeys() > minKeys`. -/
def spareRight (node : InternalNode K (Node K V)) (i minKeys : Nat) : Option Bool :=
  if i+1 ≤ node.nkeys then (node.child (i+1)).map (fun c => decide (minKeys < c.getNKeys)) else some false

/-- `i-1 >= 0 && ptrs[i-1].getNKeys() > minKeys`. -/
def spareLeft (node : InternalNode K (Node K V)) (i minKeys : Nat) : Option Bool :=
  if 0 < i then (node.child (i-1)).map (fun c => decide (minKeys < c.getNKeys)) else some false

/-- The child at `i` steals from the one at `i+1`. -/
def stealRight (node : InternalNode K (Node K V)) (i : Nat) : Option (InternalNode K (Node K V)) := do
  let c ← node.child i
  let right ← node.child (i+1)
  let parentKey ← node.keys[i]?
  let (c,right,midKey) ← c.stealFromRight right parentKey
  let node ← node.setChild i c
  let node ← node.setChild (i+1) right
  let keys ← put node.keys i midKey
  return { node with keys }

/-- The child at `i+1` steals from the one at `i`. -/
def stealLeft (h : Heap) (node : InternalNode K (Node K V)) (i : Nat) :
    Option (Heap × InternalNode K (Node K V)) := do
  let c ← node.child (i+1)
  let left ← node.child i
  let parentKey ← node.keys[i]?
  let (h,c,left,midKey) ← c.stealFromLeft h left parentKey
  let node ← node.setChild (i+1) c
  let node ← node.setChild i left
  let keys ← put node.keys i midKey
  return (h,{ node with keys })

/-- The child at `i` takes over the one at `i+1`, whose key and pointer go. -/
def mergeChildren (h : Heap) (node : InternalNode K (Node K V)) (i : Nat) :
    Option (Heap × InternalNode K (Node K V)) := do
  let left ← node.child i
  let right ← node.child (i+1)
  let parentKey ← node.keys[i]?
  let (h,left) ← left.mergeWithRight h right parentKey
  let node ← node.setChild i left
  let node ← node.delKeyandPtrByIndex i (i+1)
  return (h,node)

/-- What `delete` does after the child at `i` has deleted the key. -/
def rebalance (h : Heap) (node : InternalNode K (Node K V)) (i : Nat) :
    Option (Heap × InternalNode K (Node K V)) := do
  let cp ← node.child i
  let minKeys := cp.degree/2
  if cp.getNKeys < minKeys then
    if ← node.spareRight i minKeys then
      let node ← node.stealRight i
      return (h,node)
    else if ← node.spareLeft i minKeys then
      node.stealLeft h (i-1)
    else if i+1 ≤ node.nkeys then
      node.mergeChildren h i
    else if 0 < i then
      node.mergeChildren h (i-1)
    else
      return (h,node)
  else
    return (h,node)

end InternalNode

def Node.delete : Nat → Heap → Node K V → K → Option (Heap × Node K V)
  | 0,_,_,_ => none
  | _+1,h,leaf node,key => do
    let node ← node.delete key
    return (h,leaf node)
  | fuel+1,h,internal node,key => do
    let i ← node.childIndex key
    let cp ← node.child i
    let (h,cp) ← delete fuel h cp key
    let node ← node.setChild i cp
    let (h,node) ← node.rebalance h i
    return (h,internal node)

structure Tree (K V : Type) where
  degree : Nat
  root : Node K V

def newBTree (h : Heap) (degree : Nat) : Heap × Tree K V :=
  let (h,root) := newLeafNode h degree
  (h,⟨degree,.leaf root⟩)

namespace Tree

def find (tree : Tree K V) (key : K) : Option (V × Bool) := do
  match ← tree.root.find tree.root.height key with
  | none => return (default,false)
  | some (leafNode,idx) =>
    let found ← leafNode.keys[idx]?
    if found = key then
      let val ← leafNode.vals[idx]?
      return (val,true)
    else
      return (default,false)

def insert (h : Heap) (bt : Tree K V) (key : K) (val : V) : Option (Heap × Tree K V) := do
  let (h,root,grown) ← bt.root.insertKV bt.root.height h key val
  match grown with
  | none => return (h,{ bt with root })
  | some (promotedKey,rightSibling) =>
    let (h,newRoot) := newInternalNode (K := K) (P := Node K V) h bt.degree
    let keys ← put newRoot.keys 0 promotedKey
    let ptrs ← put newRoot.ptrs 0 (some root)
    let ptrs ← put ptrs 1 (some rightSibling)
    return (h,{ bt with root := .internal { newRoot with nkeys := 1, keys, ptrs } })

/-- A root that is left without keys gives way to its only child. -/
def delete (h : Heap) (bt : Tree K V) (key : K) : Option (Heap × Tree K V) := do
  let (h,root) ← bt.root.delete bt.root.height h key
  match root with
  | .leaf node => return (h,{ bt with root := .leaf node })
  | .internal node =>
    if node.nkeys = 0 then
      let root ← node.child 0
      return (h,{ bt with root })
    else
      return (h,{ bt with root := .internal node })

end Tree

inductive Op (K V : Type) where
  | insert (key : K) (val : V)
  | delete (key : K)

def next (s : Heap × Tree K V) : Op K V → Option (Heap × Tree K V)
  | .insert key val => s.2.insert s.1 key val
  | .delete key => s.2.delete s.1 key

end CodeExercise.BTree
