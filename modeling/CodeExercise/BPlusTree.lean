import CodeExercise.Runs
import CodeExercise.Slices
import CodeExercise.SortedMaps

/-!
The B+tree of `b+tree.c`, with minimum degree `t`. A node has arrays for `2t-1` keys and as many
values, or for `2t` children, with `nkeys` in use. Insertion splits full children on its way down;
deletion rebalances on its way up. A child pointer holds the child itself, so an operation returns
the nodes it changed; the links between leaves are kept in `Links` under the ids of the leaves.
There is no result when an assertion fails or an access is out of range. Where a loop of the source
moves two arrays at once, they are moved one after the other.
-/
namespace CodeExercise.BPlusTree
open Slices SortedMaps Function

structure LeafNode where
  id : Nat
  nkeys : Nat
  keys : List Int
  values : List Int
  deriving DecidableEq

/-- `P` is what the pointers point to. -/
structure IndexNode (P : Type) where
  nkeys : Nat
  keys : List Int
  child : List (Option P)

inductive Node where
  | leaf (node : LeafNode)
  | index (node : IndexNode Node)

/-- The leaves allocated so far, their fields `prev` and `next`, and the ends of the list. -/
structure Links where
  id : Nat
  prev : Nat → Option Nat
  next : Nat → Option Nat
  first : Nat
  last : Nat

def allocLeafNode (links : Links) (t nkeys : Nat) : Links × LeafNode :=
  ({ links with
      id := links.id+1
      prev := update links.prev (links.id+1) none
      next := update links.next (links.id+1) none },
    ⟨links.id+1,nkeys,List.replicate (2*t-1) 0,List.replicate (2*t-1) 0⟩)

def allocIndexNode (t nkeys : Nat) : IndexNode Node :=
  ⟨nkeys,List.replicate (2*t-1) 0,List.replicate (2*t) none⟩

namespace Node

def nkeys : Node → Nat
  | leaf node => node.nkeys
  | index node => node.nkeys

def setNkeys (n : Nat) : Node → Node
  | leaf node => leaf { node with nkeys := n }
  | index node => index { node with nkeys := n }

def keys : Node → List Int
  | leaf node => node.keys
  | index node => node.keys

def putKey (i : Nat) (key : Int) : Node → Option Node
  | leaf node => (put node.keys i key).map (fun keys => leaf { node with keys })
  | index node => (put node.keys i key).map (fun keys => index { node with keys })

/-- The pointer at an index. -/
def ptr (i : Nat) : Node → Option (Option Node)
  | leaf _ => none
  | index node => node.child[i]?

def putPtr (i : Nat) (p : Option Node) : Node → Option Node
  | leaf _ => none
  | index node => (put node.child i p).map (fun child => index { node with child })

mutual

/-- The number of levels. -/
def height : Node → Nat
  | leaf _ => 1
  | index ⟨_,_,child⟩ => heights child+1

def heights : List (Option Node) → Nat
  | [] => 0
  | none::rest => heights rest
  | some c :: rest => max c.height (heights rest)

end
end Node

namespace IndexNode

/-- The child at a pointer that must not be `NULL`. -/
def childAt (bp : IndexNode Node) (i : Nat) : Option Node := bp.child[i]?.join

/-- The child was changed in place. -/
def setChild (bp : IndexNode Node) (i : Nat) (c : Node) : Option (IndexNode Node) :=
  (put bp.child i (some c)).map (fun child => { bp with child })

end IndexNode

/-- `newbp` is linked in behind `snodep`. -/
def Links.linkAfter (links : Links) (snodep newbp : Nat) : Links :=
  let prev := update links.prev newbp (some snodep)
  { links with
    next := update (update links.next newbp (links.next snodep)) snodep (some newbp)
    prev := match links.next snodep with
      | some after => update prev after (some newbp)
      | none => prev
    last := if links.last = snodep then newbp else links.last }

/-- A new node with the upper half of a full one. -/
def upperHalf (t : Nat) (links : Links) : Node → Option (Links × Node)
  | .leaf snodep => do
    let (links,newbp) := allocLeafNode links t t
    let keys ← memmove newbp.keys 0 snodep.keys (t-1) newbp.nkeys
    let values ← memmove newbp.values 0 snodep.values (t-1) newbp.nkeys
    return (links.linkAfter snodep.id newbp.id,.leaf { newbp with keys, values })
  | .index snodep => do
    let newbp := allocIndexNode t (t-1)
    let keys ← memmove newbp.keys 0 snodep.keys t newbp.nkeys
    let child ← memmove newbp.child 0 snodep.child t (newbp.nkeys+1)
    return (links,.index { newbp with keys, child })

/-- Split the child at `ci`, which is full. -/
def btreeSplit (t : Nat) (links : Links) (bp : IndexNode Node) (ci : Nat) : Option (Links × IndexNode Node) := do
  let snodep ← bp.childAt ci
  let (links,newbp) ← upperHalf t links snodep
  let up ← snodep.keys[t-1]?
  let bp ← bp.setChild ci (snodep.setNkeys (t-1))
  let keys ← (shiftUp ci (bp.nkeys-ci) bp.keys).bind (fun keys => put keys ci up)
  let child ← (shiftUp (ci+1) (bp.nkeys-ci) bp.child).bind (fun child => put child (ci+1) (some newbp))
  return (links,{ bp with nkeys := bp.nkeys+1, keys, child })

def insertLeaf (bp : LeafNode) (key val : Int) : Option LeafNode := do
  let i ← seekDown (fun x => key < x) bp.keys bp.nkeys
  let keys ← (shiftUp i (bp.nkeys-i) bp.keys).bind (fun keys => put keys i key)
  let values ← (shiftUp i (bp.nkeys-i) bp.values).bind (fun values => put values i val)
  return { bp with nkeys := bp.nkeys+1, keys, values }

/-- A full child is split before the descent, and the new key decides which half it goes to. -/
def splitFull (t : Nat) (links : Links) (bp : IndexNode Node) (i : Nat) (key : Int) :
    Option (Links × IndexNode Node × Nat) := do
  let c ← bp.childAt i
  if c.nkeys = 2*t-1 then
    let (links,bp) ← btreeSplit t links bp i
    let k ← bp.keys[i]?
    return (links,bp,if key ≥ k then i+1 else i)
  else
    return (links,bp,i)

def btreeInsertInternal (t : Nat) : Nat → Links → Node → Int → Int → Option (Links × Node)
  | 0,_,_,_,_ => none
  | _+1,links,.leaf bp,key,val => (insertLeaf bp key val).map (fun bp => (links,.leaf bp))
  | fuel+1,links,.index bp,key,val => do
    let i ← seekDown (fun x => key < x) bp.keys bp.nkeys
    let (links,bp,i) ← splitFull t links bp i key
    let c ← bp.childAt i
    let (links,c) ← btreeInsertInternal t fuel links c key val
    let bp ← bp.setChild i c
    return (links,.index bp)

structure BTree where
  t : Nat
  root : Node
  links : Links

def btreeNew (t : Nat) : BTree :=
  let (links,bp) := allocLeafNode ⟨0,fun _ => none,fun _ => none,0,0⟩ t 0
  ⟨t,.leaf bp,{ links with first := bp.id, last := bp.id }⟩

def BTree.btreeInsert (bt : BTree) (key val : Int) : Option BTree := do
  if bt.root.nkeys = 2*bt.t-1 then
    -- the root needs split
    let newbp ← (allocIndexNode bt.t 0).setChild 0 bt.root
    let (links,newbp) ← btreeSplit bt.t bt.links newbp 0
    let (links,root) ← btreeInsertInternal bt.t (bt.root.height+1) links (.index newbp) key val
    return { bt with root, links }
  else
    let (links,root) ← btreeInsertInternal bt.t bt.root.height bt.links bt.root key val
    return { bt with root, links }

/-- Keys with their values, or keys with pointers. -/
def moveCell (dest : Node) (destStart : Nat) (src : Node) (srcStart n : Nat) : Option Node :=
  match dest,src with
  | .leaf a,.leaf b => do
    let keys ← memmove a.keys destStart b.keys srcStart n
    let values ← memmove a.values destStart b.values srcStart n
    return .leaf { a with keys, values }
  | .index a,.index b => do
    let keys ← memmove a.keys destStart b.keys srcStart n
    let child ← memmove a.child destStart b.child srcStart n
    return .index { a with keys, child }
  | _,_ => none

/-- The node, the one it borrows from and the key between them. -/
def borrowCells (me borrow : Node) (nborrow : Nat) (fromRight : Bool) (pkey : Int) : Option (Node × Node × Int) :=
  match me,fromRight with
  | .leaf _,true => do
    let me' ← moveCell me me.nkeys borrow 0 nborrow
    let up ← borrow.keys[nborrow]?
    let borrow' ← moveCell borrow 0 borrow nborrow (borrow.nkeys-nborrow)
    return (me',borrow',up)
  | .leaf _,false => do
    let me' ← moveCell me nborrow me 0 me.nkeys
    let me' ← moveCell me' 0 borrow (borrow.nkeys-nborrow) nborrow
    let up ← me'.keys[0]?
    return (me',borrow,up)
  | .index _,true => do
    let start := me.nkeys
    let me' ← me.putKey start pkey
    let me' ← moveCell me' (start+1) borrow 0 (nborrow-1)
    let p ← borrow.ptr (nborrow-1)
    let me' ← me'.putPtr (start+1+(nborrow-1)) p
    let up ← borrow.keys[nborrow-1]?
    let borrow' ← moveCell borrow 0 borrow nborrow (borrow.nkeys-nborrow)
    let p ← borrow'.ptr borrow.nkeys
    let borrow' ← borrow'.putPtr (borrow.nkeys-nborrow) p
    return (me',borrow',up)
  | .index _,false => do
    let p ← me.ptr me.nkeys
    let me' ← me.putPtr (me.nkeys+nborrow) p
    let me' ← moveCell me' nborrow me' 0 me.nkeys
    let me' ← me'.putKey (nborrow-1) pkey
    let p ← borrow.ptr borrow.nkeys
    let me' ← me'.putPtr (nborrow-1) p
    let start := borrow.nkeys-nborrow
    if nborrow-1 > 0 then
      let me' ← moveCell me' 0 borrow start (nborrow-1)
      let up ← borrow.keys[start-1]?
      return (me',borrow,up)
    else
      let up ← borrow.keys[start]?
      return (me',borrow,up)

/-- The child at `me` borrows from its neighbour. -/
def redistribute (t : Nat) (bp : IndexNode Node) (me borrowFrom : Nat) : Option (IndexNode Node) := do
  let meNode ← bp.childAt me
  let borrowNode ← bp.childAt borrowFrom
  if ¬ (meNode.nkeys < t-1 ∧ t-1 < borrowNode.nkeys) then failure
  let naverage := (meNode.nkeys+borrowNode.nkeys)/2
  let nborrow := naverage-meNode.nkeys
  if ¬ nborrow < borrowNode.nkeys then failure
  let pkeyIdx := if me < borrowFrom then me else borrowFrom
  let pkey ← bp.keys[pkeyIdx]?
  let (me',borrow',up) ← borrowCells meNode borrowNode nborrow (decide (me < borrowFrom)) pkey
  let keys ← put bp.keys pkeyIdx up
  let bp ← bp.setChild me (me'.setNkeys (meNode.nkeys+nborrow))
  let bp ← bp.setChild borrowFrom (borrow'.setNkeys (borrowNode.nkeys-nborrow))
  return { bp with keys }

/-- `right` is taken out of the list. -/
def Links.unlink (links : Links) (left right : Nat) : Links :=
  { links with
    next := update links.next left (links.next right)
    prev := match links.next right with
      | some after => update links.prev after (some left)
      | none => links.prev
    last := if links.last = right then left else links.last }

/-- The left node takes over the cells of the right one, an index node also the key between them. -/
def mergeNodes (links : Links) (pkey : Int) : Node → Node → Option (Links × Node)
  | .leaf l,.leaf r => do
    let m ← moveCell (.leaf l) l.nkeys (.leaf r) 0 r.nkeys
    return (links.unlink l.id r.id,m.setNkeys (l.nkeys+r.nkeys))
  | .index l,.index r => do
    let start := l.nkeys
    let m ← (Node.index l).putKey start pkey
    let m ← moveCell m (start+1) (.index r) 0 r.nkeys
    let p ← (Node.index r).ptr r.nkeys
    let m ← m.putPtr (start+1+r.nkeys) p
    return (links,m.setNkeys (start+1+r.nkeys))
  | _,_ => none

def merge (links : Links) (bp : IndexNode Node) (me toMerge : Nat) : Option (Links × IndexNode Node) := do
  let left := if me > toMerge then toMerge else me
  let right := if me > toMerge then me else toMerge
  let leftNode ← bp.childAt left
  let rightNode ← bp.childAt right
  let pkey ← bp.keys[left]?
  let (links,leftNode) ← mergeNodes links pkey leftNode rightNode
  let bp ← bp.setChild left leftNode
  let keys ← shiftDown left (bp.nkeys-(left+1)) bp.keys
  let child ← shiftDown (left+1) (bp.nkeys-(left+1)) bp.child
  return (links,{ bp with nkeys := bp.nkeys-1, keys, child })

/-- The neighbour on the left comes first, to borrow from and to merge with. -/
def balance (t : Nat) (links : Links) (bp : IndexNode Node) (ci : Nat) : Option (Links × IndexNode Node) := do
  let left ← if ci > 0 then (bp.childAt (ci-1)).map (fun c => decide (c.nkeys > t-1)) else some false
  if left then
    let bp ← redistribute t bp ci (ci-1)
    return (links,bp)
  let right ← if ci < bp.nkeys then (bp.childAt (ci+1)).map (fun c => decide (c.nkeys > t-1)) else some false
  if right then
    let bp ← redistribute t bp ci (ci+1)
    return (links,bp)
  if ci > 0 then merge links bp ci (ci-1)
  else if ci < bp.nkeys then merge links bp ci (ci+1)
  else failure

def deleteEntry (bp : LeafNode) (idx : Nat) : Option LeafNode := do
  let keys ← shiftDown idx (bp.nkeys-(idx+1)) bp.keys
  let values ← shiftDown idx (bp.nkeys-(idx+1)) bp.values
  return { bp with nkeys := bp.nkeys-1, keys, values }

/-- The leaf and whether it has to be rebalanced. -/
def deleteLeaf (t : Nat) (bp : LeafNode) (key : Int) : Option (LeafNode × Bool) := do
  let i ← seekDown (fun x => key < x) bp.keys bp.nkeys
  if i > 0 ∧ bp.keys[i-1]? = some key then
    let bp ← deleteEntry bp (i-1)
    return (bp,decide (bp.nkeys < t-1))
  else
    return (bp,false)

def btreeDeleteInternal (t : Nat) : Nat → Links → Node → Int → Option (Links × Node × Bool)
  | 0,_,_,_ => none
  | _+1,links,.leaf bp,key => (deleteLeaf t bp key).map (fun (bp,rebalance) => (links,.leaf bp,rebalance))
  | fuel+1,links,.index bp,key => do
    let i ← seekDown (fun x => key < x) bp.keys bp.nkeys
    let c ← bp.childAt i
    let (links,c,tmp) ← btreeDeleteInternal t fuel links c key
    let bp ← bp.setChild i c
    let (links,bp) ← if tmp then balance t links bp i else some (links,bp)
    return (links,.index bp,decide (bp.nkeys < t-1))

/-- A root with a single pointer gives way to its child. -/
def BTree.btreeDelete (bt : BTree) (key : Int) : Option BTree := do
  let (links,root,_) ← btreeDeleteInternal bt.t bt.root.height bt.links bt.root key
  match root with
  | .leaf _ => return { bt with root, links }
  | .index bp =>
    if bp.nkeys = 0 then
      let root ← bp.childAt 0
      return { bt with root, links }
    else
      return { bt with root, links }

/-- The leaf and the slot in it, or `NULL`. -/
def btreeGet : Nat → Node → Int → Option (Option (LeafNode × Nat))
  | 0,_,_ => none
  | _+1,.leaf bp,key => do
    let i ← seek (fun x => ¬ key ≥ x) bp.keys 0 bp.nkeys
    return if i > 0 ∧ bp.keys[i-1]? = some key then some (bp,i-1) else none
  | fuel+1,.index bp,key => do
    let i ← seek (fun x => ¬ key ≥ x) bp.keys 0 bp.nkeys
    let c ← bp.childAt i
    btreeGet fuel c key

/-- The value that is found under a key. -/
def BTree.get (bt : BTree) (key : Int) : Option (Option Int) := do
  match ← btreeGet bt.root.height bt.root key with
  | none => return none
  | some (bp,slot) =>
    let val ← bp.values[slot]?
    return some val

/-- The leaves below a node, in order: what the ids point to. -/
def leaves : Nat → Node → List LeafNode
  | 0,_ => []
  | _+1,.leaf bp => [bp]
  | fuel+1,.index bp => (bp.child.take (bp.nkeys+1)).flatMap (fun c => (c.map (leaves fuel)).getD [])

def BTree.leafAt (bt : BTree) (id : Nat) : Option LeafNode := (leaves bt.root.height bt.root).find? (fun bp => bp.id = id)
def LeafNode.pairs (bp : LeafNode) : List (Int × Int) := (bp.keys.zip bp.values).take bp.nkeys

/-- The leaves from `p` on, along `next` or `prev`. -/
def BTree.walk (bt : BTree) (step : Nat → Option Nat) : Nat → Option Nat → Option (List LeafNode)
  | _,none => some []
  | 0,some _ => none
  | fuel+1,some p => do
    let bp ← bt.leafAt p
    let rest ← bt.walk step fuel (step p)
    return bp :: rest

/-- The pairs that are printed. -/
def BTree.linearTraverse (bt : BTree) (backward : Bool) : Option (List (Int × Int)) :=
  let bound := bt.links.id+1
  if backward then (bt.walk bt.links.prev bound (some bt.links.last)).map (fun bps => bps.flatMap (fun bp => bp.pairs.reverse))
  else (bt.walk bt.links.next bound (some bt.links.first)).map (fun bps => bps.flatMap LeafNode.pairs)

inductive Op where
  | insert (key val : Int)
  | delete (key : Int)

def BTree.step (bt : BTree) : Op → Option BTree
  | .insert key val => bt.btreeInsert key val
  | .delete key => bt.btreeDelete key

end CodeExercise.BPlusTree
