import Mathlib.Algebra.Order.Group.Nat
import Mathlib.Data.List.Induction
import Mathlib.Data.List.Sort
import Mathlib.Order.Basic

/-!
The B-tree of `btree/btree.c`. `alloc_node` allocates room for 2t-2 keys and a node takes 2t-1; the
indices used are listed next to the result, so the tree itself is followed as if the cell behind the keys
were free. `btree_get` compares the number of keys, not a key, with the key it looks for.
-/
namespace CodeExercise.BTreeArrays
open List

inductive Node
  | leaf (keys : List Int)
  | internal (keys : List Int) (child : List Node)

namespace Node

def keys : Node → List Int
  | leaf keys | internal keys _ => keys

def isleaf : Node → Bool
  | leaf _ => true
  | internal .. => false

/-- The half that stays when a child is split, and the half that moves to the new node. -/
def front (t : Nat) : Node → Node
  | leaf keys => leaf (keys.take (t-1))
  | internal keys child => internal (keys.take (t-1)) (child.take t)
def back (t : Nat) : Node → Node
  | leaf keys => leaf (keys.drop t)
  | internal keys child => internal (keys.drop t) (child.drop t)

def depth : Node → Nat
  | leaf _ | internal _ [] => 0
  | internal _ (c::_) => c.depth+1

end Node

/-- The elements from an index on moved up by one and one put there. -/
def put {α : Type} (l : List α) (i : Nat) (x : α) : List α := l.take i ++ x::l.drop i

/-- Indices used with the numbers of elements `alloc_node` allocated. -/
abbrev Uses := List (Nat × Nat)
def usesKeys (t : Nat) (indices : List Nat) : Uses := indices.map (·,2*(t-1))
def usesChild (t : Nat) (indices : List Nat) : Uses := indices.map (·,2*t)

/-- `btree_split` at a child: the arrays of the parent after it, if the assertion holds. -/
def split (t : Nat) (keys : List Int) (child : List Node) (ci : Nat) : Option (List Int × List Node × Uses) :=
  child[ci]?.bind fun snode =>
    if snode.keys.length = 2*t-1 then
      some (put keys ci (snode.keys.getD (t-1) 0),put (child.set ci (snode.front t)) (ci+1) (snode.back t),
        usesKeys t (range (t-1) ++ range' t (t-1) ++ range' ci (keys.length+1-ci) ++ [t-1]) ++
        usesChild t ((if snode.isleaf then [] else range (2*t))++range' ci (keys.length+2-ci)))
    else none

/-- Where the loop from the last key down stops. -/
def seek (key : Int) (keys : List Int) : Nat → Nat
  | 0 => 0
  | i+1 => if key < keys.getD i 0 then seek key keys i else i+1

/-- `btree_insert_internal`; `none` for a failed assertion or when the depth given does not suffice. -/
def insertInternal (t : Nat) (key : Int) : Nat → Node → Option (Node × Uses)
  | 0,_ => none
  | _+1,.leaf keys =>
    let i := seek key keys keys.length
    some (.leaf (put keys i key),usesKeys t (range' (i-1) (keys.length+1-(i-1))))
  | fuel+1,.internal keys child =>
    let i := seek key keys keys.length
    let uses := usesKeys t (range' (i-1) (keys.length-(i-1))) ++ usesChild t [i]
    child[i]?.bind fun c =>
      if c.keys.length = 2*t-1 then
        (split t keys child i).bind fun (keys,child,uses') =>
          let i' := if keys.getD i 0 < key then i+1 else i
          child[i']?.bind fun c => (insertInternal t key fuel c).map fun (c,uses'') =>
            (.internal keys (child.set i' c),uses++uses'++usesKeys t [i] ++ usesChild t [i'] ++ uses'')
      else (insertInternal t key fuel c).map fun (c,uses') => (.internal keys (child.set i c),uses++uses')

/-- `btree_insert`. -/
def insert (t : Nat) (key : Int) (root : Node) : Option (Node × Uses) :=
  if root.keys.length = 2*t-1 then
    (split t [] [root] 0).bind fun (keys,child,uses) =>
      (insertInternal t key (root.depth+2) (.internal keys child)).map fun (root,uses') => (root,usesChild t [0] ++ uses++uses')
  else insertInternal t key (root.depth+1) root

/-- `btree_new` and calls of `btree_insert`: the tree and all indices used. -/
def inserts (t : Nat) (xs : List Int) : Option (Node × Uses) :=
  xs.foldlM (fun (root,uses) key => (insert t key root).map fun (root,uses') => (root,uses++uses')) (.leaf [],[])

/-- `btree_get`: the node and slot found, if any. -/
def get (key : Int) : Nat → Node → Option (Option (Node × Nat))
  | 0,_ => none
  | fuel+1,node =>
    let i := node.keys.findIdx (fun x => key ≤ x)
    if i < node.keys.length ∧ (node.keys.length : Int) = key then some (some (node,i))
    else match node with
      | .leaf _ => some none
      | .internal _ child => child[i]?.bind (get key fuel)

/-- A tree whose leaves are at one depth, with at most 2t-1 keys in a node and at least t-1 below the root. -/
def Shape (t : Nat) : Nat → Node → Prop
  | 0,.leaf keys => keys.length ≤ 2*t-1
  | h+1,.internal keys child => keys.length ≤ 2*t-1 ∧ child.length = keys.length+1 ∧ ∀ c ∈ child, t-1 ≤ c.keys.length ∧ Shape t h c
  | _,_ => False

lemma Shape.keys_le {t h : Nat} {node : Node} (shape : Shape t h node) : node.keys.length ≤ 2*t-1 := by
  match h,node,shape with
  | 0,.leaf _,shape => exact shape
  | _+1,.internal ..,shape => exact shape.1

lemma Shape.depth_eq {t h : Nat} {node : Node} (shape : Shape t h node) : node.depth = h := by
  induction h generalizing node with
  | zero =>
    match node,shape with
    | .leaf _,_ => rw [Node.depth]
  | succ h ih =>
    match node,shape with
    | .internal _ (c::_),shape => rw [Node.depth,ih (shape.2.2 c mem_cons_self).2]

mutual
def Node.inorder : Node → List Int
  | .leaf keys => keys
  | .internal keys child => weave keys child
def weave : List Int → List Node → List Int
  | k::keys,c::child => c.inorder ++ k::weave keys child
  | [],c::_ => c.inorder
  | _,[] => []
end

/-- What follows the first child. -/
def behind : List Int → List Node → List Int
  | [],_ => []
  | k::keys,child => k :: weave keys child

/-- A key put into its place of a sequence. -/
def Inserted (key : Int) (l l' : List Int) : Prop := ∃ a b, l = a++b ∧ l' = a++key::b ∧ (∀ x ∈ a, x ≤ key) ∧ ∀ x ∈ b, key ≤ x

section
variable {t h i fuel : Nat} {key : Int} {keys keys₁ keys₂ l l' xs : List Int} {child child₁ child₂ : List Node} {c c' node root : Node} {uses : Uses}

lemma weave_cons : weave keys (c::child) = c.inorder++behind keys child := by
  cases keys with
  | nil => simp [weave,behind]
  | cons k keys => simp [weave,behind]

lemma weave_append (same : keys₁.length = child₁.length) : weave (keys₁++keys₂) (child₁++child₂) = weave keys₁ child₁ ++ weave keys₂ child₂ := by
  induction keys₁ generalizing child₁ with
  | nil =>
    obtain rfl := length_eq_zero_iff.mp same.symm
    simp [weave]
  | cons k keys ih =>
    obtain ⟨c,child,rfl⟩ := exists_cons_of_length_eq_add_one same.symm
    simp [weave,ih (Nat.succ.inj same)]

section
variable (ins : Inserted key l l')
include ins

lemma Inserted.context (low : ∀ x ∈ a, x ≤ key) (high : ∀ x ∈ b, key ≤ x) : Inserted key (a++l++b) (a++l'++b) := by
  obtain ⟨l₁,l₂,rfl,rfl,low',high'⟩ := ins
  refine ⟨a++l₁,l₂++b,by simp,by simp,?_,?_⟩
  · exact fun x mem => (mem_append.mp mem).elim (low x) (low' x)
  · exact fun x mem => (mem_append.mp mem).elim (high' x) (high x)

lemma Inserted.sorted (sorted : l.Pairwise (· ≤ ·)) : l'.Pairwise (· ≤ ·) := by
  obtain ⟨a,b,rfl,rfl,low,high⟩ := ins
  rw [pairwise_append] at sorted ⊢
  refine ⟨sorted.1,pairwise_cons.mpr ⟨high,sorted.2.1⟩,fun x mem y mem' => ?_⟩
  rcases mem_cons.mp mem' with rfl | old
  · exact low x mem
  · exact sorted.2.2 x mem y old

lemma Inserted.perm : l'.Perm (key::l) := by
  obtain ⟨a,b,rfl,rfl,_,_⟩ := ins
  exact perm_middle

end

lemma weave_le (same : keys.length = child.length) (sorted : (weave keys child).Pairwise (· ≤ ·)) {x : Int} (mem : x ∈ weave keys child) : ∃ k ∈ keys, x ≤ k := by
  induction keys generalizing child with
  | nil =>
    obtain rfl := length_eq_zero_iff.mp same.symm
    simp [weave] at mem
  | cons k keys ih =>
    obtain ⟨c,child,rfl⟩ := exists_cons_of_length_eq_add_one same.symm
    rw [weave,pairwise_append,pairwise_cons] at sorted
    rw [weave,mem_append,mem_cons] at mem
    rcases mem with old | rfl | later
    · exact ⟨k,mem_cons_self,sorted.2.2 x old k mem_cons_self⟩
    · exact ⟨x,mem_cons_self,le_rfl⟩
    · obtain ⟨k',mem',le⟩ := ih (Nat.succ.inj same) sorted.2.1.2 later
      exact ⟨k',mem_cons_of_mem _ mem',le⟩

lemma seek_spec (key : Int) (keys : List Int) (n : Nat) (le : n ≤ keys.length) : seek key keys n ≤ n ∧ (∀ x ∈ (keys.take n).drop (seek key keys n), key < x) ∧
    ∀ i, seek key keys n = i+1 → keys.getD i 0 ≤ key := by
  induction n with
  | zero => simp [seek]
  | succ n ih =>
    obtain ⟨small,above,last⟩ := ih (by omega)
    rw [seek]
    split
    · next less =>
      refine ⟨by omega,fun x mem => ?_,last⟩
      rw [take_succ_eq_append_getElem (by omega),drop_append_of_le_length (by simp; omega),mem_append,mem_singleton] at mem
      rcases mem with old | rfl
      · exact above x old
      · simpa [show n < keys.length by omega] using less
    · next stop =>
      refine ⟨le_rfl,by simp,fun i same => ?_⟩
      obtain rfl := Nat.succ.inj same
      exact not_lt.mp stop

lemma seek_parts (key : Int) (sorted : keys.Pairwise (· ≤ ·)) : seek key keys keys.length ≤ keys.length ∧
    (∀ x ∈ keys.take (seek key keys keys.length), x ≤ key) ∧ ∀ x ∈ keys.drop (seek key keys keys.length), key < x := by
  obtain ⟨le,above,last⟩ := seek_spec key keys keys.length le_rfl
  rw [take_length] at above
  refine ⟨le,?_,above⟩
  generalize seek key keys keys.length = i at *
  cases i with
  | zero => simp
  | succ i =>
    have stop := last i rfl
    rw [take_succ_eq_append_getElem (by omega)]
    intro x mem
    rcases mem_append.mp mem with old | new
    · rw [← take_append_drop i keys,pairwise_append] at sorted
      refine (sorted.2.2 x old keys[i] ?_).trans (by simpa [show i < keys.length by omega] using stop)
      rw [drop_eq_getElem_cons (by omega)]
      exact mem_cons_self
    · obtain rfl := mem_singleton.mp new
      simpa [show i < keys.length by omega] using stop

section
variable (size : child.length = keys.length+1)
include size

lemma parts (found : child[i]? = some c) :
    ∃ keys₁ keys₂ child₁ child₂, keys = keys₁++keys₂ ∧ child = child₁++c::child₂ ∧ keys₁.length = i ∧ child₁.length = i := by
  obtain ⟨inside,rfl⟩ := List.getElem?_eq_some_iff.mp found
  refine ⟨keys.take i,keys.drop i,child.take i,child.drop (i+1),(take_append_drop ..).symm,?_,by simp; omega,by simp; omega⟩
  rw [← drop_eq_getElem_cons inside,take_append_drop]

lemma keys_sublist_weave : keys.Sublist (weave keys child) := by
  induction keys generalizing child with
  | nil => exact nil_sublist _
  | cons k keys ih =>
    obtain ⟨c,child,rfl⟩ := exists_cons_of_length_eq_add_one size
    rw [weave]
    exact ((ih (Nat.succ.inj size)).cons_cons k).trans (sublist_append_right ..)

lemma inorder_sublist_weave (found : child[i]? = some c) : c.inorder.Sublist (weave keys child) := by
  obtain ⟨keys₁,keys₂,child₁,child₂,rfl,rfl,len,len'⟩ := parts size found
  rw [weave_append (len.trans len'.symm),weave_cons]
  exact (sublist_append_left ..).trans (sublist_append_right ..)

end

lemma Shape.descend (shape : Shape t (h+1) (.internal keys child)) (sorted : (weave keys child).Pairwise (· ≤ ·)) (found : child[i]? = some c)
    (low : ∀ x ∈ keys.take i, x ≤ key) (high : ∀ x ∈ keys.drop i, key ≤ x) (shape' : Shape t h c') (more : c.keys.length ≤ c'.keys.length)
    (ins : Inserted key c.inorder c'.inorder) :
    Shape t (h+1) (.internal keys (child.set i c')) ∧ Inserted key (weave keys child) (weave keys (child.set i c')) := by
  obtain ⟨few,size,children⟩ := shape
  constructor
  · refine ⟨few,by simpa using size,fun d mem => ?_⟩
    rcases mem_or_eq_of_mem_set mem with old | rfl
    · exact children d old
    · exact ⟨(children c (mem_of_getElem? found)).1.trans more,shape'⟩
  · obtain ⟨keys₁,keys₂,child₁,child₂,rfl,rfl,len,len'⟩ := parts size found
    subst len'
    rw [take_left' len] at low
    rw [drop_left' len] at high
    rw [weave_append len,weave_cons] at sorted ⊢
    rw [set_append_right _ _ le_rfl,Nat.sub_self,set_cons_zero,weave_append len,weave_cons,← append_assoc,← append_assoc]
    refine ins.context (fun x mem => ?_) fun x mem => ?_
    · obtain ⟨k,mem',le⟩ := weave_le len (pairwise_append.mp sorted).1 mem
      exact le.trans (low k mem')
    · cases keys₂ with
      | nil => simp [behind] at mem
      | cons k keys₂ =>
        have first := high k mem_cons_self
        rcases mem_cons.mp mem with rfl | later
        · exact first
        · exact first.trans ((pairwise_cons.mp (pairwise_append.mp (pairwise_append.mp sorted).2.1).2.1).1 x later)

lemma Shape.halves (shape : Shape t h c) (full : c.keys.length = 2*t-1) (order : 2 ≤ t) :
    (Shape t h (c.front t) ∧ (c.front t).keys.length = t-1) ∧ (Shape t h (c.back t) ∧ (c.back t).keys.length = t-1) ∧
    c.inorder = (c.front t).inorder++c.keys.getD (t-1) 0 :: (c.back t).inorder := by
  have middle : ∀ keys : List Int, keys.length = 2*t-1 → keys = keys.take (t-1) ++ keys.getD (t-1) 0 :: keys.drop t := by
    intro keys size
    have := drop_eq_getElem_cons (l := keys) (i := t-1) (by omega)
    rw [Nat.sub_add_cancel (by omega)] at this
    simp [show t-1 < keys.length by omega,← this]
  cases h with
  | zero =>
    match c,shape with
    | .leaf keys,_ =>
      have size : keys.length = 2*t-1 := full
      simp only [Node.front,Node.back,Shape,Node.keys,Node.inorder,length_take,length_drop]
      exact ⟨⟨by omega,by omega⟩,⟨by omega,by omega⟩,middle keys size⟩
  | succ h =>
    match c,shape with
    | .internal keys child,⟨_,size',children⟩ =>
      have size : keys.length = 2*t-1 := full
      simp only [Node.front,Node.back,Shape,Node.keys,Node.inorder,length_take,length_drop]
      refine ⟨⟨⟨by omega,by omega,fun c mem => children c (mem_of_mem_take mem)⟩,by omega⟩,
        ⟨⟨by omega,by omega,fun c mem => children c (mem_of_mem_drop mem)⟩,by omega⟩,?_⟩
      have inside : t-1 < child.length := by omega
      have first : child.take t = child.take (t-1) ++ [child[t-1]] := by
        rw [← take_succ_eq_append_getElem inside,Nat.sub_add_cancel (by omega)]
      have rest : child = child.take (t-1) ++ child[t-1] :: child.drop t := by
        have next := drop_eq_getElem_cons inside
        rw [Nat.sub_add_cancel (by omega)] at next
        rw [← next,take_append_drop]
      have same : (keys.take (t-1)).length = (child.take (t-1)).length := by
        simp
        omega
      have left : weave (keys.take (t-1)) (child.take t) = weave (keys.take (t-1)) (child.take (t-1)) ++ weave [] [child[t-1]] := by
        rw [first,← weave_append same,append_nil]
      conv_lhs => rw [middle keys size,rest,weave_append same]
      rw [left]
      simp only [weave_cons,behind,append_nil,append_assoc]

lemma split_spec (order : 2 ≤ t) (shape : Shape t (h+1) (.internal keys child)) (few : keys.length < 2*t-1) (found : child[i]? = some c)
    (full : c.keys.length = 2*t-1) : ∃ keys' child' uses, split t keys child i = some (keys',child',uses) ∧ Shape t (h+1) (.internal keys' child') ∧
      weave keys' child' = weave keys child ∧ keys'.take i = keys.take i ∧ keys'.drop i = keys'.getD i 0 :: keys.drop i ∧
      keys'.length = keys.length+1 ∧ ∀ i', i' = i ∨ i' = i+1 → ∃ c', child'[i']? = some c' ∧ c'.keys.length = t-1 := by
  obtain ⟨_,size,children⟩ := shape
  obtain ⟨⟨front,lenFront⟩,⟨back,lenBack⟩,halves⟩ := (children c (mem_of_getElem? found)).2.halves full order
  refine ⟨_,_,_,by rw [split,found,Option.bind_some,if_pos full],?_⟩
  obtain ⟨keys₁,keys₂,child₁,child₂,rfl,rfl,len,len'⟩ := parts size found
  subst len'
  have child' : put ((child₁++c::child₂).set child₁.length (c.front t)) (child₁.length+1) (c.back t) = child₁++c.front t :: c.back t :: child₂ := by
    rw [put,set_append_right _ _ le_rfl,Nat.sub_self,set_cons_zero,append_cons child₁,take_left' (by simp),drop_left' (by simp)]
    simp
  have keys' : put (keys₁++keys₂) child₁.length (c.keys.getD (t-1) 0) = keys₁++c.keys.getD (t-1) 0 :: keys₂ := by
    simp [put,← len]
  rw [child',keys']
  simp only [length_append,length_cons] at size few
  refine ⟨⟨by simp; omega,by simp; omega,fun d mem => ?_⟩,?_,by simp [← len],by simp [← len],by simp; omega,?_⟩
  · simp only [mem_append,mem_cons] at mem children
    rcases mem with old | rfl | rfl | old
    · exact children d (.inl old)
    · exact ⟨by omega,front⟩
    · exact ⟨by omega,back⟩
    · exact children d (.inr (.inr old))
  · rw [weave_append len,weave_append len,weave_cons,weave_cons,behind,weave_cons,halves]
    simp
  · rintro i' (rfl | rfl)
    · exact ⟨_,by simp,lenFront⟩
    · exact ⟨_,by simp,lenBack⟩

lemma inserted_put (sorted : keys.Pairwise (· ≤ ·)) : Inserted key keys (put keys (seek key keys keys.length) key) := by
  obtain ⟨_,low,high⟩ := seek_parts key sorted
  exact ⟨_,_,(take_append_drop ..).symm,rfl,low,fun x mem => (high x mem).le⟩

lemma insertInternal_spec (key : Int) (order : 2 ≤ t) (shape : Shape t h node) (few : node.keys.length < 2*t-1) (sorted : node.inorder.Pairwise (· ≤ ·))
    (deep : h < fuel) : ∃ node' uses, insertInternal t key fuel node = some (node',uses) ∧ Shape t h node' ∧ node.keys.length ≤ node'.keys.length ∧
      Inserted key node.inorder node'.inorder := by
  induction h generalizing node fuel with
  | zero =>
    obtain _ | fuel := fuel
    · omega
    match node,shape with
    | .leaf keys,_ =>
      have le : seek key keys keys.length ≤ keys.length := (seek_spec key keys keys.length le_rfl).1
      have few : keys.length < 2*t-1 := few
      have size : (put keys (seek key keys keys.length) key).length = keys.length+1 := by
        simp [put]
        omega
      refine ⟨_,_,rfl,?_,?_,inserted_put sorted⟩
      · rw [Shape]
        omega
      · simp only [Node.keys]
        omega
  | succ h ih =>
    obtain _ | fuel := fuel
    · omega
    match node,shape with
    | .internal keys child,shape =>
      rw [Node.inorder] at sorted
      have size := shape.2.1
      obtain ⟨le,low,high⟩ := seek_parts key (sorted.sublist (keys_sublist_weave size))
      rw [insertInternal]
      generalize seek key keys keys.length = i at *
      obtain ⟨c,found⟩ : ∃ c, child[i]? = some c := ⟨_,getElem?_eq_getElem (show i < child.length by omega)⟩
      simp only [found,Option.bind_some]
      by_cases full : c.keys.length = 2*t-1
      · obtain ⟨keys',child',uses,done,shape',same,take,drop,size',halves⟩ := split_spec order shape few found full
        rw [if_pos full,done]
        simp only [Option.bind_some]
        have sides : (∀ x ∈ keys'.take (if keys'.getD i 0 < key then i+1 else i), x ≤ key) ∧
            ∀ x ∈ keys'.drop (if keys'.getD i 0 < key then i+1 else i), key ≤ x := by
          have inside : i < keys'.length := by omega
          split
          · next above =>
            have drop' : keys'.drop (i+1) = keys.drop i := by rw [← tail_drop,drop,tail_cons]
            refine ⟨fun x mem => ?_,fun x mem => (high x (drop' ▸ mem)).le⟩
            rw [take_succ_eq_append_getElem inside,take,mem_append,mem_singleton] at mem
            rcases mem with old | rfl
            · exact low x old
            · exact (by simpa [inside] using above : keys'[i] < key).le
          · next below =>
            refine ⟨fun x mem => low x (take ▸ mem),fun x mem => ?_⟩
            rw [drop] at mem
            rcases mem_cons.mp mem with rfl | old
            · exact not_lt.mp below
            · exact (high x old).le
        obtain ⟨c',found',half⟩ := halves (if keys'.getD i 0 < key then i+1 else i) (by split <;> simp)
        generalize (if keys'.getD i 0 < key then i+1 else i) = i' at *
        have sorted' : (weave keys' child').Pairwise (· ≤ ·) := same ▸ sorted
        obtain ⟨d,_,ran,shaped,more,ins⟩ := ih (shape'.2.2 c' (mem_of_getElem? found')).2 (by omega)
          (sorted'.sublist (inorder_sublist_weave shape'.2.1 found')) (show h < fuel by omega)
        obtain ⟨shaped',ins'⟩ := shape'.descend sorted' found' sides.1 sides.2 shaped more ins
        rw [same] at ins'
        refine ⟨_,_,by simp only [found',Option.bind_some,ran,Option.map_some]; rfl,shaped',?_,ins'⟩
        change keys.length ≤ keys'.length
        omega
      · have few' := (shape.2.2 c (mem_of_getElem? found)).2
        obtain ⟨d,_,ran,shaped,more,ins⟩ := ih few' (lt_of_le_of_ne few'.keys_le full)
          (sorted.sublist (inorder_sublist_weave size found)) (show h < fuel by omega)
        obtain ⟨shaped',ins'⟩ := shape.descend sorted found low (fun x mem => (high x mem).le) shaped more ins
        exact ⟨_,_,by rw [if_neg full,ran,Option.map_some],shaped',le_rfl,ins'⟩

lemma insert_spec (key : Int) (order : 2 ≤ t) (shape : Shape t h root) (sorted : root.inorder.Pairwise (· ≤ ·)) :
    ∃ root' uses h', insert t key root = some (root',uses) ∧ Shape t h' root' ∧ Inserted key root.inorder root'.inorder := by
  rw [insert,shape.depth_eq]
  by_cases full : root.keys.length = 2*t-1
  · have alone : Shape t (h+1) (.internal [] [root]) := ⟨Nat.zero_le _,rfl,by simpa using ⟨by omega,shape⟩⟩
    obtain ⟨keys',child',uses,done,shape',same,_,_,size',_⟩ := split_spec order alone (by simp; omega) (getElem?_cons_zero) full
    have whole : weave keys' child' = root.inorder := by simpa [weave] using same
    have few : keys'.length < 2*t-1 := by
      simp only [length_nil] at size'
      omega
    obtain ⟨root',uses',ran,shaped,_,ins⟩ := insertInternal_spec key order shape' few (by rwa [Node.inorder,whole]) (show h+1 < h+2 by omega)
    refine ⟨root',_,h+1,by simp only [if_pos full,done,Option.bind_some,ran,Option.map_some]; rfl,shaped,?_⟩
    rwa [Node.inorder,whole] at ins
  · obtain ⟨root',uses,ran,shaped,_,ins⟩ := insertInternal_spec key order shape (lt_of_le_of_ne shape.keys_le full) sorted (Nat.lt_succ_self h)
    exact ⟨root',uses,h,by rw [if_neg full,ran],shaped,ins⟩

lemma inserts_concat {x : Int} {root' : Node} {uses' : Uses} : inserts t (xs++[x]) = some (root',uses') ↔
    ∃ root uses uses'', inserts t xs = some (root,uses) ∧ insert t x root = some (root',uses'') ∧ uses++uses'' = uses' := by
  simp [inserts,foldlM_append,Option.bind_eq_some_iff]

lemma inserts_spec (order : 2 ≤ t) (xs : List Int) :
    ∃ root uses h, inserts t xs = some (root,uses) ∧ Shape t h root ∧ root.inorder.Pairwise (· ≤ ·) ∧ root.inorder.Perm xs := by
  induction xs using reverseRecOn with
  | nil => exact ⟨.leaf [],[],0,rfl,Nat.zero_le _,by simp [Node.inorder],by simp [Node.inorder]⟩
  | append_singleton xs x ih =>
    obtain ⟨root,uses,h,ran,shape,sorted,perm⟩ := ih
    obtain ⟨root',uses',h',moved,shape',ins⟩ := insert_spec x order shape sorted
    refine ⟨root',_,h',inserts_concat.mpr ⟨root,uses,uses',ran,moved,rfl⟩,shape',ins.sorted sorted,?_⟩
    exact ins.perm.trans ((perm.cons x).trans (perm_append_singleton x xs).symm)

/-- Every sequence of insertions into a new tree passes the assertion and gives a B-tree whose in-order
sequence is the sorted list of the keys inserted. -/
lemma inserts_tree (t : Nat) (order : 2 ≤ t) (xs : List Int) :
    ∃ root uses h, inserts t xs = some (root,uses) ∧ Shape t h root ∧ root.inorder = xs.insertionSort (· ≤ ·) := by
  obtain ⟨root,uses,h,ran,shape,sorted,perm⟩ := inserts_spec order xs
  exact ⟨root,uses,h,ran,shape,(perm.trans (perm_insertionSort _ xs).symm).eq_of_pairwise' sorted (pairwise_insertionSort _ xs)⟩

/-- Until the root is full it is a leaf, and inserting into it uses the indices up to the number of its keys. -/
lemma inserts_leaf (few : xs.length ≤ 2*t-1) : ∃ keys uses, inserts t xs = some (.leaf keys,uses) ∧ keys.length = xs.length ∧
    (∀ u ∈ uses, u.1 < xs.length ∧ u.2 = 2*(t-1)) ∧ ∀ n, xs.length = n+1 → (n,2*(t-1)) ∈ uses := by
  induction xs using reverseRecOn with
  | nil => exact ⟨[],[],rfl,rfl,nofun,nofun⟩
  | append_singleton xs x ih =>
    rw [length_append,length_singleton] at few ⊢
    obtain ⟨keys,uses,ran,size,inside,_⟩ := ih (by omega)
    have le : seek x keys keys.length ≤ keys.length := (seek_spec x keys keys.length le_rfl).1
    have moved : insert t x (.leaf keys) = some (.leaf (put keys (seek x keys keys.length) x),
        usesKeys t (range' (seek x keys keys.length-1) (keys.length+1-(seek x keys keys.length-1)))) := by
      rw [insert,if_neg (by simp only [Node.keys]; omega),insertInternal]
    refine ⟨_,_,inserts_concat.mpr ⟨_,_,_,ran,moved,rfl⟩,by simp [put]; omega,fun u mem => ?_,fun n last => ?_⟩
    · rcases mem_append.mp mem with old | new
      · exact ⟨by have := (inside u old).1; omega,(inside u old).2⟩
      · obtain ⟨i,used,rfl⟩ := mem_map.mp new
        have := mem_range'_1.mp used
        exact ⟨by omega,rfl⟩
    · exact mem_append_right _ (mem_map.mpr ⟨n,mem_range'_1.mpr (by omega),rfl⟩)

lemma inserts_uses_subset {ys : List Int} {root' : Node} {uses' : Uses} (ran : inserts t xs = some (root,uses))
    (ran' : inserts t (xs++ys) = some (root',uses')) : uses ⊆ uses' := by
  induction ys using reverseRecOn generalizing root' uses' with
  | nil =>
    rw [append_nil,ran] at ran'
    cases ran'
    exact Subset.refl _
  | append_singleton ys y ih =>
    rw [← append_assoc] at ran'
    obtain ⟨middle,uses'',_,before,_,rfl⟩ := inserts_concat.mp ran'
    exact fun u mem => mem_append_left _ (ih before mem)

/-- Every index used is below the number of elements allocated exactly when at most 2t-2 keys were inserted. -/
lemma inside_iff (order : 2 ≤ t) (ran : inserts t xs = some (root,uses)) : (∀ u ∈ uses, u.1 < u.2) ↔ xs.length ≤ 2*t-2 := by
  constructor
  · intro inside
    by_contra many
    have size : (xs.take (2*t-1)).length = 2*t-1 := by
      simp
      omega
    obtain ⟨keys,uses',ran',_,_,last⟩ := inserts_leaf size.le
    rw [← take_append_drop (2*t-1) xs] at ran
    have used := inside _ (inserts_uses_subset ran' ran (last (2*t-2) (by omega)))
    simp only at used
    omega
  · intro few u mem
    obtain ⟨keys,uses',ran',_,inside,_⟩ := inserts_leaf (show xs.length ≤ 2*t-1 by omega)
    cases ran.symm.trans ran'
    have := inside u mem
    omega

/-- The third key of a tree with t = 2 is written behind the two cells allocated. -/
theorem exists_use_out_of_bounds : ∃ root uses, inserts 2 [1,2,3] = some (root,uses) ∧ ∃ u ∈ uses, ¬u.1 < u.2 :=
  ⟨_,_,rfl,(2,2),by decide,by decide⟩

/-- Every sequence of insertions stays in the arrays exactly when it has at most 2t-2 keys. -/
theorem uses_in_bounds_iff (t : Nat) (order : 2 ≤ t) (xs : List Int) :
    (∃ root uses, inserts t xs = some (root,uses) ∧ ∀ u ∈ uses, u.1 < u.2) ↔ xs.length ≤ 2*t-2 := by
  obtain ⟨root,uses,_,ran,_⟩ := inserts_spec order xs
  constructor
  · rintro ⟨_,_,ran',inside⟩
    exact (inside_iff order ran').mp inside
  · intro few
    exact ⟨root,uses,ran,(inside_iff order ran).mpr few⟩

theorem uses_in_bounds_two : ∃ root uses, inserts 2 [7,7] = some (root,uses) ∧ ∀ u ∈ uses, u.1 < u.2 :=
  (uses_in_bounds_iff 2 le_rfl [7,7]).mpr (by decide)

/-- With t = 2 no tree of three keys is built within the arrays. -/
theorem exists_inserts_outside : ¬∃ root uses h, inserts 2 [1,2,3] = some (root,uses) ∧ (∀ u ∈ uses, u.1 < u.2) ∧ Shape 2 h root ∧
    root.inorder = [1,2,3] := by
  rintro ⟨root,uses,_,ran,inside,_⟩
  cases ran
  exact absurd (inside (2,2) (by decide)) (by decide)

/-- Insertions into a new tree stay in the arrays and give a B-tree of the sorted keys exactly when there are at most
2t-2 of them. -/
theorem inserts_tree_iff (t : Nat) (order : 2 ≤ t) (xs : List Int) :
    (∃ root uses h, inserts t xs = some (root,uses) ∧ (∀ u ∈ uses, u.1 < u.2) ∧ Shape t h root ∧ root.inorder = xs.insertionSort (· ≤ ·)) ↔
      xs.length ≤ 2*t-2 := by
  obtain ⟨root,uses,h,ran,shape,sorted⟩ := inserts_tree t order xs
  constructor
  · rintro ⟨_,_,_,ran',inside,_⟩
    exact (inside_iff order ran').mp inside
  · intro few
    exact ⟨root,uses,h,ran,(inside_iff order ran).mpr few,shape,sorted⟩

theorem inserts_tree_duplicates : ∃ root uses h, inserts 3 [3,1,3,2] = some (root,uses) ∧ (∀ u ∈ uses, u.1 < u.2) ∧ Shape 3 h root ∧
    root.inorder = [1,2,3,3] :=
  (inserts_tree_iff 3 (by decide) [3,1,3,2]).mpr (by decide)

end
end CodeExercise.BTreeArrays
