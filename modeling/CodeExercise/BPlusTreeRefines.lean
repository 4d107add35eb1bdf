import CodeExercise.BPlusTreeInsert
import CodeExercise.Chains

/-!
Deletion keeps the shape of a subtree up to its root, which may be left without a key
(`Subtree.delete`). The node above then lets it borrow from a neighbour or merges the two.
-/
namespace CodeExercise.BPlusTree
open Slices SortedMaps Fences List Option

section
variable {h : Nat} {lo hi : Option Int} {l r c : View} {k : Int}

/-- Two neighbours after one has borrowed from the other. -/
structure Borrowed (h : Nat) (lo hi : Option Int) (l r : View) (k : Int) (l' r' : View) : Prop where
  fenced : Fenced (Subtree h) lo hi [k] [l',r']
  fill : 1 ≤ l'.nkeys ∧ 1 ≤ r'.nkeys
  entries : l'.entries++r'.entries = l.entries++r.entries
  ids : l'.ids++r'.ids = l.ids++r.ids

section
variable (pair : Fenced (Subtree h) lo hi [k] [l,r])
include pair

lemma borrow_right (empty : l.nkeys = 0) (spare : 2 ≤ r.nkeys) :
    ∃ a b k' l' r', borrowCells l.node r.node 1 true k = some (a,b,k') ∧ a.setNkeys 1 = l'.node ∧
      b.setNkeys (r.node.nkeys-1) = r'.node ∧ Borrowed h lo hi l r k' l' r' := by
  obtain ⟨left,sep,right⟩ := pair
  cases h with
  | zero =>
    obtain ⟨ln,es,rfl,shape⟩ := left
    obtain ⟨rn,es',rfl,shape'⟩ := right
    rw [nkeys_leaf shape.holds,length_eq_zero_iff] at empty
    rw [nkeys_leaf shape'.holds] at spare
    obtain rfl := empty
    match es',spare with
    | e::f::es',_ =>
      have room := shape'.room
      simp only [length_cons] at room
      obtain ⟨a,b,done,low,id,high,id'⟩ := borrowCells_leaf_right k shape.holds shape'.holds (by omega)
      have within : ∀ x ∈ e::f::es', Within lo hi x.1 := fun x mem => sep.above (shape'.within x mem)
      refine ⟨.leaf a,.leaf b,f.1,leafView { a with nkeys := 1 } [e],leafView { b with nkeys := rn.nkeys-1 } (f::es'),
        done,rfl,rfl,leaf_pair [e] shape'.sorted within low high (by simp) (by simp; omega),?_,by simp [leafView],?_⟩
      · rw [nkeys_leaf low,nkeys_leaf high]
        simp
      · simp [leafView,View.ids,id,id']
  | succ h =>
    obtain ⟨ln,ks,cs,rfl,row⟩ := left
    obtain ⟨rn,ks',cs',rfl,row'⟩ := right
    rw [nkeys_index row.holds,length_eq_zero_iff] at empty
    rw [nkeys_index row'.holds] at spare
    obtain rfl := empty
    have len := row.fenced.length
    have len' := row'.fenced.length
    obtain ⟨c,rfl⟩ := length_eq_one_iff.mp len
    obtain ⟨k',ks',rfl⟩ := exists_cons_of_length_pos (show 0 < ks'.length by omega)
    obtain ⟨d,ds,rfl⟩ := exists_cons_of_length_eq_add_one len'
    obtain ⟨a,b,done,low,high⟩ := borrowCells_index_right k row.holds row'.holds (by simpa using len')
    have joined : Fenced (Subtree h) lo hi ([k]++k'::ks') ([c,d]++ds) :=
      ⟨row.fenced,sep,row'.fenced⟩
    have fill : ∀ x ∈ [c,d]++ds, 1 ≤ x.nkeys := by
      exact forall_mem_cons.mpr ⟨row.fill _ (by simp),row'.fill⟩
    have room := row'.room
    simp only [length_cons] at room spare
    refine ⟨.index a,.index b,k',indexView { a with nkeys := 1 } [c,d],indexView { b with nkeys := rn.nkeys-1 } ds,
      done,rfl,rfl,index_pair [k] [c,d] ds joined rfl fill low high (by simp) (by omega),?_,by simp [indexView],?_⟩
    · rw [nkeys_index low,nkeys_index high]
      simp only [length_singleton]
      omega
    · simp [ids_indexView,idsOf]

lemma borrow_left (empty : r.nkeys = 0) (spare : 2 ≤ l.nkeys) :
    ∃ a b k' l' r', borrowCells r.node l.node 1 false k = some (b,a,k') ∧ a.setNkeys (l.node.nkeys-1) = l'.node ∧
      b.setNkeys 1 = r'.node ∧ Borrowed h lo hi l r k' l' r' := by
  obtain ⟨left,sep,right⟩ := pair
  cases h with
  | zero =>
    obtain ⟨ln,es,rfl,shape⟩ := left
    obtain ⟨rn,es',rfl,shape'⟩ := right
    rw [nkeys_leaf shape'.holds,length_eq_zero_iff] at empty
    rw [nkeys_leaf shape.holds] at spare
    obtain rfl := empty
    rcases eq_nil_or_concat' es with rfl | ⟨front,e,rfl⟩
    · simp at spare
    · have room := shape.room
      simp only [length_append,length_singleton] at room spare
      obtain ⟨b,done,high,id,low⟩ := borrowCells_leaf_left k shape'.holds shape.holds
      have within : ∀ x ∈ front++[e], Within lo hi x.1 := fun x mem => sep.below (shape.within x mem)
      refine ⟨.leaf ln,.leaf b,e.1,leafView { ln with nkeys := ln.nkeys-1 } front,leafView { b with nkeys := 1 } [e],
        done,rfl,rfl,leaf_pair front shape.sorted within low high (by omega) (by simp),?_,by simp [leafView],?_⟩
      · rw [nkeys_leaf low,nkeys_leaf high]
        simp only [length_singleton]
        omega
      · simp [leafView,View.ids,id]
  | succ h =>
    obtain ⟨ln,ks,cs,rfl,row⟩ := left
    obtain ⟨rn,ks',cs',rfl,row'⟩ := right
    rw [nkeys_index row'.holds,length_eq_zero_iff] at empty
    rw [nkeys_index row.holds] at spare
    obtain rfl := empty
    have len := row.fenced.length
    have len' := row'.fenced.length
    obtain ⟨c,rfl⟩ : ∃ c, cs' = [c] := length_eq_one_iff.mp len'
    rcases eq_nil_or_concat' ks with rfl | ⟨front,k',rfl⟩
    · simp at spare
    rcases eq_nil_or_concat' cs with rfl | ⟨ds,d,rfl⟩
    · simp at len
    have room := row.room
    simp only [length_append,length_singleton] at room spare len
    have held := row.holds
    rw [map_append] at held
    obtain ⟨b,done,high,low⟩ := borrowCells_index_left k row'.holds held (by simpa using len)
    have joined : Fenced (Subtree h) lo hi ((front++[k'])++k::[]) ((ds++[d])++[c]) :=
      (fenced_append (by simpa using len)).mpr ⟨row.fenced,sep,row'.fenced⟩
    have fill : ∀ x ∈ ds++[d,c], 1 ≤ x.nkeys := by
      intro x mem
      simp only [mem_append,mem_cons,not_mem_nil,or_false] at mem
      rcases mem with before | rfl | rfl
      · exact row.fill x (by simp [before])
      · exact row.fill x (by simp)
      · exact row'.fill x (by simp)
    refine ⟨.index ln,.index b,k',indexView { ln with nkeys := ln.nkeys-1 } ds,indexView { b with nkeys := 1 } [d,c],
      done,rfl,rfl,index_pair front ds [d,c] (by simpa using joined) (by omega) fill low high (by omega) (by simp),?_,
      by simp [indexView],?_⟩
    · rw [nkeys_index low,nkeys_index high]
      simp only [length_singleton]
      omega
    · simp [ids_indexView,idsOf]

lemma merge_pair (one : l.nkeys+r.nkeys = 1) (links : Links) :
    ∃ links' m, mergeNodes links k l.node r.node = some (links',m.node) ∧ Subtree h lo hi m ∧ 1 ≤ m.nkeys ∧
      m.entries = l.entries++r.entries ∧ Relinked (links,l.ids++r.ids) (links',m.ids) := by
  have order := Fenced.contents (f := View.entries) pair (fun _ _ _ child => Subtree.ordered child)
  obtain ⟨left,sep,right⟩ := pair
  cases h with
  | zero =>
    obtain ⟨ln,es,rfl,shape⟩ := left
    obtain ⟨rn,es',rfl,shape'⟩ := right
    rw [nkeys_leaf shape.holds,nkeys_leaf shape'.holds] at one
    obtain ⟨m,done,held,id⟩ := mergeNodes_leaf links k shape.holds shape'.holds (by omega)
    simp only [leafView,flatMap_cons,flatMap_nil,append_nil] at order
    refine ⟨_,leafView m (es++es'),done,⟨m,_,rfl,held,order.1,order.2,by simp; omega⟩,?_,rfl,?_⟩
    · rw [nkeys_leaf held,length_append]
      omega
    · have step := LinkStep.merge links [] ln.id rn.id []
      exact .single (by simpa [leafView,View.ids,id] using step)
  | succ h =>
    obtain ⟨ln,ks,cs,rfl,row⟩ := left
    obtain ⟨rn,ks',cs',rfl,row'⟩ := right
    rw [nkeys_index row.holds,nkeys_index row'.holds] at one
    have len := row.fenced.length
    obtain ⟨m,done,held⟩ := mergeNodes_index (k := k) links row.holds row'.holds (by simpa using len)
      (by simpa using row'.fenced.length) (by omega)
    rw [← map_append] at held
    have fill : ∀ x ∈ cs++cs', 1 ≤ x.nkeys := by
      exact forall_mem_append.mpr ⟨row.fill,row'.fill⟩
    refine ⟨links,indexView m (cs++cs'),done,⟨m,_,_,rfl,held,?_,fill,by simp; omega⟩,?_,by simp [indexView],?_⟩
    · exact (fenced_append len).mpr ⟨row.fenced,sep,row'.fenced⟩
    · rw [nkeys_index held,length_append,length_cons]
      omega
    · simpa [ids_indexView,idsOf] using Relinked.refl _

end

/-- A row in which one child may be without keys. -/
structure Loose (h : Nat) (lo hi : Option Int) (bp : IndexNode Node) (ks : List Int) (cs1 : List View) (c : View)
    (cs2 : List View) : Prop where
  holds : bp.Holds ks ((cs1++c::cs2).map View.node)
  fenced : Fenced (Subtree h) lo hi ks (cs1++c::cs2)
  fill : ∀ x ∈ cs1++cs2, 1 ≤ x.nkeys
  room : ks.length ≤ 3

/-- A row with the same entries and the same order of leaves. -/
def Mended (h : Nat) (lo hi : Option Int) (links : Links) (cs : List View) (out : Links × IndexNode Node) : Prop :=
  ∃ ks' cs', Row (Subtree h) lo hi out.2 ks' cs' ∧ entriesOf cs' = entriesOf cs ∧
    Relinked (links,idsOf cs) (out.1,idsOf cs')

variable {bp : IndexNode Node} {ks : List Int} {cs1 cs2 : List View} {links : Links}

lemma window (fenced : Fenced (Subtree h) lo hi ks (cs1++l::r::cs2)) :
    ∃ pre k post lo' hi', ks = pre++k::post ∧ cs1.length = pre.length ∧ cs2.length = post.length ∧
      Fenced (Subtree h) lo' hi' [k] [l,r] ∧ ∀ ks cs, Fenced (Subtree h) lo' hi' ks cs →
        Fenced (Subtree h) lo hi (pre++(ks++post)) (cs1++(cs++cs2)) := by
  have total := fenced.length
  simp only [length_append,length_cons] at total
  have inside : cs1.length < ks.length := by omega
  obtain ⟨pre,k,post,rfl,len⟩ : ∃ pre k post, ks = pre++k::post ∧ pre.length = cs1.length :=
    ⟨ks.take cs1.length,ks[cs1.length],ks.drop (cs1.length+1),by simp,by simp; omega⟩
  obtain ⟨lo',hi',pair,replace⟩ := Fenced.focus len.symm rfl (show Fenced _ lo hi (pre++([k]++post)) (cs1++([l,r]++cs2)) from fenced)
  simp only [length_append,length_cons] at total
  exact ⟨pre,k,post,lo',hi',rfl,len.symm,by omega,pair,fun ks cs => replace _ ks cs (fun _ _ _ _ part => part)⟩

lemma fill_inside (mid : List View) (outer : ∀ x ∈ cs1++cs2, 1 ≤ x.nkeys) (inner : ∀ x ∈ mid, 1 ≤ x.nkeys) :
    ∀ x ∈ cs1++(mid++cs2), 1 ≤ x.nkeys := by
  intro x mem
  simp only [mem_append] at mem outer
  rcases mem with before | here | behind
  · exact outer x (.inl before)
  · exact inner x here
  · exact outer x (.inr behind)

lemma Borrowed.mended
    (borrowed : Borrowed h lo' hi' l r k l' r')
    (replace : ∀ ks cs, Fenced (Subtree h) lo' hi' ks cs → Fenced (Subtree h) lo hi (pre++(ks++post)) (cs1++(cs++cs2)))
    (holds : bp.Holds (pre++k::post) ((cs1++l'::r'::cs2).map View.node)) (room : (pre++k::post).length ≤ 3)
    (fill : ∀ x ∈ cs1++cs2, 1 ≤ x.nkeys) : Mended h lo hi links (cs1++l::r::cs2) (links,bp) := by
  have filled := fill_inside [l',r'] fill (by simpa using borrowed.fill)
  refine ⟨_,cs1++([l',r']++cs2),⟨holds,replace [k] _ borrowed.fenced,filled,room⟩,?_,?_⟩
  · have same := borrowed.entries
    simp only [entriesOf,flatMap_append,flatMap_cons,flatMap_nil,append_nil]
    rw [same,append_assoc]
  · have same : idsOf (cs1++([l',r']++cs2)) = idsOf (cs1++l::r::cs2) := by
      simp only [idsOf,flatMap_append,flatMap_cons,flatMap_nil,append_nil]
      rw [borrowed.ids,append_assoc]
    rw [same]
    exact .refl _

lemma Loose.redistribute_right (loose : Loose h lo hi bp ks cs1 c (r::cs2)) (empty : c.nkeys = 0) (spare : 2 ≤ r.nkeys)
    (links : Links) : ∃ bp', redistribute 2 bp cs1.length (cs1.length+1) = some bp' ∧
      Mended h lo hi links (cs1++c::r::cs2) (links,bp') := by
  obtain ⟨holds,fenced,fill,room⟩ := loose
  obtain ⟨pre,k,post,lo',hi',rfl,left,right,pair,replace⟩ := window fenced
  obtain ⟨a,b,k',l',r',done,low,high,borrowed⟩ := borrow_right pair empty spare
  have bound := (show Subtree h (some k) hi' r from pair.2.2).nkeys_le
  rw [map_append] at holds
  obtain ⟨bp',written,held⟩ := holds.redistribute_right (by simpa using left) empty spare bound done
  rw [low,high] at held
  rw [← left] at written
  have outer : ∀ x ∈ cs1++cs2, 1 ≤ x.nkeys := fun x mem => fill x (mem_of_mem_rest mem)
  exact ⟨bp',written,borrowed.mended replace (by simpa using held) (by simpa using room) outer⟩

lemma Loose.redistribute_left (loose : Loose h lo hi bp ks (cs1++[l]) c cs2) (empty : c.nkeys = 0) (spare : 2 ≤ l.nkeys)
    (links : Links) : ∃ bp', redistribute 2 bp (cs1.length+1) cs1.length = some bp' ∧
      Mended h lo hi links (cs1++l::c::cs2) (links,bp') := by
  obtain ⟨holds,fenced,fill,room⟩ := loose
  rw [append_assoc,singleton_append] at holds fenced
  obtain ⟨pre,k,post,lo',hi',rfl,left,right,pair,replace⟩ := window fenced
  obtain ⟨a,b,k',l',r',done,low,high,borrowed⟩ := borrow_left pair empty spare
  have bound := (show Subtree h lo' (some k) l from pair.1).nkeys_le
  rw [map_append] at holds
  obtain ⟨bp',written,held⟩ := holds.redistribute_left (by simpa using left) empty spare bound done
  rw [low,high] at held
  rw [← left] at written
  have outer : ∀ x ∈ cs1++cs2, 1 ≤ x.nkeys := fun x mem => fill x (by simpa using mem_of_mem_rest (y := l) mem)
  exact ⟨bp',written,borrowed.mended replace (by simpa using held) (by simpa using room) outer⟩

/-- Two neighbours with a single key between them are merged, whichever of them is empty. -/
lemma merge_row (holds : bp.Holds ks ((cs1++l::r::cs2).map View.node))
    (fenced : Fenced (Subtree h) lo hi ks (cs1++l::r::cs2)) (fill : ∀ x ∈ cs1++cs2, 1 ≤ x.nkeys)
    (room : ks.length ≤ 3) (one : l.nkeys+r.nkeys = 1) (links : Links) :
    ∃ out, merge links bp cs1.length (cs1.length+1) = some out ∧ merge links bp (cs1.length+1) cs1.length = some out ∧
      Mended h lo hi links (cs1++l::r::cs2) out := by
  obtain ⟨pre,k,post,lo',hi',rfl,left,right,pair,replace⟩ := window fenced
  obtain ⟨links',m,done,tree,some_,entries,relinked⟩ := merge_pair pair one links
  rw [map_append] at holds
  obtain ⟨bp',up,down,held⟩ := holds.merge (by simpa using left) (by simpa using right) done
  rw [← left] at up down
  have filled := fill_inside [m] fill (by simpa using some_)
  have held' : bp'.Holds (pre++post) ((cs1++([m]++cs2)).map View.node) := by simpa using held
  have size : (pre++post).length ≤ 3 := by
    simp only [length_append,length_cons] at room ⊢
    omega
  refine ⟨(links',bp'),up,down,pre++post,_,⟨held',replace [] [m] tree,filled,size⟩,?_,?_⟩
  · simp only [entriesOf,flatMap_append,flatMap_cons,flatMap_nil,append_nil]
    rw [entries,append_assoc]
  · exact Relinked.row cs1 [l,r] [m] cs2 (by simpa [idsOf] using relinked)

lemma bind_choice {α β : Type} {p : Prop} [Decidable p] {x : Option α} {a b : α}
    (chosen : (if p then x else some a) = some b) (k : α → Option β) : (if p then x.bind k else k a) = k b := by
  by_cases taken : p
  · rw [if_pos taken] at chosen ⊢
    rw [chosen,bind_some]
  · rw [if_neg taken,some.injEq] at chosen
    rw [if_neg taken,chosen]

/-- The cases: whether the left and the right neighbour have a key to spare. -/
lemma balance_eq {left right : Bool}
    (spareLeft : (if ci > 0 then (bp.childAt (ci-1)).map (fun c => decide (c.nkeys > t-1)) else some false) = some left)
    (spareRight : (if ci < bp.nkeys then (bp.childAt (ci+1)).map (fun c => decide (c.nkeys > t-1)) else some false) = some right) :
    balance t links bp ci =
      if left then (redistribute t bp ci (ci-1)).map (fun bp => (links,bp))
      else if right then (redistribute t bp ci (ci+1)).map (fun bp => (links,bp))
      else if ci > 0 then merge links bp ci (ci-1)
      else if ci < bp.nkeys then merge links bp ci (ci+1)
      else none := by
  simp only [balance,bind_eq_bind]
  refine (bind_choice spareLeft _).trans ?_
  cases left with
  | true => exact map_eq_bind.symm
  | false =>
    rw [if_neg Bool.false_ne_true,if_neg Bool.false_ne_true]
    refine (bind_choice spareRight _).trans ?_
    cases right with
    | true => exact map_eq_bind.symm
    | false => rfl

section
variable (loose : Loose h lo hi bp ks cs1 c cs2)
include loose

lemma Loose.spare_left :
    (if cs1.length > 0 then (bp.childAt (cs1.length-1)).map (fun c => decide (c.nkeys > 2-1)) else some false) =
      some (cs1.getLast?.any (fun l => decide (l.nkeys > 1))) := by
  rcases eq_nil_or_concat' cs1 with rfl | ⟨front,l,rfl⟩
  · rfl
  · have held := loose.holds
    rw [append_assoc,singleton_append,map_append] at held
    have read := held.childAt
    rw [length_map] at read
    simp [read]
    rfl

lemma Loose.spare_right :
    (if cs1.length < bp.nkeys then (bp.childAt (cs1.length+1)).map (fun c => decide (c.nkeys > 2-1)) else some false) =
      some (cs2.head?.any (fun r => decide (r.nkeys > 1))) := by
  have total := loose.fenced.length
  rw [loose.holds.count]
  simp only [length_append,length_cons] at total
  cases cs2 with
  | nil => simp [show ¬ cs1.length < ks.length by simp at total; omega]
  | cons r cs2 =>
    have held : bp.Holds ks ((cs1++[c]).map View.node ++ r.node::cs2.map View.node) := by simpa using loose.holds
    have read := held.childAt
    rw [length_map,length_append,length_singleton] at read
    simp only [length_cons] at total
    simp [read,show cs1.length < ks.length by omega]
    rfl

lemma Loose.balance (empty : c.nkeys = 0) (keyed : 1 ≤ ks.length) (links : Links) :
    ∃ out, BPlusTree.balance 2 links bp cs1.length = some out ∧ Mended h lo hi links (cs1++c::cs2) out := by
  have total := loose.fenced.length
  rw [balance_eq loose.spare_left loose.spare_right]
  rcases eq_nil_or_concat' cs1 with rfl | ⟨front,l,rfl⟩
  · obtain ⟨r,rest,rfl⟩ : ∃ r rest, cs2 = r::rest := by
      cases cs2 with
      | nil =>
        simp only [nil_append,length_singleton] at total
        omega
      | cons r rest => exact ⟨r,rest,rfl⟩
    by_cases spare : r.nkeys > 1
    · obtain ⟨bp',done,mended⟩ := loose.redistribute_right empty spare links
      refine ⟨_,?_,mended⟩
      simp only [length_nil,Nat.zero_add] at done
      simp [spare,done]
    · have some_ := loose.fill r (by simp)
      have inside : 0 < bp.nkeys := by
        rw [loose.holds.count]
        omega
      have outer : ∀ x ∈ []++rest, 1 ≤ x.nkeys := fun x mem => loose.fill x (mem_cons_of_mem _ mem)
      obtain ⟨out,done,_,mended⟩ := merge_row loose.holds loose.fenced outer loose.room (by omega) links
      refine ⟨out,?_,mended⟩
      simp only [length_nil,Nat.zero_add] at done
      simp [spare,done,inside]
  · have some_ := loose.fill l (by simp)
    have shifted : (front++[l])++c::cs2 = front++l::c::cs2 := by simp
    by_cases spare : l.nkeys > 1
    · obtain ⟨bp',done,mended⟩ := loose.redistribute_left empty spare links
      refine ⟨_,?_,shifted ▸ mended⟩
      simp [spare,done]
    · by_cases spare' : cs2.head?.any (fun r => decide (r.nkeys > 1)) = true
      · obtain ⟨r,rest,rfl,enough⟩ : ∃ r rest, cs2 = r::rest ∧ r.nkeys > 1 := by
          cases cs2 with
          | nil => simp at spare'
          | cons r rest => exact ⟨r,rest,rfl,by simpa using spare'⟩
        obtain ⟨bp',done,mended⟩ := loose.redistribute_right empty enough links
        refine ⟨_,?_,mended⟩
        simp only [length_append,length_singleton] at done
        simp [spare,enough,done]
      · have holds := loose.holds
        have fenced := loose.fenced
        rw [shifted] at holds fenced
        have outer : ∀ x ∈ front++cs2, 1 ≤ x.nkeys := by
          intro x mem
          refine loose.fill x ?_
          simp only [mem_append] at mem ⊢
          tauto
        obtain ⟨out,_,done,mended⟩ := merge_row holds fenced outer loose.room (by omega) links
        refine ⟨out,?_,shifted ▸ mended⟩
        simp only [Bool.not_eq_true] at spare'
        simp [spare,spare',done]

lemma Loose.rebalance (keyed : 1 ≤ ks.length) (links : Links) :
    ∃ out, (if decide (c.nkeys < 1) then BPlusTree.balance 2 links bp cs1.length else some (links,bp)) = some out ∧
      Mended h lo hi links (cs1++c::cs2) out := by
  by_cases empty : c.nkeys < 1
  · rw [decide_eq_true empty]
    exact loose.balance (by omega) keyed links
  · rw [decide_eq_false empty]
    have filled := fill_inside [c] loose.fill (by simpa using Nat.not_lt.mp empty)
    exact ⟨(links,bp),rfl,ks,_,{ loose with fill := filled },rfl,.refl _⟩

end

lemma Subtree.delete (tree : Subtree h lo hi v) (inside : Within lo hi key) (filled : h = 0 ∨ 1 ≤ v.nkeys) (links : Links)
    {fuel : Nat} (enough : h < fuel) :
    ∃ links' v' flag, btreeDeleteInternal 2 fuel links v.node key = some (links',v'.node,flag) ∧ Subtree h lo hi v' ∧
      (1 ≤ v.nkeys → flag = decide (v'.nkeys < 1)) ∧ v'.entries = dropEntry key v.entries ∧
      Relinked (links,v.ids) (links',v'.ids) := by
  induction h generalizing lo hi v links fuel with
  | zero =>
    obtain _ | fuel := fuel
    · omega
    obtain ⟨node,es,rfl,shape⟩ := tree
    rw [nkeys_leaf shape.holds]
    obtain ⟨node',flag,done,holds,id,flagged⟩ := shape.holds.deleteLeaf shape.sorted key
    have sub : (dropEntry key es).Sublist es := filter_sublist
    refine ⟨links,leafView node' (dropEntry key es),flag,?_,⟨node',_,rfl,holds,shape.sorted.sublist sub,?_,?_⟩,flagged,rfl,?_⟩
    · simp only [leafView,btreeDeleteInternal,done,map_some]
    · exact fun e mem => shape.within e (sub.subset mem)
    · exact sub.length_le.trans shape.room
    · simpa [leafView,View.ids,id] using Relinked.refl _
  | succ h ih =>
    obtain _ | fuel := fuel
    · omega
    obtain ⟨node,ks,cs,rfl,row⟩ := tree
    have keyed : 1 ≤ ks.length := by
      rw [← nkeys_index row.holds]
      exact filled.resolve_left (by omega)
    obtain ⟨pre,post,rfl,sought,low,high⟩ := row.seekDown key
    obtain ⟨cs1,c,cs2,rfl,descent⟩ := descend row.fenced inside low high
    obtain ⟨lo',hi',child,within,replace⟩ := descent.bounds
    have some_ := row.fill c (by simp)
    obtain ⟨links1,c',flag,done,tree',flagged,entries,relinked⟩ := ih child within (.inr some_) links (by omega : h < fuel)
    have held := row.holds
    rw [map_append,map_cons] at held
    have read := held.childAt
    obtain ⟨bp,written,held',_⟩ := held.setChild c'.node
    rw [length_map] at read written
    have outer : ∀ x ∈ cs1++cs2, 1 ≤ x.nkeys := fun x mem => row.fill x (mem_of_mem_rest mem)
    have loose : Loose h lo hi bp (pre++post) cs1 c' cs2 :=
      ⟨by simpa using held',replace [] [c'] tree',outer,row.room⟩
    obtain ⟨⟨links2,bp'⟩,balanced,ks',cs',row',entries',relinked'⟩ := loose.rebalance keyed links1
    refine ⟨links2,indexView bp' cs',decide (bp'.nkeys < 1),?_,⟨bp',ks',cs',rfl,row'⟩,fun _ => rfl,?_,?_⟩
    · rw [← descent.left] at sought
      simp only [indexView,btreeDeleteInternal,sought,read,done,written,flagged some_,some_bind]
      exact bind_choice balanced fun out => some (out.1,Node.index out.2,decide (out.2.nkeys < 1))
    · change entriesOf cs' = dropEntry key (entriesOf (cs1++c::cs2))
      rw [entries']
      simp only [entriesOf,flatMap_append,flatMap_cons]
      rw [entries,dropEntry_inside descent.below descent.above]
    · rw [ids_indexView,ids_indexView]
      exact (Relinked.row cs1 [c] [c'] cs2 (by simpa [idsOf] using relinked)).trans relinked'

end

/-! ## The tree of `b+tree.c` refines an ordered map -/
open Chains Runs

/-- The leaves are linked in both directions from `first` to `last`. -/
structure Linked (links : Links) (ids : List Nat) : Prop where
  chain : Chain links.prev links.next none ids none
  nodup : ids.Nodup
  old : ∀ id ∈ ids, id ≤ links.id
  first : ids.head? = some links.first
  last : ids.getLast? = some links.last

section
variable {links : Links} {pre post : List Nat} {id : Nat}

lemma getLast_middle (nodup : (pre++id::post).Nodup) (ends : (pre++id::post).getLast? = some last) :
    last = id ↔ post = [] := by
  rcases List.eq_nil_or_concat' post with rfl | ⟨front,b,rfl⟩
  · simpa using ends.symm
  · have apart : b ≠ id := by
      rintro rfl
      simp [List.nodup_append] at nodup
    obtain rfl : b = last := by simpa [List.getLast?_append,getLast?_cons] using ends
    simpa using apart

lemma Linked.split (linked : Linked links (pre++id::post)) :
    Linked ((allocLeafNode links 2 2).1.linkAfter id (links.id+1)) (pre++id::(links.id+1)::post) := by
  obtain ⟨chain,nodup,old,first,last⟩ := linked
  have fresh : links.id+1 ∉ pre ++ id::post := fun mem => absurd (old _ mem) (by omega)
  have here : id ≤ links.id := old id (by simp)
  have other : id ≠ links.id+1 := by omega
  have behind : (allocLeafNode links 2 2).1.next id = links.next id := by simp [allocLeafNode,other]
  refine ⟨chain.insertAfter nodup fresh ?_ ?_,?_,?_,?_,?_⟩
  · intro x
    by_cases atId : x = id
    · simp [Links.linkAfter,atId]
    · by_cases atNew : x = links.id+1
      · simp [Links.linkAfter,atNew,behind,other.symm]
      · simp [Links.linkAfter,allocLeafNode,atId,atNew]
  · intro x
    cases next : links.next id with
    | none =>
      by_cases atNew : x = links.id+1
      · simp [Links.linkAfter,behind,next,atNew]
      · simp [Links.linkAfter,allocLeafNode,other,next,atNew]
    | some after =>
      by_cases atAfter : x = after
      · simp [Links.linkAfter,behind,next,atAfter]
      · by_cases atNew : x = links.id+1
        · simp [Links.linkAfter,behind,next,atNew,atNew ▸ atAfter]
        · simp [Links.linkAfter,allocLeafNode,other,next,atAfter,atNew]
  · have moved : (pre++id::(links.id+1)::post).Perm ((links.id+1)::(pre++id::post)) := by
      simpa using @List.perm_middle _ (links.id+1) (pre++[id]) post
    exact moved.nodup_iff.mpr (List.nodup_cons.mpr ⟨fresh,nodup⟩)
  · intro x mem
    have bound : x = links.id+1 ∨ x ≤ links.id := by
      simp only [List.mem_append,List.mem_cons] at mem old
      rcases mem with mem | rfl | rfl | mem
      · exact .inr (old x (.inl mem))
      · exact .inr here
      · exact .inl rfl
      · exact .inr (old x (.inr (.inr mem)))
    change x ≤ links.id+1
    omega
  · change (pre++id::(links.id+1)::post).head? = some links.first
    rw [← first]
    cases pre <;> rfl
  · change _ = some (if links.last = id then links.id+1 else links.last)
    have ends := getLast_middle nodup last
    by_cases alone : post = []
    · rw [if_pos (ends.mpr alone),alone]
      simp
    · rw [if_neg (fun same => alone (ends.mp same)),← last]
      rcases List.eq_nil_or_concat' post with rfl | ⟨front,b,rfl⟩
      · exact absurd rfl alone
      · simp [List.getLast?_append,getLast?_cons]

lemma Linked.merge (linked : Linked links (pre++left::right::post)) :
    Linked (links.unlink left right) (pre++left::post) := by
  obtain ⟨chain,nodup,old,first,last⟩ := linked
  have sub : (pre++left::post).Sublist (pre++left::right::post) :=
    List.Sublist.append_left (List.Sublist.cons_cons _ (List.sublist_cons_self _ _)) _
  refine ⟨chain.removeAfter nodup ?_ ?_,nodup.sublist sub,fun x mem => old x (sub.subset mem),?_,?_⟩
  · intro x
    by_cases atLeft : x = left <;> simp [Links.unlink,atLeft]
  · intro x
    cases next : links.next right with
    | none => simp [Links.unlink,next]
    | some after => by_cases atAfter : x = after <;> simp [Links.unlink,next,atAfter]
  · change (pre++left::post).head? = some links.first
    rw [← first]
    cases pre <;> rfl
  · change _ = some (if links.last = right then left else links.last)
    have shifted : pre++left::right::post = (pre++[left])++right::post := by simp
    rw [shifted] at nodup last
    have ends := getLast_middle nodup last
    by_cases alone : post = []
    · rw [if_pos (ends.mpr alone),alone]
      simp
    · rw [if_neg (fun same => alone (ends.mp same)),← last]
      rcases List.eq_nil_or_concat' post with rfl | ⟨front,b,rfl⟩
      · exact absurd rfl alone
      · simp [List.getLast?_append,getLast?_cons]

lemma LinkStep.linked (step : LinkStep s t) (linked : Linked s.1 s.2) : Linked t.1 t.2 := by
  cases step with
  | split links pre id post => exact linked.split
  | merge links pre left right post => exact linked.merge

lemma Relinked.linked (relinked : Relinked s t) (linked : Linked s.1 s.2) : Linked t.1 t.2 := by
  induction relinked with
  | refl => exact linked
  | tail _ step ih => exact step.linked ih

end

lemma LeafNode.Holds.pairs {node : LeafNode} (holds : node.Holds es) : node.pairs = es := by
  obtain ⟨count,⟨rest,keys,_⟩,⟨rest',values,_⟩⟩ := holds
  have zipped : (es.map Prod.fst).zip (es.map Prod.snd) = es := by
    rw [List.zip_map']
    simp
  rw [LeafNode.pairs,keys,values,List.zip_append (by simp),zipped,count,List.take_left]

section
variable {h fuel : Nat} {lo hi : Option Int} {v : View} {key : Int}

lemma Subtree.leaves_eq (tree : Subtree h lo hi v) (enough : h < fuel) : leaves fuel v.node = v.leaves := by
  induction h generalizing lo hi v fuel with
  | zero =>
    obtain _ | fuel := fuel
    · omega
    obtain ⟨node,es,rfl,_⟩ := tree
    rfl
  | succ h ih =>
    obtain _ | fuel := fuel
    · omega
    obtain ⟨node,ks,cs,rfl,row⟩ := tree
    obtain ⟨rest,child,_⟩ := row.holds.child
    have used : node.child.take (node.nkeys+1) = cs.map (fun c => some c.node) := by
      have total := row.fenced.length
      rw [child,row.holds.count,← total,List.map_map]
      exact List.take_left' (by simp)
    change (node.child.take (node.nkeys+1)).flatMap _ = cs.flatMap View.leaves
    rw [used,List.flatMap_map]
    refine List.flatMap_congr fun c mem => ?_
    obtain ⟨lo',hi',part,_⟩ := row.fenced.mem mem
    exact ih part (by omega)

lemma Subtree.pairs (tree : Subtree h lo hi v) : v.leaves.flatMap LeafNode.pairs = v.entries := by
  induction h generalizing lo hi v with
  | zero =>
    obtain ⟨node,es,rfl,shape⟩ := tree
    simp [leafView,shape.holds.pairs]
  | succ h ih =>
    obtain ⟨node,ks,cs,rfl,row⟩ := tree
    change (cs.flatMap View.leaves).flatMap LeafNode.pairs = cs.flatMap View.entries
    rw [List.flatMap_assoc]
    refine List.flatMap_congr fun c mem => ?_
    obtain ⟨lo',hi',part,_⟩ := row.fenced.mem mem
    exact ih part

/-- What the search answers for a key. -/
inductive Answer (key : Int) (es : List (Int × Int)) : Option (LeafNode × Nat) → Prop
  | missing (absent : ∀ e ∈ es, e.1 ≠ key) : Answer key es none
  | found {bp : LeafNode} {slot : Nat} {val : Int} (read : bp.values[slot]? = some val) (present : (key,val) ∈ es) :
      Answer key es (some (bp,slot))

/-- The search from the front stops behind the keys that are not above the one sought. -/
lemma LeafNode.Holds.seek {node : LeafNode} (holds : node.Holds es) (sorted : Sorted es) (key : Int) :
    ∃ pre post, es = pre++post ∧ Slices.seek (fun x => ¬ key ≥ x) node.keys 0 node.nkeys = some pre.length ∧
      (∀ e ∈ pre, e.1 ≤ key) ∧ ∀ e ∈ post, key < e.1 := by
  obtain ⟨ks,ks',cut,sought,low,high⟩ := holds.keys.seek (fun x => decide (¬ key ≥ x)) (n := node.nkeys) (by simp [holds.count])
  obtain ⟨pre,post,rfl,rfl,rfl⟩ := List.map_eq_append_iff.mp cut
  refine ⟨pre,post,rfl,by simpa using sought,fun e mem => by simpa using low e.1 (List.mem_map_of_mem mem),?_⟩
  cases post with
  | nil => simp
  | cons f post =>
    have first : key < f.1 := by simpa using high f.1 rfl
    have order := (List.pairwise_append.mp sorted).2.1
    exact List.forall_mem_cons.mpr ⟨first,fun e later => first.trans ((List.pairwise_cons.mp order).1 e later)⟩

lemma LeafNode.Holds.btreeGet {node : LeafNode} (holds : node.Holds es) (sorted : Sorted es) :
    ∃ result, btreeGet (fuel+1) (.leaf node) key = some result ∧ Answer key es result := by
  obtain ⟨pre,post,rfl,sought,low,high⟩ := holds.seek sorted key
  rcases holds.foundBefore sorted low high with ⟨some_,read,front,w,rfl⟩ | ⟨missing,absent⟩
  · have value : node.values[(front++[(key,w)]).length-1]? = some w := by
      have stored : Slices.Holds 3 (front.map Prod.snd ++ w::post.map Prod.snd) node.values := by simpa using holds.values
      exact stored.get (by simp)
    refine ⟨some (node,_),?_,.found value (by simp)⟩
    simp only [BPlusTree.btreeGet,sought,some_,read,and_self,if_true,some_bind]
    rfl
  · refine ⟨none,?_,.missing absent⟩
    simp only [BPlusTree.btreeGet,sought,missing,if_false,some_bind]
    rfl

lemma Subtree.btreeGet (tree : Subtree h lo hi v) (inside : Within lo hi key) (enough : h < fuel) :
    ∃ result, BPlusTree.btreeGet fuel v.node key = some result ∧ Answer key v.entries result := by
  induction h generalizing lo hi v fuel with
  | zero =>
    obtain _ | fuel := fuel
    · omega
    obtain ⟨node,es,rfl,shape⟩ := tree
    exact shape.holds.btreeGet shape.sorted
  | succ h ih =>
    obtain _ | fuel := fuel
    · omega
    obtain ⟨node,ks,cs,rfl,row⟩ := tree
    obtain ⟨pre,post,rfl,sought,low,high⟩ := row.holds.keys.seek (fun x => decide (¬ key ≥ x)) row.holds.count
    obtain ⟨cs1,c,cs2,rfl,descent⟩ := descend row.fenced inside (by simpa using low) (by simpa using high)
    obtain ⟨lo',hi',child,within,_⟩ := descent.bounds
    obtain ⟨result,done,answer⟩ := ih child within (by omega : h < fuel)
    have held := row.holds
    rw [map_append,map_cons] at held
    have read := held.childAt
    rw [List.length_map,descent.left] at read
    refine ⟨result,?_,?_⟩
    · simp only [indexView,BPlusTree.btreeGet,sought,read,some_bind,done]
    · change Answer key ((cs1++c::cs2).flatMap View.entries) result
      rw [List.flatMap_append,List.flatMap_cons]
      cases answer with
      | missing absent =>
        refine .missing fun e mem => ?_
        simp only [List.mem_append] at mem
        rcases mem with before | here | behind
        · exact (descent.below e before).ne
        · exact absent e here
        · exact (descent.above e behind).ne'
      | found value present => exact .found value (by simp [present])

end

section
variable {bt : BTree}

lemma BTree.walk_eq (step : Nat → Option Nat) (found : ∀ bp ∈ ls, bt.leafAt bp.id = some bp)
    (leads : ∀ pre bp post, ls = pre++bp::post → step bp.id = post.head?.map LeafNode.id) (enough : ls.length ≤ fuel) :
    bt.walk step fuel (ls.head?.map LeafNode.id) = some ls := by
  induction ls generalizing fuel with
  | nil => cases fuel <;> rfl
  | cons bp ls ih =>
    obtain ⟨fuel,rfl⟩ : ∃ n, fuel = n+1 := ⟨fuel-1,by simp at enough; omega⟩
    have behind := ih (fun x mem => found x (by simp [mem]))
      (fun pre x post cut => leads (bp::pre) x post (by rw [cut]; rfl)) (by simpa using enough)
    have here : bt.leafAt bp.id = some bp := found bp (by simp)
    have next : step bp.id = ls.head?.map LeafNode.id := leads [] bp ls rfl
    simp only [List.head?_cons,map_some,BTree.walk,here,next,behind,some_bind]
    rfl

end

/-- The map after an operation. -/
def Op.apply (m : SortedMap Int Int) : Op → SortedMap Int Int
  | .insert key val => m.set key val
  | .delete key => m.erase key

/-- No key already present is inserted. -/
def Op.Fresh (m : SortedMap Int Int) : Op → Prop
  | .insert key _ => m.get key = none
  | .delete _ => True

def contents (m : SortedMap Int Int) (ops : List Op) : SortedMap Int Int := ops.foldl Op.apply m

def Fresh : SortedMap Int Int → List Op → Prop
  | _,[] => True
  | m,op::ops => op.Fresh m ∧ Fresh (op.apply m) ops

/-- Every node below has one to three keys, and every leaf is at depth `h`. -/
def Uniform : Nat → Node → Prop
  | 0,.leaf _ => True
  | h+1,.index bp => ∀ i ≤ bp.nkeys, ∃ c, bp.childAt i = some c ∧ 1 ≤ c.nkeys ∧ c.nkeys ≤ 3 ∧ Uniform h c
  | _,_ => False

lemma Subtree.uniform (tree : Subtree h lo hi v) : Uniform h v.node := by
  induction h generalizing lo hi v with
  | zero =>
    obtain ⟨node,es,rfl,_⟩ := tree
    trivial
  | succ h ih =>
    obtain ⟨node,ks,cs,rfl,row⟩ := tree
    intro i inside
    have total := row.fenced.length
    rw [row.holds.count] at inside
    obtain ⟨cs1,c,cs2,rfl,rfl⟩ := exists_cut cs (show i < cs.length by omega)
    obtain ⟨lo',hi',child,_⟩ := row.fenced.mem (show c ∈ cs1++c::cs2 by simp)
    have held := row.holds
    rw [map_append,map_cons] at held
    have read := held.childAt
    rw [List.length_map] at read
    exact ⟨c.node,read,row.fill c (by simp),child.nkeys_le,ih child⟩

/-- The tree holds the entries of the map, in leaves that are linked in order. -/
structure Refined (bt : BTree) (m : SortedMap Int Int) (h : Nat) (v : View) : Prop where
  degree : bt.t = 2
  root : bt.root = v.node
  tree : Subtree h none none v
  filled : h = 0 ∨ 1 ≤ v.nkeys
  entries : v.entries = m.entries
  linked : Linked bt.links v.ids

section
variable {bt : BTree} {m : SortedMap Int Int} {h : Nat} {v : View}

lemma refined_new : ∃ v, Refined (btreeNew 2) SortedMap.empty 0 v := by
  have holds : LeafNode.Holds [] ⟨1,0,List.replicate 3 0,List.replicate 3 0⟩ :=
    ⟨rfl,holds_nil (by simp),holds_nil (by simp)⟩
  refine ⟨leafView _ [],rfl,rfl,⟨_,[],rfl,holds,.nil,by simp,by simp⟩,.inl rfl,rfl,⟨?_,?_,?_,rfl,rfl⟩⟩
  · exact ⟨rfl,rfl,trivial⟩
  · simp [leafView,View.ids]
  · simp [leafView,View.ids,btreeNew,allocLeafNode]

section
variable (refined : Refined bt m h v)
include refined

lemma Refined.get (key : Int) : bt.get key = some (m.get key) := by
  have enough : h < bt.root.height := refined.root ▸ refined.tree.height_lt
  obtain ⟨result,done,answer⟩ := refined.tree.btreeGet (within_unbounded key) enough
  rw [← refined.root] at done
  rw [refined.entries] at answer
  cases answer with
  | missing absent =>
    simp only [BTree.get,done,get_eq_none absent,some_bind]
    rfl
  | found read present =>
    simp only [BTree.get,done,read,get_eq_some_iff.mpr present,some_bind]
    rfl

lemma Refined.leafAt :
    (∀ bp ∈ v.leaves, bt.leafAt bp.id = some bp) ∧ v.leaves.length ≤ bt.links.id+1 := by
  have enough : h < bt.root.height := refined.root ▸ refined.tree.height_lt
  have listed := refined.tree.leaves_eq enough
  rw [← refined.root] at listed
  constructor
  · intro bp mem
    rw [BTree.leafAt,listed]
    exact find_of_nodup_map refined.linked.nodup mem
  · have inside : v.ids ⊆ List.range (bt.links.id+1) := by
      intro id mem
      have bound := refined.linked.old id mem
      exact List.mem_range.mpr (by omega)
    have bound := (refined.linked.nodup.subperm inside).length_le
    simpa [View.ids] using bound

lemma Refined.forward : bt.linearTraverse false = some m.entries := by
  obtain ⟨found,enough⟩ := refined.leafAt
  have first : v.leaves.head?.map LeafNode.id = some bt.links.first := by
    rw [← List.head?_map]
    exact refined.linked.first
  have walked := BTree.walk_eq bt.links.next found ?_ enough
  · rw [first] at walked
    simp only [BTree.linearTraverse,walked,if_ff,map_some]
    rw [refined.tree.pairs,refined.entries]
  · intro pre bp post cut
    have chain := refined.linked.chain
    rw [View.ids,cut,map_append,map_cons] at chain
    rw [chain.neighbours.2,List.head?_map]

lemma Refined.backward : bt.linearTraverse true = some m.entries.reverse := by
  obtain ⟨found,enough⟩ := refined.leafAt
  have last : v.leaves.reverse.head?.map LeafNode.id = some bt.links.last := by
    rw [List.head?_reverse,← List.getLast?_map]
    exact refined.linked.last
  have walked := BTree.walk_eq bt.links.prev (fun bp mem => found bp (List.mem_reverse.mp mem)) ?_
    (by simpa using enough)
  · rw [last] at walked
    have pairs : v.leaves.reverse.flatMap (fun bp => bp.pairs.reverse) = m.entries.reverse := by
      rw [← refined.entries,← refined.tree.pairs,List.reverse_flatMap]
      rfl
    simp only [BTree.linearTraverse,walked,if_true,map_some,pairs]
  · intro pre bp post cut
    have chain := refined.linked.chain
    have cut' : v.leaves = post.reverse++bp::pre.reverse := by
      rw [← List.reverse_reverse v.leaves,cut]
      simp
    rw [View.ids,cut',map_append,map_cons] at chain
    rw [chain.neighbours.1,List.getLast?_map,List.getLast?_reverse]

end

lemma Subtree.grow (tree : Subtree h none none v) (full : v.nkeys = 3) (links : Links) :
    ∃ newbp links' bp l r, (allocIndexNode 2 0).setChild 0 v.node = some newbp ∧
      btreeSplit 2 links newbp 0 = some (links',bp) ∧ Subtree (h+1) none none (indexView bp [l,r]) ∧
      (indexView bp [l,r]).nkeys = 1 ∧ (indexView bp [l,r]).entries = v.entries ∧
      Relinked (links,v.ids) (links',(indexView bp [l,r]).ids) := by
  obtain ⟨links',k,l,r,half,up,lower,halves,relinked⟩ := tree.split full links
  obtain ⟨newbp,placed,holds⟩ : ∃ newbp, (allocIndexNode 2 0).setChild 0 v.node = some newbp ∧
      newbp.Holds [] [v.node] :=
    ⟨⟨0,List.replicate 3 0,some v.node :: List.replicate 3 none⟩,rfl,rfl,holds_nil (by simp),⟨List.replicate 3 none,rfl,rfl⟩⟩
  have alone : newbp.Holds ([]++[]) ([]++v.node::[]) := holds
  obtain ⟨bp,done,held⟩ := alone.btreeSplit rfl rfl (by simp) half up
  rw [lower] at held
  have fill : ∀ c ∈ [l,r], 1 ≤ c.nkeys := by
    simpa using ⟨halves.left.ge,halves.right.1⟩
  refine ⟨newbp,links',bp,l,r,placed,done,⟨bp,[k],[l,r],rfl,held,halves.fenced,fill,by simp⟩,nkeys_index held,?_,?_⟩
  · simpa [indexView] using halves.entries
  · rw [ids_indexView]
    simpa [idsOf] using relinked

lemma Refined.insert (refined : Refined bt m h v) (val : Int) (fresh : m.get key = none) :
    ∃ bt' h' v', bt.btreeInsert key val = some bt' ∧ Refined bt' (m.set key val) h' v' := by
  obtain ⟨t,root,links⟩ := bt
  obtain ⟨rfl,rfl,tree,filled,entries,linked⟩ := refined
  have absent : ∀ e ∈ v.entries, e.1 ≠ key := by
    rintro ⟨k,w⟩ mem rfl
    rw [entries,← get_eq_some_iff,fresh] at mem
    cases mem
  have deep := tree.height_lt
  by_cases full : v.nkeys = 3
  · obtain ⟨newbp,links1,bp,l,r,placed,split,grown,one,same,relinked⟩ := tree.grow full links
    obtain ⟨links2,v',done,tree',kept,entries',relinked'⟩ := grown.insert val (within_unbounded key) (same ▸ absent) (by omega)
      links1 (Nat.succ_lt_succ deep)
    refine ⟨⟨2,v'.node,links2⟩,h+1,v',?_,rfl,rfl,tree',.inr (by omega),?_,?_⟩
    · have isFull : v.node.nkeys = 2*2-1 := full
      have inserted : btreeInsertInternal 2 (v.node.height+1) links1 (.index bp) key val = some (links2,v'.node) := done
      simp only [BTree.btreeInsert,isFull,if_true,placed,split,inserted,some_bind]
      rfl
    · rw [entries',same,entries]
      rfl
    · exact (relinked.trans relinked').linked linked
  · have bound := tree.nkeys_le
    obtain ⟨links',v',done,tree',kept,entries',relinked⟩ := tree.insert val (within_unbounded key) absent (by omega) links deep
    refine ⟨⟨2,v'.node,links'⟩,h,v',?_,rfl,rfl,tree',filled.imp_right (fun some_ => some_.trans kept),?_,?_⟩
    · have notFull : ¬ v.node.nkeys = 2*2-1 := full
      simp only [BTree.btreeInsert,notFull,if_false,done,some_bind]
      rfl
    · rw [entries',entries]
      rfl
    · exact relinked.linked linked

lemma Refined.delete (refined : Refined bt m h v) (key : Int) :
    ∃ bt' h' v', bt.btreeDelete key = some bt' ∧ Refined bt' (m.erase key) h' v' := by
  obtain ⟨t,root,links⟩ := bt
  obtain ⟨rfl,rfl,tree,filled,entries,linked⟩ := refined
  obtain ⟨links',v',flag,done,tree',_,entries',relinked⟩ := tree.delete (within_unbounded key) filled links tree.height_lt
  have linked' : Linked links' v'.ids := relinked.linked linked
  have erased : v'.entries = (m.erase key).entries := by
    rw [entries',entries]
    rfl
  cases h with
  | zero =>
    obtain ⟨node,es,rfl,shape⟩ := tree'
    refine ⟨⟨2,.leaf node,links'⟩,0,leafView node es,?_,rfl,rfl,⟨node,es,rfl,shape⟩,.inl rfl,erased,linked'⟩
    simp only [BTree.btreeDelete,done,some_bind]
    rfl
  | succ h =>
    obtain ⟨bp,ks,cs,rfl,row⟩ := tree'
    have gone : btreeDeleteInternal 2 v.node.height links v.node key = some (links',.index bp,flag) := done
    by_cases single : bp.nkeys = 0
    · -- the root has one child left, which becomes the root
      rw [row.holds.count,List.length_eq_zero_iff] at single
      subst single
      obtain ⟨c,rfl⟩ : ∃ c, cs = [c] := List.length_eq_one_iff.mp row.fenced.length
      have alone : bp.Holds [] ([]++c.node::[]) := row.holds
      have read : bp.childAt 0 = some c.node := alone.childAt
      have count : bp.nkeys = 0 := row.holds.count
      refine ⟨⟨2,c.node,links'⟩,h,c,?_,rfl,rfl,row.fenced,.inr (row.fill c (by simp)),?_,?_⟩
      · simp only [BTree.btreeDelete,gone,count,if_true,read,some_bind]
        rfl
      · simpa [indexView] using erased
      · simpa [ids_indexView,idsOf] using linked'
    · have some_ : 1 ≤ (indexView bp cs).nkeys := Nat.one_le_iff_ne_zero.mpr single
      refine ⟨⟨2,.index bp,links'⟩,h+1,_,?_,rfl,rfl,⟨bp,ks,cs,rfl,row⟩,.inr some_,erased,linked'⟩
      simp only [BTree.btreeDelete,gone,single,if_false,some_bind]
      rfl

lemma Refined.run (ops : List Op) (refined : Refined bt m h v) (fresh : Fresh m ops) :
    ∃ bt' h' v', Runs.run BTree.step bt ops = some bt' ∧ Refined bt' (contents m ops) h' v' := by
  induction ops generalizing bt m h v with
  | nil => exact ⟨bt,h,v,rfl,refined⟩
  | cons op ops ih =>
    obtain ⟨now,later⟩ := fresh
    have stepped : ∃ bt' h' v', bt.step op = some bt' ∧ Refined bt' (op.apply m) h' v' := by
      cases op with
      | insert key val => exact refined.insert val now
      | delete key => exact refined.delete key
    obtain ⟨bt1,h1,v1,step,refined1⟩ := stepped
    obtain ⟨bt',h',v',rest,refined'⟩ := ih refined1 later
    refine ⟨bt',h',v',?_,refined'⟩
    rwa [Runs.run,step]

end

/-- Every run of insertions of new keys and deletions succeeds, and the tree it ends with is the map. -/
theorem bplustree_refines (ops : List Op) (fresh : Fresh SortedMap.empty ops) :
    ∃ bt, run BTree.step (btreeNew 2) ops = some bt ∧
      (∀ key, bt.get key = some ((contents SortedMap.empty ops).get key)) ∧ (∃ h, Uniform h bt.root) ∧
      bt.linearTraverse false = some (contents SortedMap.empty ops).entries ∧
      bt.linearTraverse true = some (contents SortedMap.empty ops).entries.reverse := by
  obtain ⟨v,refined⟩ := refined_new
  obtain ⟨bt,h,v,done,refined⟩ := refined.run ops fresh
  exact ⟨bt,done,refined.get,⟨h,refined.root ▸ refined.tree.uniform⟩,refined.forward,refined.backward⟩

/-- Splits, a merge, a key taken from a neighbour and a deletion that finds nothing. -/
def mixed : List Op := [.insert 1 10,.insert 2 20,.insert 3 30,.insert 4 40,.insert 5 50,.insert 6 60,.delete 2,.delete 1,
  .delete 9,.insert 2 21]

theorem bplustree_refines_mixed : ∃ bt, run BTree.step (btreeNew 2) mixed = some bt ∧ bt.get 2 = some (some 21) ∧
    bt.get 1 = some none ∧ bt.linearTraverse true = some [(6,60),(5,50),(4,40),(3,30),(2,21)] := by
  have fresh : Fresh SortedMap.empty mixed := by simp only [Fresh,mixed,Op.Fresh]; decide +kernel
  obtain ⟨bt,done,get,_,_,backward⟩ := bplustree_refines mixed fresh
  exact ⟨bt,done,(get 2).trans (by decide +kernel),(get 1).trans (by decide +kernel),backward.trans (by decide +kernel)⟩

end CodeExercise.BPlusTree
