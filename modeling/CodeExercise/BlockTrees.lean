import CodeExercise.Fences

/-! Search trees whose nodes are in numbered blocks. -/
namespace CodeExercise.BlockTrees
open Fences SortedMaps List

variable {K V : Type}

/-- The block of a node, with the entries and the blocks below it. -/
structure View (K V : Type) where
  id : Nat
  entries : List (K × V)
  blocks : List Nat

def leafView (b : Nat) (es : List (K × V)) : View K V := ⟨b,es,[b]⟩
def rowView (b : Nat) (cs : List (View K V)) : View K V := ⟨b,cs.flatMap View.entries,b::cs.flatMap View.blocks⟩

structure Content (K V : Type) where
  leaf : Nat → List (K × V) → Prop
  row : Nat → List K → List Nat → Prop

/-- What `A` says of the block is so for `B`. -/
structure Content.Agree (A B : Content K V) (b : Nat) : Prop where
  leaf : ∀ es, A.leaf b es → B.leaf b es
  row : ∀ ks cs, A.row b ks cs → B.row b ks cs

lemma nodup_replace {A B B' C : List Nat} {P : Nat → Prop} (nodup : (A++(B++C)).Nodup) (distinct : B'.Nodup)
    (origin : ∀ b ∈ B', b ∈ B ∨ P b) (fresh : ∀ b ∈ A++C, ¬ P b) : (A++(B'++C)).Nodup := by
  simp only [nodup_append,mem_append] at nodup fresh ⊢
  obtain ⟨left,⟨_,right,between⟩,across⟩ := nodup
  refine ⟨left,⟨distinct,right,fun a inside b other => ?_⟩,fun a inside b other => ?_⟩
  · rcases origin a inside with old | new
    · exact between a old b other
    · rintro rfl
      exact fresh a (.inr other) new
  · rcases other with middle | last
    · rcases origin b middle with old | new
      · exact across a inside b (.inl old)
      · rintro rfl
        exact fresh a (.inl inside) new
    · exact across a inside b (.inr last)

variable [LinearOrder K]

def Subtree (B : Content K V) : Nat → Option K → Option K → View K V → Prop
  | 0,lo,hi,v => ∃ b es, v = leafView b es ∧ B.leaf b es ∧ es.Pairwise (fun x y => x.1 < y.1) ∧ ∀ e ∈ es, Within lo hi e.1
  | h+1,lo,hi,v => ∃ b ks cs, v = rowView b cs ∧ B.row b ks (cs.map View.id) ∧ Fenced (Subtree B h) lo hi ks cs

section
variable {A B : Content K V} {h b : Nat} {lo hi : Option K} {v : View K V} {key : K}

lemma Subtree.agree (tree : Subtree A h lo hi v) (same : ∀ b ∈ v.blocks, A.Agree B b) : Subtree B h lo hi v := by
  induction h generalizing lo hi v with
  | zero =>
    obtain ⟨b,es,rfl,holds,rest⟩ := tree
    exact ⟨b,es,rfl,(same b (by simp [leafView])).leaf es holds,rest⟩
  | succ h ih =>
    obtain ⟨b,ks,cs,rfl,holds,fenced⟩ := tree
    refine ⟨b,ks,cs,rfl,(same b (by simp [rowView])).row ks _ holds,fenced.imp (fun lo hi c mem child => ?_)⟩
    exact ih child fun b inside => same b (mem_cons_of_mem _ (mem_flatMap.mpr ⟨c,mem,inside⟩))

lemma fenced_agree (fenced : Fenced (Subtree A h) lo hi ks cs)
    (same : ∀ b ∈ cs.flatMap View.blocks, A.Agree B b) : Fenced (Subtree B h) lo hi ks cs :=
  fenced.imp (fun _ _ c mem tree => tree.agree (fun b inside => same b (mem_flatMap.mpr ⟨c,mem,inside⟩)))

lemma Subtree.ordered (tree : Subtree B h lo hi v) :
    v.entries.Pairwise (fun x y => x.1 < y.1) ∧ ∀ e ∈ v.entries, Within lo hi e.1 := by
  induction h generalizing lo hi v with
  | zero =>
    obtain ⟨b,es,rfl,_,sorted,within⟩ := tree
    exact ⟨sorted,within⟩
  | succ h ih =>
    obtain ⟨b,ks,cs,rfl,_,fenced⟩ := tree
    exact fenced.contents fun _ _ _ child => ih child

lemma Subtree.height_lt (tree : Subtree B h lo hi v) : h < v.blocks.length := by
  induction h generalizing lo hi v with
  | zero =>
    obtain ⟨b,es,rfl,_⟩ := tree
    simp [leafView]
  | succ h ih =>
    obtain ⟨b,ks,cs,rfl,_,fenced⟩ := tree
    obtain ⟨c,rest,rfl⟩ := exists_cons_of_length_eq_add_one fenced.length
    obtain ⟨_,_,child,_⟩ := fenced.mem (mem_cons_self : c ∈ c::rest)
    have deeper := ih child
    simp only [rowView,flatMap_cons,length_cons,length_append]
    omega

/-- The child a key belongs to, how a row takes its place, and where the other entries are. -/
structure Descent (B : Content K V) (h : Nat) (lo hi : Option K) (key : K) (pre post : List K) (cs1 : List (View K V)) (c : View K V)
    (cs2 : List (View K V)) (lo' hi' : Option K) : Prop where
  len : cs1.length = pre.length
  child : Subtree B h lo' hi' c
  inside : Within lo' hi' key
  replace : ∀ (S : Option K → Option K → View K V → Prop) (ks : List K) (cs : List (View K V)),
    (∀ lo hi, ∀ x ∈ cs1++cs2, Subtree B h lo hi x → S lo hi x) → Fenced S lo' hi' ks cs →
      Fenced S lo hi (pre++(ks++post)) (cs1++(cs++cs2))
  below : ∀ e ∈ cs1.flatMap View.entries, e.1 < key
  above : ∀ e ∈ cs2.flatMap View.entries, key < e.1

lemma descend (fenced : Fenced (Subtree B h) lo hi (pre++post) cs)
    (inside : Within lo hi key) (low : ∀ x ∈ pre, x ≤ key) (high : ∀ x ∈ post.head?, key < x) :
    ∃ cs1 c cs2 lo' hi', cs = cs1++c::cs2 ∧ Descent B h lo hi key pre post cs1 c cs2 lo' hi' := by
  obtain ⟨cs1,c,cs2,lo',hi',rfl,len,child,room,replace,left,right⟩ := fenced.route inside low high
  refine ⟨cs1,c,cs2,lo',hi',rfl,len,child,room,replace,
    forall_mem_parts (fun _ _ _ tree => tree.ordered.2) left,forall_mem_parts (fun _ _ _ tree => tree.ordered.2) right⟩

/-- One node, or two with a separator between them, in old blocks and new ones. -/
structure Grown (B : Content K V) (h : Nat) (lo hi : Option K) (old : View K V) (new : Nat → Prop) (es : List (K × V)) (v : View K V)
    (more : Option (K × View K V)) : Prop where
  fenced : Fenced (Subtree B h) lo hi (more.toList.map Prod.fst) (v::more.toList.map Prod.snd)
  id : v.id = old.id
  entries : (v::more.toList.map Prod.snd).flatMap View.entries = es
  nodup : ((v::more.toList.map Prod.snd).flatMap View.blocks).Nodup
  blocks : ∀ c ∈ (v::more.toList.map Prod.snd).flatMap View.blocks, c ∈ old.blocks ∨ new c

/-- The row around a child after an insertion below it, in which only blocks of the child and new ones were changed. -/
lemma Descent.grow {pre post : List K} {cs1 cs2 : List (View K V)} {c c' : View K V} {lo' hi' : Option K} {new : Nat → Prop}
    {more : Option (K × View K V)} (descent : Descent A h lo hi key pre post cs1 c cs2 lo' hi')
    (nodup : (rowView b (cs1++c::cs2)).blocks.Nodup) (fresh : ∀ x ∈ (rowView b (cs1++c::cs2)).blocks, ¬ new x)
    (agree : ∀ x, x ∉ c.blocks → ¬ new x → A.Agree B x) (grown : Grown B h lo' hi' c new (setEntry key val c.entries) c' more) :
    A.Agree B b ∧
    Fenced (Subtree B h) lo hi (pre++(more.toList.map Prod.fst ++ post)) (cs1++(c'::more.toList.map Prod.snd ++ cs2)) ∧
    (rowView b (cs1++(c'::more.toList.map Prod.snd ++ cs2))).entries = setEntry key val (rowView b (cs1++c::cs2)).entries ∧
    (rowView b (cs1++(c'::more.toList.map Prod.snd ++ cs2))).blocks.Nodup ∧
    ∀ x ∈ (rowView b (cs1++(c'::more.toList.map Prod.snd ++ cs2))).blocks,
      x ∈ (rowView b (cs1++c::cs2)).blocks ∨ new x := by
  have all : (rowView b (cs1++c::cs2)).blocks =
      (b::cs1.flatMap View.blocks) ++ (c.blocks++cs2.flatMap View.blocks) := by simp [rowView]
  have whole : (rowView b (cs1++(c'::more.toList.map Prod.snd ++ cs2))).blocks = (b::cs1.flatMap View.blocks) ++
      ((c'::more.toList.map Prod.snd).flatMap View.blocks ++ cs2.flatMap View.blocks) := by simp [rowView]
  rw [all] at nodup fresh
  -- the blocks of the child are its own
  have apart : ∀ x ∈ (b::cs1.flatMap View.blocks)++cs2.flatMap View.blocks, x ∉ c.blocks ∧ ¬ new x := by
    obtain ⟨_,⟨_,_,between⟩,across⟩ := by simpa only [nodup_append] using nodup
    intro x mem
    rcases mem_append.mp mem with before | behind
    · exact ⟨fun child => across x before x (mem_append_left _ child) rfl,fresh x (mem_append_left _ before)⟩
    · exact ⟨fun child => between x child x behind rfl,fresh x (mem_append_right _ (mem_append_right _ behind))⟩
  have here := apart b (by simp)
  rw [whole,all]
  refine ⟨agree b here.1 here.2,descent.replace _ _ _ (fun lo hi x mem tree => ?_) grown.fenced,?_,
    nodup_replace nodup grown.nodup grown.blocks (fun x mem => (apart x mem).2),fun x mem => ?_⟩
  · refine tree.agree fun y inside => ?_
    have outside := apart y (by
      rcases mem_append.mp mem with before | behind
      · exact mem_append_left _ (mem_cons_of_mem _ (mem_flatMap.mpr ⟨x,before,inside⟩))
      · exact mem_append_right _ (mem_flatMap.mpr ⟨x,behind,inside⟩))
    exact agree y outside.1 outside.2
  · simp only [rowView]
    rw [flatMap_append,flatMap_append,grown.entries,flatMap_append,flatMap_cons,
      setEntry_append_left descent.below,setEntry_append_right _ descent.above]
  · rcases mem_append.mp mem with before | rest
    · exact .inl (mem_append_left _ before)
    rcases mem_append.mp rest with middle | behind
    · exact (grown.blocks x middle).imp_left fun child => mem_append_right _ (mem_append_left _ child)
    · exact .inl (mem_append_right _ (mem_append_right _ behind))

lemma leaf_pair (sorted : (pre++e::post).Pairwise (fun x y => x.1 < y.1))
    (within : ∀ x ∈ pre++e::post, Within lo hi x.1) (left : B.leaf l pre) (right : B.leaf r (e::post)) :
    Fenced (Subtree B 0) lo hi [e.1] [leafView l pre,leafView r (e::post)] := by
  obtain ⟨before,behind,_⟩ := pairwise_append.mp sorted
  obtain ⟨lower,sep,upper⟩ := within_cut sorted within
  exact ⟨⟨l,pre,rfl,left,before,lower⟩,sep,r,e::post,rfl,right,behind,upper⟩

lemma row_pair
    (fenced : Fenced (Subtree B h) lo hi (ks1++k::ks2) (cs1++cs2)) (len : cs1.length = ks1.length+1)
    (left : B.row l ks1 (cs1.map View.id)) (right : B.row r ks2 (cs2.map View.id)) :
    Fenced (Subtree B (h+1)) lo hi [k] [rowView l cs1,rowView r cs2] := by
  obtain ⟨before,sep,behind⟩ := (fenced_append len).mp fenced
  exact ⟨⟨l,ks1,cs1,rfl,left,before⟩,sep,r,ks2,cs2,rfl,right,behind⟩

end
end CodeExercise.BlockTrees
