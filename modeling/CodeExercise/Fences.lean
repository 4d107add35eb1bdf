import CodeExercise.SortedMaps
import Mathlib.Data.List.Basic
import Mathlib.Data.Option.Basic

/-!
A row of parts with a separator between each two neighbours. The row can be cut at a separator
(`fenced_append`), a segment of it can be replaced (`Fenced.focus`), and a key leads to the one part
whose bounds it is within (`Fenced.route`).
-/
namespace CodeExercise.Fences
open List Option
universe u v w

variable {K : Type u} [LinearOrder K] {γ : Type v} {β : Type w}

/-- The key is not below `lo` and is below `hi`. -/
def Within (lo hi : Option K) (k : K) : Prop := (∀ l ∈ lo, l ≤ k) ∧ ∀ u ∈ hi, k < u
/-- A separator between the bounds; it may be equal to either. -/
def Fits (lo hi : Option K) (k : K) : Prop := (∀ l ∈ lo, l ≤ k) ∧ ∀ u ∈ hi, k ≤ u
lemma within_unbounded (k : K) : Within none none k := ⟨by simp,by simp⟩

lemma Within.fits {k : K} (inside : Within lo hi k) : Fits lo hi k :=
  ⟨inside.1,fun u bound => le_of_lt (inside.2 u bound)⟩

lemma Fits.below {s k : K} (sep : Fits lo hi s) (inside : Within lo (some s) k) :
    Within lo hi k := ⟨inside.1,fun u bound => lt_of_lt_of_le (inside.2 s rfl) (sep.2 u bound)⟩

lemma Fits.above {s k : K} (sep : Fits lo hi s) (inside : Within (some s) hi k) :
    Within lo hi k := ⟨fun l bound => le_trans (sep.1 l bound) (inside.1 s rfl),inside.2⟩

def Fenced (C : Option K → Option K → γ → Prop) : Option K → Option K → List K → List γ → Prop
  | lo,hi,[],[c] => C lo hi c
  | lo,hi,k::ks,c::cs => C lo (some k) c ∧ Fits lo hi k ∧ Fenced C (some k) hi ks cs
  | _,_,_,_ => False

section
variable {C : Option K → Option K → γ → Prop} {lo hi : Option K} {ks ks1 ks2 ksm : List K} {cs cs1 cs2 csm : List γ}
  {k : K} {c : γ}

lemma fenced_cons : Fenced C lo hi (k::ks) (c::cs) ↔
    C lo (some k) c ∧ Fits lo hi k ∧ Fenced C (some k) hi ks cs := Iff.rfl

lemma Fenced.length (fenced : Fenced C lo hi ks cs) : cs.length = ks.length+1 := by
  induction ks generalizing lo cs with
  | nil =>
    match cs,fenced with
    | [c],_ => rfl
  | cons k ks ih =>
    match cs,fenced with
    | c::cs,⟨_,_,rest⟩ => rw [length_cons,ih rest,length_cons]

lemma Fenced.imp (fenced : Fenced C lo hi ks cs)
    (parts : ∀ lo hi, ∀ c ∈ cs, C lo hi c → D lo hi c) : Fenced D lo hi ks cs := by
  induction ks generalizing lo cs with
  | nil =>
    match cs,fenced with
    | [c],part => exact parts lo hi c (by simp) part
  | cons k ks ih =>
    match cs,fenced with
    | c::cs,⟨part,sep,rest⟩ =>
      exact ⟨parts lo (some k) c (by simp) part,sep,ih rest (fun lo hi c mem => parts lo hi c (by simp [mem]))⟩

lemma fenced_append (len : cs1.length = ks1.length+1) : Fenced C lo hi (ks1++k::ks2) (cs1++cs2) ↔
    Fenced C lo (some k) ks1 cs1 ∧ Fits lo hi k ∧ Fenced C (some k) hi ks2 cs2 := by
  induction ks1 generalizing lo cs1 with
  | nil =>
    match cs1,len with
    | [c],_ => exact Iff.rfl
  | cons j ks1 ih =>
    match cs1,len with
    | c::cs1,len =>
      rw [cons_append,cons_append,fenced_cons,fenced_cons,ih (by simpa using len)]
      constructor
      · rintro ⟨first,low,left,sep,right⟩
        have ordered : j ≤ k := sep.1 j rfl
        refine ⟨⟨first,⟨low.1,?_⟩,left⟩,⟨fun l bound => le_trans (low.1 l bound) ordered,sep.2⟩,right⟩
        intro u bound
        obtain rfl : k = u := by simpa using bound
        exact ordered
      · rintro ⟨⟨first,low,left⟩,sep,right⟩
        have ordered : j ≤ k := low.2 k rfl
        refine ⟨first,⟨low.1,fun u bound => le_trans ordered (sep.2 u bound)⟩,left,⟨?_,sep.2⟩,right⟩
        intro l bound
        obtain rfl : j = l := by simpa using bound
        exact ordered

/-- A segment of a row is a row between bounds of its own, and any other row between
the same bounds may take its place, also for a property `D` that the parts around it
have as well. -/
lemma Fenced.focus (left : cs1.length = ks1.length) (middle : csm.length = ksm.length+1)
    (fenced : Fenced C lo hi (ks1++(ksm++ks2)) (cs1++(csm++cs2))) :
    ∃ lo' hi', Fenced C lo' hi' ksm csm ∧ ∀ (D : Option K → Option K → γ → Prop) (ksm' : List K) (csm' : List γ),
      (∀ lo hi, ∀ c ∈ cs1++cs2, C lo hi c → D lo hi c) → Fenced D lo' hi' ksm' csm' →
        Fenced D lo hi (ks1++(ksm'++ks2)) (cs1++(csm'++cs2)) := by
  induction ks1 generalizing lo cs1 with
  | nil =>
    obtain rfl : cs1 = [] := length_eq_zero_iff.mp left
    cases ks2 with
    | nil =>
      have len := fenced.length
      obtain rfl : cs2 = [] := by
        apply length_eq_zero_iff.mp
        simp only [nil_append,append_nil,length_append] at len
        omega
      simp only [nil_append,append_nil] at fenced ⊢
      exact ⟨lo,hi,fenced,fun _ _ _ _ whole => whole⟩
    | cons k ks2 =>
      obtain ⟨segment,sep,right⟩ := (fenced_append middle).mp fenced
      exact ⟨lo,some k,segment,fun _ _ _ outer whole => (fenced_append whole.length).mpr ⟨whole,sep,right.imp outer⟩⟩
  | cons k ks1 ih =>
    match cs1,left with
    | c::cs1,left =>
      obtain ⟨first,sep,rest⟩ := fenced
      obtain ⟨lo',hi',segment,replace⟩ := ih (by simpa using left) rest
      exact ⟨lo',hi',segment,fun D _ _ outer whole => ⟨outer lo (some k) c (by simp) first,sep,
        replace D _ _ (fun lo hi a mem => outer lo hi a (mem_cons_of_mem c mem)) whole⟩⟩

/-- Every part meets `C` for bounds inside those of the row. -/
lemma Fenced.mem (fenced : Fenced C lo hi ks cs) (mem : c ∈ cs) :
    ∃ lo' hi', C lo' hi' c ∧ ∀ k, Within lo' hi' k → Within lo hi k := by
  induction ks generalizing lo cs with
  | nil =>
    match cs,fenced with
    | [first],part =>
      obtain rfl : c = first := by simpa using mem
      exact ⟨lo,hi,part,fun _ inside => inside⟩
  | cons k ks ih =>
    match cs,fenced with
    | first::cs,⟨part,sep,rest⟩ =>
      rcases mem_cons.mp mem with rfl | later
      · exact ⟨lo,some k,part,fun _ inside => sep.below inside⟩
      · obtain ⟨lo',hi',inner,inside⟩ := ih rest later
        exact ⟨lo',hi',inner,fun j within => sep.above (inside j within)⟩

lemma Fenced.sorted (fenced : Fenced C lo hi ks cs) : ks.Pairwise (· ≤ ·) ∧ ∀ l ∈ lo, ∀ x ∈ ks, l ≤ x := by
  induction ks generalizing lo cs with
  | nil => exact ⟨.nil,by simp⟩
  | cons k ks ih =>
    match cs,fenced with
    | c::cs,⟨_,sep,rest⟩ =>
      obtain ⟨ordered,above⟩ := ih rest
      have first : ∀ x ∈ ks, k ≤ x := above k rfl
      refine ⟨pairwise_cons.mpr ⟨first,ordered⟩,fun l bound x mem => ?_⟩
      have low := sep.1 l bound
      rcases mem_cons.mp mem with rfl | later
      · exact low
      · exact low.trans (first x later)

/-- The key belongs to the part behind the separators that are not above it: its
bounds admit the key, another row may take its place, the parts before it have only room for smaller keys, and
those behind it for greater ones. -/
lemma Fenced.route (fenced : Fenced C lo hi (ks1++ks2) cs) (inside : Within lo hi k)
    (low : ∀ x ∈ ks1, x ≤ k) (high : ∀ x ∈ ks2.head?, k < x) :
    ∃ cs1 c cs2 lo' hi', cs = cs1++c::cs2 ∧ cs1.length = ks1.length ∧ C lo' hi' c ∧ Within lo' hi' k ∧
      (∀ (D : Option K → Option K → γ → Prop) (ksm : List K) (csm : List γ),
        (∀ lo hi, ∀ a ∈ cs1++cs2, C lo hi a → D lo hi a) → Fenced D lo' hi' ksm csm →
          Fenced D lo hi (ks1++(ksm++ks2)) (cs1++(csm++cs2))) ∧
      (∀ a ∈ cs1, ∃ l u, C l u a ∧ ∀ x, Within l u x → x < k) ∧
      ∀ a ∈ cs2, ∃ l u, C l u a ∧ ∀ x, Within l u x → k < x := by
  induction ks1 generalizing lo cs with
  | nil =>
    cases ks2 with
    | nil =>
      match cs,fenced with
      | [c],part => exact ⟨[],c,[],lo,hi,rfl,rfl,part,inside,fun _ _ _ _ row => by simpa using row,by simp,by simp⟩
    | cons j ks2 =>
      match cs,fenced with
      | c::cs,⟨part,sep,rest⟩ =>
        have above : k < j := high j rfl
        refine ⟨[],c,cs,lo,some j,rfl,rfl,part,⟨inside.1,?_⟩,
          fun _ _ _ outer row => (fenced_append row.length).mpr ⟨row,sep,rest.imp outer⟩,by simp,?_⟩
        · intro u bound
          obtain rfl : j = u := by simpa using bound
          exact above
        · intro a mem
          obtain ⟨l,u,met,narrow⟩ := Fenced.mem rest mem
          exact ⟨l,u,met,fun x room => lt_of_lt_of_le above ((narrow x room).1 j rfl)⟩
  | cons j ks1 ih =>
    match cs,fenced with
    | c::cs,⟨part,sep,rest⟩ =>
      have below : j ≤ k := low j (by simp)
      obtain ⟨cs1,c',cs2,lo',hi',rfl,len,found,within,replace,left,right⟩ := ih rest
        ⟨by simpa using below,inside.2⟩ (fun x mem => low x (mem_cons_of_mem j mem))
      refine ⟨c::cs1,c',cs2,lo',hi',rfl,by simpa using len,found,within,
        fun D _ _ outer row => ⟨outer lo (some j) c (by simp) part,sep,
          replace D _ _ (fun lo hi a mem => outer lo hi a (mem_cons_of_mem c mem)) row⟩,?_,right⟩
      exact forall_mem_cons.mpr ⟨⟨lo,some j,part,fun x room => lt_of_lt_of_le (room.2 j rfl) below⟩,left⟩

/-- What the parts of a row contain is in order and within its bounds, if that is so for each part. -/
lemma Fenced.contents {key : β → K} (fenced : Fenced C lo hi ks cs)
    (parts : ∀ lo hi c, C lo hi c → (f c).Pairwise (fun a b => key a < key b) ∧ ∀ b ∈ f c, Within lo hi (key b)) :
    (cs.flatMap f).Pairwise (fun a b => key a < key b) ∧ ∀ b ∈ cs.flatMap f, Within lo hi (key b) := by
  induction ks generalizing lo cs with
  | nil =>
    match cs,fenced with
    | [c],part => simpa using parts lo hi c part
  | cons k ks ih =>
    match cs,fenced with
    | c::cs,⟨part,sep,rest⟩ =>
      obtain ⟨sorted,below⟩ := parts lo (some k) c part
      obtain ⟨later,above⟩ := ih rest
      rw [flatMap_cons]
      refine ⟨pairwise_append.mpr ⟨sorted,later,?_⟩,?_⟩
      · intro a before b behind
        exact lt_of_lt_of_le ((below a before).2 k rfl) ((above b behind).1 k rfl)
      · exact forall_mem_append.mpr ⟨fun b before => sep.below (below b before),fun b behind => sep.above (above b behind)⟩

/-- What is in order is cut before an element, whose key then bounds both sides. -/
lemma within_cut {key : β → K} {pre post : List β} {b : β} (sorted : (pre++b::post).Pairwise (fun x y => key x < key y))
    (within : ∀ x ∈ pre++b::post, Within lo hi (key x)) :
    (∀ x ∈ pre, Within lo (some (key b)) (key x)) ∧ Fits lo hi (key b) ∧
      ∀ x ∈ b::post, Within (some (key b)) hi (key x) := by
  obtain ⟨_,behind,across⟩ := pairwise_append.mp sorted
  refine ⟨fun x mem => ⟨(within x (by simp [mem])).1,fun u bound => ?_⟩,(within b (by simp)).fits,
    fun x mem => ⟨fun u bound => ?_,(within x (mem_append_right _ mem)).2⟩⟩
  · obtain rfl : key b = u := by simpa using bound
    exact across x mem b (by simp)
  · obtain rfl : key b = u := by simpa using bound
    rcases mem_cons.mp mem with rfl | later
    · exact le_rfl
    · exact ((pairwise_cons.mp behind).1 x later).le

lemma forall_mem_parts {P : K → Prop} {f : γ → List (K × β)} (inside : ∀ l u a, C l u a → ∀ e ∈ f a, Within l u e.1)
    (parts : ∀ a ∈ cs, ∃ l u, C l u a ∧ ∀ k, Within l u k → P k) : ∀ e ∈ cs.flatMap f, P e.1 := by
  intro e mem
  obtain ⟨a,here,mem⟩ := mem_flatMap.mp mem
  obtain ⟨l,u,part,holds⟩ := parts a here
  exact holds _ (inside l u a part e mem)

end

section
variable {L : Type*} [LinearOrder L] {f : K → L} {lo hi : Option K} {k : K}

section
variable (increasing : StrictMono f)
include increasing

lemma Within.map (inside : Within lo hi k) : Within (lo.map f) (hi.map f) (f k) := by
  constructor
  · intro l bound
    obtain ⟨l,given,rfl⟩ := map_eq_some_iff.mp bound
    exact increasing.monotone (inside.1 l given)
  · intro u bound
    obtain ⟨u,given,rfl⟩ := map_eq_some_iff.mp bound
    exact increasing (inside.2 u given)

lemma Fits.map (sep : Fits lo hi k) : Fits (lo.map f) (hi.map f) (f k) := by
  constructor
  · intro l bound
    obtain ⟨l,given,rfl⟩ := map_eq_some_iff.mp bound
    exact increasing.monotone (sep.1 l given)
  · intro u bound
    obtain ⟨u,given,rfl⟩ := map_eq_some_iff.mp bound
    exact increasing.monotone (sep.2 u given)

lemma Fenced.map {δ : Type*} {g : γ → δ} {C : Option K → Option K → γ → Prop} {D : Option L → Option L → δ → Prop} {ks : List K}
    {cs : List γ} (fenced : Fenced C lo hi ks cs)
    (parts : ∀ lo hi c, C lo hi c → D (lo.map f) (hi.map f) (g c)) :
    Fenced D (lo.map f) (hi.map f) (ks.map f) (cs.map g) := by
  induction ks generalizing lo cs with
  | nil =>
    match cs,fenced with
    | [c],part => exact parts lo hi c part
  | cons k ks ih =>
    match cs,fenced with
    | c::cs,⟨part,sep,rest⟩ => exact ⟨parts lo (some k) c part,sep.map increasing,ih rest⟩

end
end
end CodeExercise.Fences
