import CodeExercise.Partial
import Mathlib.Data.List.Induction

/-!
Loops over slices: arrays of a fixed length of which the first elements are in use. Every access is
checked, so a loop has no result when an index is out of range. The loops that make room for an
element, close a gap, move a tail or append a copy are described by what the slice holds before and
afterwards.
-/
namespace CodeExercise.Slices
open List Option Function
universe u

variable {α : Type u}

/-- `a[i] = x`. -/
def put (a : List α) (i : Nat) (x : α) : Option (List α) := if i < a.length then some (a.set i x) else none

/-- `for l := i+k-1; l >= i; l-- : a[l+1] = a[l]`. -/
def shiftUp (i : Nat) : Nat → List α → Option (List α)
  | 0,a => some a
  | k+1,a => a[i+k]?.bind (fun x => (put a (i+k+1) x).bind (shiftUp i k))

/-- `for j := i+1; j <= i+k; j++ : a[j-1] = a[j]`. -/
def shiftDown : Nat → Nat → List α → Option (List α)
  | _,0,a => some a
  | i,k+1,a => a[i+1]?.bind (fun x => (put a i x).bind (shiftDown (i+1) k))

/-- `for r := k-1; r >= 0; r-- : dst[r] = src[b+r], src[b+r] = zero`. -/
def moveTail (zero : α) (b : Nat) : Nat → List α → List α → Option (List α × List α)
  | 0,src,dst => some (src,dst)
  | r+1,src,dst =>
    src[b+r]?.bind (fun x => (put dst r x).bind (fun dst => (put src (b+r) zero).bind (fun src =>
      moveTail zero b r src dst)))

/-- `for ; k > 0; i++ : dst[j+i] = src[i], k--`. -/
def copyTo (src : List α) (j : Nat) : Nat → Nat → List α → Option (List α)
  | _,0,dst => some dst
  | i,k+1,dst => src[i]?.bind (fun x => (put dst (j+i) x).bind (copyTo src j (i+1) k))

/-- `for ; k > 0; i++ : if p(a[i]) break, k--`. -/
def seek (p : α → Bool) (a : List α) : Nat → Nat → Option Nat
  | i,0 => some i
  | i,k+1 => a[i]?.bind (fun x => if p x then some i else seek p a (i+1) k)

/-- `for ; k > 0 && p(a[k-1]); k--`. -/
def seekDown (p : α → Bool) (a : List α) : Nat → Option Nat
  | 0 => some 0
  | k+1 => a[k]?.bind (fun x => if p x then seekDown p a k else some (k+1))

/-- `memmove(dst+i, src+j, n)`. -/
def memmove (dst : List α) (i : Nat) (src : List α) (j n : Nat) : Option (List α) :=
  if i+n ≤ dst.length ∧ j+n ≤ src.length then some (dst.take i ++ (src.drop j).take n ++ dst.drop (i+n)) else none

lemma exists_cut (xs : List α) (inside : n < xs.length) :
    ∃ pre x post, xs = pre++x::post ∧ pre.length = n := by
  refine ⟨xs.take n,xs[n],xs.drop (n+1),?_,by simp; omega⟩
  rw [← drop_eq_getElem_cons inside,take_append_drop]

/-- The slice has length `d` and starts with `xs`. -/
def Holds (d : Nat) (xs a : List α) : Prop := ∃ rest, a = xs++rest ∧ a.length = d

section
variable {d i : Nat} {a xs ys pre mid post : List α} {x y : α}

lemma holds_nil (len : a.length = d) : Holds d [] a := ⟨a,rfl,len⟩
lemma Holds.length (holds : Holds d xs a) : a.length = d := holds.choose_spec.2

lemma Holds.room (holds : Holds d xs a) (room : xs.length < d) :
    ∃ x rest, a = xs++x::rest ∧ a.length = d := by
  obtain ⟨rest,rfl,len⟩ := holds
  cases rest with
  | nil =>
    simp only [append_nil] at len
    omega
  | cons x rest => exact ⟨x,rest,rfl,len⟩

lemma Holds.get (holds : Holds d (pre++x::post) a) (at_i : pre.length = i) : a[i]? = some x := by
  obtain ⟨rest,rfl,_⟩ := holds
  subst at_i
  simp

lemma put_append (at_i : pre.length = i) : put (pre++x::post) i y = some (pre++y::post) := by
  subst at_i
  simp [put]

lemma put_first : put (x::xs) 0 y = some (y::xs) := by simp [put]

lemma Holds.put (holds : Holds d (pre++x::post) a) (at_i : pre.length = i) :
    ∃ a', Slices.put a i y = some a' ∧ Holds d (pre++y::post) a' := by
  obtain ⟨rest,rfl,len⟩ := holds
  refine ⟨pre++y::post++rest,?_,rest,rfl,by simpa using len⟩
  rw [append_assoc,cons_append,put_append at_i]
  simp

lemma Holds.push (holds : Holds d xs a) (room : xs.length < d) :
    ∃ a', Slices.put a xs.length y = some a' ∧ Holds d (xs++[y]) a' := by
  obtain ⟨x,rest,rfl,len⟩ := holds.room room
  exact ⟨_,put_append rfl,rest,by simp,by simpa using len⟩

lemma Holds.take (holds : Holds d (xs++ys) a) : Holds d xs a := by
  obtain ⟨rest,rfl,len⟩ := holds
  exact ⟨ys++rest,by simp,len⟩

lemma shiftUp_append (pre mid post : List α) (x : α) :
    ∃ y, shiftUp pre.length mid.length (pre++mid++x::post) = some (pre++y::(mid++post)) := by
  induction mid using List.reverseRecOn generalizing x post with
  | nil => exact ⟨x,by simp [shiftUp]⟩
  | append_singleton mid m ih =>
    have read : (pre++(mid++[m])++x::post)[pre.length+mid.length]? = some m := by
      rw [show pre ++ (mid++[m])++x::post = (pre++mid)++m::x::post by simp,← length_append]
      simp
    have write : put (pre++(mid++[m])++x::post) (pre.length+mid.length+1) m =
        some (pre++mid++m::m::post) := by
      rw [put_append (by simp; omega)]
      simp
    obtain ⟨y,moved⟩ := ih (m::post) m
    refine ⟨y,?_⟩
    rw [length_append,length_singleton,shiftUp,read,bind_some,write,bind_some,moved]
    simp

lemma Holds.shiftUp (holds : Holds d (pre++mid) a) (room : (pre++mid).length < d) (at_i : pre.length = i) :
    ∃ z a', Slices.shiftUp i mid.length a = some a' ∧ Holds d (pre++z::mid) a' := by
  obtain ⟨x,rest,rfl,len⟩ := holds.room room
  subst at_i
  obtain ⟨z,moved⟩ := shiftUp_append pre mid rest x
  refine ⟨z,_,moved,rest,by simp,?_⟩
  simp only [length_append,length_cons] at len ⊢
  omega

lemma Holds.insert (holds : Holds d (pre++mid) a) (room : (pre++mid).length < d) (at_i : pre.length = i) :
    ∃ a', (Slices.shiftUp i mid.length a).bind (fun a => Slices.put a i y) = some a' ∧ Holds d (pre++y::mid) a' := by
  obtain ⟨z,a1,moved,held⟩ := holds.shiftUp room at_i
  rw [moved,bind_some]
  exact held.put at_i

lemma shiftDown_append (pre mid post : List α) (x : α) :
    ∃ y, shiftDown pre.length mid.length (pre++x::mid++post) = some (pre++mid++y::post) := by
  induction mid generalizing pre x with
  | nil => exact ⟨x,by simp [shiftDown]⟩
  | cons m mid ih =>
    have read : (pre++x::(m::mid)++post)[pre.length+1]? = some m := by simp
    have write : put (pre++x::(m::mid)++post) pre.length m = some ((pre++[m])++m::mid++post) := by
      rw [append_assoc,cons_append,put_append rfl]
      simp
    obtain ⟨y,moved⟩ := ih (pre++[m]) m
    refine ⟨y,?_⟩
    rw [length_append,length_singleton] at moved
    rw [length_cons,shiftDown,read,bind_some,write,bind_some,moved]
    simp

lemma Holds.remove (holds : Holds d (pre++x::mid) a) (at_i : pre.length = i) :
    ∃ a', shiftDown i mid.length a = some a' ∧ Holds d (pre++mid) a' := by
  obtain ⟨rest,rfl,len⟩ := holds
  subst at_i
  obtain ⟨z,moved⟩ := shiftDown_append pre mid rest x
  refine ⟨_,moved,z::rest,rfl,?_⟩
  simp only [length_append,length_cons] at len ⊢
  omega

lemma Holds.delete (holds : Holds d (pre++x::mid) a) (at_i : pre.length = i) (at_j : i+mid.length = j) :
    ∃ a', (shiftDown i mid.length a).bind (fun a => Slices.put a j y) = some a' ∧ Holds d (pre++mid) a' := by
  obtain ⟨rest,rfl,len⟩ := holds
  subst at_i at_j
  obtain ⟨z,moved⟩ := shiftDown_append pre mid rest x
  refine ⟨pre++mid++y::rest,?_,y::rest,rfl,?_⟩
  · rw [moved,bind_some,put_append (by simp)]
  · simp only [length_append,length_cons] at len ⊢
    omega

lemma moveTail_append (zero : α) (keep tail rest junk post : List α) (same : junk.length = tail.length) :
    moveTail zero keep.length tail.length (keep++tail++rest) (junk++post) =
      some (keep++(List.replicate tail.length zero ++ rest),tail++post) := by
  induction tail using List.reverseRecOn generalizing rest junk post with
  | nil =>
    obtain rfl : junk = [] := length_eq_zero_iff.mp same
    simp [moveTail]
  | append_singleton tail t ih =>
    rcases eq_nil_or_concat' junk with rfl | ⟨junk,j,rfl⟩
    · simp at same
    have shorter : junk.length = tail.length := by simpa using same
    have read : (keep++(tail++[t])++rest)[keep.length+tail.length]? = some t := by
      rw [show keep ++ (tail++[t])++rest = (keep++tail)++t::rest by simp,← length_append]
      simp
    have write : put (junk++[j]++post) tail.length t = some (junk++t::post) := by
      rw [append_assoc,singleton_append,put_append shorter]
    have clear : put (keep++(tail++[t])++rest) (keep.length+tail.length) zero =
        some (keep++tail++zero::rest) := by
      rw [show keep ++ (tail++[t])++rest = (keep++tail)++t::rest by simp,put_append (by simp)]
    rw [length_append,length_singleton,moveTail,read,bind_some,write,bind_some,clear,
      bind_some,ih (zero::rest) junk (t::post) shorter]
    simp [replicate_succ']

variable {e n : Nat}

lemma Holds.moveTail (zero : α) (holds : Holds d (xs++ys) a) (len : dst.length = e)
    (room : ys.length ≤ e) : ∃ a' dst', Slices.moveTail zero xs.length ys.length a dst = some (a',dst') ∧
      Holds d xs a' ∧ Holds e ys dst' := by
  obtain ⟨rest,rfl,total⟩ := holds
  have moved := moveTail_append zero xs ys rest (dst.take ys.length) (dst.drop ys.length) (by simp; omega)
  rw [take_append_drop] at moved
  refine ⟨_,_,moved,⟨_,rfl,?_⟩,⟨_,rfl,?_⟩⟩
  · simp only [length_append,length_replicate] at total ⊢
    omega
  · simp only [length_append,length_drop]
    omega

lemma copyTo_append (pre front items back junk post : List α) (same : junk.length = items.length) :
    copyTo (front++items++back) pre.length front.length items.length (pre++front++junk++post) =
      some (pre++front++items++post) := by
  induction items generalizing front junk with
  | nil =>
    obtain rfl : junk = [] := length_eq_zero_iff.mp same
    simp [copyTo]
  | cons x items ih =>
    cases junk with
    | nil => simp at same
    | cons j junk =>
      have read : (front++(x::items)++back)[front.length]? = some x := by simp
      have write : put (pre++front++(j::junk)++post) (pre.length+front.length) x =
          some (pre++(front++[x])++junk++post) := by
        rw [append_assoc,cons_append,put_append (by simp)]
        simp
      have later := ih (front++[x]) junk (by simpa using same)
      rw [length_cons,copyTo,read,bind_some,write,bind_some]
      simpa using later

lemma Holds.copyTo (holds : Holds d xs a) (source : Holds e ys src)
    (room : xs.length+ys.length ≤ d) :
    ∃ a', Slices.copyTo src xs.length 0 ys.length a = some a' ∧ Holds d (xs++ys) a' := by
  obtain ⟨rest,rfl,len⟩ := holds
  obtain ⟨back,rfl,_⟩ := source
  have enough : ys.length ≤ rest.length := by
    simp only [length_append] at len
    omega
  have copied := copyTo_append xs [] ys back (rest.take ys.length) (rest.drop ys.length) (by simp; omega)
  simp only [nil_append,append_nil,append_assoc,take_append_drop] at copied
  refine ⟨xs++(ys++rest.drop ys.length),copied,⟨rest.drop ys.length,by simp,?_⟩⟩
  · simp only [length_append,length_drop] at len ⊢
    omega

lemma memmove_append (pre junk post front items back : List α) (same : junk.length = items.length) :
    memmove (pre++junk++post) pre.length (front++items++back) front.length items.length =
      some (pre++items++post) := by
  have inside : pre.length+items.length ≤ (pre++junk++post).length ∧
      front.length+items.length ≤ (front++items++back).length := by
    simp only [length_append]
    omega
  have behind : (pre++junk++post).drop (pre.length+items.length) = post := by
    rw [← same,← length_append,drop_left]
  rw [memmove,if_pos inside,behind]
  simp

/-- Elements of one array are copied behind those in use of another, or of the same one. -/
lemma Holds.memmove (holds : Holds d xs a) (source : Holds e (front++ys++back) src)
    (room : xs.length+ys.length ≤ d) :
    ∃ a', Slices.memmove a xs.length src front.length ys.length = some a' ∧ Holds d (xs++ys) a' := by
  obtain ⟨rest,rfl,len⟩ := holds
  obtain ⟨more,rfl,_⟩ := source
  have enough : ys.length ≤ rest.length := by
    simp only [length_append] at len
    omega
  have moved := memmove_append xs (rest.take ys.length) (rest.drop ys.length) front ys (back++more) (by simp; omega)
  simp only [append_assoc,take_append_drop] at moved
  refine ⟨xs++(ys++rest.drop ys.length),by simpa using moved,⟨rest.drop ys.length,by simp,?_⟩⟩
  simp only [length_append,length_drop] at len ⊢
  omega

lemma memmove_down (x z : α) (ys rest : List α) : ∃ w,
    memmove (x::ys++z::rest) 0 (x::ys++z::rest) 1 ys.length = some (ys++w::z::rest) := by
  obtain ⟨junk,w,split⟩ : ∃ junk w, x :: ys = junk++[w] :=
    ⟨(x::ys).dropLast,(x::ys).getLast (by simp),(dropLast_concat_getLast (by simp)).symm⟩
  have same : junk.length = ys.length := by
    have lengths := congrArg List.length split
    simp only [length_cons,length_append,length_nil] at lengths
    omega
  have moved := memmove_append [] junk (w::z::rest) [x] ys (z::rest) same
  refine ⟨w,?_⟩
  have target : x::ys++z::rest = []++junk++w::z::rest := by
    rw [split]
    simp
  have source : x::ys++z::rest = [x]++ys++z::rest := rfl
  rwa [← target,← source] at moved

lemma memmove_up (room : xs.length+n ≤ (xs++rest).length) :
    ∃ junk rest', junk.length = n ∧ memmove (xs++rest) n (xs++rest) 0 xs.length = some (junk++xs++rest') ∧
      (junk++xs++rest').length = (xs++rest).length := by
  obtain ⟨pre,junk,post,cut,first,second⟩ : ∃ pre junk post, xs ++ rest = pre++junk++post ∧ pre.length = n ∧
      junk.length = xs.length := by
    refine ⟨(xs++rest).take n,((xs++rest).drop n).take xs.length,((xs++rest).drop n).drop xs.length,?_,?_,?_⟩
    · rw [append_assoc,take_append_drop,take_append_drop]
    · rw [length_take]
      omega
    · rw [length_take,length_drop]
      omega
  have moved := memmove_append pre junk post [] xs rest second
  rw [nil_append,length_nil,← cut,first] at moved
  refine ⟨pre,post,first,moved,?_⟩
  rw [cut]
  simp only [length_append,second]

lemma Holds.extend (holds : Holds d xs a) (source : Holds e (ys++zs) src)
    (room : xs.length+ys.length ≤ d) :
    ∃ a', Slices.memmove a xs.length src 0 ys.length = some a' ∧ Holds d (xs++ys) a' := by
  have whole : Holds e ([]++ys++zs) src := source
  exact holds.memmove whole room

lemma Holds.dropFront (holds : Holds d (xs++ys) a) :
    ∃ a', Slices.memmove a 0 a xs.length ys.length = some a' ∧ Holds d ys a' := by
  have whole : Holds d (xs++ys++[]) a := by simpa using holds
  have none : Holds d [] a := holds_nil holds.length
  refine none.memmove whole ?_
  obtain ⟨rest,rfl,len⟩ := holds
  simp only [length_append,length_nil] at len ⊢
  omega

/-- The last elements in use of another array are put in front of those in use. -/
lemma Holds.extendFront (holds : Holds d xs a) (source : Holds e (zs++ys) src)
    (room : xs.length+ys.length ≤ d) : ∃ a1 a2, Slices.memmove a ys.length a 0 xs.length = some a1 ∧
      Slices.memmove a1 0 src zs.length ys.length = some a2 ∧ Holds d (ys++xs) a2 := by
  obtain ⟨rest,rfl,len⟩ := holds
  obtain ⟨more,rfl,_⟩ := source
  obtain ⟨junk,rest',size,moved,total⟩ := memmove_up (show xs.length+ys.length ≤ (xs++rest).length by omega)
  have placed := memmove_append [] junk (xs++rest') zs ys more size
  simp only [nil_append,length_nil,← append_assoc] at placed
  refine ⟨_,_,moved,placed,rest',rfl,?_⟩
  simp only [length_append] at total len ⊢
  omega

lemma Holds.raise (holds : Holds d xs a) (y : α) (room : xs.length < d) :
    ∃ a1 a2, Slices.memmove a 1 a 0 xs.length = some a1 ∧ Slices.put a1 0 y = some a2 ∧ Holds d (y::xs) a2 := by
  obtain ⟨rest,rfl,len⟩ := holds
  obtain ⟨junk,rest',size,moved,total⟩ := memmove_up (show xs.length+1 ≤ (xs++rest).length by omega)
  obtain ⟨z,rfl⟩ := length_eq_one_iff.mp size
  refine ⟨_,y::(xs++rest'),moved,put_first,rest',rfl,?_⟩
  simp only [length_append,length_cons,length_nil] at total len ⊢
  omega

/-- As `Holds.raise`, where the last element is copied by itself before the others move. -/
lemma Holds.raise_last (holds : Holds d (xs++[x]) a) (y : α) (room : xs.length+1 < d) :
    ∃ a0 a1 a2, Slices.put a (xs.length+1) x = some a0 ∧ Slices.memmove a0 1 a0 0 xs.length = some a1 ∧
      Slices.put a1 0 y = some a2 ∧ Holds d (y::(xs++[x])) a2 := by
  obtain ⟨z,rest,rfl,len⟩ := holds.room (by simpa using room)
  have written : Slices.put (xs++[x]++z::rest) (xs.length+1) x = some (xs++[x]++x::rest) :=
    put_append (by simp)
  -- the second of the two copies of the last element stays where it is
  obtain ⟨w,pre,cut⟩ : ∃ w pre, xs ++ [x] = w::pre := by
    cases xs with
    | nil => exact ⟨x,[],rfl⟩
    | cons w xs => exact ⟨w,xs++[x],rfl⟩
  have size : pre.length = xs.length := by
    have lengths := congrArg List.length cut
    simp only [length_append,length_cons,length_nil] at lengths
    omega
  have moved := memmove_append [w] pre (x::rest) [] xs ([x]++x::rest) size
  have target : [w]++pre++x::rest = xs++[x]++x::rest := by
    rw [cut]
    rfl
  have source : []++xs++([x]++x::rest) = xs++[x]++x::rest := by simp
  rw [target,source] at moved
  refine ⟨_,_,y::(xs++x::rest),written,moved,put_first,rest,by simp,?_⟩
  simp only [length_append,length_cons,length_nil] at len ⊢
  omega

lemma Holds.dropFront_last (holds : Holds d (xs++(ys++[x])) a) :
    ∃ a1 a2, Slices.memmove a 0 a xs.length ys.length = some a1 ∧ a1[xs.length+ys.length]? = some x ∧
      Slices.put a1 ys.length x = some a2 ∧ Holds d (ys++[x]) a2 := by
  obtain ⟨rest,rfl,len⟩ := holds
  obtain ⟨junk,post,cut,size,_⟩ : ∃ junk post, xs ++ ys = junk++post ∧ junk.length = ys.length ∧ post.length = xs.length := by
    refine ⟨(xs++ys).take ys.length,(xs++ys).drop ys.length,(take_append_drop _ _).symm,?_,?_⟩
    · simp
    · simp
  have moved := memmove_append [] junk (post++[x]++rest) xs ys ([x]++rest) size
  have whole : xs++(ys++[x])++rest = []++junk++(post++[x]++rest) := by
    rw [← append_assoc xs,cut]
    simp
  have whole' : xs++(ys++[x])++rest = xs++ys++([x]++rest) := by simp
  rw [← whole,← whole'] at moved
  refine ⟨[]++ys++(post++[x]++rest),(ys++(post++[x]++rest)).set ys.length x,moved,?_,?_,?_⟩
  · have shifted : []++ys++(post++[x]++rest) = (ys++post)++x::rest := by simp
    rw [shifted,show xs.length+ys.length = (ys++post).length by rw [length_append]; omega]
    simp
  · have inside : ys.length < ([]++ys++(post++[x]++rest)).length := by
      simp only [length_append,length_nil,length_cons]
      omega
    rw [Slices.put,if_pos inside]
    rfl
  · refine ⟨(post++[x]++rest).drop 1,?_,?_⟩
    · cases post <;> simp
    · have total := congrArg List.length whole
      simp only [length_append,length_cons,length_nil,length_set] at total len ⊢
      omega

lemma memmove_zero (inside : i ≤ a.length) (within : j ≤ src.length) :
    memmove a i src j 0 = some a := by
  rw [memmove,if_pos ⟨inside,within⟩]
  simp

section
variable (p : α → Bool)
include p

lemma seekDown_append (xs rest : List α) : ∃ pre post, xs = pre++post ∧
    seekDown p (xs++rest) xs.length = some pre.length ∧ (∀ x ∈ pre.getLast?, p x = false) ∧ ∀ x ∈ post, p x = true := by
  induction xs using List.reverseRecOn generalizing rest with
  | nil => exact ⟨[],[],rfl,rfl,by simp,by simp⟩
  | append_singleton xs x ih =>
    have read : (xs++[x]++rest)[xs.length]? = some x := by simp
    cases hit : p x with
    | true =>
      obtain ⟨pre,post,split,sought,misses,hits⟩ := ih (x::rest)
      refine ⟨pre,post++[x],by rw [split,append_assoc],?_,misses,?_⟩
      · rwa [length_append,length_singleton,seekDown,read,bind_some,if_pos hit,append_assoc]
      · intro y mem
        rcases mem_append.mp mem with mem | mem
        · exact hits y mem
        · obtain rfl := mem_singleton.mp mem
          exact hit
    | false =>
      refine ⟨xs++[x],[],by simp,?_,by simpa using hit,by simp⟩
      rw [length_append,length_singleton,seekDown,read,bind_some,if_neg (by simp [hit])]

/-- The search from the end stops behind the last element without the property. -/
lemma Holds.seekDown (holds : Holds d xs a) (count : n = xs.length) :
    ∃ pre post, xs = pre++post ∧ Slices.seekDown p a n = some pre.length ∧
      (∀ x ∈ pre.getLast?, p x = false) ∧ ∀ x ∈ post, p x = true := by
  obtain ⟨rest,rfl,_⟩ := holds
  subst count
  exact seekDown_append p xs rest

lemma seek_append (front xs rest : List α) : ∃ pre post, xs = pre++post ∧
    seek p (front++xs++rest) front.length xs.length = some (front.length+pre.length) ∧
    (∀ x ∈ pre, p x = false) ∧ ∀ x ∈ post.head?, p x = true := by
  induction xs generalizing front with
  | nil => exact ⟨[],[],rfl,rfl,by simp,by simp⟩
  | cons x xs ih =>
    have read : (front++(x::xs)++rest)[front.length]? = some x := by simp
    cases hit : p x with
    | true =>
      refine ⟨[],x::xs,rfl,?_,by simp,by simpa using hit⟩
      rw [length_cons,seek,read,bind_some,if_pos hit]
      rfl
    | false =>
      obtain ⟨pre,post,rfl,sought,misses,next⟩ := ih (front++[x])
      refine ⟨x::pre,post,rfl,?_,by simpa [hit] using misses,next⟩
      rw [length_cons,seek,read,bind_some,if_neg (by simp [hit])]
      simp only [append_assoc,cons_append,nil_append,length_append,length_nil,
        length_cons,Nat.zero_add] at sought ⊢
      rw [sought,Nat.add_assoc,Nat.add_comm 1]

/-- The search stops at the first element in use that has the property, or behind all of them. -/
lemma Holds.seek (holds : Holds d xs a) (count : n = xs.length) :
    ∃ pre post, xs = pre++post ∧ Slices.seek p a 0 n = some pre.length ∧
      (∀ x ∈ pre, p x = false) ∧ ∀ x ∈ post.head?, p x = true := by
  obtain ⟨rest,rfl,_⟩ := holds
  subst count
  simpa using seek_append p [] xs rest

end
end

section
variable {β : Type*} (f : α → β) (a : List α)

lemma put_map (i : Nat) (x : α) : put (a.map f) i (f x) = (put a i x).map (List.map f) := by
  by_cases inside : i < a.length
  · simp [put,inside,map_set]
  · simp [put,inside]

lemma shiftUp_map (i k : Nat) : shiftUp i k (a.map f) = (shiftUp i k a).map (List.map f) := by
  induction k generalizing a with
  | zero => rfl
  | succ k ih => simp only [shiftUp,getElem?_map,bind_map,comp_def,put_map,ih,Option.map_bind]

lemma shiftDown_map (i k : Nat) : shiftDown i k (a.map f) = (shiftDown i k a).map (List.map f) := by
  induction k generalizing a i with
  | zero => rfl
  | succ k ih => simp only [shiftDown,getElem?_map,bind_map,comp_def,put_map,ih,Option.map_bind]

lemma memmove_map (i : Nat) (src : List α) (j n : Nat) :
    memmove (a.map f) i (src.map f) j n = (memmove a i src j n).map (List.map f) := by
  by_cases inside : i+n ≤ a.length ∧ j+n ≤ src.length
  · simp [memmove,inside,map_take,map_drop]
  · simp [memmove,inside]

lemma seekDown_map (p : β → Bool) (k : Nat) : seekDown p (a.map f) k = seekDown (fun x => p (f x)) a k := by
  induction k with
  | zero => rfl
  | succ k ih => simp only [seekDown,getElem?_map,bind_map,comp_def,ih]

lemma seek_map (p : β → Bool) (i k : Nat) : seek p (a.map f) i k = seek (fun x => p (f x)) a i k := by
  induction k generalizing i with
  | zero => rfl
  | succ k ih => simp only [seek,getElem?_map,bind_map,comp_def,ih]

lemma Holds.map (holds : Holds d xs a) : Holds d (xs.map f) (a.map f) := by
  obtain ⟨rest,rfl,len⟩ := holds
  exact ⟨rest.map f,by simp,by simpa using len⟩

end
end CodeExercise.Slices
