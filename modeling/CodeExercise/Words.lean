import CodeExercise.Files

/-! Arrays of big-endian words. -/
namespace CodeExercise.Words
open Files List

/-- The `w` low bytes of a number, the highest first. -/
def toBE (w n : Nat) : List UInt8 := (toLE w n).reverse
def ofBE (bytes : List UInt8) : Nat := ofLE bytes.reverse
@[simp] lemma length_toBE (w n : Nat) : (toBE w n).length = w := by simp [toBE]

lemma ofBE_toBE (small : n < 256^w) : ofBE (toBE w n) = n := by
  rw [ofBE,toBE,reverse_reverse,ofLE_toLE_of_lt small]

lemma ofLE_lt (bytes : List UInt8) : ofLE bytes < 256^bytes.length := by
  induction bytes with
  | nil => simp [ofLE]
  | cons b bytes ih =>
    have byte := b.toNat_lt
    rw [ofLE,length_cons,pow_succ']
    omega

/-- The word of `w` bytes at an offset. -/
def word (w : Nat) (f : File) (off : Nat) : Nat := ofBE (f.slice off w)
/-- The `n` words of `w` bytes from an offset on. -/
def words (w n : Nat) (f : File) (off : Nat) : List Nat := (List.range n).map (fun i => word w f (off+w*i))

section
variable {w n i off pos x : Nat} {f g : File} {data : List UInt8}

@[simp] lemma length_words (w n : Nat) (f : File) (off : Nat) : (words w n f off).length = n := by simp [words]

lemma word_lt (w : Nat) (f : File) (off : Nat) : word w f off < 256^w := by
  have bound := ofLE_lt (f.slice off w).reverse
  rwa [length_reverse,length_slice] at bound

lemma word_congr (same : ∀ a, off ≤ a → a < off+w → f.byte a = g.byte a) : word w f off = word w g off := by
  rw [word,word,slice_congr same]

lemma words_congr (same : ∀ a, off ≤ a → a < off+w*n → f.byte a = g.byte a) : words w n f off = words w n g off := by
  refine map_congr_left fun i mem => word_congr (fun a low high => same a (by omega) ?_)
  have inside : w*(i+1) ≤ w*n := Nat.mul_le_mul_left w (mem_range.mp mem)
  rw [Nat.mul_succ] at inside
  omega

lemma word_write (small : x < 256^w) : word w (f.write off (toBE w x)) off = x := by
  have read := slice_write_self f off (toBE w x)
  rw [length_toBE] at read
  rw [word,read,ofBE_toBE small]

lemma word_write_of_disjoint (apart : pos+data.length ≤ off ∨ off+w ≤ pos) :
    word w (f.write pos data) off = word w f off :=
  word_congr (fun a low high => byte_write_of_not_mem (by omega))

lemma words_write_of_disjoint (apart : pos+data.length ≤ off ∨ off+w*n ≤ pos) :
    words w n (f.write pos data) off = words w n f off :=
  words_congr (fun a low high => byte_write_of_not_mem (by omega))

lemma eq_word_of_getElem? (read : (words w n f off)[i]? = some x) : i < n ∧ x = word w f (off+w*i) := by
  obtain ⟨inside,value⟩ := List.getElem?_eq_some_iff.mp read
  simp only [words,getElem_map,getElem_range] at value
  exact ⟨by simpa using inside,value.symm⟩

lemma words_write (small : x < 256^w) :
    words w n (f.write (off+w*i) (toBE w x)) off = (words w n f off).set i x := by
  refine ext_getElem (by simp) fun j here there => ?_
  rw [getElem_set]
  simp only [words,getElem_map,getElem_range]
  by_cases same : i = j
  · subst same
    rw [if_pos rfl,word_write small]
  · rw [if_neg same]
    refine word_write_of_disjoint ?_
    rw [length_toBE]
    rcases Nat.lt_or_gt_of_ne same with before | behind
    · exact .inl (by have := Nat.mul_le_mul_left w before; rw [Nat.mul_succ] at this; omega)
    · exact .inr (by have := Nat.mul_le_mul_left w behind; rw [Nat.mul_succ] at this; omega)

end
end CodeExercise.Words
