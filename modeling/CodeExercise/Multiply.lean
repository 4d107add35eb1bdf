import Mathlib

/-!
`multiply.c`: two ways to multiply. Both give the product without an overflow as long
as it is an `int`. The first one halves the smaller factor and the second one calls itself
once for each bit of the factor with fewer ones (`mul_mul2`).
-/
namespace CodeExercise.Multiply

/-- The value of an `int` that is not negative; no result for an overflow. -/
def int (n : Nat) : Option Nat := if n < 2^31 then some n else none
lemma int_of_lt (fits : n < 2^31) : int n = some n := if_pos fits

lemma clear_lt (v : Nat) (positive : v ≠ 0) : v &&& (v-1) < v :=
  Nat.lt_of_le_of_lt Nat.and_le_right (by omega)

def numOfOnes (v : Nat) : Nat := if zero : v = 0 then 0 else numOfOnes (v &&& (v-1))+1
termination_by v
decreasing_by exact clear_lt v zero

/-- The loop of `bit_idx`. -/
def shifts (v : Nat) : Nat := if v = 0 then 0 else shifts (v >>> 1)+1
termination_by v
decreasing_by rw [Nat.shiftRight_one]; omega

def bitIdx (v : Nat) : Nat := shifts ((v ^^^ (v-1)) >>> 1)

/-- The product and the number of calls so far. -/
def mul2Internal (a b cnt : Nat) : Option (Nat × Nat) :=
  if a = 0 ∨ b = 0 then some (0,cnt+1)
  else do
    let nz := bitIdx b
    let x ← int (a <<< nz)
    let _ ← int (1 <<< nz)
    let r ← mul2Internal a (b-1 <<< nz) (cnt+1)
    return (← int (x+r.1),r.2)
termination_by b
decreasing_by
  rw [Nat.one_shiftLeft]
  exact Nat.sub_lt (by omega) (Nat.two_pow_pos _)

def mul2 (a b cnt : Nat) : Option (Nat × Nat) :=
  if numOfOnes a > numOfOnes b then mul2Internal a b cnt else mul2Internal b a cnt

def mul (a b cnt : Nat) : Option (Nat × Nat) :=
  if a = 0 ∨ b = 0 then some (0,cnt+1)
  else
    let p := if a < b then (b,a) else (a,b)
    if p.2 &&& 1 ≠ 0 then do
      let r ← mul p.1 (p.2-1) (cnt+1)
      return (← int (p.1+r.1),r.2)
    else do
      let r ← mul p.1 (p.2 >>> 1) (cnt+1)
      return (← int (r.1 <<< 1),r.2)
termination_by a+b
decreasing_by
  · split <;> simp only <;> omega
  · rw [Nat.shiftRight_one]
    split <;> simp only <;> omega

lemma sum_digits (v : Nat) : (Nat.digits 2 v).sum = v%2+(Nat.digits 2 (v/2)).sum := by
  cases v with
  | zero => simp
  | succ v => rw [Nat.digits_def' (by decide) (by omega),List.sum_cons]

/-- `v & (v-1)` is `v` without the bit that `bit_idx` finds. -/
lemma clear_eq (v : Nat) (positive : v ≠ 0) : 2^bitIdx v ≤ v ∧ v &&& (v-1) = v-2^bitIdx v ∧
    (Nat.digits 2 v).sum = (Nat.digits 2 (v &&& (v-1))).sum+1 := by
  induction v using Nat.strong_induction_on with
  | _ v ih =>
    obtain ⟨w,rfl | rfl⟩ := Nat.even_or_odd' v
    · have less : w ≠ 0 := by omega
      obtain ⟨le,eq,ones⟩ := ih w (by omega) less
      have odd : 2*w-1 = 2*(w-1)+1 := by omega
      have clear : 2*w &&& (2*w-1) = 2*(w &&& (w-1)) := by rw [odd]; exact Nat.land_bit false w true (w-1)
      have xor : 2*w ^^^ (2*w-1) = 2*(w ^^^ (w-1))+1 := by rw [odd]; exact Nat.xor_bit false w true (w-1)
      have differ : w ^^^ (w-1) ≠ 0 := fun same => by have := Nat.xor_eq_zero_iff.mp same; omega
      have idx : bitIdx (2*w) = bitIdx w+1 := by
        rw [bitIdx,xor,Nat.shiftRight_one,show (2*(w ^^^ (w-1))+1)/2 = w ^^^ (w-1) by omega,shifts,if_neg differ,bitIdx]
      rw [clear,idx,eq,pow_succ,sum_digits (2*w),sum_digits (2*(w-2^bitIdx w)),← eq,Nat.mul_div_right _ (by decide),
        Nat.mul_div_right _ (by decide),ones]
      omega
    · have clear : 2*w+1 &&& (2*w+1-1) = 2*w := (Nat.land_bit true w false w).trans (by simp)
      have xor : 2*w+1 ^^^ (2*w+1-1) = 1 := (Nat.xor_bit true w false w).trans (by simp)
      rw [bitIdx,xor,clear,Nat.shiftRight_one,shifts,if_pos (by decide),sum_digits (2*w),sum_digits (2*w+1),
        show (2*w+1)/2 = 2*w/2 by omega]
      omega

lemma numOfOnes_eq (v : Nat) : numOfOnes v = (Nat.digits 2 v).sum := by
  induction v using Nat.strong_induction_on with
  | _ v ih =>
    rw [numOfOnes]
    split
    case isTrue zero => simp [zero]
    case isFalse positive => rw [ih _ (clear_lt v positive),(clear_eq v positive).2.2]

lemma mul2Internal_eq (a b cnt : Nat) (live : a = 0 → b = 0) (fits : a*b < 2^31) :
    mul2Internal a b cnt = some (a*b,cnt+((Nat.digits 2 b).sum+1)) := by
  induction b using Nat.strong_induction_on generalizing cnt with
  | _ b ih =>
    rw [mul2Internal]
    split
    case isTrue zero =>
      obtain rfl : b = 0 := zero.elim live id
      simp
    case isFalse =>
      have positive : 0 < a ∧ b ≠ 0 := by omega
      obtain ⟨le,clear,ones⟩ := clear_eq b positive.2
      have factor : b ≤ a*b := Nat.le_mul_of_pos_left b positive.1
      have parts : a*2^bitIdx b+a*(b-2^bitIdx b) = a*b := by
        rw [← Nat.mul_add,Nat.add_sub_cancel' le]
      have rest := ih _ (clear_lt b positive.2) (cnt+1) (by omega) (by rw [clear]; omega)
      rw [← ones,clear,Nat.add_assoc,Nat.add_comm 1] at rest
      simp only [Nat.shiftLeft_eq,Nat.one_mul,Option.bind_eq_bind]
      rw [int_of_lt (by omega),int_of_lt (by omega),Option.bind_some,Option.bind_some,rest,Option.bind_some,parts,
        int_of_lt fits]
      rfl

/-- The calls of `mul` for a smaller factor `m`: one for each bit, one more for each that is set. -/
def mulCalls (m : Nat) : Nat := (Nat.digits 2 m).sum+max 1 (Nat.digits 2 m).length

lemma mulCalls_step (m : Nat) (positive : m ≠ 0) : mulCalls m = mulCalls (if m%2 = 0 then m/2 else m-1)+1 := by
  have bits : ∀ v, v ≠ 0 → Nat.digits 2 v = v%2 :: Nat.digits 2 (v/2) := fun v live => Nat.digits_def' (by decide) (by omega)
  rw [mulCalls,bits m positive]
  split
  · next even =>
    have half := bits (m/2) (by omega)
    rw [mulCalls,half]
    simp [even]
    omega
  · next odd =>
    by_cases one : m = 1
    · simp [one,mulCalls]
    · rw [mulCalls,bits (m-1) (by omega),show (m-1)/2 = m/2 by omega,show (m-1)%2 = 0 by omega,show m%2 = 1 by omega]
      simp
      omega

lemma mul_eq (a b cnt : Nat) (fits : a*b < 2^31) : mul a b cnt = some (a*b,cnt+mulCalls (min a b)) := by
  induction h : a+b using Nat.strong_induction_on generalizing a b cnt with
  | _ n ih =>
    rw [mul]
    split
    case isTrue zero =>
      have least : min a b = 0 := by omega
      simpa [least,mulCalls] using zero
    case isFalse =>
      obtain ⟨p,swapped⟩ : ∃ p, p = if a < b then (b,a) else (a,b) := ⟨_,rfl⟩
      have same : p.1*p.2 = a*b ∧ p.1+p.2 = n ∧ p.2 ≠ 0 ∧ p.2 = min a b ∧ p.2 ≤ p.1 := by
        rw [swapped]
        split
        · exact ⟨Nat.mul_comm b a,by simp only; omega,by simp only; omega,by simp only; omega,by simp only; omega⟩
        · exact ⟨rfl,h,by simp only; omega,by simp only; omega,by simp only; omega⟩
      have calls := mulCalls_step p.2 same.2.2.1
      simp only [← swapped,← same.2.2.2.1,Nat.and_one_is_mod,Nat.shiftRight_one,Nat.shiftLeft_eq,Option.bind_eq_bind]
      split
      · next odd =>
        have parts : p.1+p.1*(p.2-1) = a*b := by rw [← same.1,Nat.mul_sub_one,Nat.add_sub_cancel' (Nat.le_mul_of_pos_right _ (by omega))]
        have rest := ih _ (by omega) p.1 (p.2-1) (cnt+1) (by omega) rfl
        rw [if_neg odd] at calls
        rw [rest,Nat.min_eq_right (by omega),Option.bind_some,parts,int_of_lt fits,calls]
        simp only [Option.bind_some,Option.pure_def,Option.some.injEq,Prod.mk.injEq,true_and]
        omega
      · next even =>
        have parts : p.1*(p.2/2)*2^1 = a*b := by rw [← same.1,Nat.mul_assoc,pow_one,Nat.div_mul_cancel (by omega)]
        have rest := ih _ (by omega) p.1 (p.2/2) (cnt+1) (by omega) rfl
        rw [if_pos (by omega)] at calls
        rw [rest,Nat.min_eq_right (by omega),Option.bind_some,parts,int_of_lt fits,calls]
        simp only [Option.bind_some,Option.pure_def,Option.some.injEq,Prod.mk.injEq,true_and]
        omega

theorem mul_mul2 (a b cnt : Nat) (fits : a*b < 2^31) :
    mul a b cnt = some (a*b,cnt+mulCalls (min a b)) ∧
      mul2 a b cnt = some (a*b,cnt+(min (Nat.digits 2 a).sum (Nat.digits 2 b).sum+1)) := by
  refine ⟨mul_eq a b cnt fits,?_⟩
  rw [mul2,numOfOnes_eq,numOfOnes_eq]
  split
  case isTrue more =>
    rw [mul2Internal_eq a b cnt (by rintro rfl; simp at more) fits,Nat.min_eq_right more.le]
  case isFalse less =>
    have live : b = 0 → a = 0 := by
      rintro rfl
      by_contra positive
      have ones := (clear_eq a positive).2.2
      simp at less
      omega
    rw [mul2Internal_eq b a cnt live (by rwa [Nat.mul_comm]),Nat.min_eq_left (by omega),Nat.mul_comm]

theorem mul_mul2_example : mul 59 150 0 = some (8850,11) ∧ mul2 59 150 0 = some (8850,5) := by
  have both := mul_mul2 59 150 0 (by decide)
  norm_num [mulCalls] at both
  exact both

end CodeExercise.Multiply
