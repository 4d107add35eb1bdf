import CodeExercise.Files

/-! Numbers of variable length. -/
namespace CodeExercise.Uvarints

/-- The bytes of a number in at most `k` groups. -/
def groups : Nat → Nat → List UInt8
  | 0,_ => []
  | k+1,x => if x < 128 then [UInt8.ofNat x] else UInt8.ofNat (x%128+128) :: groups k (x/128)

/-- The bytes that `PutUvarint` writes for a `uint64`. -/
def putUvarint (x : Nat) : List UInt8 := groups 10 x

/-- The loop of `Uvarint`, with `k` groups left. -/
def uvarintLoop (byte : Nat → UInt8) (len : Nat) : Nat → Nat → Nat → Nat × Int
  | 0,i,_ => if len ≤ i then (0,0) else (0,-(i+1 : Int))
  | k+1,i,x =>
    if len ≤ i then (0,0)
    else
      let b := (byte i).toNat
      if b < 128 then
        if k = 0 ∧ 1 < b then (0,-(i+1 : Int)) else (x+b*128^i,(i+1 : Int))
      else uvarintLoop byte len k (i+1) (x+(b-128)*128^i)

/-- `Uvarint` of a buffer of `len` bytes: the number and how many bytes it takes. No
bytes for a buffer that ends inside the number, a negative count for an overflow. -/
def uvarint (byte : Nat → UInt8) (len : Nat) : Nat × Int := uvarintLoop byte len 10 0 0

lemma length_putUvarint_pos (x : Nat) : 0 < (putUvarint x).length := by
  rw [putUvarint,groups]
  split <;> simp

lemma length_groups_le (k : Nat) (small : x < 128^(n+1)) : (groups k x).length ≤ n+1 := by
  induction k generalizing n x with
  | zero => simp [groups]
  | succ k ih =>
    rw [groups]
    split
    · simp
    case isFalse more =>
      cases n with
      | zero => omega
      | succ n => exact Nat.succ_le_succ (ih (Nat.div_lt_of_lt_mul (by rwa [← Nat.pow_succ'])))

lemma uvarintLoop_last (x : Nat) (last : y < 128) (fits : k = 0 → y ≤ 1)
    (read : byte i = UInt8.ofNat y) (inside : i < len) :
    uvarintLoop byte len (k+1) i x = (x+y*128^i,((i+1 : Nat) : Int)) := by
  have value : (byte i).toNat = y := by
    rw [read]
    simp
    omega
  rw [uvarintLoop,if_neg (by omega),value]
  simp only [if_pos last,Nat.cast_add,Nat.cast_one]
  rw [if_neg (by omega)]

lemma uvarintLoop_groups (k i x y : Nat) (small : y < 2*128^k)
    (read : ∀ (j : Nat) (b : UInt8), (groups (k+1) y)[j]? = some b → byte (i+j) = b)
    (inside : i+(groups (k+1) y).length ≤ len) :
    uvarintLoop byte len (k+1) i x = (x+y*128^i,((i+(groups (k+1) y).length : Nat) : Int)) := by
  induction k generalizing i x y with
  | zero =>
    have unfolded : groups (0+1) y = [UInt8.ofNat y] := by
      rw [groups,if_pos (by omega)]
    rw [unfolded] at read inside ⊢
    exact uvarintLoop_last x (by omega) (by omega) (read 0 _ rfl) inside
  | succ k ih =>
    rw [groups.eq_def] at read inside ⊢
    simp only at read inside ⊢
    by_cases last : y < 128
    · rw [if_pos last] at read inside ⊢
      exact uvarintLoop_last x last (by omega) (read 0 _ rfl) inside
    · rw [if_neg last] at read inside ⊢
      have value : (byte i).toNat = y%128+128 := by
        rw [show byte i = UInt8.ofNat (y%128+128) from read 0 _ rfl]
        simp
        omega
      rw [List.length_cons] at inside ⊢
      have rest : ∀ (j : Nat) (b : UInt8), (groups (k+1) (y/128))[j]? = some b → byte (i+1+j) = b := by
        intro j b here
        rw [show i+1+j = i+(j+1) by omega]
        exact read (j+1) b (by simpa using here)
      have smaller : y/128 < 2*128^k := by
        rw [Nat.div_lt_iff_lt_mul (by decide)]
        rw [pow_succ] at small
        omega
      rw [uvarintLoop,if_neg (by omega),value]
      simp only [show ¬ y%128+128 < 128 by omega,if_false,Nat.add_sub_cancel]
      rw [ih (i+1) (x+y%128*128^i) (y/128) smaller rest (by omega)]
      refine Prod.ext ?_ ?_
      · have parts := Nat.mod_add_div y 128
        calc x+y%128*128^i+y/128*128^(i+1) = x+(y%128+128*(y/128))*128^i := by ring
          _ = x+y*128^i := by rw [parts]
      · simp only [Nat.cast_add,Nat.cast_one]
        omega

lemma uvarint_putUvarint (small : x < 2^64)
    (read : ∀ (j : Nat) (b : UInt8), (putUvarint x)[j]? = some b → byte j = b)
    (inside : (putUvarint x).length ≤ len) : uvarint byte len = (x,((putUvarint x).length : Int)) := by
  rw [putUvarint] at read inside ⊢
  have loop := uvarintLoop_groups 9 0 0 x (by omega) (by simpa using read) (by simpa using inside)
  simpa [uvarint] using loop

end CodeExercise.Uvarints
