import Mathlib.Algebra.Order.Group.Nat
import Mathlib.Data.List.GetD
import Mathlib.Data.Nat.ModEq
import Mathlib.Tactic.Ring

/-!
Files as sequences of bytes, and numbers as little-endian words in them. A file
is a size and a byte at every offset, which is zero beyond the size, as for a
read of a hole. What is written at an offset is read back there
(`slice_write_self`), and the rest of the file stays (`slice_write_of_disjoint`).
-/
namespace CodeExercise.Files
open List

/-- The `w` low bytes of a number, the lowest first. -/
def toLE : Nat → Nat → List UInt8
  | 0,_ => []
  | w+1,n => UInt8.ofNat n :: toLE w (n/256)

def ofLE : List UInt8 → Nat
  | [] => 0
  | b::bytes => b.toNat+256*ofLE bytes

@[simp] lemma length_toLE (w n : Nat) : (toLE w n).length = w := by
  induction w generalizing n with
  | zero => rfl
  | succ w ih => simp [toLE,ih]

lemma ofLE_toLE (w n : Nat) : ofLE (toLE w n) = n%256^w := by
  induction w generalizing n with
  | zero => simp [toLE,ofLE,Nat.mod_one]
  | succ w ih =>
    have low : (UInt8.ofNat n).toNat = n%256 := by simp
    rw [toLE,ofLE,ih,low,pow_succ',Nat.mod_mul]

variable {n off : Nat} {f : File}

lemma ofLE_toLE_of_lt (small : n < 256^w) : ofLE (toLE w n) = n := by
  rw [ofLE_toLE,Nat.mod_eq_of_lt small]

/-- An `int` of 32 bits, as it is in memory. -/
def intBytes (n : Int) : List UInt8 := toLE 4 (n%2^32).toNat
def intOf (bytes : List UInt8) : Int := if ofLE bytes < 2^31 then ofLE bytes else ofLE bytes-2^32
@[simp] lemma length_intBytes (n : Int) : (intBytes n).length = 4 := length_toLE 4 _

lemma intOf_intBytes {n : Int} (low : -2^31 ≤ n) (high : n < 2^31) : intOf (intBytes n) = n := by
  have value : ofLE (intBytes n) = (n%2^32).toNat := by
    rw [intBytes,ofLE_toLE_of_lt]
    omega
  rw [intOf,value]
  split <;> omega

structure File where
  size : Nat
  byte : Nat → UInt8
  beyond : ∀ i, size ≤ i → byte i = 0

/-- A file of zero bytes. -/
def File.zeros (n : Nat) : File := ⟨n,fun _ => 0,fun _ _ => rfl⟩
/-- The `n` bytes from an offset on. -/
def File.slice (f : File) (off n : Nat) : List UInt8 := (List.range n).map (fun i => f.byte (off+i))

/-- `read` of `n` bytes, when the file has them. -/
def File.read (f : File) (off n : Nat) : Option (List UInt8) :=
  if n = 0 ∨ off+n ≤ f.size then some (f.slice off n) else none

/-- `write` at an offset; it extends the file when it ends beyond its size. -/
def File.write (f : File) (off : Nat) (data : List UInt8) : File where
  size := if data = [] then f.size else max f.size (off+data.length)
  byte i := if off ≤ i ∧ i < off+data.length then data.getD (i-off) 0 else f.byte i
  beyond := by
    intro i far
    by_cases none : data = []
    · subst none
      have outside : ¬ (off ≤ i ∧ i < off+([] : List UInt8).length) := by simp
      rw [if_neg outside]
      exact f.beyond i (by simpa using far)
    · rw [if_neg none] at far
      have outside : ¬ (off ≤ i ∧ i < off+data.length) := by omega
      rw [if_neg outside]
      exact f.beyond i (by omega)

@[ext] lemma File.ext (size : f.size = g.size) (byte : f.byte = g.byte) : f = g := by
  cases f
  cases g
  cases size
  cases byte
  rfl

@[simp] lemma length_slice (f : File) (off n : Nat) : (f.slice off n).length = n := by simp [File.slice]

lemma slice_add (f : File) (off m n : Nat) : f.slice off (m+n) = f.slice off m ++ f.slice (off+m) n := by
  simp [File.slice,range_add,Nat.add_assoc]

lemma slice_succ (f : File) (off n : Nat) : f.slice off (n+1) = f.byte off :: f.slice (off+1) n := by
  rw [Nat.add_comm n 1,slice_add]
  rfl

lemma slice_congr {g : File} (same : ∀ i, off ≤ i → i < off+n → f.byte i = g.byte i) :
    f.slice off n = g.slice off n := by
  refine map_congr_left fun i mem => ?_
  have := mem_range.mp mem
  exact same (off+i) (by omega) (by omega)

lemma byte_write_of_not_mem
    (outside : ¬ (off ≤ i ∧ i < off+data.length)) : (f.write off data).byte i = f.byte i := if_neg outside

lemma slice_write_self (f : File) (off : Nat) (data : List UInt8) :
    (f.write off data).slice off data.length = data := by
  refine ext_getElem (by simp) fun i here there => ?_
  simp [File.slice,File.write,there]

lemma slice_write_of_disjoint
    (disjoint : ∀ i, off ≤ i → i < off+data.length → off' ≤ i → ¬ i < off'+n) :
    (f.write off data).slice off' n = f.slice off' n := by
  refine slice_congr fun i low high => byte_write_of_not_mem ?_
  rintro ⟨above,below⟩
  exact disjoint i above below low high

lemma byte_of_slice (read : f.slice off n = data)
    (here : data[j]? = some b) : f.byte (off+j) = b := by
  subst read
  obtain ⟨inside,value⟩ := List.getElem?_eq_some_iff.mp here
  simpa [File.slice] using value

lemma slice_write_slice (f g : File) (off : Nat) (inside : i+n ≤ len) :
    (f.write off (g.slice 0 len)).slice (off+i) n = g.slice i n := by
  refine map_congr_left fun j mem => ?_
  have below := mem_range.mp mem
  have within : off ≤ off+i+j ∧ off+i+j < off+(g.slice 0 len).length := by
    rw [length_slice]
    omega
  change (if _ then _ else _) = _
  rw [if_pos within,show off+i+j-off = i+j by omega]
  simp [File.slice,show i+j < len by omega]

lemma size_le_write (f : File) (off : Nat) (data : List UInt8) : f.size ≤ (f.write off data).size := by
  unfold File.write
  dsimp only
  split <;> omega

lemma size_write (near : off ≤ f.size) :
    (f.write off data).size = max f.size (off+data.length) := by
  unfold File.write
  dsimp only
  split
  · next none =>
    simp [none]
    omega
  · rfl

lemma write_nil (f : File) (off : Nat) : f.write off [] = f := by
  ext1
  · rfl
  · funext i
    exact byte_write_of_not_mem (by simp)

lemma write_append (f : File) (off : Nat) (a b : List UInt8) : (f.write off a).write (off+a.length) b = f.write off (a++b) := by
  by_cases none : b = []
  · rw [none,write_nil,append_nil]
  · ext1
    · simp only [File.write,none,append_eq_nil_iff,and_false,if_false,length_append]
      split
      · next nil => simp [nil]
      · omega
    · funext i
      simp only [File.write,length_append]
      by_cases late : off+a.length ≤ i
      · by_cases inside : i < off+a.length+b.length
        · rw [if_pos ⟨late,inside⟩,if_pos (by omega),getD_append_right _ _ _ _ (by omega),Nat.sub_add_eq]
        · rw [if_neg (by omega),if_neg (by omega),if_neg (by omega)]
      · rw [if_neg (by omega)]
        by_cases inside : off ≤ i
        · rw [if_pos (by omega),if_pos (by omega),getD_append _ _ _ _ (by omega)]
        · rw [if_neg (by omega),if_neg (by omega)]

lemma read_eq_some (inside : off+n ≤ f.size) : f.read off n = some (f.slice off n) :=
  if_pos (.inr inside)

end CodeExercise.Files
