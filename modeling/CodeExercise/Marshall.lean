import CodeExercise.Slices
import Mathlib.Algebra.Order.Group.Nat
import Mathlib.Data.Fin.Basic
import Mathlib.Data.Nat.Bitwise

/-!
The buffers of `rpc/marshall.h` and the operators of `rpc/rpc.cc` for the types that
the lock state is made of. An `unmarshall` has its buffer, the read position and a
flag that is cleared when a read needs more bytes than there are.
-/
namespace CodeExercise.Marshall
open List

abbrev Byte := Fin 256
abbrev Bytes := List Byte

scoped instance neZero_byte : NeZero 256 := ⟨by decide⟩
scoped instance neZero_ull : NeZero (2^64) := ⟨by decide⟩

/-- The byte that `rawbyte` stores for a number. -/
def byte (x : Nat) : Byte := Fin.ofNat 256 x

/-- `operator<<` for `bool`. -/
def putBool (x : Bool) : Bytes := [if x then 1 else 0]
/-- `operator<<` for `unsigned int`. -/
def putUInt (x : Nat) : Bytes :=
  [byte (x >>> 24 &&& 0xff),byte (x >>> 16 &&& 0xff),byte (x >>> 8 &&& 0xff),byte (x &&& 0xff)]
/-- `operator<<` for `unsigned long long`. -/
def putULL (x : Nat) : Bytes := putUInt ((x >>> 32)%2^32) ++ putUInt (x%2^32)
/-- `operator<<` for `std::string`. -/
def putString (s : Bytes) : Bytes := putUInt (s.length%2^32) ++ s

@[simp] lemma length_putBool (x : Bool) : (putBool x).length = 1 := rfl
@[simp] lemma length_putUInt (x : Nat) : (putUInt x).length = 4 := rfl
@[simp] lemma length_putULL (x : Nat) : (putULL x).length = 8 := rfl
@[simp] lemma length_putString (s : Bytes) : (putString s).length = s.length+4 := by
  simp [putString]
  omega

lemma length_le_flatMap {α : Type} (put : α → Bytes) (xs : List α) (filled : ∀ x, 1 ≤ (put x).length) :
    xs.length ≤ (xs.flatMap put).length := by
  induction xs with
  | nil => simp
  | cons x xs ih =>
    have first := filled x
    simp only [flatMap_cons,length_append,length_cons]
    omega

/-- `unmarshall`, whose `_sz` is the length of the buffer. -/
structure Unmarshall where
  buf : Bytes
  ind : Nat
  ok : Bool
  deriving DecidableEq

/-- `RPC_HEADER_SZ`: a request header and the size of the packet. -/
def rpcHeaderSz : Nat := 24
/-- `unmarshall(const std::string &)`; the space for a header is left out of reading. -/
def Unmarshall.takeContent (s : Bytes) : Unmarshall := ⟨List.replicate rpcHeaderSz 0 ++ s,rpcHeaderSz,true⟩

/-- `unmarshall::rawbyte`. -/
def Unmarshall.rawbyte (u : Unmarshall) : Byte × Unmarshall :=
  if u.ind ≥ u.buf.length then (0,{ u with ok := false })
  else ((u.buf.drop u.ind).headD 0,{ u with ind := u.ind+1 })

/-- `unmarshall::rawbytes`, with the string that is read into. -/
def Unmarshall.rawbytes (u : Unmarshall) (ss : Bytes) (n : Nat) : Bytes × Unmarshall :=
  if (u.ind+n)%2^32 > u.buf.length then (ss,{ u with ok := false })
  else ((u.buf.drop u.ind).take n,{ u with ind := u.ind+n })

/-- `operator>>` for `bool`. -/
def Unmarshall.bool (u : Unmarshall) : Bool × Unmarshall :=
  let x := u.rawbyte
  (decide (x.1 ≠ 0),x.2)
/-- `operator>>` for `unsigned int` and `int`; the bits of an `int` are those of the
`unsigned int`. -/
def Unmarshall.uint (u : Unmarshall) : Nat × Unmarshall :=
  let a := u.rawbyte
  let b := a.2.rawbyte
  let c := b.2.rawbyte
  let d := c.2.rawbyte
  (a.1.val <<< 24 ||| b.1.val <<< 16 ||| c.1.val <<< 8 ||| d.1.val,d.2)
/-- `operator>>` for `unsigned long long`. -/
def Unmarshall.ull (u : Unmarshall) : Nat × Unmarshall :=
  let h := u.uint
  let l := h.2.uint
  (l.1 ||| h.1 <<< 32,l.2)
/-- `operator>>` for `std::string`. -/
def Unmarshall.string (u : Unmarshall) (s : Bytes) : Bytes × Unmarshall :=
  let sz := u.uint
  if sz.2.ok then sz.2.rawbytes s sz.1 else (s,sz.2)

/-- The bytes are what is left to read. -/
structure Unmarshall.At (u : Unmarshall) (left : Bytes) : Prop where
  ok : u.ok = true
  inside : u.ind ≤ u.buf.length
  left : u.buf.drop u.ind = left
  small : u.buf.length < 2^31

section
variable {u : Unmarshall} {rest : Bytes}

lemma Unmarshall.At.length {left : Bytes} (at_left : u.At left) : u.ind + left.length = u.buf.length := by
  have inside := at_left.inside
  have same := congrArg List.length at_left.left
  rw [length_drop] at same
  omega

lemma takeContent_at (fits : rpcHeaderSz+s.length < 2^31) : (Unmarshall.takeContent s).At s := by
  refine ⟨rfl,?_,?_,?_⟩
  · simp [Unmarshall.takeContent]
  · exact drop_left' length_replicate
  · simpa [Unmarshall.takeContent] using fits

lemma Unmarshall.At.skip (at_bytes : u.At (bytes++rest)) :
    ({ u with ind := u.ind+bytes.length } : Unmarshall).At rest := by
  have size := at_bytes.length
  simp only [length_append] at size
  refine ⟨at_bytes.ok,?_,?_,at_bytes.small⟩
  · simp only
    omega
  · simp only
    rw [← drop_drop,at_bytes.left,drop_left]

lemma rawbyte_at (at_bytes : u.At (b::rest)) : ∃ t, u.rawbyte = (b,t) ∧ t.At rest := by
  have size := at_bytes.length
  simp only [length_cons] at size
  have after : ({ u with ind := u.ind+[b].length } : Unmarshall).At rest := at_bytes.skip
  refine ⟨_,?_,after⟩
  rw [Unmarshall.rawbyte,if_neg (by omega),at_bytes.left]
  rfl

lemma bool_at (at_bytes : u.At (putBool x ++ rest)) : ∃ t, u.bool = (x,t) ∧ t.At rest := by
  obtain ⟨t,read,at_rest⟩ := rawbyte_at at_bytes
  refine ⟨t,?_,at_rest⟩
  rw [Unmarshall.bool,read]
  cases x <;> rfl

lemma lor_eq_add (low : b < 2^k) (high : 2^k ∣ a) : a ||| b = a+b := by
  obtain ⟨c,rfl⟩ := high
  exact (Nat.two_pow_add_eq_or_of_lt low c).symm

lemma byte_val (x : Nat) : (byte (x &&& 0xff)).val = x%256 := by
  have mask : x &&& 0xff = x%2^8 := Nat.and_two_pow_sub_one_eq_mod x 8
  rw [mask]
  exact Nat.mod_mod x 256

lemma joined_bytes (range : x < 2^32) :
    (byte (x >>> 24 &&& 0xff)).val <<< 24 ||| (byte (x >>> 16 &&& 0xff)).val <<< 16 |||
      (byte (x >>> 8 &&& 0xff)).val <<< 8 ||| (byte (x &&& 0xff)).val = x := by
  simp only [byte_val,Nat.shiftRight_eq_div_pow,Nat.shiftLeft_eq]
  have two : x/2^24%256*2^24 ||| x/2^16%256*2^16 = x/2^24%256*2^24 + x/2^16%256*2^16 :=
    lor_eq_add (k := 24) (by omega) (by omega)
  have three : x/2^24%256*2^24 + x/2^16%256*2^16 ||| x/2^8%256*2^8 =
      x/2^24%256*2^24 + x/2^16%256*2^16 + x/2^8%256*2^8 := lor_eq_add (k := 16) (by omega) (by omega)
  rw [two,three,lor_eq_add (k := 8) (by omega) (by omega)]
  omega

lemma uint_at (range : x < 2^32) (at_bytes : u.At (putUInt x ++ rest)) :
    ∃ t, u.uint = (x,t) ∧ t.At rest := by
  obtain ⟨a,readA,at_a⟩ := rawbyte_at at_bytes
  obtain ⟨b,readB,at_b⟩ := rawbyte_at at_a
  obtain ⟨c,readC,at_c⟩ := rawbyte_at at_b
  obtain ⟨d,readD,at_d⟩ := rawbyte_at at_c
  refine ⟨d,?_,at_d⟩
  simp only [Unmarshall.uint,readA,readB,readC,readD,joined_bytes range]

lemma ull_at (range : x < 2^64) (at_bytes : u.At (putULL x ++ rest)) :
    ∃ t, u.ull = (x,t) ∧ t.At rest := by
  rw [putULL,append_assoc] at at_bytes
  obtain ⟨h,readH,at_h⟩ := uint_at (Nat.mod_lt _ (by decide)) at_bytes
  obtain ⟨l,readL,at_l⟩ := uint_at (Nat.mod_lt x (by decide)) at_h
  refine ⟨l,?_,at_l⟩
  simp only [Unmarshall.ull,readH,readL,Prod.mk.injEq,and_true,Nat.shiftRight_eq_div_pow,Nat.shiftLeft_eq]
  rw [Nat.lor_comm,lor_eq_add (k := 32) (by omega) (by omega)]
  omega

lemma string_at (old : Bytes) (at_bytes : u.At (putString s ++ rest)) :
    ∃ t, u.string old = (s,t) ∧ t.At rest := by
  have size := at_bytes.length
  have small := at_bytes.small
  simp only [length_append,length_putString] at size
  have short : s.length%2^32 = s.length := Nat.mod_eq_of_lt (by omega)
  rw [putString,append_assoc,short] at at_bytes
  obtain ⟨t,read,at_t⟩ := uint_at (by omega) at_bytes
  refine ⟨_,?_,at_t.skip⟩
  have left := at_t.length
  have range := at_t.small
  simp only [length_append] at left
  rw [Unmarshall.string,read]
  simp only [at_t.ok,if_true,Unmarshall.rawbytes]
  rw [Nat.mod_eq_of_lt (by omega),if_neg (by omega),at_t.left,take_left]

end
end CodeExercise.Marshall
