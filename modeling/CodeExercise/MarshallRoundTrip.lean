import CodeExercise.Extents
import CodeExercise.MarshallBuffer
import CodeExercise.SortedMaps
import Mathlib

/-!
Values that RPCs pass and their round trip through `marshall` and `unmarshall`. A type is built from
those with operators of their own by vectors and maps; `Kind` has what the templates need of an
element type, the order of map keys included. Beyond 2^30 bytes the capacity, which is doubled, may
not fit an `int` (`marshall_overflows`).
-/
namespace CodeExercise.MarshallRoundTrip
open Marshall MarshallBuffer SortedMaps List Option

/-- A signed integer of which half the values are negative. -/
abbrev Signed (half : Nat) := { x : Int // -half ≤ x ∧ x < half }
/-- The bits as an unsigned number, and back. -/
def Signed.bits {half : Nat} (x : Signed half) : Nat := (x.val%(2*half : Nat)).toNat

def Signed.ofBits (half : Nat) (positive : 0 < half) (n : Nat) : Signed half :=
  ⟨(n : Int).bmod (2*half),by
    have low := Int.le_bmod (x := n) (m := 2*half) (by omega)
    have high := Int.bmod_lt (x := n) (m := 2*half) (by omega)
    omega⟩

section
variable {half : Nat} (positive : 0 < half) (x : Signed half)

lemma Signed.bits_lt : x.bits < 2*half := by
  have low := Int.emod_nonneg x.val (show ((2*half : Nat) : Int) ≠ 0 by omega)
  have high := Int.emod_lt_of_pos x.val (show (0 : Int) < (2*half : Nat) by omega)
  rw [Signed.bits]
  omega

lemma Signed.ofBits_bits : Signed.ofBits half positive x.bits = x := by
  obtain ⟨x,low,high⟩ := x
  apply Subtype.ext
  have nonneg : 0 ≤ x%(2*half : Nat) := Int.emod_nonneg x (by omega)
  simp only [Signed.ofBits,Signed.bits,Int.toNat_of_nonneg nonneg,Int.emod_bmod]
  rw [Int.bmod_eq_of_le]
  · omega
  · omega

end

/-- A type with its order, its `operator<<` and `operator>>`, and the bytes it takes. -/
structure Kind where
  Val : Type
  order : LinearOrder Val
  write : Marshall → Val → Option Marshall
  read : Unmarshall → Val × Unmarshall
  bytes : Val → Bytes

/-- `rawbyte` returns a `char` as an `unsigned int`. -/
def word (b : Byte) : Nat := if b.val < 128 then b.val else b.val+0xffffff00
/-- `operator<<` and `operator>>` for `unsigned short`. -/
def putUShort (x : Nat) : Bytes := [byte (x >>> 8 &&& 0xff),byte (x &&& 0xff)]

def getUShort (u : Unmarshall) : Nat × Unmarshall :=
  let a := u.rawbyte
  let b := a.2.rawbyte
  ((word a.1 &&& 0xff) <<< 8 ||| (word b.1 &&& 0xff),b.2)

/-- The size of a string, a vector or a map, as an `unsigned int`. -/
def putSize (n : Nat) : Bytes := putUInt (n%2^32)
@[simp] lemma length_putSize (n : Nat) : (putSize n).length = 4 := rfl

namespace Kind

/-- A type that is written byte by byte. -/
def scalar (α : Type) [order : LinearOrder α] (put : α → Bytes) (get : Unmarshall → α × Unmarshall) : Kind :=
  ⟨α,order,fun m x => m.bytes (put x),get,put⟩

def bool : Kind := scalar Bool putBool Unmarshall.bool
def uchar : Kind := scalar Byte (fun x => [x]) (fun u => (byte (word u.rawbyte.1),u.rawbyte.2))
def char : Kind :=
  scalar (Signed (2^7)) (fun x => [byte x.bits]) (fun u => (.ofBits _ (by decide) (word u.rawbyte.1),u.rawbyte.2))
def ushort : Kind :=
  scalar (Fin (2^16)) (fun x => putUShort x) (fun u => (Fin.ofNat _ (getUShort u).1,(getUShort u).2))
def short : Kind :=
  scalar (Signed (2^15)) (fun x => putUShort x.bits) (fun u => (.ofBits _ (by decide) (getUShort u).1,(getUShort u).2))
def uint : Kind := scalar (Fin (2^32)) (fun x => putUInt x) (fun u => (Fin.ofNat _ u.uint.1,u.uint.2))
def int : Kind :=
  scalar (Signed (2^31)) (fun x => putUInt x.bits) (fun u => (.ofBits _ (by decide) u.uint.1,u.uint.2))
def ull : Kind := scalar (Fin (2^64)) (fun x => putULL x) (fun u => (Fin.ofNat _ u.ull.1,u.ull.2))

def string : Kind where
  Val := Bytes
  order := inferInstance
  write m s := (m.bytes (putSize s.length)).bind (fun m => m.rawbytes s)
  read u := u.string []
  bytes := putString

end Kind

/-- The loops of the operators for `std::vector`. -/
def writeAll {α : Type} (write : Marshall → α → Option Marshall) : Marshall → List α → Option Marshall
  | m,[] => some m
  | m,x::v => (write m x).bind (fun m => writeAll write m v)

def readAll {α : Type} (read : Unmarshall → α × Unmarshall) : Nat → Unmarshall → List α → List α × Unmarshall
  | 0,u,v => (v,u)
  | n+1,u,v => readAll read n (read u).2 (v++[(read u).1])

def Kind.vector (c : Kind) : Kind where
  Val := List c.Val
  order := letI := c.order; inferInstance
  write m v := (m.bytes (putSize v.length)).bind (fun m => writeAll c.write m v)
  read u := readAll c.read u.uint.1 u.uint.2 []
  bytes v := putSize v.length ++ v.flatMap c.bytes

/-- `operator<` for `std::map` compares the entries in order. -/
@[reducible] def mapOrder (A B : Type) [LinearOrder A] [LinearOrder B] : LinearOrder (SortedMap A B) :=
  LinearOrder.lift' (fun d : SortedMap A B => d.entries.map toLex) (by
    rintro ⟨d,_⟩ ⟨e,_⟩ same
    obtain rfl : d = e := map_injective_iff.mpr toLex.injective same
    rfl)

/-- The loop of `operator>>` for `std::map`. -/
def readEntries {A B : Type} [LinearOrder A] (readA : Unmarshall → A × Unmarshall) (readB : Unmarshall → B × Unmarshall) :
    Nat → Unmarshall → SortedMap A B → SortedMap A B × Unmarshall
  | 0,u,d => (d,u)
  | n+1,u,d =>
    let a := readA u
    let b := readB a.2
    readEntries readA readB n b.2 (d.set a.1 b.1)

def Kind.map (a b : Kind) : Kind :=
  letI := a.order
  letI := b.order
  { Val := SortedMap a.Val b.Val
    order := mapOrder a.Val b.Val
    write m d := (m.bytes (putSize d.entries.length)).bind (fun m =>
      writeAll (fun m e => (a.write m e.1).bind (fun m => b.write m e.2)) m d.entries)
    read u := readEntries a.read b.read u.uint.1 u.uint.2 .empty
    bytes d := putSize d.entries.length ++ d.entries.flatMap (fun e => a.bytes e.1 ++ b.bytes e.2) }

/-- The supported types. -/
inductive Ty where
  | bool
  | uchar
  | char
  | ushort
  | short
  | uint
  | int
  | ull
  | string
  | vector (c : Ty)
  | map (a b : Ty)

def Ty.kind : Ty → Kind
  | bool => .bool
  | uchar => .uchar
  | char => .char
  | ushort => .ushort
  | short => .short
  | uint => .uint
  | int => .int
  | ull => .ull
  | string => .string
  | vector c => .vector c.kind
  | map a b => .map a.kind b.kind

/-- A value with its type. -/
abbrev Value := (t : Ty) × t.kind.Val

/-- `req_header`. -/
structure ReqHeader where
  xid : Signed (2^31)
  proc : Signed (2^31)
  cltNonce : Fin (2^32)
  srvNonce : Fin (2^32)
  xidRep : Signed (2^31)
  deriving DecidableEq

/-- The five calls of `pack`; the bytes of an `int` are those of the `unsigned int`. -/
def ReqHeader.bytes (h : ReqHeader) : Bytes :=
  putUInt h.xid.bits ++ putUInt h.proc.bits ++ putUInt h.cltNonce ++ putUInt h.srvNonce ++ putUInt h.xidRep.bits

/-- `marshall::pack_req_header`; the first four bytes are left for the size of the packet. -/
def packReqHeader (m : Marshall) (h : ReqHeader) : Option Marshall :=
  (({ m with ind := 4 } : Marshall).bytes h.bytes).map (fun packed => { packed with ind := m.ind })

/-- `unmarshall::unpack_req_header`. -/
def unpackReqHeader (u : Unmarshall) : ReqHeader × Unmarshall :=
  let xid := ({ u with ind := 4 } : Unmarshall).uint
  let proc := xid.2.uint
  let cltNonce := proc.2.uint
  let srvNonce := cltNonce.2.uint
  let xidRep := srvNonce.2.uint
  (⟨.ofBits _ (by decide) xid.1,.ofBits _ (by decide) proc.1,Fin.ofNat _ cltNonce.1,Fin.ofNat _ srvNonce.1,
    .ofBits _ (by decide) xidRep.1⟩,{ xidRep.2 with ind := rpcHeaderSz })

/-- The header and then the values are written. -/
def writeMessage (h : ReqHeader) (values : List Value) : Option Marshall :=
  (packReqHeader .new h).bind (fun m => writeAll (fun m (v : Value) => v.1.kind.write m v.2) m values)

/-- `unmarshall(char *, int)` takes over the buffer up to the write position. -/
def takeBuf (m : Marshall) : Unmarshall := ⟨m.buf.take m.ind,0,true⟩

/-- Values of the given types are read one after the other. -/
def readValues : List Ty → Unmarshall → List Value × Unmarshall
  | [],u => ([],u)
  | t::types,u =>
    let v := t.kind.read u
    let rest := readValues types v.2
    (⟨t,v.1⟩::rest.1,rest.2)

/-- `unmarshall::okdone`. -/
def okdone (u : Unmarshall) : Bool := u.ok && u.ind == u.buf.length
/-- The bytes that the values take. -/
def valueBytes (values : List Value) : Bytes := values.flatMap (fun v => v.1.kind.bytes v.2)

/-- A value is written as its bytes, and it is read back from them, whatever follows. -/
def Writes {α : Type} (write : Marshall → α → Option Marshall) (bytes : α → Bytes) : Prop :=
  ∀ (m : Marshall) (header written : Bytes) (v : α), m.Holds header written → m.ind+(bytes v).length ≤ 2^30 →
    ∃ m', write m v = some m' ∧ m'.Holds header (written++bytes v)

def Reads {α : Type} (read : Unmarshall → α × Unmarshall) (bytes : α → Bytes) : Prop :=
  ∀ (u : Unmarshall) (rest : Bytes) (v : α), u.At (bytes v ++ rest) → ∃ t, read u = (v,t) ∧ t.At rest

structure Kind.Sound (k : Kind) : Prop where
  filled : ∀ v, 1 ≤ (k.bytes v).length
  write : Writes k.write k.bytes
  read : Reads k.read k.bytes

lemma word_mod (b : Byte) : word b%256 = b.val := by
  have := b.isLt
  unfold word
  split <;> omega

lemma word_mask (b : Byte) : word b &&& 0xff = b.val := by
  have low := word_mod b
  generalize word b = w at low ⊢
  exact (Nat.and_two_pow_sub_one_eq_mod w 8).trans low

lemma byte_of_lt (range : x < 256) : (byte x).val = x := Nat.mod_eq_of_lt range

lemma ofBits_word (x : Signed (2^7)) : Signed.ofBits (2^7) (by decide) (word (byte x.bits)) = x := by
  have range : x.bits < 2*2^7 := x.bits_lt
  have low : word (byte x.bits)%256 = x.bits := by rw [word_mod,byte_of_lt (by omega)]
  have back := congrArg Subtype.val (Signed.ofBits_bits (by decide) x)
  generalize word (byte x.bits) = w at low ⊢
  apply Subtype.ext
  rw [← back,← low]
  simp only [Signed.ofBits]
  push_cast
  exact (Int.emod_bmod (w : Int) 256).symm

lemma getUShort_at (range : x < 2^16) (at_bytes : u.At (putUShort x ++ rest)) :
    ∃ t, getUShort u = (x,t) ∧ t.At rest := by
  obtain ⟨a,readA,at_a⟩ := rawbyte_at at_bytes
  obtain ⟨b,readB,at_b⟩ := rawbyte_at at_a
  refine ⟨b,?_,at_b⟩
  simp only [getUShort,readA,readB,word_mask,byte_val,Nat.shiftRight_eq_div_pow,Nat.shiftLeft_eq,Prod.mk.injEq,and_true]
  rw [lor_eq_add (k := 8) (by omega) (by omega)]
  omega

lemma sound_scalar {α : Type} [LinearOrder α] {put : α → Bytes} {get : Unmarshall → α × Unmarshall}
    (filled : ∀ x, 1 ≤ (put x).length) (read : Reads get put) : (Kind.scalar α put get).Sound :=
  ⟨filled,fun _ _ _ _ holds small => Marshall.bytes_holds holds small,read⟩

lemma sound_bool : Kind.bool.Sound := sound_scalar (fun _ => Nat.le_refl 1) (fun _ _ _ at_bytes => bool_at at_bytes)

lemma sound_uchar : Kind.uchar.Sound := by
  refine sound_scalar (fun _ => Nat.le_refl 1) fun u rest x at_bytes => ?_
  obtain ⟨t,read,at_rest⟩ := rawbyte_at at_bytes
  have same : byte (word x) = x := Fin.ext (word_mod x)
  exact ⟨t,by rw [read,same],at_rest⟩

lemma sound_char : Kind.char.Sound := by
  refine sound_scalar (fun _ => Nat.le_refl 1) fun u rest x at_bytes => ?_
  obtain ⟨t,read,at_rest⟩ := rawbyte_at at_bytes
  exact ⟨t,by rw [read,ofBits_word],at_rest⟩

lemma sound_ushort : Kind.ushort.Sound := by
  refine sound_scalar (fun _ => Nat.le_succ 1) fun u rest x at_bytes => ?_
  obtain ⟨t,read,at_rest⟩ := getUShort_at x.isLt at_bytes
  exact ⟨t,by rw [read,Fin.ofNat_val_eq_self],at_rest⟩

lemma sound_short : Kind.short.Sound := by
  refine sound_scalar (fun _ => Nat.le_succ 1) fun u rest x at_bytes => ?_
  obtain ⟨t,read,at_rest⟩ := getUShort_at x.bits_lt at_bytes
  exact ⟨t,by rw [read,Signed.ofBits_bits],at_rest⟩

lemma sound_uint : Kind.uint.Sound := by
  refine sound_scalar (fun x => by simp) fun u rest x at_bytes => ?_
  obtain ⟨t,read,at_rest⟩ := uint_at x.isLt at_bytes
  exact ⟨t,by rw [read,Fin.ofNat_val_eq_self],at_rest⟩

lemma sound_int : Kind.int.Sound := by
  refine sound_scalar (fun x => by simp) fun u rest x at_bytes => ?_
  obtain ⟨t,read,at_rest⟩ := uint_at x.bits_lt at_bytes
  exact ⟨t,by rw [read,Signed.ofBits_bits],at_rest⟩

lemma sound_ull : Kind.ull.Sound := by
  refine sound_scalar (fun x => by simp) fun u rest x at_bytes => ?_
  obtain ⟨t,read,at_rest⟩ := ull_at x.isLt at_bytes
  exact ⟨t,by rw [read,Fin.ofNat_val_eq_self],at_rest⟩

lemma size_holds {m : Marshall} {header written : Bytes} (n k : Nat) (holds : m.Holds header written)
    (small : m.ind+(4+k) ≤ 2^30) :
    ∃ m', m.bytes (putSize n) = some m' ∧ m'.Holds header (written++putSize n) ∧ m'.ind+k ≤ 2^30 := by
  obtain ⟨m1,stored,holds1⟩ := Marshall.bytes_holds (p := putSize n) holds (by rw [length_putSize]; omega)
  have moved := holds1.ind
  rw [length_append,length_putSize,← Nat.add_assoc,← holds.ind] at moved
  exact ⟨m1,stored,holds1,by omega⟩

lemma sound_string : Kind.string.Sound := by
  have read : Reads (fun u => u.string []) putString := fun _ _ _ at_bytes => string_at [] at_bytes
  have write : Writes (fun m (s : Bytes) => (m.bytes (putSize s.length)).bind (fun m => m.rawbytes s)) putString := by
    intro m header written s holds small
    rw [length_putString] at small
    obtain ⟨m1,stored,holds1,small1⟩ := size_holds s.length s.length holds (by omega)
    obtain ⟨m2,copied,holds2⟩ := Marshall.rawbytes_holds (p := s) holds1 small1
    rw [append_assoc] at holds2
    refine ⟨m2,?_,holds2⟩
    beta_reduce
    rw [stored,bind_some,copied]
  unfold Kind.string
  exact ⟨fun s => le_of_le_of_eq (by omega) (length_putString s).symm,write,read⟩

section
variable {α A B : Type} {write : Marshall → α → Option Marshall} {bytes : α → Bytes} {u : Unmarshall} {rest : Bytes}

lemma Writes.pair
    (first : Writes writeA bytesA) (second : Writes writeB bytesB) :
    Writes (fun m (e : A × B) => (writeA m e.1).bind (fun m => writeB m e.2)) (fun e => bytesA e.1 ++ bytesB e.2) := by
  intro m header written e holds small
  rw [length_append] at small
  obtain ⟨m1,stored,holds1⟩ := first m header written e.1 holds (by omega)
  have moved := holds1.ind
  rw [length_append,← Nat.add_assoc,← holds.ind] at moved
  obtain ⟨m2,stored2,holds2⟩ := second m1 header _ e.2 holds1 (by omega)
  refine ⟨m2,?_,by simpa using holds2⟩
  beta_reduce
  rw [stored,bind_some,stored2]

lemma Writes.all (one : Writes write bytes) : Writes (writeAll write) (fun v => v.flatMap bytes) := by
  intro m header written v holds small
  induction v generalizing m written with
  | nil => exact ⟨m,rfl,by simpa using holds⟩
  | cons x v ih =>
    simp only [flatMap_cons,length_append] at small
    obtain ⟨m1,stored,holds1⟩ := one m header written x holds (by omega)
    have moved := holds1.ind
    rw [length_append,← Nat.add_assoc,← holds.ind] at moved
    obtain ⟨m2,later,holds2⟩ := ih m1 _ holds1 (show m1.ind+(v.flatMap bytes).length ≤ 2^30 by omega)
    refine ⟨m2,?_,by simpa using holds2⟩
    rw [writeAll,stored,bind_some,later]

lemma Writes.counted (size : α → Nat) (items : Writes write bytes) :
    Writes (fun m v => (m.bytes (putSize (size v))).bind (fun m => write m v)) (fun v => putSize (size v) ++ bytes v) := by
  intro m header written v holds small
  rw [length_append,length_putSize] at small
  obtain ⟨m1,stored,holds1,small1⟩ := size_holds (size v) (bytes v).length holds small
  obtain ⟨m2,later,holds2⟩ := items m1 header _ v holds1 small1
  refine ⟨m2,?_,by simpa using holds2⟩
  beta_reduce
  rw [stored,bind_some,later]

lemma readAll_at {read : Unmarshall → α × Unmarshall} (one : Reads read bytes) {xs : List α} (v : List α)
    (at_bytes : u.At (xs.flatMap bytes ++ rest)) :
    ∃ t, readAll read xs.length u v = (v++xs,t) ∧ t.At rest := by
  induction xs generalizing u v with
  | nil => exact ⟨u,by simp [readAll],at_bytes⟩
  | cons x xs ih =>
    rw [flatMap_cons,append_assoc] at at_bytes
    obtain ⟨t,first,at_t⟩ := one u _ x at_bytes
    obtain ⟨t',later,at_rest⟩ := ih (v++[x]) at_t
    refine ⟨t',?_,at_rest⟩
    rw [length_cons,readAll,first,later]
    simp

lemma readEntries_at [LinearOrder A] {readA : Unmarshall → A × Unmarshall} {readB : Unmarshall → B × Unmarshall}
    {bytesA : A → Bytes} {bytesB : B → Bytes} (first : Reads readA bytesA) (second : Reads readB bytesB)
    {es : List (A × B)} (d : SortedMap A B) (at_bytes : u.At (es.flatMap (fun e => bytesA e.1 ++ bytesB e.2) ++ rest)) :
    ∃ t, readEntries readA readB es.length u d = (d.setAll es,t) ∧ t.At rest := by
  induction es generalizing u d with
  | nil => exact ⟨u,rfl,at_bytes⟩
  | cons e es ih =>
    rw [flatMap_cons,append_assoc,append_assoc] at at_bytes
    obtain ⟨a,readKey,at_a⟩ := first u _ e.1 at_bytes
    obtain ⟨b,readVal,at_b⟩ := second a _ e.2 at_a
    obtain ⟨t,later,at_rest⟩ := ih (d.set e.1 e.2) at_b
    refine ⟨t,?_,at_rest⟩
    simp only [length_cons,readEntries,readKey,readVal,later]
    rfl

lemma count_at {xs : List α} (filled : ∀ x, 1 ≤ (bytes x).length)
    (at_bytes : u.At (putSize xs.length ++ (xs.flatMap bytes ++ rest))) :
    ∃ t, u.uint = (xs.length,t) ∧ t.At (xs.flatMap bytes ++ rest) := by
  have size := at_bytes.length
  have small := at_bytes.small
  have many := length_le_flatMap bytes xs filled
  simp only [length_append] at size
  rw [putSize,Nat.mod_eq_of_lt (by omega)] at at_bytes
  exact uint_at (by omega) at_bytes

end

lemma sound_vector {c : Kind} (sound : c.Sound) : c.vector.Sound := by
  have writes := sound.write.all.counted List.length
  refine ⟨fun (v : List c.Val) => ?_,writes,fun u rest (v : List c.Val) at_bytes => ?_⟩
  · have size : (putSize v.length ++ v.flatMap c.bytes).length = 4+(v.flatMap c.bytes).length := by simp
    exact le_of_le_of_eq (by omega) size.symm
  · have at_size : u.At (putSize v.length ++ (v.flatMap c.bytes ++ rest)) := by
      rwa [← append_assoc]
    obtain ⟨t,count,at_items⟩ := count_at sound.filled at_size
    obtain ⟨t',items,at_rest⟩ := readAll_at sound.read [] at_items
    refine ⟨t',?_,at_rest⟩
    change readAll c.read u.uint.1 u.uint.2 [] = _
    rw [count,items]
    rfl

lemma sound_map {a b : Kind} (soundA : a.Sound) (soundB : b.Sound) : (a.map b).Sound := by
  let := a.order
  have writes := (Writes.pair soundA.write soundB.write).all
  refine ⟨fun (d : SortedMap a.Val b.Val) => ?_,?_,fun u rest (d : SortedMap a.Val b.Val) at_bytes => ?_⟩
  · have size : (putSize d.entries.length ++ d.entries.flatMap (fun e => a.bytes e.1 ++ b.bytes e.2)).length =
        4+(d.entries.flatMap (fun e => a.bytes e.1 ++ b.bytes e.2)).length := by
      rw [length_append,length_putSize]
    exact le_of_le_of_eq (by omega) size.symm
  · intro m header written d holds small
    exact (writes.counted List.length) m header written (SortedMap.entries d) holds small
  · dsimp only [Kind.map] at at_bytes
    rw [append_assoc] at at_bytes
    have filled : ∀ e : a.Val × b.Val, 1 ≤ (a.bytes e.1 ++ b.bytes e.2).length := by
      intro e
      rw [length_append]
      exact le_trans (soundA.filled e.1) (Nat.le_add_right _ _)
    obtain ⟨t,count,at_items⟩ := count_at filled at_bytes
    obtain ⟨t',items,at_rest⟩ := readEntries_at soundA.read soundB.read .empty at_items
    refine ⟨t',?_,at_rest⟩
    change readEntries a.read b.read u.uint.1 u.uint.2 .empty = _
    rw [count,items,setAll_empty]
    rfl

lemma sound_kind (t : Ty) : t.kind.Sound := by
  induction t with
  | bool => exact sound_bool
  | uchar => exact sound_uchar
  | char => exact sound_char
  | ushort => exact sound_ushort
  | short => exact sound_short
  | uint => exact sound_uint
  | int => exact sound_int
  | ull => exact sound_ull
  | string => exact sound_string
  | vector c sound => exact sound_vector sound
  | map a b soundA soundB => exact sound_map soundA soundB

lemma length_header (h : ReqHeader) : h.bytes.length = 20 := rfl

/-- The header takes the place of the one in the block, behind the size of the packet. -/
lemma packReqHeader_holds (h : ReqHeader) (holds : m.Holds header written) :
    ∃ m' size, packReqHeader m h = some m' ∧ m'.Holds (size++h.bytes) written ∧ size.length = 4 ∧ m'.capa = m.capa := by
  obtain ⟨rest,buf⟩ := holds.buf
  have size : header.length = 24 := holds.header
  obtain ⟨front,old,rfl,front4,old20⟩ : ∃ front old, header = front++old ∧ front.length = 4 ∧ old.length = 20 := by
    refine ⟨header.take 4,header.drop 4,(take_append_drop _ _).symm,?_,?_⟩
    · rw [length_take]
      omega
    · rw [length_drop]
      omega
  have written' := Marshall.bytes_inside (m := { m with ind := 4 }) front old (written++rest) h.bytes (by simp [buf]) front4.symm (by rw [old20,length_header]) holds.capa
  refine ⟨{ m with buf := front++h.bytes++(written++rest) },front,?_,?_,front4,rfl⟩
  · simp only [packReqHeader,written',map_some]
  · refine ⟨⟨rest,by simp⟩,?_,?_,holds.ind,holds.large⟩
    · have total := congrArg List.length buf
      have capa := holds.capa
      simp only [length_append,length_header] at total size ⊢
      omega
    · rw [length_append,front4,length_header]
      rfl

lemma uint_buf (u : Unmarshall) : u.uint.2.buf = u.buf := by
  have one : ∀ u : Unmarshall, u.rawbyte.2.buf = u.buf := by
    intro u
    unfold Unmarshall.rawbyte
    split <;> rfl
  simp only [Unmarshall.uint,one]

lemma unpackReqHeader_at (ok : u.ok = true)
    (buf : u.buf = size++h.bytes++written) (front : size.length = 4) (small : u.buf.length < 2^31) :
    ∃ t, unpackReqHeader u = (h,t) ∧ t.At written := by
  have at_header : ({ u with ind := 4 } : Unmarshall).At (h.bytes++written) := by
    refine ⟨ok,?_,?_,small⟩
    · simp only [buf,length_append]
      omega
    · simp only [buf,append_assoc]
      exact drop_left' front
  simp only [ReqHeader.bytes,append_assoc] at at_header
  obtain ⟨a,readA,at_a⟩ := uint_at h.xid.bits_lt at_header
  obtain ⟨b,readB,at_b⟩ := uint_at h.proc.bits_lt at_a
  obtain ⟨c,readC,at_c⟩ := uint_at h.cltNonce.isLt at_b
  obtain ⟨d,readD,at_d⟩ := uint_at h.srvNonce.isLt at_c
  obtain ⟨e,readE,at_e⟩ := uint_at h.xidRep.bits_lt at_d
  -- the position is where the header ends
  have same : e.buf = u.buf := by
    have steps := uint_buf d
    rw [readE] at steps
    have stepD := uint_buf c
    rw [readD] at stepD
    have stepC := uint_buf b
    rw [readC] at stepC
    have stepB := uint_buf a
    rw [readB] at stepB
    have stepA := uint_buf { u with ind := 4 }
    rw [readA] at stepA
    exact steps.trans (stepD.trans (stepC.trans (stepB.trans stepA)))
  have place : e.ind = rpcHeaderSz := by
    have total := at_e.length
    rw [same,buf] at total
    simp only [length_append,length_header,front] at total
    change e.ind = 24
    omega
  refine ⟨e,?_,at_e⟩
  simp only [unpackReqHeader,readA,readB,readC,readD,readE,Signed.ofBits_bits,Fin.ofNat_val_eq_self,← place]

lemma readValues_at (rest : Bytes) (at_bytes : u.At (valueBytes values ++ rest)) :
    ∃ t, readValues (values.map Sigma.fst) u = (values,t) ∧ t.At rest := by
  induction values generalizing u with
  | nil => exact ⟨u,rfl,at_bytes⟩
  | cons v values ih =>
    rw [valueBytes,flatMap_cons,append_assoc] at at_bytes
    obtain ⟨t,first,at_t⟩ := (sound_kind v.1).read u _ v.2 at_bytes
    obtain ⟨t',later,at_rest⟩ := ih at_t
    refine ⟨t',?_,at_rest⟩
    simp only [map_cons,readValues,first,later]

/-- A request header and values that take at most 2^30 bytes are written within the capacity of the buffer, and are
read back, with nothing left over. -/
theorem marshall_round_trip (h : ReqHeader) (values : List Value) (small : rpcHeaderSz+(valueBytes values).length ≤ 2^30) :
    ∃ m u, writeMessage h values = some m ∧ m.buf.length = m.capa ∧ m.ind ≤ m.capa ∧ unpackReqHeader (takeBuf m) = (h,u) ∧
      (readValues (values.map Sigma.fst) u).1 = values ∧ okdone (readValues (values.map Sigma.fst) u).2 = true := by
  obtain ⟨m1,size,packed,holds1,front,_⟩ := packReqHeader_holds h Marshall.new_holds
  have writes : Writes (fun m (v : Value) => v.1.kind.write m v.2) (fun v => v.1.kind.bytes v.2) :=
    fun m header written v => (sound_kind v.1).write m header written v.2
  obtain ⟨m,stored,holds⟩ := writes.all m1 _ _ values holds1 (by rw [holds1.ind]; exact small)
  replace holds : m.Holds (size++h.bytes) (valueBytes values) := holds
  obtain ⟨rest,buf⟩ := holds.buf
  have taken : m.buf.take m.ind = size++h.bytes++valueBytes values := by
    rw [buf]
    exact take_left' (by rw [length_append,holds.header,holds.ind])
  have short : (takeBuf m).buf.length < 2^31 := by
    change (m.buf.take m.ind).length < 2^31
    rw [taken,length_append,holds.header]
    omega
  obtain ⟨u,unpacked,at_values⟩ := unpackReqHeader_at (u := takeBuf m) rfl taken front short
  obtain ⟨t,read,at_end⟩ := readValues_at [] (by simpa using at_values)
  refine ⟨m,u,?_,holds.capa.symm,holds.ind_le,unpacked,by rw [read],?_⟩
  · rwa [writeMessage,packed,bind_some]
  · have done := at_end.length
    rw [read]
    simpa [okdone,at_end.ok] using done

/-- The values of `testmarshall`, and a map of vectors. -/
def testHeader : ReqHeader := ⟨⟨1,by decide⟩,⟨2,by decide⟩,3,4,⟨-5,by decide⟩⟩

def testValues : List Value := [⟨.int,(⟨-12345,by decide⟩ : Signed (2^31))⟩,⟨.ull,(1223344455 : Fin (2^64))⟩,
  ⟨.string,([104,97,108,108,111] : Bytes)⟩,
  ⟨.map .char (.vector .bool),(⟨[(⟨-1,by decide⟩,[true,false]),(⟨7,by decide⟩,[])],by decide⟩ :
    SortedMap (Signed (2^7)) (List Bool))⟩]

theorem marshall_round_trip_test : ∃ m u, writeMessage testHeader testValues = some m ∧
    unpackReqHeader (takeBuf m) = (testHeader,u) ∧
    (readValues [.int,.ull,.string,.map .char (.vector .bool)] u).1 = testValues := by
  obtain ⟨m,u,written,_,_,header,values,_⟩ := marshall_round_trip testHeader testValues (show 24+(4+8+9+(4+(1+6)+(1+4))) ≤ 2^30 by decide)
  exact ⟨m,u,written,header,values⟩

/-- The capacity for one string after the default one is the sum of both, which may not be an `int`. -/
lemma writeMessage_long (h : ReqHeader) {s : Bytes} (long : 2^31-1024 ≤ s.length) (short : s.length < 2^31-28) :
    writeMessage h [⟨.string,s⟩] = none := by
  obtain ⟨m1,front,packed,holds1,_,capa1⟩ := packReqHeader_holds h Marshall.new_holds
  replace capa1 : m1.capa = 1024 := capa1
  have ind1 : m1.ind = 24 := holds1.ind
  obtain ⟨m2,stored,capa2,ind2⟩ := Marshall.bytes_room (p := putSize s.length) holds1
    (by rw [length_putSize,capa1,ind1]; decide)
  rw [capa1] at capa2
  rw [length_putSize,ind1] at ind2
  have size : int s.length = s.length := int_of_fits (by omega) (by omega)
  have sum : int (28+s.length) = 28+s.length := int_of_fits (by omega) (by omega)
  have capa : int (1024+s.length) < 0 := by
    change (1024+s.length : Int).bmod 4294967296 < 0
    rw [Int.bmod_def]
    split <;> omega
  have grown : m2.growForBytes s.length = none := by
    rw [Marshall.growForBytes,capa2,ind2]
    rw [if_pos (show int ((24+4 : Nat)+s.length) > (1024 : Nat) by
        change int (28+s.length) > 1024
        omega),
      if_neg (show ¬ ((1024 : Nat) : Int) > s.length by omega)]
    exact if_pos capa
  have copied : m2.rawbytes s = none := by
    rw [Marshall.rawbytes,size,grown]
    rfl
  rw [writeMessage,packed,bind_some,writeAll]
  change ((m1.bytes (putSize s.length)).bind (fun m => m.rawbytes s)).bind _ = none
  rw [stored,bind_some,copied]
  rfl

/-- A string whose size and whose message stay below 2^31 bytes. -/
def longString : Bytes := List.replicate (2^31-1024) 0
lemma length_longString : longString.length = 2^31-1024 := length_replicate

/-- The capacity that it needs is 2^31. -/
theorem marshall_overflows : rpcHeaderSz+(valueBytes [⟨.string,longString⟩]).length < 2^31 ∧
    writeMessage testHeader [⟨.string,longString⟩] = none := by
  have size := length_longString
  generalize longString = s at size ⊢
  refine ⟨?_,writeMessage_long testHeader (by omega) (by omega)⟩
  have bytes : valueBytes [⟨.string,s⟩] = putString s ++ [] := rfl
  rw [bytes,append_nil,length_putString,size]
  decide

end CodeExercise.MarshallRoundTrip
