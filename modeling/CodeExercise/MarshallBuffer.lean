import CodeExercise.Marshall

/-! The class `marshall` of `rpc/marshall.h`. -/
namespace CodeExercise.MarshallBuffer
open Marshall Slices List

/-- The result of `int` arithmetic. -/
def int (x : Int) : Int := x.bmod (2^32)

lemma int_of_fits (low : 0 ≤ x) (fits : x < 2^31) : int x = x := by
  rw [int,Int.bmod_eq_of_le]
  · omega
  · omega

/-- `marshall`. -/
structure Marshall where
  buf : Bytes
  capa : Nat
  ind : Nat
  deriving DecidableEq

/-- `DEFAULT_RPC_SZ`. -/
def defaultRpcSz : Nat := 1024
/-- `marshall()`; bytes that are not written are 0. -/
def Marshall.new : Marshall := ⟨List.replicate defaultRpcSz 0,defaultRpcSz,rpcHeaderSz⟩

namespace Marshall

/-- `realloc` and the check of its result. A negative size is, as a `size_t`, more than there is. -/
def realloc (m : Marshall) (capa : Int) : Option Marshall :=
  if capa < 0 then none
  else some { m with
    capa := capa.toNat, buf := m.buf.take capa.toNat ++ List.replicate (capa.toNat-m.buf.length) 0 }

/-- How `rawbyte` and `rawbytes` grow the block. -/
def growForByte (m : Marshall) : Option Marshall :=
  if m.ind ≥ m.capa then m.realloc (int (2*m.capa)) else some m

def growForBytes (m : Marshall) (n : Int) : Option Marshall :=
  if int (m.ind+n) > m.capa then m.realloc (if m.capa > n then int (2*m.capa) else int (m.capa+n)) else some m

/-- `marshall::rawbyte`; there is no result when the byte is written outside the block. -/
def rawbyte (m : Marshall) (x : Byte) : Option Marshall := do
  let m ← m.growForByte
  let buf ← put m.buf m.ind x
  return { m with buf, ind := m.ind+1 }

/-- `marshall::rawbytes`, with the `int` that the size of a string is passed as. -/
def rawbytes (m : Marshall) (p : Bytes) : Option Marshall := do
  let n := int p.length
  let m ← m.growForBytes n
  let buf ← if n < 0 then none else memmove m.buf m.ind p 0 n.toNat
  return { m with buf, ind := m.ind+n.toNat }

/-- Several calls of `rawbyte`. -/
def bytes (m : Marshall) : Bytes → Option Marshall
  | [] => some m
  | x::rest => do
    let m ← m.rawbyte x
    m.bytes rest

/-- The block starts with a header and what has been written, and the write position is behind them. -/
structure Holds (m : Marshall) (header written : Bytes) : Prop where
  buf : ∃ rest, m.buf = header++written++rest
  capa : m.capa = m.buf.length
  header : header.length = rpcHeaderSz
  ind : m.ind = rpcHeaderSz+written.length
  large : defaultRpcSz ≤ m.capa

lemma new_holds : Marshall.new.Holds (List.replicate rpcHeaderSz 0) [] :=
  ⟨⟨List.replicate 1000 0,by decide +kernel⟩,by decide +kernel,by decide +kernel,rfl,le_refl _⟩

variable {m : Marshall} {header written p : Bytes}

section
variable (holds : m.Holds header written)
include holds

lemma Holds.ind_le : m.ind ≤ m.capa := by
  obtain ⟨rest,buf⟩ := holds.buf
  have size := congrArg List.length buf
  simp only [length_append,holds.header] at size
  rw [holds.capa,holds.ind]
  omega

lemma Holds.realloc {capa : Int} (more : m.capa ≤ capa) :
    ∃ m', m.realloc capa = some m' ∧ m'.Holds header written ∧ m'.capa = capa ∧ m'.ind = m.ind := by
  obtain ⟨capa,rfl⟩ := Int.eq_ofNat_of_zero_le (show 0 ≤ capa by omega)
  obtain ⟨rest,buf⟩ := holds.buf
  have fits := holds.capa
  have longer : m.buf.take capa = m.buf := take_of_length_le (by omega)
  refine ⟨{ m with capa, buf := m.buf++List.replicate (capa-m.buf.length) 0 },?_,?_,rfl,rfl⟩
  · simp only [Marshall.realloc,Int.toNat_natCast,longer]
    rw [if_neg (by omega)]
  · refine ⟨⟨rest++List.replicate (capa-m.buf.length) 0,by simp [buf]⟩,?_,holds.header,holds.ind,?_⟩
    · simp only [length_append,length_replicate]
      omega
    · exact holds.large.trans (show m.capa ≤ capa by omega)

lemma Holds.copy (room : m.ind+p.length ≤ m.capa) :
    ∃ buf, memmove m.buf m.ind p 0 p.length = some buf ∧
      ({ m with buf, ind := m.ind+p.length } : Marshall).Holds header (written++p) := by
  obtain ⟨rest,start⟩ := holds.buf
  have used : (header++written).length = m.ind := by
    rw [length_append,holds.header,holds.ind]
  have before : Slices.Holds m.capa (header++written) m.buf := ⟨rest,start,holds.capa.symm⟩
  have source : Slices.Holds p.length (p++[]) p := ⟨[],by simp,rfl⟩
  obtain ⟨buf,moved,after⟩ := before.extend source (by omega)
  rw [used] at moved
  obtain ⟨rest',buf_eq,size⟩ := after
  refine ⟨buf,moved,⟨rest',by simpa using buf_eq⟩,size.symm,holds.header,?_,holds.large⟩
  rw [length_append,← Nat.add_assoc,← holds.ind]

lemma Holds.growForByte (small : m.ind+1 ≤ 2^30) :
    ∃ m', m.growForByte = some m' ∧ m'.Holds header written ∧ m'.ind+1 ≤ m'.capa := by
  have large : 1024 ≤ m.capa := holds.large
  have inside := holds.ind_le
  by_cases full : m.ind ≥ m.capa
  · have double : int (2*m.capa) = 2*m.capa := int_of_fits (by omega) (by omega)
    obtain ⟨m1,grown,holds1,capa,same⟩ := holds.realloc (show (m.capa : Int) ≤ 2*m.capa by omega)
    exact ⟨m1,by rw [Marshall.growForByte,if_pos full,double,grown],holds1,by omega⟩
  · exact ⟨m,if_neg full,holds,by omega⟩

lemma Holds.growForBytes {n : Nat} (small : m.ind+n ≤ 2^30) :
    ∃ m', m.growForBytes n = some m' ∧ m'.Holds header written ∧ m'.ind+n ≤ m'.capa := by
  have large : 1024 ≤ m.capa := holds.large
  have inside := holds.ind_le
  have sum : int (m.ind+n) = m.ind+n := int_of_fits (by omega) (by omega)
  by_cases full : int (m.ind+n) > m.capa
  · by_cases short : (m.capa : Int) > n
    · have double : int (2*m.capa) = 2*m.capa := int_of_fits (by omega) (by omega)
      obtain ⟨m1,grown,holds1,capa,same⟩ := holds.realloc (show (m.capa : Int) ≤ 2*m.capa by omega)
      exact ⟨m1,by rw [Marshall.growForBytes,if_pos full,if_pos short,double,grown],holds1,by omega⟩
    · have more : int (m.capa+n) = m.capa+n := int_of_fits (by omega) (by omega)
      obtain ⟨m1,grown,holds1,capa,same⟩ := holds.realloc (show (m.capa : Int) ≤ m.capa+n by omega)
      exact ⟨m1,by rw [Marshall.growForBytes,if_pos full,if_neg short,more,grown],holds1,by omega⟩
  · exact ⟨m,if_neg full,holds,by omega⟩

lemma rawbytes_holds (small : m.ind+p.length ≤ 2^30) :
    ∃ m', m.rawbytes p = some m' ∧ m'.Holds header (written++p) := by
  have size : int p.length = p.length := int_of_fits (by omega) (by omega)
  have positive : ¬ (p.length : Int) < 0 := by omega
  obtain ⟨m1,grown,holds1,room⟩ := holds.growForBytes small
  obtain ⟨buf,moved,done⟩ := holds1.copy room
  refine ⟨_,?_,done⟩
  simp only [Marshall.rawbytes,size,grown,some_bind,if_neg positive,Int.toNat_natCast,moved]
  rfl

end

lemma rawbyte_holds (x : Byte) (holds : m.Holds header written) (small : m.ind+1 ≤ 2^30) :
    ∃ m', m.rawbyte x = some m' ∧ m'.Holds header (written++[x]) := by
  obtain ⟨m1,grown,holds1,room⟩ := holds.growForByte small
  obtain ⟨rest,start⟩ := holds1.buf
  have before : Slices.Holds m1.capa (header++written) m1.buf := ⟨rest,start,holds1.capa.symm⟩
  have used : (header++written).length = m1.ind := by
    rw [length_append,holds1.header,holds1.ind]
  obtain ⟨buf,stored,rest',buf_eq,size⟩ := before.push (y := x) (by omega)
  rw [used] at stored
  refine ⟨{ m1 with buf, ind := m1.ind+1 },?_,⟨rest',by simpa using buf_eq⟩,size.symm,holds1.header,?_,holds1.large⟩
  · simp only [Marshall.rawbyte,grown,some_bind,stored]
    rfl
  · rw [length_append,holds1.ind]
    rfl

lemma bytes_holds (holds : m.Holds header written) (small : m.ind+p.length ≤ 2^30) :
    ∃ m', m.bytes p = some m' ∧ m'.Holds header (written++p) := by
  induction p generalizing m written with
  | nil => exact ⟨m,rfl,by simpa using holds⟩
  | cons x p ih =>
    rw [length_cons] at small
    obtain ⟨m1,stored,holds1⟩ := rawbyte_holds x holds (by omega)
    have moved : m1.ind = m.ind+1 := by
      rw [holds1.ind,holds.ind,length_append]
      rfl
    obtain ⟨m2,rest,holds2⟩ := ih holds1 (by omega)
    refine ⟨m2,?_,by simpa using holds2⟩
    simp only [Marshall.bytes,stored,some_bind,rest]

lemma bytes_inside (pre old post p : Bytes) (buf : m.buf = pre++old++post) (ind : m.ind = pre.length)
    (same : old.length = p.length) (capa : m.capa = m.buf.length) :
    m.bytes p = some { m with buf := pre++p++post, ind := m.ind+p.length } := by
  induction p generalizing m pre old with
  | nil =>
    obtain rfl : old = [] := length_eq_zero_iff.mp same
    rw [Marshall.bytes]
    simp only [← buf]
    rfl
  | cons x p ih =>
    cases old with
    | nil => simp at same
    | cons y old =>
      have size := congrArg List.length buf
      simp only [length_append,length_cons] at size same
      have room : m.growForByte = some m := if_neg (by omega)
      have stored : put m.buf m.ind x = some (pre++x::(old++post)) := by
        rw [buf,append_assoc,cons_append]
        exact put_append ind.symm
      have first : m.rawbyte x = some { m with buf := pre++x::(old++post), ind := m.ind+1 } := by
        simp only [Marshall.rawbyte,room,stored,some_bind]
        rfl
      have next := ih (m := { m with buf := pre++x::(old++post), ind := m.ind+1 }) (pre++[x]) old
        (by simp) (by simp [ind]) (by omega) (by simp; omega)
      simp only [Marshall.bytes,first,some_bind,next]
      simp [Nat.add_assoc,Nat.add_comm]

lemma bytes_room (holds : m.Holds header written) (room : m.ind+p.length ≤ m.capa) :
    ∃ m', m.bytes p = some m' ∧ m'.capa = m.capa ∧ m'.ind = m.ind+p.length := by
  obtain ⟨rest,buf⟩ := holds.buf
  have used : m.ind = (header++written).length := by
    rw [length_append,holds.header,holds.ind]
  have total := congrArg List.length buf
  have capa := holds.capa
  rw [length_append] at total
  have inside := bytes_inside (header++written) (rest.take p.length) (rest.drop p.length) p
    (by rw [buf,append_assoc _ (rest.take _),take_append_drop]) used (by rw [length_take]; omega) capa
  exact ⟨_,inside,rfl,rfl⟩

end Marshall
end CodeExercise.MarshallBuffer
