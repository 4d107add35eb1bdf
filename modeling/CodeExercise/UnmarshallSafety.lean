import CodeExercise.MarshallRoundTrip

/-! Reading from any bytes. -/
namespace CodeExercise.UnmarshallSafety
open Marshall MarshallRoundTrip Extents List

/-- The integer types and `std::string`. -/
inductive Item where
  | bool
  | uchar
  | char
  | ushort
  | short
  | uint
  | int
  | ull
  | string
  deriving DecidableEq

namespace Item

def ty : Item → Ty
  | bool => .bool
  | uchar => .uchar
  | char => .char
  | ushort => .ushort
  | short => .short
  | uint => .uint
  | int => .int
  | ull => .ull
  | string => .string

/-- The calls of `rawbyte`; a string begins with its length. -/
def size : Item → Nat
  | bool | uchar | char => 1
  | ushort | short => 2
  | uint | int | string => 4
  | ull => 8

/-- `operator>>`, without the value. -/
def next (item : Item) (u : Unmarshall) : Unmarshall := (item.ty.kind.read u).2

end Item

/-- Several calls of `rawbyte`, and what they read of the buffer. -/
def skip : Nat → Unmarshall → Unmarshall
  | 0,u => u
  | n+1,u => skip n u.rawbyte.2

def touched : Nat → Unmarshall → List Extent
  | 0,_ => []
  | n+1,u => (if u.ind ≥ u.buf.length then [] else [⟨u.ind,1⟩]) ++ touched n u.rawbyte.2

/-- What `rawbytes` reads of the buffer. -/
def touchedBytes (u : Unmarshall) (n : Nat) : List Extent :=
  if (u.ind+n)%2^32 > u.buf.length then [] else [⟨u.ind,n⟩]

/-- The length of a string comes first, and its bytes are read when there is one. -/
def Item.touches (item : Item) (u : Unmarshall) : List Extent :=
  touched item.size u ++ if item = .string ∧ u.uint.2.ok then touchedBytes u.uint.2 u.uint.1 else []

/-- The bytes that the value takes. -/
def Item.needs (item : Item) (u : Unmarshall) : Nat := item.size+if item = .string then u.uint.1 else 0

structure ReadsSafely (item : Item) (u : Unmarshall) : Prop where
  inside : ∀ e ∈ item.touches u, e.end ≤ u.buf.length
  position : (item.next u).ind ≤ u.buf.length
  short : u.buf.length < u.ind+item.needs u → (item.next u).ok = false

/-- One read after the other. -/
def AllSafely : List Item → Unmarshall → Prop
  | [],_ => True
  | item::items,u => ReadsSafely item u ∧ AllSafely items (item.next u)

/-- The length of every string that is read is less than 2^32 minus the position behind it. -/
def Fits : List Item → Unmarshall → Prop
  | [],_ => True
  | item::items,u => (item = .string → u.uint.2.ok → u.uint.2.ind+u.uint.1 < 2^32) ∧ Fits items (item.next u)

section
variable {u : Unmarshall} {item : Item}

lemma skip_eq (n : Nat) (inside : u.ind ≤ u.buf.length) :
    skip n u = ⟨u.buf,min (u.ind+n) u.buf.length,u.ok && decide (u.ind+n ≤ u.buf.length)⟩ := by
  induction n generalizing u with
  | zero => simp [skip,inside]
  | succ n ih =>
    rw [skip]
    by_cases full : u.ind ≥ u.buf.length
    · have read : u.rawbyte.2 = { u with ok := false } := by rw [Unmarshall.rawbyte,if_pos full]
      rw [read,ih (u := { u with ok := false }) inside]
      simp only [Bool.false_and,Unmarshall.mk.injEq,true_and]
      refine ⟨by omega,?_⟩
      rw [decide_eq_false (by omega),Bool.and_false]
    · have read : u.rawbyte.2 = { u with ind := u.ind+1 } := by rw [Unmarshall.rawbyte,if_neg full]
      rw [read,ih (u := { u with ind := u.ind+1 }) (by simp only; omega)]
      simp only [Nat.add_assoc,Nat.add_comm 1]

lemma touched_inside (n : Nat) (u : Unmarshall) : ∀ e ∈ touched n u, e.end ≤ u.buf.length := by
  induction n generalizing u with
  | zero => simp [touched]
  | succ n ih =>
    have same : u.rawbyte.2.buf = u.buf := by
      unfold Unmarshall.rawbyte
      split <;> rfl
    rw [touched]
    refine forall_mem_append.mpr ⟨?_,same ▸ ih u.rawbyte.2⟩
    split
    · simp
    · simp only [mem_singleton,forall_eq,Extent.end]
      omega

lemma uint_lt (u : Unmarshall) : u.uint.1 < 2^32 := by
  have part : ∀ (b : Byte) (k : Nat), k ≤ 24 → b.val <<< k < 2^32 := by
    intro b k low
    rw [Nat.shiftLeft_eq]
    calc b.val*2^k < 2^8*2^24 := Nat.mul_lt_mul_of_lt_of_le b.isLt (Nat.pow_le_pow_right (by decide) low) (by decide)
      _ = 2^32 := by decide
  have bits := fun (b : Byte) => part b 0 (by decide)
  exact Nat.or_lt_two_pow (Nat.or_lt_two_pow (Nat.or_lt_two_pow (part _ 24 (by decide)) (part _ 16 (by decide)))
    (part _ 8 (by decide))) (by simpa using bits _)

lemma uint_skip (u : Unmarshall) : u.uint.2 = skip 4 u := by
  simp only [Unmarshall.uint,skip]

lemma next_eq_skip (other : item ≠ .string) (u : Unmarshall) : item.next u = skip item.size u := by
  cases item with
  | string => exact absurd rfl other
  | uint | int | ull =>
    simp only [Item.next,Item.ty,Ty.kind,Kind.uint,Kind.int,Kind.ull,Kind.scalar,Unmarshall.ull,Unmarshall.uint,Item.size,skip]
  | _ => rfl

lemma readsSafely_of_ne (inside : u.ind ≤ u.buf.length) (other : item ≠ .string) : ReadsSafely item u := by
  constructor
  · rw [Item.touches,if_neg (fun same => other same.1),append_nil]
    exact touched_inside _ u
  · rw [next_eq_skip other,skip_eq _ inside]
    exact Nat.min_le_right _ _
  · intro short
    rw [Item.needs,if_neg other] at short
    rw [next_eq_skip other,skip_eq _ inside]
    simp only [Bool.and_eq_false_iff,decide_eq_false_iff_not]
    omega

section
variable (inside : u.ind ≤ u.buf.length)
include inside

lemma uint_snd :
    u.uint.2 = ⟨u.buf,min (u.ind+4) u.buf.length,u.ok && decide (u.ind+4 ≤ u.buf.length)⟩ :=
  (uint_skip u).trans (skip_eq 4 inside)

lemma readsSafely_cut (cut : u.uint.2.ok = false) : ReadsSafely .string u := by
  have next : Item.string.next u = u.uint.2 := by
    change (Unmarshall.string u []).2 = _
    simp [Unmarshall.string,cut]
  constructor
  · rw [Item.touches,cut,if_neg (by simp),append_nil]
    exact touched_inside _ u
  · rw [next,uint_snd inside]
    exact Nat.min_le_right _ _
  · intro _
    rw [next,cut]

/-- A sum of 2^32 or more seems to be less than the position. -/
lemma readsSafely_string_iff (small : u.buf.length < 2^31) (read : u.uint.2.ok = true) :
    ReadsSafely .string u ↔ u.uint.2.ind+u.uint.1 < 2^32 := by
  have range := uint_lt u
  have after := uint_snd inside
  obtain ⟨_,room⟩ : u.ok = true ∧ u.ind+4 ≤ u.buf.length := by simpa [after] using read
  have next : Item.string.next u = (u.uint.2.rawbytes [] u.uint.1).2 := by
    change (Unmarshall.string u []).2 = _
    simp only [Unmarshall.string,read,if_true]
  have touches : Item.string.touches u = touched 4 u ++ touchedBytes u.uint.2 u.uint.1 := by
    rw [Item.touches,if_pos ⟨rfl,read⟩]
    rfl
  have needs : Item.string.needs u = 4+u.uint.1 := rfl
  rw [Nat.min_eq_left room] at after
  generalize u.uint.1 = n at *
  constructor
  · intro safely
    by_contra long
    have wrapped : ¬ (u.uint.2.ind+n)%2^32 > u.uint.2.buf.length := by
      simp only [after] at long ⊢
      omega
    have beyond := safely.inside ⟨u.uint.2.ind,n⟩ (by rw [touches,touchedBytes,if_neg wrapped]; simp)
    simp only [Extent.end] at beyond
    omega
  · intro fits
    have sum := Nat.mod_eq_of_lt fits
    by_cases long : (u.uint.2.ind+n)%2^32 > u.uint.2.buf.length
    · have rejected : (u.uint.2.rawbytes [] n).2 = { u.uint.2 with ok := false } := by rw [Unmarshall.rawbytes,if_pos long]
      rw [rejected] at next
      constructor
      · rw [touches,touchedBytes,if_pos long,append_nil]
        exact touched_inside 4 u
      · rw [next,after]
        exact room
      · intro _
        rw [next]
    · have accepted : (u.uint.2.rawbytes [] n).2 = { u.uint.2 with ind := u.uint.2.ind+n } := by
        rw [Unmarshall.rawbytes,if_neg long]
      rw [accepted] at next
      rw [sum,after] at long
      simp only [not_lt] at long
      constructor
      · rw [touches,touchedBytes,if_neg (by rw [sum,after]; simpa using long)]
        refine forall_mem_append.mpr ⟨touched_inside 4 u,?_⟩
        rw [after]
        simpa [Extent.end] using long
      · rwa [next,after]
      · omega

lemma readsSafely_iff (small : u.buf.length < 2^31) :
    ReadsSafely item u ↔ (item = .string → u.uint.2.ok → u.uint.2.ind+u.uint.1 < 2^32) := by
  by_cases same : item = .string
  · subst same
    by_cases read : u.uint.2.ok
    · rw [readsSafely_string_iff inside small read]
      simp [read]
    · simp [read,readsSafely_cut inside]
  · simp [same,readsSafely_of_ne inside]

end

lemma buf_next (item : Item) (inside : u.ind ≤ u.buf.length) : (item.next u).buf = u.buf := by
  by_cases same : item = .string
  · subst same
    change (Unmarshall.string u []).2.buf = _
    simp only [Unmarshall.string,Unmarshall.rawbytes,uint_snd inside]
    split_ifs <;> rfl
  · rw [next_eq_skip same,skip_eq _ inside]

end

/-- Every read from any bytes is safe exactly when the lengths of the strings fit. -/
theorem reads_safely_iff (items : List Item) {u : Unmarshall} (inside : u.ind ≤ u.buf.length) (small : u.buf.length < 2^31) :
    AllSafely items u ↔ Fits items u := by
  induction items generalizing u with
  | nil => rfl
  | cons item items ih =>
    rw [AllSafely,Fits,← readsSafely_iff inside small]
    refine and_congr_right fun safely => ?_
    have same := buf_next item inside
    exact ih (by rw [same]; exact safely.position) (by rw [same]; exact small)

theorem reads_safely_iff_short : AllSafely [.string,.ull] ⟨[0,0,0,9,1,2],0,true⟩ :=
  (reads_safely_iff [.string,.ull] (u := ⟨[0,0,0,9,1,2],0,true⟩) (by decide) (by decide)).mpr (by simp [Fits]; decide)

/-- A string of length 2^32-1 is taken from a buffer of four bytes. -/
theorem string_reads_beyond : ¬ AllSafely [.string] ⟨[255,255,255,255],0,true⟩ ∧
    ⟨4,2^32-1⟩ ∈ Item.string.touches ⟨[255,255,255,255],0,true⟩ ∧ (Item.string.next ⟨[255,255,255,255],0,true⟩).ok = true := by
  have touched : ⟨4,2^32-1⟩ ∈ Item.string.touches ⟨[255,255,255,255],0,true⟩ := by decide
  refine ⟨fun safely => ?_,touched,by decide⟩
  exact absurd (safely.1.inside _ touched) (by decide)

end CodeExercise.UnmarshallSafety
