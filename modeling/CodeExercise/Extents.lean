import Mathlib.Data.List.Nodup
import Mathlib.Data.List.Perm.Subperm
import Mathlib.Data.List.Range
import Mathlib.Order.Basic

/-!
Extents of a file: ranges of offsets, and lists of them that are pairwise disjoint. A list stays separated
when extents are moved or dropped (`Separated.subperm`) and when one is added beyond all of them
(`Separated.cons_beyond`).
-/
namespace CodeExercise.Extents
open List

structure Extent where
  offset : Nat
  length : Nat
  deriving DecidableEq

/-- The offset belongs to the extent. -/
def Extent.Has (e : Extent) (i : Nat) : Prop := e.offset ≤ i ∧ i < e.offset+e.length
deriving Decidable

def Extent.end (e : Extent) : Nat := e.offset+e.length
def Apart (a b : Extent) : Prop := ∀ i, a.Has i → ¬ b.Has i

variable {a b : Extent} {n : Nat}

lemma Apart.symm (apart : Apart a b) : Apart b a := fun i right left => apart i left right

lemma apart_of_end_le (before : a.end ≤ b.offset) : Apart a b := by
  rintro i ⟨_,below⟩ ⟨above,_⟩
  unfold Extent.end at before
  omega

lemma Apart.end_le (apart : Apart a b) (before : a.offset ≤ b.offset) (nonempty : 0 < b.length) :
    a.end ≤ b.offset := by
  by_contra beyond
  refine apart b.offset ⟨before,?_⟩ ⟨le_rfl,by omega⟩
  unfold Extent.end at beyond
  omega

lemma Apart.part (apart : Apart a b) (part : n ≤ a.length) : Apart ⟨a.offset,n⟩ b := by
  rintro i ⟨above,below⟩ other
  exact apart i ⟨above,Nat.lt_of_lt_of_le below (Nat.add_le_add_left part _)⟩ other

/-- The extents of the list are pairwise disjoint. -/
def Separated (extents : List Extent) : Prop := extents.Pairwise Apart

lemma Separated.perm (separated : Separated left) (perm : left.Perm right) :
    Separated right := (perm.pairwise_iff (fun apart => apart.symm)).mp separated

lemma Separated.subperm (separated : Separated right) (inside : left.Subperm right) :
    Separated left := by
  obtain ⟨middle,perm,sublist⟩ := inside
  exact Separated.perm (List.Pairwise.sublist sublist separated) perm

/-- Every extent of the list ends at or before the bound. -/
def Below (n : Nat) (extents : List Extent) : Prop := ∀ e ∈ extents, e.end ≤ n

lemma Below.mono (below : Below n extents) (grows : n ≤ m) : Below m extents :=
  fun e mem => (below e mem).trans grows

lemma Below.subperm (below : Below n right) (inside : left.Subperm right) :
    Below n left := fun e mem => below e (inside.subset mem)

lemma Separated.cons_beyond (separated : Separated extents)
    (below : Below n extents) (beyond : n ≤ e.offset) : Separated (e::extents) := by
  refine pairwise_cons.mpr ⟨fun f mem => ?_,separated⟩
  exact (apart_of_end_le ((below f mem).trans beyond)).symm

lemma Separated.length_le (separated : Separated extents)
    (nonempty : ∀ e ∈ extents, 0 < e.length) (below : Below n extents) : extents.length ≤ n := by
  have offsets : (extents.map Extent.offset).Nodup := by
    rw [List.Nodup,pairwise_map]
    refine separated.imp_of_mem fun {a b} left right apart same => ?_
    have mine := nonempty a left
    have other := nonempty b right
    exact apart a.offset ⟨le_rfl,by omega⟩ ⟨same.ge,by omega⟩
  have small : extents.map Extent.offset ⊆ List.range n := by
    intro i mem
    obtain ⟨e,inside,rfl⟩ := mem_map.mp mem
    have := below e inside
    have := nonempty e inside
    simp only [Extent.end] at *
    exact mem_range.mpr (by omega)
  simpa using (subperm_of_subset offsets small).length_le

/-- How many extents have an offset. -/
def count (extents : List Extent) (i : Nat) : Nat := extents.countP (fun e => e.Has i)

lemma count_append (left right : List Extent) (i : Nat) : count (left++right) i = count left i+count right i :=
  countP_append

lemma count_cons (e : Extent) (extents : List Extent) (i : Nat) :
    count (e::extents) i = count extents i+if e.Has i then 1 else 0 := by
  simp [count,countP_cons]

lemma count_perm (perm : left.Perm right) (i : Nat) : count left i = count right i :=
  perm.countP_eq _

lemma count_pos : 0 < count extents i ↔ ∃ e ∈ extents, e.Has i := by
  simp [count,countP_pos_iff]

lemma count_split (offset m n : Nat) (extents : List Extent) (i : Nat) :
    count (⟨offset,m+n⟩::extents) i = count (⟨offset,m⟩::⟨offset+m,n⟩::extents) i := by
  have parts : Extent.Has ⟨offset,m+n⟩ i ↔ Extent.Has ⟨offset,m⟩ i ∨ Extent.Has ⟨offset+m,n⟩ i := by
    simp only [Extent.Has]
    omega
  have once : Extent.Has ⟨offset,m⟩ i → ¬ Extent.Has ⟨offset+m,n⟩ i := by
    simp only [Extent.Has]
    omega
  by_cases first : Extent.Has ⟨offset,m⟩ i
  · simp [count_cons,parts,first,once first]
  · simp [count_cons,parts,first]

lemma separated_of_count (once : ∀ i, count extents i ≤ 1) : Separated extents := by
  induction extents with
  | nil => exact List.Pairwise.nil
  | cons e extents ih =>
    refine pairwise_cons.mpr ⟨?_,ih (fun i => ?_)⟩
    · intro f mem i mine other
      have twice := once i
      have some := count_pos.mpr ⟨f,mem,other⟩
      rw [count_cons,if_pos mine] at twice
      omega
    · have more := once i
      rw [count_cons] at more
      omega

end CodeExercise.Extents
