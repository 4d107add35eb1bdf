import Mathlib

/-!
`count_sort.cpp` and `count_sort2.cpp`: students sorted by the section they are in. The
first one keeps the order within a section. The second one fills the slots of a section
from the last one on, so that its students come out in reverse (`countSort_stable_iff`).
-/
namespace CodeExercise.CountSort
open List Function

structure Student where
  name : String
  sectionNo : Nat
  valid : 1 ≤ sectionNo ∧ sectionNo ≤ 4
deriving DecidableEq

/-- `section_no-1` -/
def Student.key (s : Student) : Fin 4 := ⟨s.sectionNo-1,by have := s.valid; omega⟩

def count (arr : List Student) : Fin 4 → Nat :=
  arr.foldl (fun count s => update count s.key (count s.key+1)) (fun _ => 0)

/-- No result if there is no such slot or it was written before. -/
def write (arr2 : List (Option Student)) (i : Nat) (s : Student) : Option (List (Option Student)) :=
  if arr2[i]? = some none then some (arr2.set i (some s)) else none

/-- The loop that fills `arr2`: the counter of a section says which slot is next. -/
def fill (slot : Nat → Option Nat) (next : Nat → Nat) :
    List Student → (Fin 4 → Nat) → List (Option Student) → Option (List (Option Student))
  | [],_,arr2 => some arr2
  | s::arr,index,arr2 =>
    (slot (index s.key)).bind (fun i => (write arr2 i s).bind
      (fill slot next arr (update index s.key (next (index s.key)))))

/-- What is printed; no result if a slot was not written. -/
def print (arr2 : List (Option Student)) : Option (List Student) := arr2.mapM id

/-- `key2index` -/
def starts (count : Fin 4 → Nat) : Fin 4 → Nat :=
  [1,2,3].foldl (fun index i => update index i (index (i-1)+count (i-1))) (fun _ => 0)

def countSort (arr : List Student) : Option (List Student) :=
  (fill some (·+1) arr (starts (count arr)) (replicate arr.length none)).bind print

/-- The counts of `count_sort2.cpp` added up. -/
def ends (count : Fin 4 → Nat) : Fin 4 → Nat :=
  [1,2,3].foldl (fun count i => update count i (count i+count (i-1))) count

def countSort2 (arr : List Student) : Option (List Student) :=
  (fill (fun newIndex => if newIndex = 0 then none else some (newIndex-1)) (·-1) arr (ends (count arr))
    (replicate arr.length none)).bind print

/-- The students of a section, in order. -/
def ofSection (arr : List Student) (k : Fin 4) : List Student := arr.filter (fun s => s.key = k)
def blocks (f : Fin 4 → List α) : List α := f 0 ++ (f 1 ++ (f 2 ++ f 3))
/-- The sections one after the other, each in the order of the input. -/
def stableSort (arr : List Student) : List Student := blocks (ofSection arr)

lemma ofSection_cons (s : Student) (arr : List Student) :
    ofSection (s::arr) = update (ofSection arr) s.key (s::ofSection arr s.key) := by
  symm
  rw [update_eq_iff]
  exact ⟨by simp [ofSection],fun k other => by simp [ofSection,Ne.symm other]⟩

lemma count_eq (arr : List Student) (k : Fin 4) : count arr k = (ofSection arr k).length := by
  have all : ∀ c : Fin 4 → Nat, arr.foldl (fun count s => update count s.key (count s.key+1)) c k =
      c k+(ofSection arr k).length := by
    induction arr with
    | nil => simp [ofSection]
    | cons s arr ih =>
      intro c
      rw [foldl_cons,ih,ofSection_cons]
      by_cases same : k = s.key
      · simp [same]
        omega
      · simp [same]
  exact (all _).trans (Nat.zero_add _)

lemma length_eq (arr : List Student) : replicate arr.length none =
    blocks (fun k => replicate (count arr k) (none : Option Student)) := by
  have total : arr.length = (ofSection arr 0).length+((ofSection arr 1).length+((ofSection arr 2).length+
      (ofSection arr 3).length)) := by
    induction arr with
    | nil => rfl
    | cons s arr ih =>
      rw [ofSection_cons,length_cons,ih]
      generalize s.key = k
      fin_cases k <;> simp <;> omega
  simp only [count_eq,blocks,replicate_append_replicate,← total]

lemma ends_eq (c : Fin 4 → Nat) (k : Fin 4) : ends c k = starts c k+c k := by
  fin_cases k <;> simp [starts,ends] <;> omega

lemma write_block {f : Fin 4 → List (Option Student)} {before after : List (Option Student)} (lengths : ∀ k, (f k).length = c k)
    (block : f k = before++none::after) (s : Student) : write (blocks f) (starts c k+before.length) s =
      some (blocks (update f k (before++some s :: after))) := by
  obtain ⟨pre,post,length,split⟩ : ∃ pre post, pre.length = starts c k ∧ ∀ b, blocks (update f k b) = pre++(b++post) := by
    fin_cases k
    · exact ⟨[],f 1 ++ (f 2 ++ f 3),by simp [starts],fun b => by simp [blocks]⟩
    · exact ⟨f 0,f 2 ++ f 3,by simp [starts,lengths],fun b => by simp [blocks]⟩
    · exact ⟨f 0 ++ f 1,f 3,by simp [starts,lengths],fun b => by simp [blocks]⟩
    · exact ⟨f 0 ++ (f 1 ++ f 2),[],by simp [starts,lengths,Nat.add_assoc],fun b => by simp [blocks]⟩
  have whole : blocks f = (pre++before)++none::(after++post) := by
    rw [← update_eq_self k f,split,block]
    simp
  rw [write,whole,split,← length,← length_append]
  simp

/-- Both loops: a student of a section takes the next free slot of its block. -/
lemma fill_eq (slot : Nat → Option Nat) (next : Nat → Nat) (shape : List Student → Nat → List (Option Student)) (counter : Nat → Nat → Nat → Nat)
    (size : ∀ done m, (shape done m).length = done.length+m)
    (takes : ∀ start done m s, ∃ before after, shape done (m+1) = before++none::after ∧
      shape (done++[s]) m = before++some s :: after ∧
      slot (counter start done.length (m+1)) = some (start+before.length) ∧
      next (counter start done.length (m+1)) = counter start (done.length+1) m)
    (arr : List Student) (done : Fin 4 → List Student) (lengths : ∀ k, (done k).length+(ofSection arr k).length = c k) :
    fill slot next arr (fun k => counter (starts c k) (done k).length (ofSection arr k).length)
      (blocks (fun k => shape (done k) (ofSection arr k).length)) =
        some (blocks (fun k => shape (done k ++ ofSection arr k) 0)) := by
  induction arr generalizing done with
  | nil => simp [fill,ofSection]
  | cons s arr ih =>
    have here : (ofSection (s::arr) s.key).length = (ofSection arr s.key).length+1 := by simp [ofSection_cons]
    have others : ∀ k, k ≠ s.key → ofSection (s::arr) k = ofSection arr k := fun k other => by
      simp [ofSection_cons,other]
    obtain ⟨before,after,free,taken,slots,steps⟩ := takes (starts c s.key) (done s.key) (ofSection arr s.key).length s
    have rest := ih (update done s.key (done s.key ++ [s])) (fun k => by
      rw [← lengths k]
      by_cases same : k = s.key
      · simp [same,here]
        omega
      · simp [same,others k same])
    rw [fill,here,slots,Option.bind_some,write_block (fun k => by rw [size,lengths]) (by rw [here,free]),Option.bind_some,← taken]
    convert rest using 2
    · exact update_eq_iff.mpr ⟨by simpa [here] using steps,fun k other => by simp [other,others k other]⟩
    · congr 1
      exact update_eq_iff.mpr ⟨by simp,fun k other => by simp [other,others k other]⟩
    · congr 1
      funext k
      by_cases same : k = s.key
      · simp [same,ofSection_cons]
      · simp [same,others k same]

lemma print_blocks (f : Fin 4 → List Student) : print (blocks (fun k => (f k).map some)) = some (blocks f) := by
  have all : ∀ l : List Student, (l.map some).mapM id = some l := fun l => by
    induction l with
    | nil => rfl
    | cons s l ih => simp [mapM_cons,ih]
  simp only [print,blocks,← map_append,all]

lemma countSort_eq (arr : List Student) : countSort arr = some (stableSort arr) := by
  have filled := fill_eq (c := count arr) some (·+1) (fun done m => done.map some ++ replicate m none)
    (fun start n _ => start+n) (by simp)
    (fun start done m s => ⟨done.map some,replicate m none,rfl,by simp,by simp,rfl⟩) arr (fun _ => []) (by simp [count_eq])
  simp only [length_nil,map_nil,nil_append,replicate_zero,append_nil,Nat.add_zero,← count_eq,← length_eq] at filled
  rw [countSort,filled,Option.bind_some,print_blocks,stableSort]

lemma countSort2_eq (arr : List Student) : countSort2 arr = some (blocks (fun k => (ofSection arr k).reverse)) := by
  have filled := fill_eq (c := count arr) (fun newIndex => if newIndex = 0 then none else some (newIndex-1)) (·-1)
    (fun done m => replicate m none ++ done.reverse.map some) (fun start _ m => start+m) (by simp; omega)
    (fun start done m s => ⟨replicate m none,done.reverse.map some,by simp [replicate_succ'],by simp,by simp,by simp⟩)
    arr (fun _ => []) (by simp [count_eq])
  simp only [reverse_nil,map_nil,nil_append,replicate_zero,append_nil,← count_eq,← ends_eq,← length_eq] at filled
  rw [countSort2,filled,Option.bind_some,print_blocks]

/-- Both print the stable sort exactly when the students of each section read the same
in reverse. -/
theorem countSort_stable_iff (arr : List Student) :
    (countSort arr = some (stableSort arr) ∧ countSort2 arr = some (stableSort arr)) ↔
      ∀ k, (ofSection arr k).reverse = ofSection arr k := by
  rw [countSort_eq,countSort2_eq,stableSort,Option.some.injEq,Option.some.injEq,eq_self,true_and]
  refine ⟨fun same k => ?_,fun same => by simp only [same]⟩
  obtain ⟨first,same⟩ := append_inj same (by simp)
  obtain ⟨second,same⟩ := append_inj same (by simp)
  obtain ⟨third,fourth⟩ := append_inj same (by simp)
  fin_cases k <;> assumption

theorem countSort2_reverses : ∃ arr, countSort2 arr ≠ some (stableSort arr) :=
  ⟨[⟨"Brown",3,by decide⟩,⟨"Davis",3,by decide⟩],by decide⟩

end CodeExercise.CountSort
