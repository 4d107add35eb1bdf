import Mathlib.Data.List.Basic
import Mathlib.Data.List.Nodup

/-!
Doubly linked lists. `Chain prev next p ids n` says that the cells `ids` follow one another by `next` and
precede one another by `prev`, with `p` in front of them and `n` behind them.
-/
namespace CodeExercise.Chains
open List Option
universe u

variable {α : Type u}

def Chain (prev next : α → Option α) : Option α → List α → Option α → Prop
  | _,[],_ => True
  | p,id::ids,n => prev id = p ∧ next id = ids.head?.or n ∧ Chain prev next (some id) ids n

section
variable {prev next prev' next' : α → Option α} {p n : Option α} {ids pre post : List α} {a b : α}

lemma Chain.congr (chain : Chain prev next p ids n) (same : ∀ id ∈ ids, prev' id = prev id ∧ next' id = next id) :
    Chain prev' next' p ids n := by
  induction ids generalizing p with
  | nil => trivial
  | cons id ids ih =>
    obtain ⟨before,behind,rest⟩ := chain
    obtain ⟨samePrev,sameNext⟩ := same id (by simp)
    exact ⟨samePrev.trans before,sameNext.trans behind,ih rest (fun x mem => same x (by simp [mem]))⟩

lemma chain_append : Chain prev next p (pre++a::post) n ↔
    Chain prev next p pre (some a) ∧ Chain prev next (pre.getLast?.or p) (a::post) n := by
  induction pre generalizing p with
  | nil => simp [Chain]
  | cons id pre ih =>
    rw [cons_append,Chain,Chain,ih]
    cases pre with
    | nil => simp [and_assoc]
    | cons next pre => simp [and_assoc,getLast?_cons]

lemma Chain.neighbours (chain : Chain prev next none (pre++a::post) none) :
    prev a = pre.getLast? ∧ next a = post.head? := by
  obtain ⟨_,before,behind,_⟩ := chain_append.mp chain
  exact ⟨by simpa using before,by simpa using behind⟩

/-- The cells that are reached from one cell on. -/
def follow (step : α → Option α) : Nat → Option α → List α
  | _,none => []
  | 0,some _ => []
  | n+1,some id => id :: follow step n (step id)

lemma Chain.follow {n : Nat} (chain : Chain prev next p ids none) (enough : ids.length ≤ n) :
    Chains.follow next n ids.head? = ids := by
  induction ids generalizing p n with
  | nil => cases n <;> rfl
  | cons id ids ih =>
    obtain ⟨n,rfl⟩ : ∃ k, n = k+1 := ⟨n-1,by simp at enough; omega⟩
    obtain ⟨_,behind,rest⟩ := chain
    rw [or_none] at behind
    rw [head?_cons,Chains.follow,behind,ih rest (by simpa using enough)]

lemma find_of_nodup_map {β : Type} [DecidableEq α] {f : β → α} {xs : List β} {x : β} (nodup : (xs.map f).Nodup)
    (mem : x ∈ xs) : xs.find? (fun y => f y = f x) = some x := by
  induction xs with
  | nil => cases mem
  | cons y xs ih =>
    obtain ⟨fresh,rest⟩ := nodup_cons.mp nodup
    rcases mem_cons.mp mem with rfl | later
    · simp
    · have other : f y ≠ f x := fun same => fresh (same ▸ List.mem_map_of_mem later)
      rw [find?_cons_of_neg (by simpa using other)]
      exact ih rest later

lemma Chain.relink (chain : Chain prev next p ids n) (nodup : ids.Nodup) (first : ∀ id ∈ ids.head?, prev' id = some a)
    (later : ∀ id ∈ ids, some id ≠ ids.head? → prev' id = prev id) (same : ∀ id ∈ ids, next' id = next id) :
    Chain prev' next' (some a) ids n := by
  cases ids with
  | nil => trivial
  | cons id ids =>
    obtain ⟨_,behind,rest⟩ := chain
    refine ⟨first id rfl,(same id (by simp)).trans behind,rest.congr ?_⟩
    intro x mem
    have other : x ≠ id := fun equal => (nodup_cons.mp nodup).1 (equal ▸ mem)
    exact ⟨later x (by simp [mem]) (by simpa using other),same x (by simp [mem])⟩

variable [DecidableEq α]

lemma Chain.insertAfter (chain : Chain prev next none (pre++a::post) none) (nodup : (pre++a::post).Nodup)
    (fresh : b ∉ pre ++ a::post)
    (next_eq : ∀ x, next' x = if x = a then some b else if x = b then next a else next x)
    (prev_eq : ∀ x, prev' x = if some x = next a then some b else if x = b then some a else prev x) :
    Chain prev' next' none (pre++a::b::post) none := by
  obtain ⟨front,before,behind,back⟩ := chain_append.mp chain
  rw [or_none] at behind
  obtain ⟨frontNodup,backNodup,apart⟩ := nodup_append.mp nodup
  obtain ⟨notBehind,postNodup⟩ := nodup_cons.mp backNodup
  simp only [mem_append,mem_cons,not_or] at fresh
  obtain ⟨freshPre,freshA,freshPost⟩ := fresh
  have atA : a ≠ b := Ne.symm freshA
  have notNext : ∀ x, x ∉ post → some x ≠ next a := by
    intro x outside equal
    rw [behind] at equal
    exact outside (mem_of_mem_head? equal.symm)
  refine chain_append.mpr ⟨front.congr ?_,?_,?_,?_,?_,?_⟩
  · intro x mem
    have notA : x ≠ a := apart x mem a (by simp)
    have notB : x ≠ b := fun equal => freshPre (equal ▸ mem)
    have outside : x ∉ post := fun later => apart x mem x (by simp [later]) rfl
    rw [prev_eq,next_eq,if_neg (notNext x outside),if_neg notB,if_neg notA,if_neg notB]
    exact ⟨rfl,rfl⟩
  · rwa [prev_eq,if_neg (notNext a notBehind),if_neg atA]
  · rw [next_eq,if_pos rfl]
    rfl
  · rw [prev_eq,if_neg (notNext b freshPost),if_pos rfl]
  · rw [next_eq,if_neg freshA,if_pos rfl,behind,or_none]
  · refine back.relink postNodup ?_ ?_ ?_
    · intro x first
      rw [prev_eq,if_pos (by rw [behind]; exact first.symm)]
    · intro x mem other
      have notB : x ≠ b := fun equal => freshPost (equal ▸ mem)
      rw [prev_eq,if_neg (by rw [behind]; exact other),if_neg notB]
    · intro x mem
      have notA : x ≠ a := fun equal => notBehind (equal ▸ mem)
      have notB : x ≠ b := fun equal => freshPost (equal ▸ mem)
      rw [next_eq,if_neg notA,if_neg notB]

lemma Chain.removeAfter (chain : Chain prev next none (pre++a::b::post) none)
    (nodup : (pre++a::b::post).Nodup) (next_eq : ∀ x, next' x = if x = a then next b else next x)
    (prev_eq : ∀ x, prev' x = if some x = next b then some a else prev x) :
    Chain prev' next' none (pre++a::post) none := by
  obtain ⟨front,before,_,_,behind,back⟩ := chain_append.mp chain
  rw [or_none] at behind
  obtain ⟨frontNodup,backNodup,apart⟩ := nodup_append.mp nodup
  obtain ⟨notBehind,restNodup⟩ := nodup_cons.mp backNodup
  obtain ⟨_,postNodup⟩ := nodup_cons.mp restNodup
  have notNext : ∀ x, x ∉ post → some x ≠ next b := by
    intro x outside equal
    rw [behind] at equal
    exact outside (mem_of_mem_head? equal.symm)
  refine chain_append.mpr ⟨front.congr ?_,?_,?_,?_⟩
  · intro x mem
    have notA : x ≠ a := apart x mem a (by simp)
    have outside : x ∉ post := fun later => apart x mem x (by simp [later]) rfl
    rw [prev_eq,next_eq,if_neg (notNext x outside),if_neg notA]
    exact ⟨rfl,rfl⟩
  · rw [prev_eq,if_neg (notNext a (fun later => notBehind (by simp [later])))]
    exact before
  · rw [next_eq,if_pos rfl,behind,or_none]
  · refine back.relink postNodup ?_ ?_ ?_
    · intro x first
      rw [prev_eq,if_pos (by rw [behind]; exact first.symm)]
    · intro x mem other
      rw [prev_eq,if_neg (by rw [behind]; exact other)]
    · intro x mem
      have notA : x ≠ a := fun equal => notBehind (equal ▸ mem_cons_of_mem b mem)
      rw [next_eq,if_neg notA]

end
end CodeExercise.Chains
