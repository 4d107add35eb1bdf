import Mathlib.Data.List.Nodup
import Mathlib.Data.List.Perm.Subperm
import Mathlib.Order.Basic
import Mathlib.Order.Lattice

/-!
An ordered map with one value for each key, as an association list in increasing order of the keys. The
order is part of the type, so every operation keeps it.
-/
namespace CodeExercise.SortedMaps
open List

variable {K : Type} {V : Type} [LinearOrder K]

/-- A finite map as the list of its entries, the keys ascending. -/
structure SortedMap (K : Type) (V : Type) [LinearOrder K] where
  entries : List (K × V)
  sorted : entries.Pairwise (fun a b => a.1 < b.1)

def SortedMap.empty : SortedMap K V := ⟨[],.nil⟩

/-- Insert an entry into the list, or replace the one with its key. -/
def setEntry (k : K) (v : V) : List (K × V) → List (K × V)
  | [] => [(k,v)]
  | (j,w)::rest =>
    if k < j then (k,v) :: (j,w)::rest
    else if k = j then (k,v) :: rest
    else (j,w) :: setEntry k v rest

lemma setEntry_subperm (k : K) (v : V) (entries : List (K × V)) :
    (setEntry k v entries).Subperm ((k,v)::entries) := by
  induction entries with
  | nil => exact List.Subperm.refl _
  | cons first rest ih =>
    obtain ⟨j,w⟩ := first
    unfold setEntry
    split
    · exact List.Subperm.refl _
    · split
      · exact ((sublist_cons_self _ _).cons_cons _).subperm
      · exact ((subperm_cons _).mpr ih).trans (List.Perm.swap _ _ _).subperm

variable {k : K} {v : V} {p : K × V} {m : SortedMap K V}

lemma setEntry_perm (v : V) (absent : ∀ e ∈ entries, e.1 ≠ k) :
    (setEntry k v entries).Perm ((k,v)::entries) := by
  induction entries with
  | nil => exact .refl _
  | cons first rest ih =>
    obtain ⟨j,w⟩ := first
    have other : k ≠ j := (absent (j,w) (by simp)).symm
    by_cases before : k < j
    · rw [setEntry,if_pos before]
    · rw [setEntry,if_neg before,if_neg other]
      exact ((ih (fun e later => absent e (by simp [later]))).cons (j,w)).trans (List.Perm.swap _ _ _)

lemma mem_setEntry (mem : p ∈ setEntry k v entries) :
    p = (k,v) ∨ p ∈ entries := by
  simpa using (setEntry_subperm k v entries).subset mem

lemma length_le_setEntry (k : K) (v : V) (entries : List (K × V)) :
    entries.length ≤ (setEntry k v entries).length := by
  induction entries with
  | nil => simp
  | cons first rest ih =>
    unfold setEntry
    split
    · simp
    · split
      · simp
      · simpa using ih

lemma setEntry_append_left (below : ∀ e ∈ pre, e.1 < k) (post : List (K × V)) :
    setEntry k v (pre++post) = pre++setEntry k v post := by
  induction pre with
  | nil => rfl
  | cons first pre ih =>
    have less : first.1 < k := below first (by simp)
    rw [cons_append,setEntry,if_neg less.not_gt,if_neg less.ne',ih (fun e mem => below e (by simp [mem]))]
    rfl

lemma setEntry_of_head (above : ∀ e ∈ post.head?, k < e.1) :
    setEntry k v post = (k,v)::post := by
  cases post with
  | nil => rfl
  | cons first post => rw [setEntry,if_pos (above first rfl)]

lemma setEntry_append_right (pre : List (K × V))
    (above : ∀ e ∈ post, k < e.1) : setEntry k v (pre++post) = setEntry k v pre ++ post := by
  induction pre with
  | nil => exact setEntry_of_head (fun e first => above e (mem_of_mem_head? first))
  | cons first pre ih =>
    rw [cons_append,setEntry,setEntry,ih]
    split
    · rfl
    · split <;> rfl

/-- An entry that is set keeps the order. -/
lemma setEntry_sorted
    (sorted : entries.Pairwise (fun a b => a.1 < b.1)) :
    (setEntry k v entries).Pairwise (fun a b => a.1 < b.1) := by
  induction entries with
  | nil => simp [setEntry]
  | cons first rest ih =>
    obtain ⟨j,w⟩ := first
    obtain ⟨below,rest_sorted⟩ := pairwise_cons.mp sorted
    unfold setEntry
    split
    · next less =>
      refine pairwise_cons.mpr ⟨?_,sorted⟩
      exact forall_mem_cons.mpr ⟨less,fun p later => less.trans (below p later)⟩
    · next notLess =>
      split
      · next same =>
        subst same
        exact pairwise_cons.mpr ⟨below,rest_sorted⟩
      · next different =>
        refine pairwise_cons.mpr ⟨?_,ih rest_sorted⟩
        intro p mem
        rcases mem_setEntry mem with rfl | before
        · exact lt_of_le_of_ne (not_lt.mp notLess) (Ne.symm different)
        · exact below p before

/-- The entry is there afterwards, and the old ones of other keys. -/
lemma mem_setEntry_iff (sorted : entries.Pairwise (fun a b => a.1 < b.1))
    : p ∈ setEntry k v entries ↔ p = (k,v) ∨ p ∈ entries ∧ p.1 ≠ k := by
  induction entries with
  | nil => simp [setEntry]
  | cons first rest ih =>
    obtain ⟨j,w⟩ := first
    obtain ⟨below,rest_sorted⟩ := pairwise_cons.mp sorted
    unfold setEntry
    split
    · next less =>
      have other : ∀ q ∈ (j,w)::rest, q.1 ≠ k := by
        exact forall_mem_cons.mpr ⟨less.ne',fun q later => (less.trans (below q later)).ne'⟩
      rw [mem_cons]
      exact or_congr_right ⟨fun mem => ⟨mem,other p mem⟩,And.left⟩
    · split
      · next same =>
        subst same
        have other : ∀ q ∈ rest, q.1 ≠ k := fun q mem => (below q mem).ne'
        rw [mem_cons,mem_cons]
        refine or_congr_right ⟨fun mem => ⟨.inr mem,other p mem⟩,?_⟩
        rintro ⟨rfl | mem,different⟩
        · exact absurd rfl different
        · exact mem
      · next different =>
        rw [mem_cons,ih rest_sorted,mem_cons]
        constructor
        · rintro (rfl | rfl | ⟨mem,other⟩)
          · exact .inr ⟨.inl rfl,Ne.symm different⟩
          · exact .inl rfl
          · exact .inr ⟨.inr mem,other⟩
        · rintro (rfl | ⟨rfl | mem,other⟩)
          · exact .inr (.inl rfl)
          · exact .inl rfl
          · exact .inr (.inr ⟨mem,other⟩)

def SortedMap.set (m : SortedMap K V) (k : K) (v : V) : SortedMap K V :=
  ⟨setEntry k v m.entries,setEntry_sorted m.sorted⟩

def SortedMap.get (m : SortedMap K V) (k : K) : Option V := (m.entries.find? (fun e => e.1 = k)).map Prod.snd

lemma get_eq_some_iff : m.get k = some v ↔ (k,v) ∈ m.entries := by
  constructor
  · intro found
    obtain ⟨e,here,rfl⟩ := Option.map_eq_some_iff.mp found
    have same : e.1 = k := by simpa using find?_some here
    subst same
    exact mem_of_find?_eq_some here
  · intro mem
    have keys : (m.entries.map Prod.fst).Nodup := pairwise_map.mpr (m.sorted.imp (fun less => less.ne))
    have there : (m.entries.find? (fun e => e.1 = k)).isSome := by
      rw [find?_isSome]
      exact ⟨(k,v),mem,by simp⟩
    obtain ⟨e,here⟩ := Option.isSome_iff_exists.mp there
    have same : e.1 = k := by simpa using find?_some here
    have equal : e = (k,v) := inj_on_of_nodup_map keys (mem_of_find?_eq_some here) mem same
    simp [SortedMap.get,here,equal]

lemma get_eq_none (absent : ∀ e ∈ m.entries, e.1 ≠ k) : m.get k = none := by
  cases found : m.get k with
  | none => rfl
  | some v => exact absurd rfl (absent (k,v) (get_eq_some_iff.mp found))

/-- Set one entry after the other. -/
def SortedMap.setAll (m : SortedMap K V) (entries : List (K × V)) : SortedMap K V :=
  entries.foldl (fun m e => m.set e.1 e.2) m

lemma mem_setAll (sorted : entries.Pairwise (fun a b => a.1 < b.1))
    : p ∈ (m.setAll entries).entries ↔ p ∈ entries ∨ p ∈ m.entries ∧ ∀ e ∈ entries, e.1 ≠ p.1 := by
  induction entries generalizing m with
  | nil => simp [SortedMap.setAll]
  | cons first rest ih =>
    obtain ⟨above,sorted⟩ := pairwise_cons.mp sorted
    have step := ih (m := m.set first.1 first.2) sorted
    have new : p ∈ (m.set first.1 first.2).entries ↔ p = first ∨ p ∈ m.entries ∧ p.1 ≠ first.1 :=
      mem_setEntry_iff m.sorted
    change p ∈ ((m.set first.1 first.2).setAll rest).entries ↔ _
    rw [step,new]
    simp only [mem_cons,forall_eq_or_imp]
    constructor
    · rintro (later | ⟨rfl | ⟨mem,other⟩,others⟩)
      · exact .inl (.inr later)
      · exact .inl (.inl rfl)
      · exact .inr ⟨mem,Ne.symm other,others⟩
    · rintro ((rfl | later) | ⟨mem,other,others⟩)
      · exact .inr ⟨.inl rfl,fun e inside => (above e inside).ne'⟩
      · exact .inl later
      · exact .inr ⟨.inr ⟨mem,Ne.symm other⟩,others⟩

/-- Maps with the same entries are equal. -/
lemma SortedMap.ext_mem (same : ∀ p, p ∈ m.entries ↔ p ∈ n.entries) : m = n := by
  obtain ⟨left,sortedL⟩ := m
  obtain ⟨right,sortedR⟩ := n
  have nodup : ∀ {entries : List (K × V)}, entries.Pairwise (fun a b => a.1 < b.1) → entries.Nodup :=
    fun sorted => sorted.imp (fun less equal => by simp [equal] at less)
  have perm : left.Perm right := (perm_ext_iff_of_nodup (nodup sortedL) (nodup sortedR)).mpr same
  have equal : left = right := perm.eq_of_pairwise (fun a b _ _ less more => absurd less more.not_gt) sortedL sortedR
  subst equal
  rfl

lemma setAll_empty (m : SortedMap K V) : SortedMap.empty.setAll m.entries = m := by
  apply SortedMap.ext_mem
  intro e
  rw [mem_setAll m.sorted]
  simp [SortedMap.empty]

def SortedMap.erase (m : SortedMap K V) (k : K) : SortedMap K V :=
  ⟨m.entries.filter (fun p => p.1 ≠ k),m.sorted.filter _⟩

/-- The first entry whose key is not below the bound. -/
def SortedMap.lowerBound (m : SortedMap K V) (k : K) : Option (K × V) := m.entries.find? (fun p => k ≤ p.1)
def SortedMap.values (m : SortedMap K V) : List V := m.entries.map Prod.snd

lemma values_set (m : SortedMap K V) (k : K) (v : V) : (m.set k v).values.Subperm (v::m.values) := by
  obtain ⟨kept,perm,inside⟩ := setEntry_subperm k v m.entries
  exact ⟨kept.map Prod.snd,perm.map _,inside.map _⟩

lemma lowerBound_mem (found : m.lowerBound k = some p) : p ∈ m.entries :=
  mem_of_find?_eq_some found

lemma lowerBound_le (found : m.lowerBound k = some p) : k ≤ p.1 := by
  simpa using find?_some found

lemma lowerBound_set (below : j < k) : (m.set j v).lowerBound k = m.lowerBound k := by
  have skip : ¬ k ≤ j := not_le.mpr below
  obtain ⟨entries,sorted⟩ := m
  unfold SortedMap.lowerBound SortedMap.set
  dsimp only
  induction entries with
  | nil => simp [setEntry,skip]
  | cons first rest ih =>
    obtain ⟨i,w⟩ := first
    unfold setEntry
    split
    · simp [skip]
    · split
      · next same =>
        subst same
        simp [skip]
      · simp [find?_cons,ih (pairwise_cons.mp sorted).2]

lemma entries_erase (mem : p ∈ m.entries) : m.entries.Perm (p::(m.erase p.1).entries) := by
  obtain ⟨entries,sorted⟩ := m
  unfold SortedMap.erase
  dsimp only at mem ⊢
  induction entries with
  | nil => cases mem
  | cons first rest ih =>
    obtain ⟨below,sorted⟩ := pairwise_cons.mp sorted
    rcases mem_cons.mp mem with rfl | later
    · have kept : rest.filter (fun q => decide (q.1 ≠ p.1)) = rest := by
        refine filter_eq_self.mpr fun q inside => ?_
        simpa using (below q inside).ne'
      rw [filter_cons_of_neg (by simp),kept]
    · have other : first.1 ≠ p.1 := (below p later).ne
      have tail := (ih sorted later).cons first
      simp only [filter_cons,other,ne_eq,not_false_eq_true,decide_true,if_true]
      exact tail.trans (List.Perm.swap _ _ _)

lemma values_erase (mem : p ∈ m.entries) :
    m.values.Perm (p.2::(m.erase p.1).values) := (entries_erase mem).map Prod.snd

def dropEntry (key : K) (es : List (K × V)) : List (K × V) := es.filter (fun e => decide (e.1 ≠ key))

lemma filter_ne_self {es : List (K × V)} {key : K} (others : ∀ e ∈ es, e.1 ≠ key) :
    es.filter (fun e => decide (e.1 ≠ key)) = es :=
  filter_eq_self.mpr (fun e mem => decide_eq_true (others e mem))

section
variable {pre post es : List (K × V)} {key : K} {w : V}

lemma filter_ne_append (sorted : (pre++post).Pairwise (fun a b => a.1 < b.1)) (below : ∀ e ∈ pre, e.1 < key)
    (above : ∀ e ∈ post.head?, key < e.1) : (pre++post).filter (fun e => decide (e.1 ≠ key)) = pre++post := by
  have order := (pairwise_append.mp sorted).2.1
  have greater : ∀ e ∈ post, key < e.1 := by
    cases post with
    | nil => simp
    | cons first post =>
      exact forall_mem_cons.mpr ⟨above _ rfl,fun e later => (above first rfl).trans ((pairwise_cons.mp order).1 e later)⟩
  refine filter_ne_self fun e mem => ?_
  rcases mem_append.mp mem with early | late
  · exact (below e early).ne
  · exact (greater e late).ne'

lemma filter_ne_cons (sorted : (pre++(key,w)::post).Pairwise (fun a b => a.1 < b.1)) :
    (pre++(key,w)::post).filter (fun e => decide (e.1 ≠ key)) = pre++post := by
  obtain ⟨_,order,across⟩ := pairwise_append.mp sorted
  rw [filter_append,filter_ne_self (fun e mem => (across e mem (key,w) (by simp)).ne),
    filter_cons_of_neg (by simp),filter_ne_self (fun e mem => ((pairwise_cons.mp order).1 e mem).ne')]

lemma dropEntry_inside (below : ∀ e ∈ pre, e.1 < key) (above : ∀ e ∈ post, key < e.1) :
    dropEntry key (pre++(es++post)) = pre++(dropEntry key es ++ post) := by
  simp only [dropEntry,filter_append]
  rw [filter_ne_self (fun e mem => (below e mem).ne),filter_ne_self (fun e mem => (above e mem).ne')]

lemma length_le_filter (sorted : es.Pairwise (fun a b => a.1 < b.1)) (key : K) :
    es.length ≤ (es.filter (fun e => decide (e.1 ≠ key))).length+1 := by
  by_cases present : ∃ e ∈ es, e.1 = key
  · obtain ⟨e,mem,rfl⟩ := present
    have taken := entries_erase (m := ⟨es,sorted⟩) mem
    exact taken.length_eq.le
  · rw [filter_ne_self (fun e mem same => present ⟨e,mem,same⟩)]
    omega

lemma mem_of_mem_rest {α : Type*} {xs ys : List α} {x y : α} (mem : x ∈ xs++ys) : x ∈ xs++y::ys :=
  ((sublist_cons_self y ys).append_left xs).subset mem

omit [LinearOrder K] in
lemma exists_entries_cut {s : Option Nat} {p : K → Bool} (cut : es.map Prod.fst = left++right) (sought : s = some left.length)
    (misses : ∀ x ∈ left, p x = false) (hit : ∀ x ∈ right.head?, p x = true) :
    ∃ pre post, es = pre++post ∧ s = some pre.length ∧ (∀ e ∈ pre, p e.1 = false) ∧ ∀ e ∈ post.head?, p e.1 = true := by
  obtain ⟨pre,post,rfl,rfl,rfl⟩ := map_eq_append_iff.mp cut
  refine ⟨pre,post,rfl,by simpa using sought,fun e mem => misses e.1 (mem_map_of_mem mem),fun e first => hit e.1 ?_⟩
  rw [head?_map,first]
  rfl

/-- Where a search for the first key that is not below `key` stops, `key` is read if and only if it is there. -/
lemma place_of_stop {n : Nat} {read : Option K} {p : K → Bool} (stops : ∀ x, p x = true ↔ key ≤ x)
    (misses : ∀ e ∈ pre, p e.1 = false) (hit : ∀ e ∈ post.head?, p e.1 = true) (count : n = (pre++post).length)
    (got : ∀ e ∈ post.head?, read = some e.1) : (∀ e ∈ pre, e.1 < key) ∧
      ((pre.length < n ∧ read = some key) ∧ (∃ w rest, post = (key,w)::rest) ∨
        ¬ (pre.length < n ∧ read = some key) ∧ ∀ e ∈ post.head?, key < e.1) := by
  refine ⟨fun e mem => ?_,?_⟩
  · rw [← not_le,← stops,misses e mem]
    simp
  cases post with
  | nil => exact .inr ⟨by simp [count],by simp⟩
  | cons first post =>
    have close : key ≤ first.1 := (stops _).mp (hit first rfl)
    rw [got first rfl,Option.some.injEq]
    by_cases same : first.1 = key
    · exact .inl ⟨⟨by simp [count],same⟩,first.2,post,by rw [← same]⟩
    · refine .inr ⟨fun found => same found.2,fun e head => ?_⟩
      obtain rfl : first = e := by simpa using head
      exact lt_of_le_of_ne close (Ne.symm same)

end

def SortedMap.mapKeys {L : Type} [LinearOrder L] (m : SortedMap K V) (f : K → L) (increasing : StrictMono f) : SortedMap L V :=
  ⟨m.entries.map (Prod.map f id),pairwise_map.mpr (m.sorted.imp (fun less => increasing less))⟩

end CodeExercise.SortedMaps
