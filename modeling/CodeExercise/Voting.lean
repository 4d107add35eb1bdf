import Mathlib.Data.Set.Finite.Basic
import Mathlib.Order.WellFoundedSet

/-!
Voting in numbered ballots. When each proposed value is backed by a quorum, that is, it repeats the
highest vote that the quorum cast in lower ballots or the quorum cast none, then quorums that meet
choose one value only (`Safe.chosen_unique`).
-/
namespace CodeExercise.Voting
universe u v w

variable {Voter : Type u} {Ballot : Type v} {Value : Type w}

/-- A quorum voted for the value in the ballot. -/
def Chosen (quorum : Set Voter → Prop) (voted : Voter → Ballot → Value → Prop) (n : Ballot) (v : Value) : Prop :=
  ∃ q, quorum q ∧ ∀ a ∈ q, voted a n v
lemma Chosen.grow {quorum : Set Voter → Prop} {voted voted' : Voter → Ballot → Value → Prop} {n : Ballot} {v : Value}
    (chosen : Chosen quorum voted n v) (more : ∀ a n v, voted a n v → voted' a n v) : Chosen quorum voted' n v := by
  obtain ⟨q,isQuorum,all⟩ := chosen
  exact ⟨q,isQuorum,fun a mem => more a n v (all a mem)⟩

variable [LinearOrder Ballot]

/-- The highest vote that the voters cast below a ballot, if they cast any. -/
def Highest (voted : Voter → Ballot → Value → Prop) (n : Ballot) (q : Set Voter) : Option (Ballot × Value) → Prop
  | none => ∀ a ∈ q, ∀ c w, voted a c w → n ≤ c
  | some (m,v) => m < n ∧ (∃ b ∈ q, voted b m v) ∧ ∀ a ∈ q, ∀ c w, voted a c w → c < n → c ≤ m

/-- The value repeats the highest vote below the ballot, or there is none. -/
def Backed (voted : Voter → Ballot → Value → Prop) (n : Ballot) (v : Value) (q : Set Voter) : Prop :=
  ∃ best, Highest voted n q best ∧ ∀ m w, best = some (m,w) → w = v

structure Safe (quorum : Set Voter → Prop) (proposed : Ballot → Value → Prop)
    (voted : Voter → Ballot → Value → Prop) : Prop where
  finite : {n | ∃ v, proposed n v}.Finite
  unique : ∀ n v w, proposed n v → proposed n w → v = w
  cast : ∀ a n v, voted a n v → proposed n v
  backed : ∀ n v, proposed n v → ∃ q, quorum q ∧ Backed voted n v q

section Agreement
variable {quorum : Set Voter → Prop} {proposed : Ballot → Value → Prop} {voted : Voter → Ballot → Value → Prop}

lemma Safe.proposed_eq (safe : Safe quorum proposed voted)
    (meet : ∀ p q, quorum p → quorum q → ∃ a, a ∈ p ∧ a ∈ q)
    (chosen : Chosen quorum voted m v) : ∀ n w, proposed n w → m ≤ n → w = v := by
  obtain ⟨p,isQuorum,all⟩ := chosen
  -- Votes refer to proposals in lower ballots, of which there are finitely many.
  have descent := safe.finite.wellFoundedOn (r := (· < ·))
  intro n w offer le
  refine descent.induction (P := fun n => ∀ w, proposed n w → m ≤ n → w = v) ⟨w,offer⟩ ?_ w offer le
  intro n _ ih w offer le
  rcases le.eq_or_lt with rfl | below
  · obtain ⟨a,mem,_⟩ := meet p p isQuorum isQuorum
    exact safe.unique m w v offer (safe.cast a m v (all a mem))
  · obtain ⟨q,other,best,highest,same⟩ := safe.backed n w offer
    obtain ⟨a,inP,inQ⟩ := meet p q isQuorum other
    cases best with
    | none => exact absurd (highest a inQ m v (all a inP)) (not_le.mpr below)
    | some report =>
      obtain ⟨k,u⟩ := report
      obtain ⟨lower,⟨b,_,cast⟩,upper⟩ := highest
      have repeated : u = w := same k u rfl
      subst repeated
      have before := safe.cast b k u cast
      exact ih k ⟨u,before⟩ lower u before (upper a inQ m v (all a inP) below)

lemma Safe.chosen_unique (safe : Safe quorum proposed voted)
    (meet : ∀ p q, quorum p → quorum q → ∃ a, a ∈ p ∧ a ∈ q)
    (left : Chosen quorum voted m v) (right : Chosen quorum voted n w) : v = w := by
  have offered : ∀ {n w}, Chosen quorum voted n w → proposed n w := by
    rintro n w ⟨q,isQuorum,all⟩
    obtain ⟨a,mem,_⟩ := meet q q isQuorum isQuorum
    exact safe.cast a n w (all a mem)
  rcases le_total m n with le | le
  · exact (safe.proposed_eq meet left n w (offered right) le).symm
  · exact safe.proposed_eq meet right m v (offered left) le

end Agreement

section Reports
variable {voted : Voter → Ballot → Value → Prop} {n : Ballot} {q : Set Voter}

lemma Highest.empty (voted : Voter → Ballot → Value → Prop) (n : Ballot) : Highest voted n ∅ none := by
  intro a mem
  exact absurd mem (Set.notMem_empty a)

/-- The higher of two reports. -/
def better : Option (Ballot × Value) → Option (Ballot × Value) → Option (Ballot × Value)
  | best,none => best
  | none,some report => some report
  | some best,some report => if best.1 < report.1 then some report else some best

lemma Highest.union (left : Highest voted n p best)
    (right : Highest voted n q report) : Highest voted n (p ∪ q) (better best report) := by
  rcases best with _ | ⟨k,v⟩ <;> rcases report with _ | ⟨m,w⟩
  · rintro a (inP | inQ) c u cast
    · exact left a inP c u cast
    · exact right a inQ c u cast
  · obtain ⟨lower,⟨b,inside,cast⟩,upper⟩ := right
    refine ⟨lower,⟨b,.inr inside,cast⟩,?_⟩
    rintro a (inP | inQ) c u cast below
    · exact absurd below (not_lt.mpr (left a inP c u cast))
    · exact upper a inQ c u cast below
  · obtain ⟨lower,⟨b,inside,cast⟩,upper⟩ := left
    refine ⟨lower,⟨b,.inl inside,cast⟩,?_⟩
    rintro a (inP | inQ) c u cast below
    · exact upper a inP c u cast below
    · exact absurd below (not_lt.mpr (right a inQ c u cast))
  · obtain ⟨lowerK,⟨b,insideB,castB⟩,upperK⟩ := left
    obtain ⟨lowerM,⟨d,insideD,castD⟩,upperM⟩ := right
    by_cases higher : k < m
    · simp only [better,higher,if_true]
      refine ⟨lowerM,⟨d,.inr insideD,castD⟩,?_⟩
      rintro a (inP | inQ) c u cast below
      · exact (upperK a inP c u cast below).trans higher.le
      · exact upperM a inQ c u cast below
    · simp only [better,higher,if_false]
      refine ⟨lowerK,⟨b,.inl insideB,castB⟩,?_⟩
      rintro a (inP | inQ) c u cast below
      · exact upperK a inP c u cast below
      · exact (upperM a inQ c u cast below).trans (not_lt.mp higher)

lemma Highest.grow (highest : Highest voted n q best)
    (more : ∀ a n v, voted a n v → voted' a n v)
    (kept : ∀ a ∈ q, ∀ c w, voted' a c w → voted a c w ∨ n ≤ c) : Highest voted' n q best := by
  cases best with
  | none =>
    intro a mem c w cast
    rcases kept a mem c w cast with before | late
    · exact highest a mem c w before
    · exact late
  | some report =>
    obtain ⟨lower,⟨b,inside,cast⟩,upper⟩ := highest
    refine ⟨lower,⟨b,inside,more b _ _ cast⟩,?_⟩
    intro a mem c w cast below
    rcases kept a mem c w cast with before | late
    · exact upper a mem c w before below
    · exact absurd below (not_lt.mpr late)

end Reports
end CodeExercise.Voting
