import CodeExercise.Partial

/-!
Runs of a transition system whose steps are a partial function of the state and
a label. The label carries every choice of the environment (which thread moves,
which message arrives), so a run is a list of labels and can be evaluated.
`Reach` collects the states of all runs whose steps meet a condition; an
invariant of one step is an invariant of every run (`Reach.invariant`).
-/
namespace CodeExercise.Runs
open Option Function
universe u v w

variable {State : Type u} {Label : Type v}

/-- The state after a list of labels, when each of them is enabled in turn. -/
def run (next : State → Label → Option State) : State → List Label → Option State
  | s,[] => some s
  | s,label::rest => (next s label).bind (fun t => run next t rest)

/-- Every step of the run meets the condition. -/
def Meets (next : State → Label → Option State) (ok : State → Label → Prop) : State → List Label → Prop
  | _,[] => True
  | s,label::rest => ok s label ∧ match next s label with
    | some t => Meets next ok t rest
    | none => True
instance decidableMeets (next : State → Label → Option State) (ok : State → Label → Prop)
    [∀ s label, Decidable (ok s label)] : ∀ (s : State) (labels : List Label), Decidable (Meets next ok s labels)
  | _,[] => isTrue trivial
  | s,label::rest =>
    have : Decidable (match next s label with
        | some t => Meets next ok t rest
        | none => True) :=
      match next s label with
      | some t => decidableMeets next ok t rest
      | none => isTrue trivial
    decideAs (_ ∧ _)

/-- The states that steps meeting `ok` reach from an initial state. -/
inductive Reach (init : State → Prop) (ok : State → Label → Prop) (next : State → Label → Option State) :
    State → Prop
  | start {s : State} (initial : init s) : Reach init ok next s
  | step {s t : State} {label : Label} (before : Reach init ok next s) (meets : ok s label)
      (moved : next s label = some t) : Reach init ok next t

/-- The condition that every step meets. -/
def anyStep (_ : State) (_ : Label) : Prop := True
instance (s : State) (label : Label) : Decidable (anyStep s label) := isTrue trivial

section
variable {init : State → Prop} {ok : State → Label → Prop} {next : State → Label → Option State}

/-- What holds initially and survives every step holds in every state reached. -/
lemma Reach.invariant {inv : State → Prop} (initial : ∀ s, init s → inv s)
    (keep : ∀ s label t, inv s → ok s label → next s label = some t → inv t) :
    ∀ s, Reach init ok next s → inv s := by
  intro s reached
  induction reached with
  | start first => exact initial _ first
  | step _ meets moved ih => exact keep _ _ _ ih meets moved

/-- A run whose steps meet the condition stays in the states reached. -/
lemma Reach.run (labels : List Label) (reached : Reach init ok next s)
    (meets : Meets next ok s labels) (ran : Runs.run next s labels = some t) : Reach init ok next t := by
  induction labels generalizing s with
  | nil =>
    simp only [Runs.run,some.injEq] at ran
    exact ran ▸ reached
  | cons label rest ih =>
    simp only [Runs.run,bind_eq_some_iff] at ran
    obtain ⟨middle,moved,ran⟩ := ran
    have later := meets.2
    rw [moved] at later
    exact ih (.step reached meets.1 moved) later ran

lemma Meets.imp (weaker : ∀ s label, ok s label → ok' s label)
    (meets : Meets next ok s labels) : Meets next ok' s labels := by
  induction labels generalizing s with
  | nil => trivial
  | cons label rest ih =>
    refine ⟨weaker s label meets.1,?_⟩
    have later := meets.2
    cases moved : next s label with
    | none => trivial
    | some t =>
      rw [moved] at later
      exact ih later

lemma meets_anyStep (s : State) (labels : List Label) : Meets next anyStep s labels := by
  induction labels generalizing s with
  | nil => trivial
  | cons label rest ih =>
    refine ⟨trivial,?_⟩
    cases next s label with
    | some t => exact ih t
    | none => trivial

lemma exists_reach_from {s : State} {P : State → Prop} [DecidablePred P] [∀ s label, Decidable (ok s label)]
    (initial : init s) (labels : List Label)
    (seen : (decide (Meets next ok s labels) && (Runs.run next s labels).any (fun t => decide (P t))) = true) :
    ∃ t, Reach init ok next t ∧ P t := by
  rw [Bool.and_eq_true,decide_eq_true_eq,any_eq_true] at seen
  obtain ⟨meets,t,ran,holds⟩ := seen
  exact ⟨t,.run labels (.start initial) meets ran,of_decide_eq_true holds⟩

lemma exists_reach {start : Option State} {P : State → Prop} [DecidablePred P]
    [∀ s label, Decidable (ok s label)] (labels : List Label)
    (seen : start.any (fun s => decide (Meets next ok s labels) && (Runs.run next s labels).any (fun t => decide (P t)))
      = true) : ∃ t, Reach (fun s => start = some s) ok next t ∧ P t := by
  obtain ⟨s,started,seen⟩ := any_eq_true _ _ |>.mp seen
  exact exists_reach_from started labels seen

end

/-- The state together with the labels of the run so far, the last one first. -/
def traced (next : State → Label → Option State) (s : State × List Label) (label : Label) :
    Option (State × List Label) :=
  (next s.1 label).map (fun t => (t,label::s.2))

/-- The initial states, before any label. -/
def untraced (init : State → Prop) (s : State × List Label) : Prop := init s.1 ∧ s.2 = []

lemma traced_eq_some {next : State → Label → Option State} {s t : State × List Label} {label : Label} :
    traced next s label = some t ↔ next s.1 label = some t.1 ∧ t.2 = label::s.2 := by
  simp only [traced,map_eq_some_iff]
  constructor
  · rintro ⟨u,moved,rfl⟩
    exact ⟨moved,rfl⟩
  · rintro ⟨moved,same⟩
    exact ⟨t.1,moved,Prod.ext rfl same.symm⟩

section
variable {Index : Type w} [DecidableEq Index]

/-- A family of components, of which each label moves one. -/
def each (next : State → Label → Option State) (s : Index → State) (label : Index × Label) :
    Option (Index → State) :=
  (next (s label.1) label.2).map (update s label.1)

/-- Each component of a family is in a state that the component reaches alone. -/
lemma Reach.each {ok : State → Label → Prop} {next : State → Label → Option State} :
    ∀ s : Index → State,
      Reach (fun s => ∀ i, init (s i)) (fun s label => ok (s label.1) label.2) (Runs.each next) s →
        ∀ i, Reach init ok next (s i) := by
  apply Reach.invariant
  · intro s initial i
    exact .start (initial i)
  · intro s label t ih meets moved i
    simp only [Runs.each,map_eq_some_iff] at moved
    obtain ⟨moves,enabled,rfl⟩ := moved
    by_cases same : i = label.1
    · subst same
      rw [update_self]
      exact .step (ih _) meets enabled
    · rw [update_of_ne same]
      exact ih i

end
end CodeExercise.Runs
