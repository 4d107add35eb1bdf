import CodeExercise.LockCache

/-! Mutual exclusion of the caching lock service. -/
namespace CodeExercise.LockCacheExclusion
open Runs LockCache Function
open Option (ite_none_right_eq_some)

/-- A lock is released by the thread that holds it, and a FREE lock is not taken
once it is revoked. -/
def Careful (s : Lock) : Label → Prop
  | .acquire c _ | .wake c _ => (s.clients c).stat = .free → (s.clients c).revoked = false
  | .release c t => s.threads c t = .holding
  | _ => True

instance (s : Lock) : (label : Label) → Decidable (Careful s label)
  | .acquire _ _ | .wake _ _ => decideAs (_ → _)
  | .release _ _ => decideAs (_ = _)
  | .serve _ _ | .callRevoke _ _ | .revokeHandler _ _ | .revokeRelease _ _ | .revokeDone _ _ | .take _ _
  | .retryHandler _ _ | .reply _ _ | .retry _ _ | .releaseRpc _ _ | .released _ _ => isTrue trivial

/-- The status of the lock while a thread is at a place in `acquire` or `release`. -/
def statAt : Pc → Option Stat
  | .idle | .blocked => none
  | .holding => some .locked
  | .releasing | .released => some .releasing
  | _ => some .acquiring

/-- The server waits for the holder on behalf of the thread. -/
def Waits : Pc → Prop
  | .revoke | .await | .revoking _ _ => True
  | _ => False

/-- The client that must be the server's holder while a thread of `c` is at a place. -/
def Relies (c : String) : Pc → String → Prop
  | .notify _,h | .reply true,h | .holding,h | .releasing,h => h = c
  | .revoking k .release,h => h = k
  | _,_ => False

/-- The revoke handler of the client is between its two critical sections. -/
def Opens : Pc → String → Prop
  | .revoking k .release,h | .revoking k .released,h => h = k
  | _,_ => False

/-- The server records the client as the holder. -/
def Owns (entry : Option ClientInfo) (c : String) : Prop := ∃ e, entry = some e ∧ e.cid = c ∧ e.available = false
/-- The server gives the lock to the client next. -/
def InLine (entry : Option ClientInfo) (c : String) : Prop := ∃ e, entry = some e ∧ e.waiting = true ∧ c ∈ e.waited
/-- The lock is FREE at the client, and revoked. -/
def Window (clients : String → LockInfo) (h : String) : Prop := (clients h).stat = .free ∧ (clients h).revoked = true

lemma owns_unique (left : Owns entry c) (right : Owns entry d) : c = d := by
  obtain ⟨e,found,rfl,_⟩ := left
  obtain ⟨f,same,rfl,_⟩ := right
  obtain rfl : e = f := by simpa [found] using same
  rfl

variable {pc : Pc}

lemma waits_of_opens (opens : Opens pc h) : Waits pc := by
  unfold Opens at opens
  split at opens <;> trivial

lemma statAt_of_waits (waits : Waits pc) : statAt pc = some .acquiring := by
  cases pc <;> first | rfl | exact waits.elim

lemma statAt_range (place : statAt pc = some st) : st ≠ .none ∧ st ≠ .free := by
  cases pc <;> simp only [statAt,Option.some.injEq,reduceCtorEq] at place <;> subst place <;> decide

lemma relies_cases (relies : Relies c pc h) :
    (h = c ∧ (statAt pc).isSome) ∨ pc = .revoking h .release := by
  unfold Relies at relies
  split at relies
  · exact .inl ⟨relies,rfl⟩
  · exact .inl ⟨relies,rfl⟩
  · exact .inl ⟨relies,rfl⟩
  · exact .inl ⟨relies,rfl⟩
  · exact .inr (by rw [relies])
  · exact relies.elim

structure Inv (s : Lock) : Prop where
  stat : ∀ c t st, statAt (s.threads c t) = some st → (s.clients c).stat = st
  alone : ∀ c t u, (statAt (s.threads c t)).isSome → (statAt (s.threads c u)).isSome → t = u
  single : ∀ c t d u, Waits (s.threads c t) → Waits (s.threads d u) → c = d ∧ t = u
  line : ∀ c t, Waits (s.threads c t) → InLine s.entry c
  owns : ∀ c t h, Relies c (s.threads c t) h → Owns s.entry h
  window : ∀ c t h, Opens (s.threads c t) h → Window s.clients h
  free : ∀ c, (s.clients c).stat = .free → Owns s.entry c ∨ ∃ d u, s.threads d u = .revoking c .released

lemma inv_init : Inv Lock.init := by
  refine ⟨?_,?_,?_,?_,?_,?_,?_⟩
  · simp [Lock.init,statAt]
  · simp [Lock.init,statAt]
  · simp [Lock.init,Waits]
  · simp [Lock.init,Waits]
  · simp [Lock.init,Relies]
  · simp [Lock.init,Opens]
  · simp [Lock.init]

lemma exclusive_of_inv (inv : Inv s) : Exclusive s := by
  intro c t d u left right
  have ownC := inv.owns c t c (by rw [left]; rfl)
  have ownD := inv.owns d u d (by rw [right]; rfl)
  obtain rfl := owns_unique ownC ownD
  rw [inv.alone c t u (by rw [left]; rfl) (by rw [right]; rfl)]

section Consequences
variable {s : Lock} {c : String} {t : Nat}

lemma Inv.quiet (inv : Inv s) (rest : (s.clients c).stat = .none ∨ (s.clients c).stat = .free) :
    ∀ u, statAt (s.threads c u) = none := by
  intro u
  cases place : statAt (s.threads c u) with
  | none => rfl
  | some st =>
    have same := inv.stat c u st place
    obtain ⟨notNone,notFree⟩ := statAt_range place
    rw [same] at rest
    exact rest.elim (fun h => absurd h notNone) fun h => absurd h notFree

lemma Inv.others (inv : Inv s) (busy : (statAt (s.threads c t)).isSome) :
    ∀ u, u ≠ t → statAt (s.threads c u) = none := by
  intro u different
  cases place : statAt (s.threads c u) with
  | none => rfl
  | some st => exact absurd (inv.alone c u t (by simp [place]) busy) different

lemma Inv.onlyWindow (inv : Inv s) (waits : Waits (s.threads c t))
    (opens : Opens (s.threads d u) h) : d = c ∧ u = t :=
  inv.single d u c t (waits_of_opens opens) waits

lemma Inv.closed (inv : Inv s) (other : (s.clients c).stat ≠ .free) :
    ¬ Opens (s.threads d u) c :=
  fun opens => other (inv.window d u c opens).1

end Consequences

section Steps
variable {s : Lock} {c : String} {t : Nat} {pc : Pc}

section
variable (inv : Inv s)
include inv

/-- The rule for a step of one thread: what its new place says, and what the
places of the other threads say still, about the new clients and entry. -/
lemma Inv.move
    (stat : ∀ st, statAt pc = some st → (clients c).stat = st ∧ ∀ u, u ≠ t → statAt (s.threads c u) = none)
    (single : Waits pc → InLine entry c ∧ ∀ d u, Waits (s.threads d u) → d = c ∧ u = t)
    (owns : ∀ h, Relies c pc h → Owns entry h) (window : ∀ h, Opens pc h → Window clients h)
    (stats : ∀ d u st, ¬ (d = c ∧ u = t) → statAt (s.threads d u) = some st → (clients d).stat = (s.clients d).stat)
    (lines : ∀ d u, ¬ (d = c ∧ u = t) → Waits (s.threads d u) → InLine entry d)
    (keeps : ∀ d u h, ¬ (d = c ∧ u = t) → Relies d (s.threads d u) h → Owns entry h)
    (windows : ∀ d u h, ¬ (d = c ∧ u = t) → Opens (s.threads d u) h → Window clients h)
    (free : ∀ d, (clients d).stat = .free → Owns entry d ∨ pc = .revoking d .released ∨
      ∃ e u, ¬ (e = c ∧ u = t) ∧ s.threads e u = .revoking d .released) :
    Inv (Lock.setThread ⟨clients,s.threads,entry⟩ c t pc) := by
  refine ⟨?_,?_,?_,?_,?_,?_,?_⟩
  · intro d u st place
    rw [setThread_threads] at place
    split at place
    · next here =>
      rw [here.1]
      exact (stat st place).1
    · next there =>
      rw [setThread_clients]
      exact (stats d u st there place).trans (inv.stat d u st place)
  · intro d u w left right
    rw [setThread_threads] at left right
    have alone : ∀ v, v ≠ t → (statAt pc).isSome → ¬ (statAt (s.threads c v)).isSome := by
      intro v different busy
      obtain ⟨st,place⟩ := Option.isSome_iff_exists.mp busy
      simp [(stat st place).2 v different]
    split at left <;> split at right
    · next here there => exact here.2.trans there.2.symm
    · next here there =>
      rw [here.1] at right there
      exact absurd right (alone w (fun same => there ⟨rfl,same⟩) left)
    · next there here =>
      rw [here.1] at left there
      exact absurd left (alone u (fun same => there ⟨rfl,same⟩) right)
    · exact inv.alone d u w left right
  · intro d u e w left right
    rw [setThread_threads] at left right
    split at left <;> split at right
    · next here there => exact ⟨here.1.trans there.1.symm,here.2.trans there.2.symm⟩
    · next here there => exact absurd ((single left).2 e w right) there
    · next there here => exact absurd ((single right).2 d u left) there
    · exact inv.single d u e w left right
  · intro d u waits
    rw [setThread_threads] at waits
    split at waits
    · next here =>
      rw [here.1]
      exact (single waits).1
    · next there => exact lines d u there waits
  · intro d u h relies
    rw [setThread_threads] at relies
    split at relies
    · next here =>
      rw [here.1] at relies
      exact owns h relies
    · next there => exact keeps d u h there relies
  · intro d u h opens
    rw [setThread_threads] at opens
    split at opens
    · exact window h opens
    · next there => exact windows d u h there opens
  · intro d isFree
    rcases free d isFree with own | rfl | ⟨e,u,there,place⟩
    · exact .inl own
    · exact .inr ⟨c,t,by simp⟩
    · exact .inr ⟨e,u,by rw [setThread_threads,if_neg there]; exact place⟩

/-- A FREE lock is owned, or another thread is about to note that it was given back. -/
lemma Inv.freed (before : ∀ h, s.threads c t ≠ .revoking h .released) (free : (s.clients d).stat = .free) :
    Owns s.entry d ∨ ∃ e u, ¬ (e = c ∧ u = t) ∧ s.threads e u = .revoking d .released := by
  rcases inv.free d free with own | ⟨e,u,place⟩
  · exact .inl own
  · refine .inr ⟨e,u,?_,place⟩
    rintro ⟨rfl,rfl⟩
    exact before d place

lemma Inv.busy (place : statAt (s.threads c t) = some st) :
    (s.clients c).stat = st ∧ ∀ u, u ≠ t → statAt (s.threads c u) = none :=
  ⟨inv.stat c t st place,inv.others (by simp [place])⟩

lemma Inv.waiting (waits : Waits (s.threads c t)) :
    InLine s.entry c ∧ ∀ d u, Waits (s.threads d u) → d = c ∧ u = t :=
  ⟨inv.line c t waits,fun d u also => inv.single d u c t also waits⟩

lemma Inv.moveThread (stat : ∀ st, statAt pc = some st → statAt (s.threads c t) = some st)
    (waits : Waits pc → Waits (s.threads c t)) (relies : ∀ h, Relies c pc h → Relies c (s.threads c t) h)
    (opens : ∀ h, ¬ Opens pc h) (before : ∀ h, s.threads c t ≠ .revoking h .released) :
    Inv (s.setThread c t pc) := by
  exact Inv.move inv (fun st place => inv.busy (stat st place)) (fun w => inv.waiting (waits w))
    (fun h r => inv.owns c t h (relies h r)) (fun h o => absurd o (opens h))
    (fun _ _ _ _ _ => rfl) (fun d u _ w => inv.line d u w) (fun d u h _ r => inv.owns d u h r)
    (fun d u h _ o => inv.window d u h o) (fun d free => (inv.freed before free).imp id .inr)

/-- A thread changes the status of the lock at its own client, where no other
thread is on its way and no revoke is under way. -/
lemma Inv.moveClient (others : ∀ u, u ≠ t → statAt (s.threads c u) = none)
    (stat : ∀ st, statAt pc = some st → info.stat = st) (waits : ¬ Waits pc)
    (owns : info.stat = .free ∨ (∃ h, Relies c pc h) → Owns s.entry c) (relies : ∀ h, Relies c pc h → h = c)
    (opens : ∀ h, ¬ Opens pc h) (closed : ∀ d u, ¬ Opens (s.threads d u) c)
    (before : ∀ h, s.threads c t ≠ .revoking h .released) : Inv ((s.setClient c info).setThread c t pc) := by
  have elsewhere : ∀ d, d ≠ c → update s.clients c info d = s.clients d :=
    fun d other => update_of_ne other _ _
  refine Inv.move inv ?_ (fun w => absurd w waits) ?_ (fun h o => absurd o (opens h)) ?_
    (fun d u _ w => inv.line d u w) (fun d u h _ r => inv.owns d u h r) ?_ ?_
  · intro st place
    exact ⟨by simpa using stat st place,others⟩
  · intro h r
    exact relies h r ▸ owns (.inr ⟨h,r⟩)
  · intro d u st there place
    by_cases same : d = c
    · subst same
      rw [others u (fun thread => there ⟨rfl,thread⟩)] at place
      simp at place
    · rw [elsewhere d same]
  · intro d u h _ o
    have different : h ≠ c := fun same => closed d u (same ▸ o)
    have before := inv.window d u h o
    unfold Window at before ⊢
    rwa [elsewhere h different]
  · intro d isFree
    by_cases same : d = c
    · subst same
      exact .inl (owns (.inl (by simpa using isFree)))
    · rw [elsewhere d same] at isFree
      exact (inv.freed before isFree).imp id .inr

lemma inv_enter (place : s.threads c t = .idle ∨ s.threads c t = .blocked)
    (careful : (s.clients c).stat = .free → (s.clients c).revoked = false) : Inv (s.enter c t) := by
  have before : ∀ h, s.threads c t ≠ .revoking h .released := by
    rcases place with at_pc | at_pc <;> simp [at_pc]
  unfold Lock.enter
  split
  · next none =>
    exact inv.moveClient (fun u _ => inv.quiet (.inl none) u) (by simp [statAt]) (by simp [Waits]) (by simp [Relies])
      (by simp [Relies]) (by simp [Opens]) (fun d u => inv.closed (by simp [none])) before
  · next free =>
    have closed : ∀ d u, ¬ Opens (s.threads d u) c := by
      intro d u opens
      have revoked := (inv.window d u c opens).2
      simp [careful free] at revoked
    have own : Owns s.entry c := by
      rcases inv.free c free with own | ⟨d,u,at_du⟩
      · exact own
      · exact absurd (show Opens (s.threads d u) c by rw [at_du]; rfl) (closed d u)
    exact inv.moveClient (fun u _ => inv.quiet (.inr free) u) (by simp [statAt]) (by simp [Waits]) (fun _ => own)
      (by simp [Relies]) (by simp [Opens]) closed before
  · exact inv.moveThread (by simp [statAt]) (by simp [Waits]) (by simp [Relies]) (by simp [Opens]) before

end

lemma statAt_granted (notify : Option String) : statAt (Outcome.granted notify).pc = some .acquiring := by
  cases notify <;> rfl

/-- The lock is given to the client of a thread when nobody has it and no other
thread is in line for it. -/
lemma inv_grant (inv : Inv s)
    (place : statAt (s.threads c t) = some .acquiring) (named : new.cid = c) (taken : new.available = false)
    (unowned : ∀ h, ¬ Owns s.entry h) (alone : ∀ d u, ¬ (d = c ∧ u = t) → ¬ Waits (s.threads d u))
    (before : ∀ h, s.threads c t ≠ .revoking h .released) :
    Inv ((s.setEntry (some new)).setThread c t (Outcome.granted notify).pc) := by
  refine Inv.move inv ?_ ?_ ?_ ?_ (fun _ _ _ _ _ => rfl) (fun d u there w => absurd w (alone d u there)) ?_ ?_ ?_
  · intro st at_st
    rw [statAt_granted] at at_st
    exact inv.busy (place.trans at_st)
  · cases notify <;> simp [Outcome.pc,Waits]
  · intro h relies
    have same : h = c := by cases notify <;> simpa [Outcome.pc,Relies] using relies
    exact same ▸ ⟨new,rfl,named,taken⟩
  · cases notify <;> simp [Outcome.pc,Opens]
  · intro d u h _ relies
    exact absurd (inv.owns d u h relies) (unowned h)
  · intro d u h there opens
    exact absurd (waits_of_opens opens) (alone d u there)
  · intro d isFree
    rcases inv.freed before isFree with own | ⟨e,u,there,at_eu⟩
    · exact absurd own (unowned d)
    · exact absurd (show Waits (s.threads e u) by rw [at_eu]; trivial) (alone e u there)

lemma inv_serve (inv : Inv s) (place : s.threads c t = .request) :
    Inv ((s.setEntry (some (serverAcquire s.entry c).2)).setThread c t (serverAcquire s.entry c).1.pc) := by
  have acquiring : statAt (s.threads c t) = some .acquiring := by rw [place]; rfl
  have before : ∀ h, s.threads c t ≠ .revoking h .released := by simp [place]
  rcases serverAcquire_cases s.entry c with ⟨notify,new,served,named,taken,unused⟩ |
      ⟨e,new,found,served,idle,waiting,inside,cid,available⟩ | ⟨e,new,found,served,waiting,inside,cid,available⟩
  · rw [served]
    refine inv_grant inv acquiring named taken ?_ ?_ before
    · rintro h ⟨e,found,_,held⟩
      simp [(unused e found).1] at held
    · intro d u _ waits
      obtain ⟨e,found,_,mem⟩ := inv.line d u waits
      simp [(unused e found).2] at mem
  · rw [served]
    have nobody : ∀ d u, ¬ Waits (s.threads d u) := by
      intro d u waits
      obtain ⟨f,same,busy,_⟩ := inv.line d u waits
      obtain rfl : e = f := by simpa [found] using same
      simp [idle] at busy
    have keeps : ∀ h, Owns s.entry h → Owns (some new) h := by
      rintro h ⟨f,same,rfl,held⟩
      obtain rfl : e = f := by simpa [found] using same
      exact ⟨new,rfl,cid,available.trans held⟩
    refine Inv.move inv ?_ ?_ (by simp [Outcome.pc,Relies]) (by simp [Outcome.pc,Opens]) (fun _ _ _ _ _ => rfl)
      (fun d u _ w => absurd w (nobody d u)) (fun d u h _ r => keeps h (inv.owns d u h r))
      (fun d u h _ o => inv.window d u h o) ?_
    · exact fun st at_st => inv.busy (acquiring.trans at_st)
    · intro _
      exact ⟨⟨new,rfl,waiting,inside⟩,fun d u w => absurd w (nobody d u)⟩
    · intro d isFree
      rcases inv.free d isFree with own | ⟨f,u,at_fu⟩
      · exact .inl (keeps d own)
      · exact absurd (show Waits (s.threads f u) by rw [at_fu]; trivial) (nobody f u)
  · rw [served]
    have keeps : ∀ h, Owns s.entry h → Owns (some new) h := by
      rintro h ⟨f,same,rfl,held⟩
      obtain rfl : e = f := by simpa [found] using same
      exact ⟨new,rfl,cid,available.trans held⟩
    refine Inv.move inv ?_ (by simp [Outcome.pc,Waits]) (by simp [Outcome.pc,Relies]) (by simp [Outcome.pc,Opens])
      (fun _ _ _ _ _ => rfl) ?_ (fun d u h _ r => keeps h (inv.owns d u h r)) (fun d u h _ o => inv.window d u h o) ?_
    · exact fun st at_st => inv.busy (acquiring.trans at_st)
    · intro d u _ waits
      obtain ⟨f,same,busy,mem⟩ := inv.line d u waits
      obtain rfl : e = f := by simpa [found] using same
      exact ⟨new,rfl,waiting.trans busy,inside d mem⟩
    · exact fun d free => (inv.freed before free).imp (keeps d) .inr

lemma inv_take (inv : Inv s) (place : s.threads c t = .await) (found : s.entry = some e)
    (available : e.available = true) :
    Inv ((s.setEntry (some ({ e with waiting := false }.grant c).2)).setThread c t
      (Outcome.granted ({ e with waiting := false }.grant c).1).pc) := by
  have waits : Waits (s.threads c t) := by rw [place]; trivial
  refine inv_grant inv (statAt_of_waits waits) rfl rfl ?_ ?_ (by simp [place])
  · rintro h ⟨f,same,_,held⟩
    obtain rfl : e = f := by simpa [found] using same
    simp [available] at held
  · intro d u there also
    exact there (inv.single d u c t also waits)

variable {h : String}

section
variable (inv : Inv s)
include inv

lemma inv_giveBack (own : Owns s.entry h)
    (stat : ∀ st, statAt pc = some st → statAt (s.threads c t) = some st)
    (waits : Waits pc → Waits (s.threads c t)) (relies : ∀ k, ¬ Relies c pc k)
    (window : ∀ k, Opens pc k → Window s.clients k)
    (nobody : ∀ d u, ¬ (d = c ∧ u = t) → ¬ Relies d (s.threads d u) h)
    (free : (s.clients h).stat = .free → pc = .revoking h .released)
    (before : ∀ k, s.threads c t ≠ .revoking k .released) :
    Inv ((s.setEntry (serverRelease s.entry h)).setThread c t pc) := by
  have lines : ∀ d, InLine s.entry d → InLine (serverRelease s.entry h) d := by
    rintro d ⟨e,found,waiting,mem⟩
    rw [found]
    by_cases same : e.cid = h
    · exact ⟨{ e with available := true },by simp [serverRelease,same],waiting,mem⟩
    · exact ⟨e,by simp [serverRelease,same],waiting,mem⟩
  refine Inv.move inv ?_ ?_ (fun k r => absurd r (relies k)) window (fun _ _ _ _ _ => rfl)
    (fun d u _ w => lines d (inv.line d u w)) ?_ (fun d u k _ o => inv.window d u k o) ?_
  · exact fun st place => inv.busy (stat st place)
  · exact fun w => (inv.waiting (waits w)).imp (lines c) id
  · intro d u k there r
    obtain rfl := owns_unique (inv.owns d u k r) own
    exact absurd r (nobody d u there)
  · intro d isFree
    rcases inv.freed before isFree with owner | elsewhere
    · obtain rfl := owns_unique owner own
      exact .inr (.inl (free isFree))
    · exact .inr (.inr elsewhere)

lemma inv_releaseRpc (place : s.threads c t = .releasing) :
    Inv ((s.setEntry (serverRelease s.entry c)).setThread c t .released) := by
  have releasing : (s.clients c).stat = .releasing := inv.stat c t _ (by rw [place]; rfl)
  refine inv_giveBack inv (inv.owns c t c (by rw [place]; rfl)) (by simp [statAt,place]) (by simp [Waits])
    (by simp [Relies]) (by simp [Opens]) ?_ (by simp [releasing]) (by simp [place])
  intro d u there relies
  rcases relies_cases relies with ⟨rfl,busy⟩ | at_du
  · exact there ⟨rfl,inv.alone c u t busy (by rw [place]; rfl)⟩
  · exact inv.closed (by simp [releasing]) (show Opens (s.threads d u) c by rw [at_du]; rfl)

lemma inv_revokeHandler (place : s.threads c t = .revoking h .sent) :
    Inv ((s.setClient h { s.clients h with revoked := true }).setThread c t
      (if (s.clients h).stat = .free then .revoking h .release else .await)) := by
  have waits : Waits (s.threads c t) := by rw [place]; trivial
  have acquiring := statAt_of_waits waits
  have stats : ∀ d, (update s.clients h { s.clients h with revoked := true } d).stat = (s.clients d).stat := by
    intro d
    by_cases same : d = h
    · simp [same]
    · rw [update_of_ne same]
  have waits' : statAt (if (s.clients h).stat = .free then Pc.revoking h .release else .await) = some .acquiring := by
    split <;> rfl
  refine Inv.move inv ?_ ?_ ?_ ?_ (fun d _ _ _ _ => stats d) (fun d u _ w => inv.line d u w)
    (fun d u k _ r => inv.owns d u k r) ?_ ?_
  · intro st at_st
    rw [waits'] at at_st
    exact (inv.busy (acquiring.trans at_st)).imp (stats c).trans id
  · exact fun _ => inv.waiting waits
  · intro k relies
    split at relies
    · next free =>
      obtain rfl : k = h := relies
      rcases inv.free k free with own | ⟨d,u,at_du⟩
      · exact own
      · obtain ⟨rfl,rfl⟩ := inv.single d u c t (by rw [at_du]; trivial) waits
        simp [place] at at_du
    · exact relies.elim
  · intro k opens
    split at opens
    · next free =>
      obtain rfl : k = h := opens
      exact ⟨(stats k).trans free,by simp⟩
    · exact opens.elim
  · intro d u k there opens
    exact absurd (inv.onlyWindow waits opens) there
  · intro d isFree
    exact (inv.freed (by simp [place]) ((stats d).symm.trans isFree)).imp id .inr

lemma inv_revokeRelease (place : s.threads c t = .revoking h .release) :
    Inv ((s.setEntry (serverRelease s.entry h)).setThread c t (.revoking h .released)) := by
  have waits : Waits (s.threads c t) := by rw [place]; trivial
  have window := inv.window c t h (by rw [place]; rfl)
  refine inv_giveBack inv (inv.owns c t h (by rw [place]; rfl)) (by simp [statAt,place]) (fun _ => waits)
    (by simp [Relies]) ?_ ?_ (fun _ => rfl) (by simp [place])
  · intro k opens
    obtain rfl : k = h := opens
    exact window
  · intro d u there relies
    rcases relies_cases relies with ⟨rfl,busy⟩ | at_du
    · simp [inv.quiet (.inr window.1) u] at busy
    · exact there (inv.onlyWindow waits (show Opens (s.threads d u) h by rw [at_du]; rfl))

lemma inv_revokeDone (place : s.threads c t = .revoking h .released) :
    Inv ((s.setClient h { s.clients h with stat := .none, revoked := false }).setThread c t .await) := by
  have waits : Waits (s.threads c t) := by rw [place]; trivial
  have acquiring := inv.stat c t _ (statAt_of_waits waits)
  have window := inv.window c t h (by rw [place]; rfl)
  have different : c ≠ h := by
    rintro rfl
    exact absurd window.1 (by simp [acquiring])
  refine Inv.move inv ?_ ?_ (by simp [Relies]) (by simp [Opens]) ?_ (fun d u _ w => inv.line d u w)
    (fun d u k _ r => inv.owns d u k r) ?_ ?_
  · intro st at_st
    rw [update_of_ne different]
    exact inv.busy ((statAt_of_waits waits).trans at_st)
  · exact fun _ => inv.waiting waits
  · intro d u st _ at_du
    by_cases same : d = h
    · subst same
      simp [inv.quiet (.inr window.1) u] at at_du
    · rw [update_of_ne same]
  · intro d u k there opens
    exact absurd (inv.onlyWindow waits opens) there
  · intro d isFree
    by_cases same : d = h
    · simp [same] at isFree
    · rw [update_of_ne same] at isFree
      rcases inv.free d isFree with own | ⟨e,u,at_eu⟩
      · exact .inl own
      · refine .inr (.inr ⟨e,u,?_,at_eu⟩)
        rintro ⟨rfl,rfl⟩
        rw [place] at at_eu
        simp only [Pc.revoking.injEq] at at_eu
        exact same at_eu.1.symm

lemma inv_retryHandler (place : s.threads c t = .notify w) :
    Inv ((s.setClient w { s.clients w with retry := true }).setThread c t (.reply true)) := by
  have acquiring : statAt (s.threads c t) = some .acquiring := by rw [place]; rfl
  have infos : ∀ d, (update s.clients w { s.clients w with retry := true } d).stat = (s.clients d).stat ∧
      (update s.clients w { s.clients w with retry := true } d).revoked = (s.clients d).revoked := by
    intro d
    by_cases same : d = w
    · simp [same]
    · rw [update_of_ne same]
      exact ⟨rfl,rfl⟩
  refine Inv.move inv ?_ (by simp [Waits]) ?_ (by simp [Opens]) (fun d _ _ _ _ => (infos d).1)
    (fun d u _ w => inv.line d u w) (fun d u h _ r => inv.owns d u h r) ?_ ?_
  · intro st at_st
    exact (inv.busy (acquiring.trans at_st)).imp (infos c).1.trans id
  · intro h relies
    obtain rfl : h = c := relies
    exact inv.owns h t h (by rw [place]; rfl)
  · intro d u h _ opens
    have before := inv.window d u h opens
    exact ⟨(infos h).1.trans before.1,(infos h).2.trans before.2⟩
  · intro d isFree
    exact (inv.freed (by simp [place]) ((infos d).1.symm.trans isFree)).imp id .inr

lemma inv_reply (place : s.threads c t = .reply true) :
    Inv ((s.setClient c { s.clients c with stat := .locked }).setThread c t .holding) := by
  have acquiring : statAt (s.threads c t) = some .acquiring := by rw [place]; rfl
  exact inv.moveClient (inv.others (by simp [acquiring])) (by simp [statAt]) (by simp [Waits])
    (fun _ => inv.owns c t c (by rw [place]; rfl)) (by simp [Relies]) (by simp [Opens])
    (fun d u => inv.closed (by simp [inv.stat c t _ acquiring])) (by simp [place])

lemma inv_release (place : s.threads c t = .holding)
    (new : (pc = .idle ∧ info.stat = .free) ∨ (pc = .releasing ∧ info.stat = .releasing)) :
    Inv ((s.setClient c info).setThread c t pc) := by
  have locked : statAt (s.threads c t) = some .locked := by rw [place]; rfl
  have own := inv.owns c t c (by rw [place]; rfl)
  refine inv.moveClient (inv.others (by simp [locked])) ?_ ?_ (fun _ => own) ?_ ?_
    (fun d u => inv.closed (by simp [inv.stat c t _ locked])) (by simp [place])
  all_goals rcases new with ⟨rfl,stat⟩ | ⟨rfl,stat⟩ <;> simp [statAt,Waits,Relies,Opens,stat]

lemma inv_released (place : s.threads c t = .released) (stat : info.stat = .none) :
    Inv ((s.setClient c info).setThread c t .idle) := by
  have releasing : statAt (s.threads c t) = some .releasing := by rw [place]; rfl
  exact inv.moveClient (inv.others (by simp [releasing])) (by simp [statAt]) (by simp [Waits]) (by simp [stat,Relies])
    (by simp [Relies]) (by simp [Opens]) (fun d u => inv.closed (by simp [inv.stat c t _ releasing])) (by simp [place])

end
end Steps

lemma inv_step (s : Lock) (label : Label) (s' : Lock) (inv : Inv s) (careful : Careful s label)
    (moved : next s label = some s') : Inv s' := by
  cases label with
  | acquire c t =>
    obtain ⟨place,⟨⟩⟩ := ite_none_right_eq_some.mp moved
    exact inv_enter inv (.inl place) careful
  | wake c t =>
    obtain ⟨place,⟨⟩⟩ := ite_none_right_eq_some.mp moved
    exact inv_enter inv (.inr place) careful
  | serve c t =>
    obtain ⟨place,⟨⟩⟩ := ite_none_right_eq_some.mp moved
    exact inv_serve inv place
  | callRevoke c t =>
    simp only [next] at moved
    split at moved <;> cases moved
    next place _ =>
      exact inv.moveThread (by simp [statAt,place]) (by simp [Waits,place]) (by simp [Relies]) (by simp [Opens])
        (by simp [place])
  | revokeHandler c t =>
    simp only [next] at moved
    split at moved <;> cases moved
    next place => exact inv_revokeHandler inv place
  | revokeRelease c t =>
    simp only [next] at moved
    split at moved <;> cases moved
    next place => exact inv_revokeRelease inv place
  | revokeDone c t =>
    simp only [next] at moved
    split at moved <;> cases moved
    next place => exact inv_revokeDone inv place
  | take c t =>
    simp only [next] at moved
    split at moved
    · next place found =>
      split at moved <;> cases moved
      next available => exact inv_take inv place found available
    · cases moved
  | retryHandler c t =>
    simp only [next] at moved
    split at moved <;> cases moved
    next place => exact inv_retryHandler inv place
  | reply c t =>
    simp only [next] at moved
    split at moved
    · next place =>
      cases moved
      exact inv_reply inv place
    · next place =>
      cases moved
      exact inv.moveThread (by simp [statAt,place]) (by simp [Waits]) (by simp [Relies]) (by simp [Opens])
        (by simp [place])
    · cases moved
  | retry c t =>
    obtain ⟨ready,⟨⟩⟩ := ite_none_right_eq_some.mp moved
    exact inv.moveThread (by simp [statAt,ready.1]) (by simp [Waits]) (by simp [Relies]) (by simp [Opens])
      (by simp [ready.1])
  | release c t =>
    have place : s.threads c t = .holding := careful
    have locked : (s.clients c).stat = .locked := inv.stat c t _ (by rw [place]; rfl)
    simp only [next,place,locked,or_true,if_true] at moved
    split at moved
    · cases moved
      exact inv_release inv place (.inl ⟨rfl,rfl⟩)
    · cases moved
      exact inv_release inv place (.inr ⟨rfl,rfl⟩)
  | releaseRpc c t =>
    obtain ⟨place,⟨⟩⟩ := ite_none_right_eq_some.mp moved
    exact inv_releaseRpc inv place
  | released c t =>
    obtain ⟨place,⟨⟩⟩ := ite_none_right_eq_some.mp moved
    exact inv_released inv place rfl

/-- In every careful run of the lock service, for every lock, at most one thread
is between its `acquire` and its `release`. -/
theorem cached_lock_exclusive {s : Nat → Lock}
    (reached : Reach (fun s : Nat → Lock => ∀ lid, s lid = Lock.init)
      (fun s label => Careful (s label.1) label.2) (each next) s) (lid : Nat) : Exclusive (s lid) := by
  have alone : Reach (· = Lock.init) Careful next (s lid) := Reach.each s reached lid
  refine exclusive_of_inv (Reach.invariant ?_ inv_step (s lid) alone)
  rintro _ rfl
  exact inv_init

/-- The client `a` takes the lock twice, the second time from its cache; then `b`
asks for it and gets it after the release of `a`. -/
def handOver : List (Nat × Label) :=
  [(1,.acquire "a" 0),(1,.serve "a" 0),(1,.reply "a" 0),(1,.release "a" 0),(1,.acquire "a" 1),
   (1,.acquire "b" 0),(1,.serve "b" 0),(1,.callRevoke "b" 0),(1,.revokeHandler "b" 0),
   (1,.release "a" 1),(1,.releaseRpc "a" 1),(1,.released "a" 1),(1,.take "b" 0),(1,.reply "b" 0)]

theorem cached_lock_exclusive_handOver : ∃ s, run (each next) (fun _ => Lock.init) handOver = some s ∧
    (s 1).threads "b" 0 = .holding ∧ (s 1).threads "a" 1 = .idle ∧ Exclusive (s 1) := by
  have careful : Meets (each next) (fun s label => Careful (s label.1) label.2) (fun _ : Nat => Lock.init) handOver := by
    decide
  exact ⟨_,rfl,by decide,by decide,
    cached_lock_exclusive (Reach.run handOver (.start (fun _ => rfl)) careful rfl) 1⟩

/-- The lock is FREE at `a` when `b` asks for it; another thread of `a` takes it
while the revoke handler of `a` gives it back. -/
def takenTwice : List (Nat × Label) :=
  [(1,.acquire "a" 0),(1,.serve "a" 0),(1,.reply "a" 0),(1,.release "a" 0),
   (1,.acquire "b" 0),(1,.serve "b" 0),(1,.callRevoke "b" 0),(1,.revokeHandler "b" 0),
   (1,.acquire "a" 1),(1,.revokeRelease "b" 0),(1,.revokeDone "b" 0),(1,.take "b" 0),(1,.reply "b" 0)]

theorem free_lock_taken_twice : ∃ s, Reach (fun s : Nat → Lock => ∀ lid, s lid = Lock.init) anyStep (each next) s ∧
    (s 1).threads "a" 1 = .holding ∧ (s 1).threads "b" 0 = .holding ∧ ¬ Exclusive (s 1) := by
  refine ⟨_,Reach.run takenTwice (.start (fun _ => rfl)) (meets_anyStep _ _) rfl,by decide,by decide,?_⟩
  intro exclusive
  exact absurd (exclusive "a" 1 "b" 0 (by decide) (by decide)) (by decide)

end CodeExercise.LockCacheExclusion
