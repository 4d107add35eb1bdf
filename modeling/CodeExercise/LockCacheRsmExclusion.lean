import CodeExercise.LockCacheRsm

/-!
Mutual exclusion of the replicated lock service without failover. Here the revoke handler sets
RELEASING before it gives a FREE lock back, so it counts like a thread in `release`
(`lock_exclusive`). The branch of `acquire` for duplicate requests, which would use an unset pointer,
is not reached as long as `xid` does not wrap (`duplicate_unreachable`).
-/
namespace CodeExercise.LockCacheRsmExclusion
open Runs LockCacheRsm Option Function
open LockCache (Stat LockInfo insertClient)

/-- The status of the lock while a thread is at a place in `acquire` or `release`. -/
def statAt : Pc → Option Stat
  | .idle | .blocked => none
  | .holding => some .locked
  | .releasing | .released => some .releasing
  | _ => some .acquiring

/-- The server has given the lock to the client of the thread. -/
def Given : Pc → Prop
  | .reply true | .holding | .releasing => True
  | _ => False

/-- The revoke handler of the lock at work: its client, and whether its release
RPC is still to come. -/
def handler (lid : Nat) : Revoker → Option (String × Bool)
  | .release l h => if l = lid then some (h,true) else none
  | .released l h => if l = lid then some (h,false) else none
  | _ => none

variable {pc : Pc}

lemma statAt_range (place : statAt pc = some st) : st ≠ .none ∧ st ≠ .free := by
  cases pc <;> simp only [statAt,some.injEq,reduceCtorEq] at place <;> subst place <;> decide

structure LockInv (lock : Lock) (revoke : Option (String × Bool)) : Prop where
  stat : ∀ c t st, statAt (lock.threads c t) = some st → (lock.clients c).stat = st
  alone : ∀ c t u, (statAt (lock.threads c t)).isSome → (statAt (lock.threads c u)).isSome → t = u
  given : ∀ c t, Given (lock.threads c t) → Owns lock.entry c
  held : ∀ c, (lock.clients c).stat = .locked ∨ (lock.clients c).stat = .free → Owns lock.entry c
  revoke : ∀ h before, revoke = some (h,before) → (lock.clients h).stat = .releasing ∧
    (∀ t, statAt (lock.threads h t) = none) ∧ (before = true → Owns lock.entry h)

lemma exclusive_of_inv (inv : LockInv lock revoke) :
    Exclusive lock := by
  refine ⟨?_,inv.held,?_,fun c t place => inv.stat c t _ (by rw [place]; rfl)⟩
  · intro c d left right
    exact owns_unique (inv.held c left) (inv.held d right)
  · intro c t d u left right
    obtain rfl := owns_unique (inv.given c t (by rw [left]; trivial)) (inv.given d u (by rw [right]; trivial))
    rw [inv.alone c t u (by rw [left]; rfl) (by rw [right]; rfl)]

section Steps
variable {lock : Lock} {revoke : Option (String × Bool)} {c : String} {t : Nat} {pc : Pc}

@[simp] lemma setThread_threads (lock : Lock) (c d : String) (t u : Nat) (pc : Pc) :
    (lock.setThread c t pc).threads d u = if d = c ∧ u = t then pc else lock.threads d u := by
  by_cases client : d = c
  · subst client
    by_cases thread : u = t
    · simp [Lock.setThread,thread]
    · simp [Lock.setThread,thread]
  · simp [Lock.setThread,client]

section
variable (inv : LockInv lock revoke)
include inv

lemma LockInv.quiet
    (rest : (lock.clients c).stat = .none ∨ (lock.clients c).stat = .free) :
    ∀ u, statAt (lock.threads c u) = none := by
  intro u
  cases place : statAt (lock.threads c u) with
  | none => rfl
  | some st =>
    have same := inv.stat c u st place
    obtain ⟨notNone,notFree⟩ := statAt_range place
    rw [same] at rest
    exact rest.elim (fun h => absurd h notNone) fun h => absurd h notFree

lemma LockInv.others (busy : (statAt (lock.threads c t)).isSome) :
    ∀ u, u ≠ t → statAt (lock.threads c u) = none := by
  intro u different
  cases place : statAt (lock.threads c u) with
  | none => rfl
  | some st => exact absurd (inv.alone c u t (by simp [place]) busy) different

lemma LockInv.free_of_busy (busy : (statAt (lock.threads c t)).isSome) :
    ∀ before, revoke ≠ some (c,before) := by
  intro before same
  simp [(inv.revoke c before same).2.1 t] at busy

/-- The rule for a step of one thread: it may change the record of its own client
and the server's entry. -/
lemma LockInv.move
    (others : ∀ u, u ≠ t → statAt (lock.threads c u) = none)
    (stat : ∀ st, statAt pc = some st → info.stat = st) (given : Given pc → Owns entry c)
    (held : info.stat = .locked ∨ info.stat = .free → Owns entry c)
    (keeps : ∀ d, d ≠ c → Owns lock.entry d → Owns entry d) (idle : ∀ before, revoke ≠ some (c,before)) :
    LockInv (Lock.setThread ⟨update lock.clients c info,lock.threads,entry⟩ c t pc) revoke := by
  have elsewhere : ∀ d, d ≠ c → update lock.clients c info d = lock.clients d :=
    fun d other => update_of_ne other _ _
  refine ⟨?_,?_,?_,?_,?_⟩
  · intro d u st place
    rw [setThread_threads] at place
    by_cases same : d = c
    · subst same
      by_cases thread : u = t
      · rw [if_pos ⟨rfl,thread⟩] at place
        simpa [Lock.setThread] using stat st place
      · rw [if_neg (fun both => thread both.2),others u thread] at place
        simp at place
    · rw [if_neg (fun both => same both.1)] at place
      simpa [Lock.setThread,elsewhere d same] using inv.stat d u st place
  · intro d u w left right
    rw [setThread_threads] at left right
    by_cases same : d = c
    · subst same
      have only : ∀ v, (statAt (if d = d ∧ v = t then pc else lock.threads d v)).isSome → v = t := by
        intro v busy
        by_contra different
        rw [if_neg (fun both => different both.2),others v different] at busy
        simp at busy
      exact (only u left).trans (only w right).symm
    · rw [if_neg (fun both => same both.1)] at left right
      exact inv.alone d u w left right
  · intro d u place
    rw [setThread_threads] at place
    by_cases same : d = c
    · subst same
      by_cases thread : u = t
      · rw [if_pos ⟨rfl,thread⟩] at place
        exact given place
      · have busy : (statAt (lock.threads d u)).isSome := by
          rw [if_neg (fun both => thread both.2)] at place
          unfold Given at place
          split at place <;> simp_all [statAt]
        simp [others u thread] at busy
    · rw [if_neg (fun both => same both.1)] at place
      exact keeps d same (inv.given d u place)
  · intro d status
    by_cases same : d = c
    · subst same
      exact held (by simpa [Lock.setThread] using status)
    · exact keeps d same (inv.held d (by simpa [Lock.setThread,elsewhere d same] using status))
  · intro h before same
    have different : h ≠ c := fun here => idle before (here ▸ same)
    obtain ⟨status,quiet,own⟩ := inv.revoke h before same
    refine ⟨by simpa [Lock.setThread,elsewhere h different] using status,?_,fun b => keeps h different (own b)⟩
    intro u
    rw [setThread_threads,if_neg (fun both => different both.1)]
    exact quiet u

lemma LockInv.advance
    (place : statAt (lock.threads c t) = some st) (stat : ∀ st', statAt pc = some st' → st' = st)
    (given : Given pc → Owns entry c) (acquiring : st = .acquiring)
    (keeps : ∀ d, d ≠ c → Owns lock.entry d → Owns entry d) :
    LockInv ((lock.setEntry entry).setThread c t pc) revoke := by
  have status := inv.stat c t st place
  have busy : (statAt (lock.threads c t)).isSome := by simp [place]
  have moved : LockInv (Lock.setThread ⟨update lock.clients c (lock.clients c),lock.threads,entry⟩ c t pc)
      revoke := inv.move (inv.others busy) (fun st' at_st => status.trans (stat st' at_st).symm) given
        (by simp [status,acquiring]) keeps (inv.free_of_busy busy)
  rwa [update_eq_self] at moved

lemma inv_enter (place : lock.threads c t = .idle ∨ lock.threads c t = .blocked) :
    LockInv (lock.enter c t) revoke := by
  have idle : (lock.clients c).stat ≠ .releasing → ∀ before, revoke ≠ some (c,before) :=
    fun other before same => other (inv.revoke c before same).1
  unfold Lock.enter
  split
  · next none =>
    exact inv.move (fun u _ => inv.quiet (.inl none) u) (by simp [statAt]) (by simp [Given]) (by simp) (fun _ _ own => own)
      (idle (by simp [none]))
  · next free =>
    have own := inv.held c (.inr free)
    exact inv.move (fun u _ => inv.quiet (.inr free) u) (by simp [statAt]) (fun _ => own) (fun _ => own)
      (fun _ _ own => own) (idle (by simp [free]))
  · have still : ∀ d u, statAt ((lock.setThread c t .blocked).threads d u) = statAt (lock.threads d u) := by
      intro d u
      rw [setThread_threads]
      split
      · next here =>
        rw [here.1,here.2]
        rcases place with at_pc | at_pc <;> simp [at_pc,statAt]
      · rfl
    refine ⟨?_,?_,?_,inv.held,?_⟩
    · intro d u st at_st
      exact inv.stat d u st (still d u ▸ at_st)
    · intro d u w left right
      exact inv.alone d u w (still d u ▸ left) (still d w ▸ right)
    · intro d u given
      rw [setThread_threads] at given
      split at given
      · exact given.elim
      · exact inv.given d u given
    · intro h before same
      obtain ⟨status,quiet,own⟩ := inv.revoke h before same
      exact ⟨status,fun u => (still h u).trans (quiet u),own⟩

/-- What `acquire` does to the entry: it is given to the client, or stays with
its holder. -/
lemma inv_serve
    (place : lock.threads c t = .request x) (served : serverAcquire lock.entry c x = some (granted,new,enqueue)) :
    LockInv ((lock.setEntry (some new)).setThread c t (.reply granted)) revoke := by
  have acquiring : statAt (lock.threads c t) = some .acquiring := by rw [place]; rfl
  rcases serverAcquire_cases served with ⟨rfl,named,_,taken,free,_⟩ | ⟨rfl,e,found,cid,_,available,_⟩
  · refine inv.advance acquiring (by simp [statAt]) (fun _ => ⟨new,rfl,named,taken⟩) rfl ?_
    rintro d _ ⟨e,found,_,held⟩
    simp [free e found] at held
  · refine inv.advance acquiring (by simp [statAt]) (by simp [Given]) rfl ?_
    rintro d _ ⟨f,same,rfl,held⟩
    obtain rfl : e = f := by simpa [found] using same
    exact ⟨new,rfl,cid,available.trans held⟩

lemma inv_own (given : Given (lock.threads c t))
    (stat : ∀ st, statAt pc = some st → info.stat = st) :
    LockInv ((lock.setClient c info).setThread c t pc) revoke := by
  have own := inv.given c t given
  have busy : (statAt (lock.threads c t)).isSome := by
    unfold Given at given
    split at given <;> simp_all [statAt]
  exact inv.move (inv.others busy) stat (fun _ => own) (fun _ => own) (fun _ _ before => before)
    (inv.free_of_busy busy)

lemma inv_releaseRpc (place : lock.threads c t = .releasing) :
    LockInv ((lock.setEntry (serverRelease lock.entry c)).setThread c t .released) revoke := by
  have busy : (statAt (lock.threads c t)).isSome := by rw [place]; rfl
  have status : (lock.clients c).stat = .releasing := inv.stat c t _ (by rw [place]; rfl)
  have moved : LockInv (Lock.setThread
      ⟨update lock.clients c (lock.clients c),lock.threads,serverRelease lock.entry c⟩ c t .released) revoke :=
    inv.move (inv.others busy) (by simp [statAt,status]) (by simp [Given]) (by simp [status]) (fun _ => owns_release)
    (inv.free_of_busy busy)
  rwa [update_eq_self] at moved

lemma inv_released (place : lock.threads c t = .released)
    (stat : info.stat = .none) : LockInv ((lock.setClient c info).setThread c t .idle) revoke := by
  have busy : (statAt (lock.threads c t)).isSome := by rw [place]; rfl
  exact inv.move (inv.others busy) (by simp [statAt]) (by simp [Given]) (by simp [stat]) (fun _ _ own => own)
    (inv.free_of_busy busy)

lemma LockInv.flags (stat : info.stat = (lock.clients c).stat) :
    LockInv (lock.setClient c info) revoke := by
  have same : ∀ d, ((lock.setClient c info).clients d).stat = (lock.clients d).stat := by
    intro d
    by_cases here : d = c
    · subst here
      simp [Lock.setClient,stat]
    · simp [Lock.setClient,here]
  constructor
  · intro d u st place
    exact (same d).trans (inv.stat d u st place)
  · exact inv.alone
  · exact inv.given
  · intro d status
    exact inv.held d (same d ▸ status)
  · intro h before at_h
    obtain ⟨status,quiet,own⟩ := inv.revoke h before at_h
    exact ⟨(same h).trans status,quiet,own⟩

/-- The revoke handler of client `c` changes its status and the entry, and goes on
or ends. -/
lemma LockInv.revoked
    (quiet : ∀ u, statAt (lock.threads c u) = none) (rest : info.stat = .releasing ∨ info.stat = .none)
    (keeps : ∀ d, d ≠ c → Owns lock.entry d → Owns entry d)
    (after : ∀ h before, revoke' = some (h,before) → h = c ∧ info.stat = .releasing ∧ (before = true → Owns entry c)) :
    LockInv ⟨update lock.clients c info,lock.threads,entry⟩ revoke' := by
  have elsewhere : ∀ d, d ≠ c → update lock.clients c info d = lock.clients d :=
    fun d other => update_of_ne other _ _
  constructor
  · intro d u st place
    by_cases same : d = c
    · subst same
      simp [quiet u] at place
    · simpa [elsewhere d same] using inv.stat d u st place
  · exact inv.alone
  · intro d u given
    by_cases same : d = c
    · subst same
      have none := quiet u
      simp only [Given] at given
      split at given <;> simp_all [statAt]
    · exact keeps d same (inv.given d u given)
  · intro d status
    by_cases same : d = c
    · subst same
      rcases rest with at_st | at_st <;> simp [at_st] at status
    · exact keeps d same (inv.held d (by simpa [elsewhere d same] using status))
  · intro h before at_h
    obtain ⟨rfl,status,own⟩ := after h before at_h
    exact ⟨by simpa using status,quiet,own⟩

end
end Steps

/-- Every lock keeps its invariant, with the revoke handler the revoker waits for. -/
def Inv (s : System) : Prop := ∀ lid, LockInv (s.locks lid) (handler lid s.revoker)

lemma inv_init : Inv System.init := by
  intro lid
  constructor <;> simp [System.init,Lock.init,handler,statAt,Given]

section
variable {s : System} {lid : Nat} {c : String} {t : Nat}

variable {s' : System}

section
variable (inv : Inv s)
include inv

lemma Inv.setLock (locks : s'.locks = (s.setLock lid lock).locks)
    (here : LockInv lock (handler lid s'.revoker))
    (others : ∀ l, l ≠ lid → handler l s'.revoker = handler l s.revoker) : Inv s' := by
  intro l
  by_cases same : l = lid
  · subst same
    simpa [locks,System.setLock] using here
  · simpa [locks,System.setLock,same,others l same] using inv l

lemma inv_system_enter
    (place : (s.locks lid).threads c t = .idle ∨ (s.locks lid).threads c t = .blocked) : Inv (s.enter lid c t) := by
  have entered : LockInv ((s.locks lid).enter c t) (handler lid s.revoker) := inv_enter (inv lid) place
  unfold System.enter
  split
  · exact inv.setLock rfl entered fun _ _ => rfl
  · exact inv.setLock rfl entered fun _ _ => rfl

lemma inv_release (holds : (s.locks lid).threads c t = .holding)
    (step : next s (.release lid c t) = some s') : Inv s' := by
  have locked : ((s.locks lid).clients c).stat = .locked := (inv lid).stat c t _ (by rw [holds]; rfl)
  have given : Given ((s.locks lid).threads c t) := by rw [holds]; trivial
  simp only [next,holds,or_true,if_true,locked] at step
  split at step
  · cases step
    exact inv.setLock rfl (inv_own (inv lid) given (by simp [statAt])) fun _ _ => rfl
  · cases step
    exact inv.setLock rfl (inv_own (inv lid) given (by simp [statAt])) fun _ _ => rfl

lemma inv_reply (step : next s (.reply lid c t) = some s') : Inv s' := by
  simp only [next] at step
  split at step
  · next place =>
    cases step
    exact inv.setLock rfl (inv_own (inv lid) (by rw [place]; trivial) (by simp [statAt])) fun _ _ => rfl
  · next place =>
    cases step
    refine inv.setLock rfl ?_ fun _ _ => rfl
    show LockInv (((s.locks lid).setEntry (s.locks lid).entry).setThread c t _) _
    exact (inv lid).advance (by rw [place]; rfl) (by simp [statAt]) (by simp [Given]) rfl
      (fun _ _ own => own)
  · cases step

lemma inv_revokeHandler (step : next s .revokeHandler = some s') : Inv s' := by
  simp only [next] at step
  split at step
  · next lid h place =>
    have idle : ∀ l, handler l s.revoker = none := by simp [place,handler]
    split at step
    · next free =>
      cases step
      have own := (inv lid).held h (.inr free)
      refine inv.setLock rfl ?_ fun l other => by rw [idle l]; simp [handler,Ne.symm other]
      refine (inv lid).revoked ((inv lid).quiet (.inr free)) (.inl rfl) (fun _ _ before => before) ?_
      intro g before same
      obtain ⟨rfl,_⟩ : h = g ∧ true = before := by simpa [handler] using same
      exact ⟨rfl,rfl,fun _ => own⟩
    · cases step
      refine inv.setLock rfl ?_ fun l _ => by rw [idle l]; rfl
      show LockInv _ none
      rw [← idle lid]
      exact (inv lid).flags rfl
  · cases step

lemma inv_revokeRelease (step : next s .revokeRelease = some s') : Inv s' := by
  simp only [next] at step
  split at step <;> cases step
  next lid h place =>
    obtain ⟨status,quiet,_⟩ := (inv lid).revoke h true (by simp [place,handler])
    refine inv.setLock rfl ?_ fun l other => by simp [place,handler,Ne.symm other]
    have kept : LockInv ⟨update (s.locks lid).clients h ((s.locks lid).clients h),(s.locks lid).threads,
        serverRelease (s.locks lid).entry h⟩ (some (h,false)) := (inv lid).revoked quiet (.inl status) (fun _ => owns_release) (by simp_all)
    rw [update_eq_self] at kept
    simpa [handler,Lock.setEntry] using kept

lemma inv_revokeDone (step : next s .revokeDone = some s') : Inv s' := by
  simp only [next] at step
  split at step <;> cases step
  next lid h place =>
    obtain ⟨_,quiet,_⟩ := (inv lid).revoke h false (by simp [place,handler])
    refine inv.setLock rfl ?_ fun l other => by simp [place,handler,Ne.symm other]
    exact (inv lid).revoked quiet (.inr rfl) (fun _ _ before => before) (by simp [handler])

lemma inv_retryHandler (step : next s .retryHandler = some s') : Inv s' := by
  simp only [next] at step
  split at step <;> cases step
  next lid client place => exact inv.setLock rfl ((inv lid).flags rfl) (fun _ _ => rfl)

lemma Inv.queues (locks : s'.locks = s.locks)
    (same : ∀ l, handler l s'.revoker = handler l s.revoker) : Inv s' := by
  intro l
  rw [locks,same l]
  exact inv l

lemma inv_step (ok : HolderReleases s a) (step : next s a = some s') :
    Inv s' := by
  cases a with
  | acquire lid c t =>
    obtain ⟨place,rfl⟩ : (s.locks lid).threads c t = .idle ∧ s.enter lid c t = s' := by simpa [next] using step
    exact inv_system_enter inv (.inl place)
  | wake lid c t =>
    obtain ⟨place,rfl⟩ : (s.locks lid).threads c t = .blocked ∧ s.enter lid c t = s' := by simpa [next] using step
    exact inv_system_enter inv (.inr place)
  | call lid c t =>
    simp only [next] at step
    split at step <;> cases step
    next place =>
      refine inv.setLock rfl ?_ fun _ _ => rfl
      show LockInv (((s.locks lid).setEntry (s.locks lid).entry).setThread c t _) _
      exact (inv lid).advance (by rw [place]; rfl) (by simp [statAt]) (by simp [Given])
        rfl (fun _ _ own => own)
  | serve lid c t =>
    simp only [next] at step
    split at step
    · next x place =>
      split at step <;> cases step
      next granted e revoke served => exact inv.setLock rfl (inv_serve (inv lid) place served) (fun _ _ => rfl)
    · cases step
  | reply lid c t =>
    exact inv_reply inv step
  | retry lid c t =>
    simp only [next] at step
    split at step <;> cases step
    next place =>
      refine inv.setLock rfl ?_ fun _ _ => rfl
      have status : ((s.locks lid).clients c).stat = .acquiring := (inv lid).stat c t _ (by rw [place]; rfl)
      have busy : (statAt ((s.locks lid).threads c t)).isSome := by rw [place]; rfl
      exact (inv lid).move ((inv lid).others busy) (by simp [statAt,status]) (by simp [Given]) (by simp [status])
        (fun _ _ own => own) ((inv lid).free_of_busy busy)
  | release lid c t =>
    exact inv_release inv ok step
  | releaseRpc lid c t =>
    simp only [next] at step
    split at step <;> cases step
    next place => exact inv.setLock rfl (inv_releaseRpc (inv lid) place) (fun _ _ => rfl)
  | released lid c t =>
    simp only [next] at step
    split at step <;> cases step
    next place => exact inv.setLock rfl (inv_released (inv lid) place rfl) (fun _ _ => rfl)
  | revokerDeq =>
    simp only [next] at step
    split at step <;> cases step
    next lid rest place _ => exact inv.queues rfl (by simp [place,handler])
  | callRevoke =>
    simp only [next] at step
    split at step
    · next lid place =>
      obtain ⟨e,_,rfl⟩ := map_eq_some_iff.mp step
      exact inv.queues rfl (by simp [place,handler])
    · cases step
  | revokeHandler => exact inv_revokeHandler inv step
  | revokeRelease => exact inv_revokeRelease inv step
  | revokeDone => exact inv_revokeDone inv step
  | retryerEnq =>
    simp only [next] at step
    split at step <;> cases step
    next lid place => exact inv.queues rfl (by simp [place,handler])
  | retryerDeq =>
    simp only [next] at step
    split at step <;> cases step
    exact inv.queues rfl fun _ => rfl
  | callRetry =>
    simp only [next] at step
    split at step
    · split at step
      · cases step
        exact inv.queues rfl fun _ => rfl
      · cases step
    · cases step
  | retryHandler => exact inv_retryHandler inv step

end

/-- In every interleaving of clients, server, revoker and retryer, each lock has at
most one owner: one client, which the server records, and one thread of it. -/
theorem lock_exclusive (reached : Reach (· = System.init) HolderReleases next s) (lid : Nat) :
    Exclusive (s.locks lid) := by
  have inv : Inv s := reached.invariant (fun _ start => start ▸ inv_init) (fun _ _ _ inv ok step => inv_step inv ok step)
  exact exclusive_of_inv (inv lid)

/-- The lock is FREE at `a` when `b` asks for it: the revoker gets it back, the
retryer tells `b`, and `b` asks again. -/
def handOver : List Label :=
  [.acquire 1 "a" 0,.call 1 "a" 0,.serve 1 "a" 0,.reply 1 "a" 0,.release 1 "a" 0,.acquire 1 "b" 0,.call 1 "b" 0,
   .serve 1 "b" 0,.reply 1 "b" 0,.revokerDeq,.callRevoke,.revokeHandler,.acquire 1 "a" 1,.revokeRelease,.revokeDone,
   .retryerEnq,.retryerDeq,.callRetry,.retryHandler,.retry 1 "b" 0,.call 1 "b" 0,.serve 1 "b" 0,.reply 1 "b" 0]

theorem lock_exclusive_handOver : ∃ s, run next System.init handOver = some s ∧
    (s.locks 1).threads "b" 0 = .holding ∧ (s.locks 1).threads "a" 1 = .blocked ∧ Exclusive (s.locks 1) := by
  have releases : Meets next HolderReleases System.init handOver := by decide
  exact ⟨_,rfl,by decide,by decide,lock_exclusive (Reach.run handOver (.start rfl) releases rfl) 1⟩

end

/-- The counter of the client does not wrap. -/
def NoWrap (s : System) : Label → Prop
  | .acquire _ c _ | .wake _ c _ => s.xid c+1 < 2^64
  | _ => True
instance (s : System) : (label : Label) → Decidable (NoWrap s label)
  | .acquire .. | .wake .. => decideAs (_ < _)
  | .call .. | .serve .. | .reply .. | .retry .. | .release .. | .releaseRpc .. | .released .. => isTrue trivial
  | .revokerDeq | .callRevoke | .revokeHandler | .revokeRelease | .revokeDone => isTrue trivial
  | .retryerEnq | .retryerDeq | .callRetry | .retryHandler => isTrue trivial

/-- The `xid` of the request a thread has sent or is going to send, when the
counter of its client is at `n`. -/
def due (n : Nat) : Pc → Option Nat
  | .calling | .reply false | .retryWait => some n
  | .request x => some x
  | _ => none

def stamp (e : ClientInfo) : String × Nat := (e.cid,e.xid)

/-- No request repeats the one that was granted. -/
structure Fresh (xid : String → Nat) (lock : Lock) : Prop where
  entry : ∀ c x, lock.entry.map stamp = some (c,x) → x ≤ xid c
  pending : ∀ c t x, due (xid c) (lock.threads c t) = some x →
    x ≤ xid c ∧ ∀ y, lock.entry.map stamp = some (c,y) → y < x

lemma statAt_of_due (asks : due n pc = some x) : (statAt pc).isSome := by
  unfold due at asks
  split at asks <;> simp_all [statAt]

lemma due_grow (asks : due n' pc = some x) :
    ∃ y, due n pc = some y ∧ (x = y ∨ x = n') := by
  unfold due at asks ⊢
  split at asks <;> simp_all

section
variable {xid : String → Nat} {lock lock' : Lock} {c : String} {t : Nat}

section
variable (fresh : Fresh xid lock)
include fresh

lemma Fresh.later (grows : ∀ d, xid d ≤ xid' d)
    (same : lock'.entry.map stamp = lock.entry.map stamp)
    (asks : ∀ d u x, due (xid' d) (lock'.threads d u) = some x →
      ∃ y, due (xid d) (lock.threads d u) = some y ∧ (x = y ∨ x = xid' d)) : Fresh xid' lock' := by
  constructor
  · intro d x found
    exact (fresh.entry d x (same ▸ found)).trans (grows d)
  · intro d u x asked
    obtain ⟨y,before,kept⟩ := asks d u x asked
    obtain ⟨bound,newer⟩ := fresh.pending d u y before
    have more := grows d
    refine ⟨by omega,fun z found => ?_⟩
    have less := newer z (same ▸ found)
    omega

lemma Fresh.move (threads : lock'.threads = (lock.setThread c t pc).threads)
    (same : lock'.entry.map stamp = lock.entry.map stamp)
    (asks : ∀ x, due (xid c) pc = some x → ∃ y, due (xid c) (lock.threads c t) = some y ∧ (x = y ∨ x = xid c)) :
    Fresh xid lock' := by
  refine fresh.later (fun _ => le_rfl) same ?_
  intro d u x asked
  rw [threads,setThread_threads] at asked
  split at asked
  · next here =>
    obtain ⟨rfl,rfl⟩ := here
    exact asks x asked
  · exact ⟨x,asked,.inl rfl⟩

lemma Fresh.grow (c : String) : Fresh (update xid c (xid c+1)) lock := by
  have grows : ∀ d, xid d ≤ update xid c (xid c+1) d := by
    intro d
    by_cases same : d = c
    · subst same
      simp
    · simp [same]
  refine fresh.later grows rfl ?_
  intro d u x asked
  exact due_grow asked

lemma Fresh.ask (threads : lock'.threads = (lock.setThread c t .calling).threads)
    (entry : lock'.entry = lock.entry) : Fresh (update xid c (xid c+1)) lock' := by
  have grown := fresh.grow c
  constructor
  · exact entry ▸ grown.entry
  · intro d u x asked
    rw [threads,setThread_threads] at asked
    rw [entry]
    split at asked
    · next here =>
      obtain ⟨rfl,rfl⟩ := here
      obtain rfl : xid d+1 = x := by simpa [due] using asked
      refine ⟨by simp,fun y found => ?_⟩
      have := fresh.entry d y found
      omega
    · exact grown.pending d u x asked

lemma Fresh.grant (place : lock.threads c t = .request x)
    (others : ∀ u, u ≠ t → statAt (lock.threads c u) = none) (given : stamp e = (c,x)) :
    Fresh xid ((lock.setEntry (some e)).setThread c t (.reply true)) := by
  constructor
  · intro d y found
    obtain ⟨rfl,rfl⟩ : c = d ∧ x = y := by simpa [Lock.setThread,Lock.setEntry,given] using found
    exact (fresh.pending c t x (by rw [place]; rfl)).1
  · intro d u y asked
    rw [setThread_threads] at asked
    split at asked
    · simp [due] at asked
    · next elsewhere =>
      refine ⟨(fresh.pending d u y asked).1,fun z found => ?_⟩
      obtain ⟨rfl,rfl⟩ : c = d ∧ x = z := by simpa [Lock.setThread,Lock.setEntry,given] using found
      have busy := statAt_of_due asked
      have none := others u (fun same => elsewhere ⟨rfl,same⟩)
      simp [Lock.setEntry,none] at busy

end

lemma stamp_release (entry : Option ClientInfo) (id : String) :
    (serverRelease entry id).map stamp = entry.map stamp := by
  cases entry with
  | none => rfl
  | some e =>
    simp only [serverRelease,map_some,some.injEq]
    split <;> rfl

end

section
variable {s s' : System} {lid : Nat} {c : String} {t : Nat}

def AllFresh (s : System) : Prop := ∀ lid, Fresh s.xid (s.locks lid)

lemma AllFresh.setLock (fresh : AllFresh s) (locks : s'.locks = (s.setLock lid lock).locks)
    (xid : s'.xid = s.xid) (here : Fresh s.xid lock) : AllFresh s' := by
  intro l
  rw [locks,xid]
  by_cases same : l = lid
  · subst same
    simpa [System.setLock] using here
  · simpa [System.setLock,same] using fresh l

lemma fresh_enter (fresh : AllFresh s) (small : s.xid c+1 < 2^64) : AllFresh (s.enter lid c t) := by
  unfold System.enter
  split
  · next none =>
    intro l
    simp only [System.setLock,Nat.mod_eq_of_lt small]
    by_cases same : l = lid
    · subst same
      simp only [update_self]
      exact (fresh l).ask (c := c) (t := t) (by simp [Lock.enter,none,Lock.setThread,Lock.setClient])
        (by simp [Lock.enter,none,Lock.setThread,Lock.setClient])
    · simpa [same] using (fresh l).grow c
  · next other =>
    refine fresh.setLock rfl rfl ?_
    unfold Lock.enter
    split
    · next none => exact absurd none other
    · exact (fresh lid).move rfl rfl (by simp [due])
    · exact (fresh lid).move rfl rfl (by simp [due])

lemma fresh_serve (inv : Inv s) (fresh : AllFresh s) (step : next s (.serve lid c t) = some s') : AllFresh s' := by
  simp only [next] at step
  split at step
  · next x place =>
    split at step <;> cases step
    next granted e revoke served =>
      refine fresh.setLock rfl rfl ?_
      rcases serverAcquire_cases served with ⟨rfl,cid,stamped,_⟩ | ⟨rfl,f,found,cid,stamped,_⟩
      · have busy : (statAt ((s.locks lid).threads c t)).isSome := by rw [place]; rfl
        exact (fresh lid).grant place ((inv lid).others busy) (by simp [stamp,cid,stamped])
      · refine (fresh lid).move rfl ?_ ?_
        · simp [Lock.setThread,Lock.setEntry,found,stamp,cid,stamped]
        · intro y asked
          exact ⟨x,by rw [place]; rfl,.inr (by simpa [due] using asked.symm)⟩
  · cases step

lemma AllFresh.quiet (fresh : AllFresh s) (locks : s'.locks = (s.setLock lid lock).locks)
    (xid : s'.xid = s.xid) (threads : lock.threads = (s.locks lid).threads)
    (same : lock.entry.map stamp = (s.locks lid).entry.map stamp) : AllFresh s' := by
  refine fresh.setLock locks xid ((fresh lid).later (fun _ => le_rfl) same ?_)
  intro d u x asked
  exact ⟨x,threads ▸ asked,.inl rfl⟩

lemma fresh_step (inv : Inv s) (fresh : AllFresh s) (ok : HolderReleases s a) (small : NoWrap s a)
    (step : next s a = some s') : AllFresh s' := by
  cases a with
  | acquire lid c t =>
    obtain ⟨_,rfl⟩ : (s.locks lid).threads c t = .idle ∧ s.enter lid c t = s' := by simpa [next] using step
    exact fresh_enter fresh small
  | wake lid c t =>
    obtain ⟨_,rfl⟩ : (s.locks lid).threads c t = .blocked ∧ s.enter lid c t = s' := by simpa [next] using step
    exact fresh_enter fresh small
  | call lid c t | retry lid c t =>
    simp only [next] at step
    split at step <;> cases step
    next place => exact fresh.setLock rfl rfl ((fresh lid).move rfl rfl (by simp [due,place]))
  | serve lid c t =>
    exact fresh_serve inv fresh step
  | reply lid c t =>
    simp only [next] at step
    split at step
    · cases step
      exact fresh.setLock rfl rfl ((fresh lid).move rfl rfl (by simp [due]))
    · next place =>
      cases step
      exact fresh.setLock rfl rfl ((fresh lid).move rfl rfl (by simp [due,place]))
    · cases step
  | release lid c t =>
    have locked : ((s.locks lid).clients c).stat = .locked := (inv lid).stat c t _ (by rw [show _ = _ from ok]; rfl)
    simp only [next,show _ = _ from ok,or_true,if_true,locked] at step
    split at step <;> cases step <;> exact fresh.setLock rfl rfl ((fresh lid).move rfl rfl (by simp [due]))
  | releaseRpc lid c t =>
    simp only [next] at step
    split at step <;> cases step
    exact fresh.setLock rfl rfl ((fresh lid).move rfl (stamp_release _ _) (by simp [due]))
  | released lid c t =>
    simp only [next] at step
    split at step <;> cases step
    exact fresh.setLock rfl rfl ((fresh lid).move rfl rfl (by simp [due]))
  | revokerDeq | retryerEnq | retryerDeq =>
    simp only [next] at step
    split at step <;> cases step
    exact fresh
  | callRevoke =>
    simp only [next] at step
    split at step
    · obtain ⟨e,_,rfl⟩ := map_eq_some_iff.mp step
      exact fresh
    · cases step
  | revokeHandler =>
    simp only [next] at step
    split at step
    · split at step
      · cases step
        exact fresh.quiet rfl rfl rfl rfl
      · cases step
        exact fresh.quiet rfl rfl rfl rfl
    · cases step
  | revokeRelease =>
    simp only [next] at step
    split at step <;> cases step
    exact fresh.quiet rfl rfl rfl (stamp_release _ _)
  | revokeDone | retryHandler =>
    simp only [next] at step
    split at step <;> cases step
    exact fresh.quiet rfl rfl rfl rfl
  | callRetry =>
    simp only [next] at step
    split at step
    · split at step
      · cases step
        exact fresh
      · cases step
    · cases step

/-- While no counter wraps, `acquire` at the server never takes the branch for
duplicates. -/
theorem duplicate_unreachable
    (reached : Reach (· = System.init) (fun s a => HolderReleases s a ∧ NoWrap s a) next s)
    (place : (s.locks lid).threads c t = .request x) : (serverAcquire (s.locks lid).entry c x).isSome := by
  have both : ∀ s, Reach (· = System.init) (fun s a => HolderReleases s a ∧ NoWrap s a) next s → Inv s ∧ AllFresh s := by
    apply Reach.invariant
    · rintro _ rfl
      refine ⟨inv_init,fun lid => ?_⟩
      constructor <;> simp [System.init,Lock.init,due]
    · rintro s a s' ⟨inv,fresh⟩ ⟨ok,small⟩ step
      exact ⟨inv_step inv ok step,fresh_step inv fresh ok small step⟩
  obtain ⟨_,newer⟩ := ((both s reached).2 lid).pending c t x (by rw [place]; rfl)
  unfold serverAcquire
  cases found : (s.locks lid).entry with
  | none => rfl
  | some e =>
    have different : ¬ (c = e.cid ∧ x = e.xid) := by
      rintro ⟨rfl,rfl⟩
      exact absurd (newer e.xid (by rw [found]; rfl)) (lt_irrefl _)
    simp only [different,if_false]
    repeat' split
    all_goals rfl

/-- `b` asks again with the `xid` of its first request. -/
theorem duplicate_unreachable_handOver : ∃ s, run next System.init (handOver.take 21) = some s ∧
    (s.locks 1).threads "b" 0 = .request 1 ∧ (serverAcquire (s.locks 1).entry "b" 1).isSome := by
  have careful : Meets next (fun s a => HolderReleases s a ∧ NoWrap s a) System.init (handOver.take 21) := by decide
  obtain ⟨s,ran,again⟩ : ∃ s, run next System.init (handOver.take 21) = some s ∧ (s.locks 1).threads "b" 0 = .request 1 :=
    ⟨_,rfl,by decide⟩
  exact ⟨s,ran,again,duplicate_unreachable (Reach.run _ (.start rfl) careful ran) again⟩

end
end CodeExercise.LockCacheRsmExclusion
