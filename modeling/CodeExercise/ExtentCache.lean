import CodeExercise.Runs
import Mathlib.Algebra.Order.Group.Nat

/-!
The write-back cache of `extent_client` in front of `extent_server`, without timestamps and with RPCs
that succeed. `setattr` never reaches the server, and a removed extent is still found there until the
cache is flushed.
-/
namespace CodeExercise.ExtentCache
open Runs List Option Function

abbrev Bytes := List UInt8

/-- What `extents_` and `attrs_` have for an extent; of the attributes only the size. -/
structure Slot where
  extent : Option Bytes
  attr : Option Nat
  deriving DecidableEq

/-- `attrs_[id].size`, which is 0 in a new entry. -/
def Slot.size (s : Slot) : Nat := s.attr.getD 0
def Slot.put (_ : Slot) (buf : Bytes) : Slot := ⟨some buf,some (buf.length%2^32)⟩

/-- No content stands for NOENT. -/
def Slot.get (s : Slot) : Option Bytes × Slot :=
  match s.extent with
  | none => (none,s)
  | some content => (some (content.take s.size),{ s with attr := some s.size })

def Slot.getattr (s : Slot) : Nat × Slot := (s.size,{ s with attr := some s.size })

/-- A larger size pads with null bytes. -/
def Slot.setattr (s : Slot) (size : Nat) : Slot :=
  if size > s.size then ⟨some (s.extent.getD [] ++ List.replicate (size-s.size) 0),some size⟩
  else { s with attr := some size }

/-- Whether there was an extent; NOENT otherwise. -/
def Slot.remove (s : Slot) : Bool × Slot :=
  match s.extent with
  | none => (false,s)
  | some _ => (true,⟨none,none⟩)

/-- The server starts with an empty root directory. -/
def startServer (id : Nat) : Slot := if id = 1 then ⟨some [],none⟩ else ⟨none,none⟩

/-- What `cached_extents`, `dirty_extents`, `cached_attrs`, `dirty_attrs` and `removed`
have for an extent. -/
structure Entry where
  cachedExtent : Option Bytes
  dirtyExtent : Bool
  cachedAttr : Option Nat
  dirtyAttr : Bool
  removed : Bool
  deriving DecidableEq

inductive Op where
  | get
  | getattr
  | setattr (size : Nat)
  | put (buf : Bytes)
  | remove
  | flush
  deriving DecidableEq

inductive Reply where
  | ok
  | noent
  | content (buf : Bytes)
  | attr (size : Nat)
  deriving DecidableEq

def Entry.get (e : Entry) (s : Slot) : Reply × Entry × Slot :=
  match e.cachedExtent with
  | some buf =>
    match e.cachedAttr with
    | some _ => (.content buf,e,s)
    | none => (.content buf,{ e with cachedAttr := some s.getattr.1 },s.getattr.2)
  | none =>
    match s.get with
    | (some buf,s) => (.content buf,{ e with cachedExtent := some buf },s)
    | (none,s) => (.noent,e,s)

def Entry.getattr (e : Entry) (s : Slot) : Reply × Entry × Slot :=
  match e.cachedAttr with
  | some size => (.attr size,e,s)
  | none => (.attr s.getattr.1,{ e with cachedAttr := some s.getattr.1 },s.getattr.2)

def Entry.setattr (e : Entry) (size : Nat) : Entry := { e with cachedAttr := some size, dirtyAttr := true }

/-- The status is that of `getattr` on the server, which is always OK. -/
def Entry.put (e : Entry) (s : Slot) (buf : Bytes) : Entry × Slot :=
  (⟨some buf,true,some (buf.length%2^32),true,false⟩,if e.cachedAttr.isNone then s.getattr.2 else s)

def Entry.remove (e : Entry) (s : Slot) : Reply × Entry × Slot :=
  match s.get with
  | (some _,s) => (.ok,{ e with cachedExtent := none, dirtyExtent := false, dirtyAttr := false, removed := true },s)
  | (none,s) =>
    if e.cachedExtent.isNone then (.noent,e,s)
    else (.ok,{ e with cachedExtent := none, dirtyExtent := false, dirtyAttr := false },s)

/-- No result when the server does not know an extent to be removed (`assert`). -/
def Entry.flush (e : Entry) (s : Slot) : Option (Entry × Slot) :=
  if e.dirtyExtent then
    some (⟨none,false,none,false,e.removed⟩,s.put (e.cachedExtent.getD []))
  else if e.removed then
    match s.remove with
    | (true,s) => some (⟨none,e.dirtyExtent,none,e.dirtyAttr,false⟩,s)
    | (false,_) => none
  else some (⟨none,e.dirtyExtent,none,e.dirtyAttr,e.removed⟩,s)

/-- An operation through the cache. -/
def Entry.call (e : Entry) (s : Slot) : Op → Option (Reply × Entry × Slot)
  | .get => some (e.get s)
  | .getattr => some (e.getattr s)
  | .setattr size => some (.ok,e.setattr size,s)
  | .put buf => some (.ok,e.put s buf)
  | .remove => some (e.remove s)
  | .flush => (e.flush s).map (fun r => (.ok,r))

/-- The same operation on the server; there is nothing to flush. -/
def Slot.call (s : Slot) : Op → Reply × Slot
  | .get =>
    match s.get with
    | (some buf,s) => (.content buf,s)
    | (none,s) => (.noent,s)
  | .getattr => (.attr s.getattr.1,s.getattr.2)
  | .setattr size => (.ok,s.setattr size)
  | .put buf => (.ok,s.put buf)
  | .remove => (if s.remove.1 then .ok else .noent,s.remove.2)
  | .flush => (.ok,s)

/-- A client with its server. It is noted which extents were removed and have neither
been put nor flushed since, and what the operations returned. -/
structure System where
  client : Nat → Entry
  server : Nat → Slot
  gone : Nat → Bool
  replies : List Reply

def System.start (server : Nat → Slot) : System := ⟨fun _ => ⟨none,false,none,false,false⟩,server,fun _ => false,[]⟩

/-- Whether the extent is gone after an operation. -/
def goneAfter (gone : Bool) (reply : Reply) : Op → Bool
  | .remove => gone || decide (reply = .ok)
  | .put _ | .flush => false
  | _ => gone

def next (s : System) (op : Nat × Op) : Option System :=
  ((s.client op.1).call (s.server op.1) op.2).map (fun r =>
    { client := update s.client op.1 r.2.1
      server := update s.server op.1 r.2.2
      gone := update s.gone op.1 (goneAfter (s.gone op.1) r.1 op.2)
      replies := s.replies++[r.1] })

/-- A server without a cache. -/
structure Direct where
  server : Nat → Slot
  replies : List Reply

def direct (s : Direct) (op : Nat × Op) : Direct :=
  { server := update s.server op.1 ((s.server op.1).call op.2).2
    replies := s.replies++[((s.server op.1).call op.2).1] }

/-- The server after operations of other clients. -/
def serverAfter (ops : List (Nat × Op)) : Nat → Slot := (ops.foldl direct ⟨startServer,[]⟩).server

/-- `setattr` leaves the size as it is, and an extent that was removed through the cache
is put or flushed before the client looks at it again (if it was never on the server,
its content may be asked for). -/
def Fits (e : Entry) (s : Slot) (gone : Bool) : Op → Prop
  | .get | .remove => e.removed = false
  | .getattr => gone = false
  | .setattr size => gone = false ∧ size = e.cachedAttr.getD s.size
  | .put buf => buf.length < 2^32
  | .flush => True
instance (e : Entry) (s : Slot) (gone : Bool) : (op : Op) → Decidable (Fits e s gone op)
  | .get | .remove | .getattr => decideAs (_ = _)
  | .setattr _ => decideAs (_ ∧ _)
  | .put _ => decideAs (_ < _)
  | .flush => isTrue trivial

def ok (s : System) (op : Nat × Op) : Prop := Fits (s.client op.1) (s.server op.1) (s.gone op.1) op.2
deriving Decidable

/-- An extent that is not there has no size. -/
def Slot.Plain (s : Slot) : Prop := s.extent = none → s.size = 0

section
variable {e : Entry} {s d : Slot} {gone : Bool}

lemma Slot.Plain.call (plain : s.Plain) (op : Op) : (s.call op).2.Plain := by
  cases op with
  | get =>
    simp only [Slot.call,Slot.get]
    split
    · next found =>
      split at found <;> cases found
      intro missing
      simp_all
    · next found => split at found <;> cases found; exact plain
  | getattr => exact plain
  | setattr size =>
    simp only [Slot.call,Slot.setattr]
    split
    · intro missing
      cases missing
    · next small =>
      intro missing
      have zero := plain missing
      simp only [Slot.size,getD_some]
      omega
  | put buf =>
    intro missing
    cases missing
  | remove =>
    simp only [Slot.call,Slot.remove]
    split
    · exact plain
    · exact fun _ => rfl
  | flush => exact plain

/-- The cache has nothing to write. -/
structure Clean (e : Entry) (s d : Slot) : Prop where
  dirty : e.dirtyExtent = false
  removed : e.removed = false
  extent : s.extent = d.extent
  size : s.size = d.size
  content : ∀ buf, e.cachedExtent = some buf → d.get.1 = some buf
  attr : ∀ n, e.cachedAttr = some n → n = d.size

/-- The cache has a content to write. -/
structure Dirty (e : Entry) (d : Slot) (buf : Bytes) : Prop where
  dirty : e.dirtyExtent = true
  removed : e.removed = false
  cached : e.cachedExtent = some buf
  attr : e.cachedAttr = some buf.length
  extent : d.extent = some buf
  size : d.size = buf.length
  small : buf.length%2^32 = buf.length

/-- The extent was removed, and the server may still have it. -/
structure Gone (e : Entry) (s d : Slot) : Prop where
  dirty : e.dirtyExtent = false
  cached : e.cachedExtent = none
  known : e.removed = true ↔ s.extent.isSome
  extent : d.extent = none
  size : d.size = 0

/-- The cache and its server stand for the server without a cache. -/
def Agree (e : Entry) (s : Slot) (gone : Bool) (d : Slot) : Prop :=
  s.Plain ∧ (gone = false ∧ (Clean e s d ∨ ∃ buf, Dirty e d buf) ∨ gone = true ∧ Gone e s d)

lemma Slot.get_some (found : s.extent = some content) :
    s.get = (some (content.take s.size),s.getattr.2) := by simp [Slot.get,Slot.getattr,found]

lemma Slot.get_none (missing : s.extent = none) : s.get = (none,s) := by simp [Slot.get,missing]

lemma Clean.getattr (clean : Clean e s d) : Clean { e with cachedAttr := some s.size } s.getattr.2 d :=
  { clean with attr := by simp [clean.size] }

lemma Slot.getattr_get (d : Slot) : d.getattr.2.get.1 = d.get.1 := by
  cases found : d.extent with
  | none => rw [Slot.get_none found,Slot.get_none (s := d.getattr.2) found]
  | some content => rw [Slot.get_some found,Slot.get_some (s := d.getattr.2) found]; rfl

lemma Clean.refresh (clean : Clean e s d) : Clean e s d.getattr.2 :=
  { clean with content := by rw [d.getattr_get]; exact clean.content }

lemma Dirty.refresh (dirty : Dirty e d buf) : Dirty e d.getattr.2 buf :=
  { dirty with }

lemma Clean.uncached (clean : Clean e s d) (missing : d.extent = none) : e.cachedExtent = none := by
  cases cached : e.cachedExtent with
  | none => rfl
  | some buf =>
    have there := clean.content buf cached
    rw [Slot.get_none missing] at there
    cases there

lemma Agree.get (agree : Agree e s gone d) (fits : Fits e s gone .get) : ∃ e' s',
    e.call s .get = some ((d.call .get).1,e',s') ∧ Agree e' s' gone (d.call .get).2 := by
  obtain ⟨plain,⟨rfl,clean | ⟨buf,dirty⟩⟩ | ⟨rfl,away⟩⟩ := agree
  · cases found : d.extent with
    | none =>
      have missing := clean.extent.trans found
      have empty := clean.uncached found
      refine ⟨e,s,?_,plain,.inl ⟨rfl,.inl ?_⟩⟩
      · simp only [Entry.call,Entry.get,empty,Slot.call,Slot.get_none found,Slot.get_none missing]
      · simpa only [Slot.call,Slot.get_none found] using clean
    | some content =>
      simp only [Slot.call,Slot.get_some found]
      cases cached : e.cachedExtent with
      | some buf =>
        have same := clean.content buf cached
        rw [Slot.get_some found,some.injEq] at same
        cases attr : e.cachedAttr with
        | some n =>
          refine ⟨e,s,?_,plain,.inl ⟨rfl,.inl clean.refresh⟩⟩
          simp only [Entry.call,Entry.get,cached,attr,same]
        | none =>
          refine ⟨{ e with cachedAttr := some s.size },s.getattr.2,?_,plain,.inl ⟨rfl,.inl clean.getattr.refresh⟩⟩
          simp only [Entry.call,Entry.get,cached,attr,same]
          rfl
      | none =>
        have here := clean.extent.trans found
        refine ⟨{ e with cachedExtent := some (content.take d.size) },s.getattr.2,?_,plain,.inl ⟨rfl,.inl ?_⟩⟩
        · simp only [Entry.call,Entry.get,cached,Slot.get_some here,clean.size]
        · refine { clean with content := ?_ }
          intro buf held
          rwa [d.getattr_get,Slot.get_some found]
  · simp only [Slot.call,Slot.get_some dirty.extent,dirty.size,take_length]
    refine ⟨e,s,?_,plain,.inl ⟨rfl,.inr ⟨buf,dirty.refresh⟩⟩⟩
    simp only [Entry.call,Entry.get,dirty.cached,dirty.attr]
  · have missing : s.extent = none := by
      have kept : e.removed = false := fits
      simpa [kept] using away.known
    refine ⟨e,s,?_,plain,.inr ⟨rfl,?_⟩⟩
    · simp only [Entry.call,Entry.get,away.cached,Slot.call,Slot.get_none missing,Slot.get_none away.extent]
    · simpa only [Slot.call,Slot.get_none away.extent] using away

lemma Agree.getattr (agree : Agree e s gone d) (fits : Fits e s gone .getattr) : ∃ e' s',
    e.call s .getattr = some ((d.call .getattr).1,e',s') ∧ Agree e' s' gone (d.call .getattr).2 := by
  obtain ⟨plain,⟨rfl,clean | ⟨buf,dirty⟩⟩ | ⟨rfl,_⟩⟩ := agree
  · cases attr : e.cachedAttr with
    | some n =>
      refine ⟨e,s,?_,plain,.inl ⟨rfl,.inl clean.refresh⟩⟩
      simp only [Entry.call,Entry.getattr,attr,Slot.call,clean.attr n attr]
      rfl
    | none =>
      refine ⟨{ e with cachedAttr := some s.size },s.getattr.2,?_,plain,.inl ⟨rfl,.inl clean.getattr.refresh⟩⟩
      simp only [Entry.call,Entry.getattr,attr,Slot.call,Slot.getattr,clean.size]
  · refine ⟨e,s,?_,plain,.inl ⟨rfl,.inr ⟨buf,dirty.refresh⟩⟩⟩
    simp only [Entry.call,Entry.getattr,dirty.attr,Slot.call,Slot.getattr,dirty.size]
  · cases fits

lemma Agree.setattr (agree : Agree e s gone d) (fits : Fits e s gone (.setattr n)) : ∃ e' s',
    e.call s (.setattr n) = some ((d.call (.setattr n)).1,e',s') ∧ Agree e' s' gone (d.call (.setattr n)).2 := by
  obtain ⟨stays,size⟩ := fits
  obtain ⟨plain,⟨rfl,clean | ⟨buf,dirty⟩⟩ | ⟨rfl,_⟩⟩ := agree
  · have same : n = d.size := by
      cases attr : e.cachedAttr with
      | some k => exact (size.trans (by simp [attr])).trans (clean.attr k attr)
      | none => exact (size.trans (by simp [attr])).trans clean.size
    have unchanged : d.setattr n = d.getattr.2 := by simp [Slot.setattr,Slot.getattr,same]
    refine ⟨e.setattr n,s,rfl,plain,.inl ⟨rfl,.inl ?_⟩⟩
    simp only [Slot.call,unchanged]
    refine { clean with content := clean.refresh.content, attr := ?_ }
    intro k held
    exact (some.inj held).symm.trans same
  · have same : n = d.size := by simpa [dirty.attr,dirty.size] using size
    have unchanged : d.setattr n = d.getattr.2 := by simp [Slot.setattr,Slot.getattr,same]
    refine ⟨e.setattr n,s,rfl,plain,.inl ⟨rfl,.inr ⟨buf,?_⟩⟩⟩
    simp only [Slot.call,unchanged]
    exact { dirty with attr := congrArg some (same.trans dirty.size) }
  · cases stays

lemma Agree.put (agree : Agree e s gone d) (fits : Fits e s gone (.put buf)) : ∃ e' s',
    e.call s (.put buf) = some ((d.call (.put buf)).1,e',s') ∧ Agree e' s' false (d.call (.put buf)).2 := by
  have small : buf.length%2^32 = buf.length := Nat.mod_eq_of_lt fits
  refine ⟨(e.put s buf).1,(e.put s buf).2,rfl,?_,.inl ⟨rfl,.inr ⟨buf,rfl,rfl,rfl,congrArg some small,rfl,small,small⟩⟩⟩
  simp only [Entry.put]
  split
  · exact agree.1
  · exact agree.1

lemma Entry.remove_gone (plain : s.Plain) (kept : e.removed = false) (there : e.cachedExtent = none → s.extent ≠ none) :
    ∃ e' s', e.remove s = (.ok,e',s') ∧ s'.Plain ∧ ∀ d : Slot, d.extent = none → d.size = 0 → Gone e' s' d := by
  cases found : s.extent with
  | some content =>
    refine ⟨{ e with cachedExtent := none, dirtyExtent := false, dirtyAttr := false, removed := true },s.getattr.2,?_,
      plain,fun d missing empty => ⟨rfl,rfl,by simp [Slot.getattr,found],missing,empty⟩⟩
    simp only [Entry.remove,Slot.get_some found]
  | none =>
    have cached : ¬ e.cachedExtent.isNone := fun none => there (isNone_iff_eq_none.mp none) found
    refine ⟨{ e with cachedExtent := none, dirtyExtent := false, dirtyAttr := false },s,?_,
      plain,fun d missing empty => ⟨rfl,rfl,by simp [kept,found],missing,empty⟩⟩
    simp only [Entry.remove,Slot.get_none found,if_neg cached]

lemma Agree.remove (agree : Agree e s gone d) (fits : Fits e s gone .remove) : ∃ e' s',
    e.call s .remove = some ((d.call .remove).1,e',s') ∧
      Agree e' s' (goneAfter gone (d.call .remove).1 .remove) (d.call .remove).2 := by
  -- an extent that the server would have without the cache
  have gives : ∀ content, d.extent = some content → (e.cachedExtent = none → s.extent ≠ none) → ∃ e' s',
      e.call s .remove = some ((d.call .remove).1,e',s') ∧
        Agree e' s' (goneAfter gone (d.call .remove).1 .remove) (d.call .remove).2 := by
    intro content found there
    obtain ⟨e',s',removed,plain,away⟩ := Entry.remove_gone agree.1 fits there
    have answer : d.call .remove = (.ok,⟨none,none⟩) := by simp [Slot.call,Slot.remove,found]
    rw [answer]
    exact ⟨e',s',congrArg some removed,plain,.inr ⟨by simp [goneAfter],away _ rfl rfl⟩⟩
  -- an extent that neither of them has
  have refuses : d.extent = none → s.extent = none → e.cachedExtent = none → e.call s .remove = some ((d.call .remove).1,e,s) ∧
      goneAfter gone (d.call .remove).1 .remove = gone ∧ (d.call .remove).2 = d := by
    intro missing missing' empty
    simp [Entry.call,Entry.remove,Slot.call,Slot.remove,Slot.get_none missing',missing,empty,goneAfter]
  obtain ⟨plain,⟨rfl,clean | ⟨buf,dirty⟩⟩ | ⟨rfl,away⟩⟩ := agree
  · cases found : d.extent with
    | none =>
      obtain ⟨answer,still,same⟩ := refuses found (clean.extent.trans found) (clean.uncached found)
      exact ⟨e,s,answer,plain,.inl ⟨still,.inl (same.symm ▸ clean)⟩⟩
    | some content => exact gives content found (fun _ missing => by simp [clean.extent,found] at missing)
  · exact gives buf dirty.extent fun none => by simp [dirty.cached] at none
  · have missing : s.extent = none := by
      have kept : e.removed = false := fits
      simpa [kept] using away.known
    obtain ⟨answer,still,same⟩ := refuses away.extent missing away.cached
    exact ⟨e,s,answer,plain,.inr ⟨still,same.symm ▸ away⟩⟩

lemma Agree.flush (agree : Agree e s gone d) : ∃ e' s', e.call s .flush = some (.ok,e',s') ∧ s'.Plain ∧ Clean e' s' d := by
  obtain ⟨plain,⟨rfl,clean | ⟨buf,dirty⟩⟩ | ⟨rfl,away⟩⟩ := agree
  · refine ⟨⟨none,false,none,e.dirtyAttr,false⟩,s,?_,plain,⟨rfl,rfl,clean.extent,clean.size,by simp,by simp⟩⟩
    simp [Entry.call,Entry.flush,clean.dirty,clean.removed]
  · have size : (s.put buf).size = d.size := dirty.small.trans dirty.size.symm
    refine ⟨⟨none,false,none,false,false⟩,s.put buf,?_,(fun missing => by cases missing),
      ⟨rfl,rfl,dirty.extent.symm,size,by simp,by simp⟩⟩
    simp [Entry.call,Entry.flush,dirty.dirty,dirty.removed,dirty.cached]
  · by_cases known : e.removed = true
    · obtain ⟨content,found⟩ := isSome_iff_exists.mp (away.known.mp known)
      refine ⟨⟨none,false,none,e.dirtyAttr,false⟩,⟨none,none⟩,?_,fun _ => rfl,
        ⟨rfl,rfl,away.extent.symm,away.size.symm,by simp,by simp⟩⟩
      simp [Entry.call,Entry.flush,away.dirty,known,Slot.remove,found]
    · have missing : s.extent = none := by simpa [known] using away.known
      refine ⟨⟨none,false,none,e.dirtyAttr,false⟩,s,?_,plain,
        ⟨rfl,rfl,missing.trans away.extent.symm,(plain missing).trans away.size.symm,by simp,by simp⟩⟩
      simp [Entry.call,Entry.flush,away.dirty,known]

lemma Agree.call (agree : Agree e s gone d) (op : Op) (fits : Fits e s gone op) : ∃ e' s',
    e.call s op = some ((d.call op).1,e',s') ∧ Agree e' s' (goneAfter gone (d.call op).1 op) (d.call op).2 := by
  cases op with
  | get => exact agree.get fits
  | getattr => exact agree.getattr fits
  | setattr size => exact agree.setattr fits
  | put buf => exact agree.put fits
  | remove => exact agree.remove fits
  | flush =>
    obtain ⟨e',s',answer,plain,clean⟩ := agree.flush
    exact ⟨e',s',answer,plain,.inl ⟨rfl,.inl clean⟩⟩

end

/-- The operations have returned the same, and every extent stands for the one without a
cache. -/
structure Sim (t : System) (d : Direct) : Prop where
  replies : t.replies = d.replies
  agree : ∀ id, Agree (t.client id) (t.server id) (t.gone id) (d.server id)

lemma Sim.step (sim : Sim t d) (op : Nat × Op) (fits : ok t op) : ∃ t',
    next t op = some t' ∧ Sim t' (direct d op) ∧
      ∀ id, id ≠ op.1 → t'.client id = t.client id ∧ t'.server id = t.server id := by
  obtain ⟨e',s',answer,agree⟩ := (sim.agree op.1).call op.2 fits
  refine ⟨_,by simp only [next,answer,map_some]; rfl,⟨?_,?_⟩,?_⟩
  · simp only [direct,sim.replies]
  · intro id
    by_cases same : id = op.1
    · subst same
      simpa only [direct,update_self] using agree
    · simpa only [direct,update_of_ne same] using sim.agree id
  · intro id other
    exact ⟨update_of_ne other _ _,update_of_ne other _ _⟩

lemma Sim.run (sim : Sim t d) (ops : List (Nat × Op)) (meets : Meets next ok t ops) : ∃ t',
    Runs.run next t ops = some t' ∧ Sim t' (ops.foldl direct d) ∧ ∀ id, (∀ op ∈ ops, op.1 ≠ id) →
      Clean (t.client id) (t.server id) (d.server id) →
        Clean (t'.client id) (t'.server id) ((ops.foldl direct d).server id) := by
  induction ops generalizing t d with
  | nil => exact ⟨t,rfl,sim,fun _ _ clean => clean⟩
  | cons op ops ih =>
    obtain ⟨t₁,first,sim₁,others⟩ := sim.step op meets.1
    have rest : Meets next ok t₁ ops := by simpa only [first] using meets.2
    obtain ⟨t',ran,sim',unused⟩ := ih sim₁ rest
    refine ⟨t',by simp only [Runs.run,first]; exact ran,sim',?_⟩
    intro id apart clean
    have other : id ≠ op.1 := (apart op mem_cons_self).symm
    refine unused id (fun op' mem => apart op' (mem_cons_of_mem _ mem)) ?_
    rw [(others id other).1,(others id other).2]
    simpa only [direct,update_of_ne other] using clean

lemma flush_all {d : Nat → Slot} (agree : ∀ id, Agree (t.client id) (t.server id) (t.gone id) (d id))
    (eids : List Nat) : ∃ u, run next t (eids.map (fun id => (id,.flush))) = some u ∧
      ∀ id, (id ∉ eids → Clean (t.client id) (t.server id) (d id)) → Clean (u.client id) (u.server id) (d id) := by
  induction eids generalizing t with
  | nil => exact ⟨t,rfl,fun id clean => clean not_mem_nil⟩
  | cons first eids ih =>
    obtain ⟨e',s',answer,plain,clean⟩ := (agree first).flush
    have step : next t (first,.flush) = some (⟨update t.client first e',update t.server first s',
        update t.gone first false,t.replies++[.ok]⟩ : System) := by
      simp only [next,answer,map_some,goneAfter]
    obtain ⟨u,ran,all⟩ := ih (t := ⟨update t.client first e',update t.server first s',
        update t.gone first false,t.replies++[.ok]⟩) (by
      intro id
      by_cases same : id = first
      · subst same
        simp only [update_self]
        exact ⟨plain,.inl ⟨rfl,.inl clean⟩⟩
      · simpa only [update_of_ne same] using agree id)
    refine ⟨u,by simp only [map_cons,run,step]; exact ran,?_⟩
    intro id unused
    apply all id
    intro absent
    by_cases same : id = first
    · subst same
      simpa only [update_self] using clean
    · simp only [update_of_ne same]
      exact unused (by simp [same,absent])

lemma serverAfter_plain (ops : List (Nat × Op)) (id : Nat) : (serverAfter ops id).Plain := by
  have all : ∀ d : Direct, (∀ id, (d.server id).Plain) → ∀ id, ((ops.foldl direct d).server id).Plain := by
    induction ops with
    | nil => exact fun d plain => plain
    | cons op ops ih =>
      intro d plain
      refine ih (direct d op) fun id => ?_
      by_cases same : id = op.1
      · subst same
        simpa only [direct,update_self] using (plain op.1).call op.2
      · simpa only [direct,update_of_ne same] using plain id
  refine all ⟨startServer,[]⟩ (fun id => ?_) id
  simp only [startServer]
  split
  · intro missing
    cases missing
  · exact fun _ => rfl

/-- The cache is transparent to a lock holder whose operations meet the condition. -/
theorem cache_transparent (before ops : List (Nat × Op)) (eids : List Nat) (listed : ∀ op ∈ ops, op.1 ∈ eids)
    (meets : Meets next ok (System.start (serverAfter before)) ops) : ∃ t u,
      run next (System.start (serverAfter before)) ops = some t ∧
      run next t (eids.map (fun id => (id,.flush))) = some u ∧
      t.replies = (ops.foldl direct ⟨serverAfter before,[]⟩).replies ∧
      ∀ id, (u.server id).extent = ((ops.foldl direct ⟨serverAfter before,[]⟩).server id).extent ∧
        (u.server id).size = ((ops.foldl direct ⟨serverAfter before,[]⟩).server id).size := by
  have clean : ∀ id, Clean ((System.start (serverAfter before)).client id) (serverAfter before id) (serverAfter before id) :=
    fun id => ⟨rfl,rfl,rfl,rfl,by simp [System.start],by simp [System.start]⟩
  have sim : Sim (System.start (serverAfter before)) ⟨serverAfter before,[]⟩ :=
    ⟨rfl,fun id => ⟨serverAfter_plain before id,.inl ⟨rfl,.inl (clean id)⟩⟩⟩
  obtain ⟨t,ran,sim',unused⟩ := sim.run ops meets
  obtain ⟨u,flushed,written⟩ := flush_all sim'.agree eids
  refine ⟨t,u,ran,flushed,sim'.replies,fun id => ?_⟩
  have final := written id (fun absent => unused id (fun op mem same => absent (same ▸ listed op mem)) (clean id))
  exact ⟨final.extent,final.size⟩

/-- An extent of another client is read, replaced, removed and put again. -/
theorem cache_transparent_replaced : ∃ t u,
    run next (System.start (serverAfter [(2,.put [104,105])]))
      [(2,.get),(2,.put [1,2,3]),(2,.setattr 3),(2,.remove),(2,.put [7]),(2,.getattr)] = some t ∧
    run next t [(2,.flush)] = some u ∧
    t.replies = [.content [104,105],.ok,.ok,.ok,.ok,.attr 1] ∧ (u.server 2).extent = some [7] ∧ (u.server 2).size = 1 := by
  obtain ⟨t,u,ran,flushed,replies,same⟩ := cache_transparent [(2,.put [104,105])]
    [(2,.get),(2,.put [1,2,3]),(2,.setattr 3),(2,.remove),(2,.put [7]),(2,.getattr)] [2] (by decide) (by decide)
  exact ⟨t,u,ran,flushed,replies,(same 2).1,(same 2).2⟩

/-- The size that `setattr` sets is not written, and an extent that was removed is still
read from the server. -/
theorem setattr_lost :
    (∃ t u, run next (System.start (serverAfter [])) [(2,.put [1,2,3,4,5]),(2,.setattr 2)] = some t ∧
      run next t [(2,.flush)] = some u ∧ (u.server 2).size = 5 ∧
      (([(2,.put [1,2,3,4,5]),(2,.setattr 2)].foldl direct ⟨serverAfter [],[]⟩).server 2).size = 2) ∧
    ∃ t, run next (System.start (serverAfter [(2,.put [1])])) [(2,.remove),(2,.get)] = some t ∧
      t.replies = [.ok,.content [1]] ∧
      ([(2,.remove),(2,.get)].foldl direct ⟨serverAfter [(2,.put [1])],[]⟩).replies = [.ok,.noent] :=
  ⟨⟨_,_,rfl,rfl,by decide,by decide⟩,_,rfl,by decide,by decide⟩

/-! ## Sizes on the extent server -/

/-- The calls that change an extent. -/
inductive Change where
  | put (buf : Bytes)
  | setattr (size : UInt32)
  deriving DecidableEq

def Slot.change (s : Slot) : Change → Slot
  | .put buf => s.put buf
  | .setattr size => s.setattr size.toNat

/-- The array cut to the size or extended with zero bytes. -/
def resize (bytes : Bytes) (size : Nat) : Bytes := bytes.take size ++ List.replicate (size-bytes.length) 0

/-- What the extent should hold. Size 0 does not create an extent. -/
def reference : Option Bytes → Change → Option Bytes
  | _,.put buf => some buf
  | some bytes,.setattr size => some (resize bytes size.toNat)
  | none,.setattr size => if size.toNat = 0 then none else some (resize [] size.toNat)

/-- The last buffer that was put, and how many of its bytes no later size has cut off. -/
structure Cut where
  buf : Bytes
  kept : Nat
  deriving DecidableEq

def Cut.change (c : Cut) : Change → Cut
  | .put buf => ⟨buf,buf.length⟩
  | .setattr size => ⟨c.buf,min c.kept size.toNat⟩

/-- The bytes that were cut off and are below the size again. -/
def Cut.revealed (c : Cut) (size : Nat) : Bytes := (c.buf.take size).drop c.kept

/-- The bytes on the server are the last buffer and null bytes, and those of the array are what is left of the buffer and
null bytes. -/
inductive Keeps (s : Slot) (c : Cut) : Option Bytes → Prop where
  | absent (missing : s.extent = none) (empty : s.size = 0) (nothing : c = ⟨[],0⟩) : Keeps s c none
  | present {bytes : Bytes} (k : Nat) (stored : s.extent = some (c.buf++List.replicate k 0)) (inside : s.size ≤ c.buf.length+k)
    (size : s.size = bytes.length%2^32) (kept : c.kept ≤ c.buf.length) (short : c.kept ≤ bytes.length)
    (array : bytes = c.buf.take c.kept ++ List.replicate (bytes.length-c.kept) 0) : Keeps s c (some bytes)

section
variable {s : Slot} {c : Cut} {r : Option Bytes}

lemma Keeps.put (s : Slot) (c : Cut) (r : Option Bytes) (buf : Bytes) :
    Keeps (s.change (.put buf)) (c.change (.put buf)) (reference r (.put buf)) := by
  have least : buf.length%2^32 ≤ buf.length := Nat.mod_le _ _
  refine .present 0 (by simp [Slot.change,Slot.put,Cut.change]) least rfl (Nat.le_refl _) (Nat.le_refl _) ?_
  simp [Cut.change]

lemma length_resize (bytes : Bytes) (n : Nat) : (resize bytes n).length = n := by
  simp only [resize,length_append,length_take,length_replicate]
  omega

lemma resize_part {bytes buf : Bytes} {k : Nat} (kept : k ≤ buf.length) (short : k ≤ bytes.length)
    (array : bytes = buf.take k ++ List.replicate (bytes.length-k) 0) (n : Nat) :
    resize bytes n = buf.take (min k n) ++ List.replicate (n-min k n) 0 := by
  rw [resize]
  generalize bytes.length = len at *
  rw [array,take_append,take_take,take_replicate,length_take,append_assoc,
    replicate_append_replicate,Nat.min_comm n k]
  congr 2
  omega

lemma Keeps.setattr (keeps : Keeps s c r) (size : UInt32) :
    Keeps (s.change (.setattr size)) (c.change (.setattr size)) (reference r (.setattr size)) := by
  have small : size.toNat < 2^32 := size.toNat_lt
  cases keeps with
  | absent missing empty nothing =>
    subst nothing
    simp only [Slot.change,Cut.change,Slot.setattr,reference,missing,empty]
    generalize size.toNat = n at *
    by_cases zero : n = 0
    · rw [if_neg (by omega),if_pos zero]
      exact .absent rfl zero rfl
    · have total : n = (resize [] n).length%2^32 := by rw [length_resize,Nat.mod_eq_of_lt small]
      rw [if_pos (by omega),if_neg zero]
      exact .present n (by simp) (by simp [Slot.size]) total (by simp) (by simp) (by simp [resize])
  | @present bytes k stored inside same kept short array =>
    simp only [Slot.change,Cut.change,Slot.setattr,reference,stored,Option.getD_some]
    generalize size.toNat = n at *
    have length := length_resize bytes n
    have total : n = (resize bytes n).length%2^32 := by rw [length,Nat.mod_eq_of_lt small]
    have part : resize bytes n = c.buf.take (min c.kept n) ++ List.replicate ((resize bytes n).length-min c.kept n) 0 := by
      rw [length]
      exact resize_part kept short array n
    by_cases grows : n > s.size
    · rw [if_pos grows]
      refine .present (k+(n-s.size)) ?_ (show n ≤ c.buf.length+(k+(n-s.size)) by omega) total (show min c.kept n ≤ c.buf.length by omega)
        (show min c.kept n ≤ (resize bytes n).length by omega) part
      simp only [append_assoc,replicate_append_replicate]
    · rw [if_neg grows]
      exact .present k rfl (show n ≤ c.buf.length+k by omega) total (show min c.kept n ≤ c.buf.length by omega)
        (show min c.kept n ≤ (resize bytes n).length by omega) part

lemma Keeps.change (keeps : Keeps s c r) (call : Change) : Keeps (s.change call) (c.change call) (reference r call) := by
  cases call with
  | put buf => exact .put s c r buf
  | setattr size => exact keeps.setattr size

lemma Keeps.run (keeps : Keeps s c r) (calls : List Change) :
    Keeps (calls.foldl Slot.change s) (calls.foldl Cut.change c) (calls.foldl reference r) := by
  induction calls generalizing s c r with
  | nil => exact keeps
  | cons call calls ih => exact ih (keeps.change call)

lemma startServer_keeps (id : Nat) : Keeps (startServer id) ⟨[],0⟩ (startServer id).extent := by
  unfold startServer
  split
  · exact .present 0 rfl (Nat.le_refl _) rfl (Nat.le_refl _) (Nat.le_refl _) rfl
  · exact .absent rfl rfl rfl

/-- The first bytes of a padded buffer are those of the part of it that is padded instead, if what lies between is zero. -/
lemma take_padded_iff {buf : Bytes} {kept k n : Nat} (inside : n ≤ buf.length+k) (part : kept ≤ buf.length) (short : kept ≤ n) :
    (buf++List.replicate k 0).take n = buf.take kept ++ List.replicate (n-kept) 0 ↔ ∀ b ∈ (buf.take n).drop kept, b = 0 := by
  have divided : (buf++List.replicate k 0).take n
      = buf.take kept ++ ((buf.take n).drop kept ++ List.replicate (n-buf.length) 0) := by
    have first : buf.take kept = (buf.take n).take kept := by rw [take_take,Nat.min_eq_left short]
    rw [take_append,take_replicate,Nat.min_eq_left (by omega),first,← append_assoc,take_append_drop]
  rw [divided,append_cancel_left_eq,eq_replicate_iff]
  constructor
  · rintro ⟨_,zero⟩ b revealed
    exact zero b (mem_append_left _ revealed)
  · intro zero
    refine ⟨?_,?_⟩
    · simp only [length_append,length_drop,length_take,length_replicate]
      omega
    · exact forall_mem_append.mpr ⟨zero,fun _ => eq_of_mem_replicate⟩

/-- The server answers with the array exactly if the size fits and no byte that was cut off shows again. -/
lemma Keeps.get_iff (keeps : Keeps s c r) :
    s.get.1 = r ↔ ∀ bytes, r = some bytes → bytes.length < 2^32 ∧ ∀ b ∈ c.revealed bytes.length, b = 0 := by
  cases keeps with
  | absent missing empty nothing => simp [Slot.get,missing]
  | @present bytes k stored inside same kept short array =>
    rw [Slot.get_some stored]
    simp only [Option.some.injEq,forall_eq']
    by_cases fits : bytes.length < 2^32
    · have size : s.size = bytes.length := same.trans (Nat.mod_eq_of_lt fits)
      have padded := take_padded_iff (size ▸ inside) kept short
      rw [← array] at padded
      rw [size,padded]
      exact ⟨fun zero => ⟨fits,zero⟩,And.right⟩
    · constructor
      · intro equal
        -- the size is below `2^32` and so is the number of bytes returned
        have lengths := congrArg List.length equal
        rw [length_take] at lengths
        have wraps := Nat.mod_lt bytes.length (show 2^32 > 0 by decide)
        omega
      · exact fun holds => absurd holds.1 fits

end

/-- After any calls of `put` and `setattr`, `get` returns the bytes of the array exactly if its length fits in the attributes'
`unsigned int` and every byte of the last buffer that a smaller size had cut off and that is below the size again is zero. -/
theorem resize_iff (id : Nat) (calls : List Change) :
    (calls.foldl Slot.change (startServer id)).get.1 = calls.foldl reference (startServer id).extent ↔
      ∀ bytes, calls.foldl reference (startServer id).extent = some bytes →
        bytes.length < 2^32 ∧ ∀ b ∈ (calls.foldl Cut.change ⟨[],0⟩).revealed bytes.length, b = 0 :=
  ((startServer_keeps id).run calls).get_iff

/-- Three bytes are put, cut to one and extended to three again: the two that were cut off are back. -/
theorem resize_reveals :
    let calls : List Change := [.put [97,98,99],.setattr 1,.setattr 3]
    (calls.foldl Slot.change (startServer 2)).get.1 = some [97,98,99] ∧
      calls.foldl reference (startServer 2).extent = some [97,0,0] := by
  decide

end CodeExercise.ExtentCache
