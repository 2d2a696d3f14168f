import ScopedAccess.LifecycleLaws
import ScopedAccess.Helpdesk

/-! Lifecycle calls on an assignment in memory (`models.py`, SPEC §8.1): what they read back from
the row, what they set, and what they put back when a receiver raises. -/

namespace ScopedAccess

/-- An assignment in memory: its columns, as loaded or set, and what is cached for the attribute
`revoked_by`. -/
structure AssignmentInstance where
  fields : AssignmentRow
  cachedRevokedBy : Option (Option Nat) := none

structure TransitionFields where
  status : AssignmentStatus
  revokedBy : Option Nat
  revokedById : Option Nat
  revokedAt : Option Time
  reason : String

structure Revocation where
  revokedBy : Option Nat
  revokedAt : Option Time
  reason : String

def AssignmentRow.change (row : AssignmentRow) (target : AssignmentStatus) :
    Option Revocation → AssignmentRow
  | none => { row with status := target }
  | some changes => { row with
      revokedBy := changes.revokedBy
      revokedAt := changes.revokedAt
      reason := changes.reason
      status := target }

namespace AssignmentInstance

variable (self : AssignmentInstance)

/-- `refresh_from_db()` also drops what was cached. -/
def refreshFromDb (row : AssignmentRow) : AssignmentInstance := { fields := row }

def revokedBy : Option Nat := self.cachedRevokedBy.getD self.fields.revokedBy

def loadRevokedBy : AssignmentInstance := { self with cachedRevokedBy := some self.revokedBy }

def setStatus (status : AssignmentStatus) : AssignmentInstance :=
  { self with fields := { self.fields with status } }

def setRevokedBy (user : Option Nat) : AssignmentInstance where
  fields := { self.fields with revokedBy := user }
  cachedRevokedBy := some user

def setRevokedById (id : Option Nat) : AssignmentInstance where
  fields := { self.fields with revokedBy := id }
  cachedRevokedBy := if self.fields.revokedBy = id then self.cachedRevokedBy else none

def setRevokedAt (revokedAt : Option Time) : AssignmentInstance :=
  { self with fields := { self.fields with revokedAt } }

def setReason (reason : String) : AssignmentInstance :=
  { self with fields := { self.fields with reason } }

def set (target : AssignmentStatus) : Option Revocation → AssignmentInstance
  | none => self.setStatus target
  | some changes =>
    (((self.setRevokedBy changes.revokedBy).setRevokedAt changes.revokedAt).setReason
      changes.reason).setStatus target

def transitionFields : TransitionFields where
  status := self.fields.status
  revokedBy := self.revokedBy
  revokedById := self.fields.revokedBy
  revokedAt := self.fields.revokedAt
  reason := self.fields.reason

def restoreTransitionFields (snapshot : TransitionFields) : AssignmentInstance :=
  let self := ((((self.setStatus snapshot.status).setRevokedBy snapshot.revokedBy).setRevokedById
    snapshot.revokedById).setRevokedAt snapshot.revokedAt).setReason snapshot.reason
  if snapshot.revokedById.isNone then { self with cachedRevokedBy := none } else self

end AssignmentInstance

namespace Instances

structure State where
  world : World
  self : AssignmentInstance

/-- A program that raises leaves the state as it then is. -/
def Live (α : Type) : Type := State → Py α × State

namespace Live

variable {α β : Type}

instance : Monad Live where
  pure x := fun s => (.ok x, s)
  bind p f := fun s => match p s with
    | (.ok x, s') => f x s'
    | (.error e, s') => (.error e, s')

theorem bind_ok {p : Live α} {f : α → Live β} {s s' : State} {x : α} (h : p s = (.ok x, s')) :
    (p >>= f) s = f x s' := by
  change (match p s with
    | (.ok x, s') => f x s'
    | (.error e, s') => (.error e, s')) = _
  rw [h]

theorem bind_error {p : Live α} {f : α → Live β} {s s' : State} {e : Abort}
    (h : p s = (.error e, s')) : (p >>= f) s = (.error e, s') := by
  change (match p s with
    | (.ok x, s') => f x s'
    | (.error e, s') => (.error e, s')) = _
  rw [h]

theorem bind_eq {p : Live α} {f : α → Live β} {s s' : State} {outcome : Py β}
    (h : (p >>= f) s = (outcome, s')) :
    (∃ e, p s = (.error e, s') ∧ outcome = .error e) ∨
      ∃ x v, p s = (.ok x, v) ∧ f x v = (outcome, s') := by
  rcases hp : p s with ⟨e | x, v⟩
  · rw [bind_error hp] at h
    cases h
    exact .inl ⟨e, rfl, rfl⟩
  · rw [bind_ok hp] at h
    exact .inr ⟨x, v, rfl, h⟩

def get : Live State := fun s => (.ok s, s)

def modify (f : AssignmentInstance → AssignmentInstance) : Live Unit := fun s =>
  (.ok (), { s with self := f s.self })

def raise (cls : ExnClass) (message : String) : Live α := fun s => (throwing cls message, s)

def reading (p : World → Py α) : Live α := fun s => (p s.world, s)

def atomic (p : Live α) : Live α := fun s =>
  match p s with
  | (.ok x, s') => (.ok x, s')
  | (.error e, s') => (.error e, { s' with world := s.world })

/-- `try: … except Exception: self._restore_transition_fields(snapshot); raise` -/
def restoring (snapshot : TransitionFields) (p : Live Unit) : Live Unit := fun s =>
  match p s with
  | (.error (.raised e), s') =>
    (.error (.raised e), { s' with self := s'.self.restoreTransitionFields snapshot })
  | outcome => outcome

end Live

open Live (get modify raise reading atomic restoring)

def authorizeTransition (actor : Option User) : Live Assignment := do
  let s ← get
  match s.world.tables.assignment s.self.fields.id with
  | none => raise .objectDoesNotExist "ScopeAssignment matching query does not exist."
  | some row =>
    modify fun _ => .refreshFromDb row
    reading fun w =>
      ((ScopeAssignment.authorizeTransition (some row.id) actor).run quiet w).map Prod.fst

def snapshotTransitionFields : Live TransitionFields := do
  let snapshot := (← get).self.transitionFields
  modify .loadRevokedBy
  return snapshot

def transition (target : AssignmentStatus) (allowedFrom : List AssignmentStatus)
    (changes : Option Revocation) : Live Unit := fun s =>
  match s.world.tables.assignment s.self.fields.id with
  | none => (throwing .objectDoesNotExist s!"Assignment {s.self.fields.id} no longer exists.", s)
  | some row =>
    if row.status ∉ allowedFrom then
      (throwing .invalidAssignmentTransitionError
        ("Cannot transition assignment from " ++ row.status.value ++ " to " ++ target.value ++ "."),
        { s with self := s.self.setStatus row.status })
    else match
      (s.world.tables.setAssignment s.self.fields.id (row.change target changes)).commit with
      | .error e => (.error e, s)
      | .ok t => (.ok (), { world := s.world.save t, self := s.self.set target changes })

abbrev Receiving := Signal → Live Unit

def finish (target : AssignmentStatus) (allowedFrom : List AssignmentStatus)
    (changes : Option Revocation) (signal : AssignmentRow → Signal) (receivers : Receiving) :
    Live Unit := do
  let snapshot ← snapshotTransitionFields
  transition target allowedFrom changes
  let s ← get
  restoring snapshot (receivers (signal s.self.fields))

inductive Call
  | suspend (actor : Option User) (reason : String)
  | reactivate (actor : Option User) (reason : String)
  | revoke (actor : Option User) (reason : String)

def suspend (actor : Option User) (reason : String) (receivers : Receiving) : Live Unit :=
  atomic do
    let _ ← authorizeTransition actor
    finish .suspended [.active] none (.assignmentSuspended · actor reason) receivers

def reactivate (actor : Option User) (reason : String) (receivers : Receiving) : Live Unit :=
  atomic do
    let a ← authorizeTransition actor
    if a.row.status ≠ .suspended then
      raise .invalidAssignmentTransitionError
        ("Cannot transition assignment from " ++ a.row.status.value ++ " to ACTIVE.")
    else
      let role ← reading fun w => ((refreshForMutation a.role).run quiet w).map Prod.fst
      let scope ← reading fun _ => ScopeAssignment.scopeUnlessRoot a
      let assigns ← reading fun w =>
        (canAssignRole actor role a.row.level (scope.map Obj.stored) none).run w
      if !assigns then
        raise .roleAssignmentError "The actor cannot delegate this role at the target scope."
      else finish .active [.suspended] none (.assignmentReactivated · actor reason) receivers

def revoke (actor : Option User) (reason : String) (receivers : Receiving) : Live Unit :=
  atomic do
    let _ ← authorizeTransition actor
    let s ← get
    finish .revoked [.active, .suspended]
      (some ⟨actor.map User.pk, some s.world.now, reason⟩)
      (.assignmentRevoked · actor reason) receivers

def Call.run : Call → Receiving → Live Unit
  | suspend actor reason => Instances.suspend actor reason
  | reactivate actor reason => Instances.reactivate actor reason
  | revoke actor reason => Instances.revoke actor reason

/-- The fields that a transition sets are those of the row. -/
structure Agrees (i : AssignmentInstance) (row : AssignmentRow) : Prop where
  status : i.fields.status = row.status
  revokedBy : i.revokedBy = row.revokedBy
  revokedById : i.fields.revokedBy = row.revokedBy
  revokedAt : i.fields.revokedAt = row.revokedAt
  reason : i.fields.reason = row.reason

variable {row : AssignmentRow} {i : AssignmentInstance}

theorem agrees_refreshed (row : AssignmentRow) : Agrees (.refreshFromDb row) row :=
  ⟨rfl, rfl, rfl, rfl, rfl⟩

theorem agrees_changed (h : i.fields = row) (target : AssignmentStatus)
    (changes : Option Revocation) (hcache : i.revokedBy = row.revokedBy) :
    Agrees (i.set target changes) (row.change target changes) := by
  subst h
  cases changes with
  | none => exact ⟨rfl, hcache, rfl, rfl, rfl⟩
  | some changes => exact ⟨rfl, rfl, rfl, rfl, rfl⟩

theorem agrees_restored {snapshot : TransitionFields}
    (h : snapshot = (AssignmentInstance.refreshFromDb row).transitionFields) :
    Agrees (i.restoreTransitionFields snapshot) row := by
  subst h
  -- without a user the cached one is dropped again
  cases hby : row.revokedBy <;> constructor <;>
    simp [AssignmentInstance.restoreTransitionFields, AssignmentInstance.transitionFields,
      AssignmentInstance.refreshFromDb, AssignmentInstance.revokedBy,
      AssignmentInstance.setReason, AssignmentInstance.setRevokedAt,
      AssignmentInstance.setRevokedById, AssignmentInstance.setRevokedBy,
      AssignmentInstance.setStatus, hby]

variable {s s' : State} {e : Exn} {actor : Option User} {reason : String} {receivers : Receiving}
  {outcome : Py Unit}

def Refreshed (s : State) (row : AssignmentRow) : Prop :=
  s.world.tables.assignment row.id = some row ∧ s.self = .refreshFromDb row

theorem Refreshed.of (hrow : s.world.tables.assignment s.self.fields.id = some row) :
    Refreshed { s with self := .refreshFromDb row } row := by
  obtain ⟨-, hid⟩ := s.world.tables.assignment_eq_some.mp hrow
  exact ⟨by rw [hid]; exact hrow, rfl⟩

theorem run_authorizeTransition (hrow : s.world.tables.assignment s.self.fields.id = some row) :
    authorizeTransition actor s =
      (((ScopeAssignment.authorizeTransition (some row.id) actor).run quiet s.world).map Prod.fst,
        { s with self := .refreshFromDb row }) := by
  have hget : get s = (.ok s, s) := rfl
  rw [authorizeTransition, Live.bind_ok hget]
  simp only [hrow]
  rfl

theorem atomic_eq {α : Type} {p : Live α} {outcome : Py α} (h : atomic p s = (outcome, s')) :
    ∃ v, p s = (outcome, v) ∧ s'.self = v.self ∧
      s'.world = if outcome.isOk then v.world else s.world := by
  unfold atomic at h
  split at h
  · rename_i hp
    cases h
    exact ⟨_, hp, rfl, rfl⟩
  · rename_i hp
    cases h
    exact ⟨_, hp, rfl, rfl⟩

inductive Finishes (s : State) (row : AssignmentRow) (receivers : Receiving) :
    Py Unit → State → Prop
  | early {abort : Abort} :
    Finishes s row receivers (.error abort) { s with self := .refreshFromDb row }
  | finish {target : AssignmentStatus} {allowedFrom : List AssignmentStatus}
    {changes : Option Revocation} {signal : AssignmentRow → Signal} {outcome : Py Unit} {v : State}
    (h : finish target allowedFrom changes signal receivers
      { s with self := .refreshFromDb row } = (outcome, v)) : Finishes s row receivers outcome v

theorem finishes_authorized {f : Assignment → Live Unit}
    (hrow : s.world.tables.assignment s.self.fields.id = some row)
    (h : (authorizeTransition actor >>= f) s = (outcome, s'))
    (hrest : ∀ a, f a { s with self := .refreshFromDb row } = (outcome, s') →
      Finishes s row receivers outcome s') : Finishes s row receivers outcome s' := by
  rcases Live.bind_eq h with ⟨abort, ha, rfl⟩ | ⟨a, v, ha, hf⟩
  · rw [run_authorizeTransition hrow] at ha
    obtain rfl : { s with self := .refreshFromDb row } = s' := congrArg Prod.snd ha
    exact .early
  · rw [run_authorizeTransition hrow] at ha
    obtain rfl : { s with self := .refreshFromDb row } = v := congrArg Prod.snd ha
    exact hrest a hf

theorem finishes_reading {α : Type} {p : World → Py α} {f : α → Live Unit}
    (h : (reading p >>= f) { s with self := .refreshFromDb row } = (outcome, s'))
    (hrest : ∀ x, f x { s with self := .refreshFromDb row } = (outcome, s') →
      Finishes s row receivers outcome s') : Finishes s row receivers outcome s' := by
  rcases Live.bind_eq h with ⟨abort, hx, rfl⟩ | ⟨x, v, hx, hf⟩
  · obtain rfl : { s with self := .refreshFromDb row } = s' := congrArg Prod.snd hx
    exact .early
  · obtain rfl : { s with self := .refreshFromDb row } = v := congrArg Prod.snd hx
    exact hrest x hf

theorem Call.run_eq {call : Call}
    (hrow : s.world.tables.assignment s.self.fields.id = some row)
    (h : call.run receivers s = (outcome, s')) :
    ∃ v, Finishes s row receivers outcome v ∧ s'.self = v.self ∧
      s'.world = if outcome.isOk then v.world else s.world := by
  cases call with
  | suspend actor reason =>
    obtain ⟨v, hv, hs'⟩ := atomic_eq h
    exact ⟨v, finishes_authorized hrow hv fun a ha => .finish ha, hs'⟩
  | revoke actor reason =>
    obtain ⟨v, hv, hs'⟩ := atomic_eq h
    exact ⟨v, finishes_authorized hrow hv fun a ha => .finish ha, hs'⟩
  | reactivate actor reason =>
    obtain ⟨v, hv, hs'⟩ := atomic_eq h
    refine ⟨v, finishes_authorized hrow hv fun a ha => ?_, hs'⟩
    split at ha
    · cases ha
      exact .early
    · refine finishes_reading ha fun role ha => finishes_reading ha fun scope ha =>
        finishes_reading ha fun assigns ha => ?_
      split at ha
      · cases ha
        exact .early
      · exact .finish ha

theorem transition_raised {target : AssignmentStatus} {allowedFrom : List AssignmentStatus}
    {changes : Option Revocation} {abort : Abort}
    (hrow : s.world.tables.assignment s.self.fields.id = some row) (hagrees : Agrees s.self row)
    (h : transition target allowedFrom changes s = (.error abort, s')) :
    Agrees s'.self row ∧ s'.self.fields.id = s.self.fields.id := by
  simp only [transition, hrow] at h
  split at h
  · cases h
    exact ⟨⟨rfl, hagrees.revokedBy, hagrees.revokedById, hagrees.revokedAt, hagrees.reason⟩, rfl⟩
  · split at h
    · cases h
      exact ⟨hagrees, rfl⟩
    · cases h

def State.loaded (s : State) (row : AssignmentRow) : State :=
  { s with self := (AssignmentInstance.refreshFromDb row).loadRevokedBy }

theorem run_snapshot (hs : Refreshed s row) : snapshotTransitionFields s =
    (.ok (AssignmentInstance.refreshFromDb row).transitionFields, s.loaded row) := by
  obtain ⟨w, i⟩ := s
  obtain rfl : i = .refreshFromDb row := hs.2
  rfl

theorem agrees_loaded (row : AssignmentRow) :
    Agrees (AssignmentInstance.refreshFromDb row).loadRevokedBy row :=
  ⟨rfl, rfl, rfl, rfl, rfl⟩

theorem finish_raised {target : AssignmentStatus} {allowedFrom : List AssignmentStatus}
    {changes : Option Revocation} {signal : AssignmentRow → Signal} (hs : Refreshed s row)
    (h : finish target allowedFrom changes signal receivers s = (.error (.raised e), s')) :
    Agrees s'.self row := by
  rw [finish, Live.bind_ok (run_snapshot hs)] at h
  rcases Live.bind_eq h with ⟨abort, ht, habort⟩ | ⟨_, v, -, hr⟩
  · cases habort
    exact (transition_raised (s := s.loaded row) hs.1 (agrees_loaded row) ht).1
  · have hget : get v = (.ok v, v) := rfl
    rw [Live.bind_ok hget, restoring] at hr
    split at hr
    · cases hr
      exact agrees_restored rfl
    · rename_i hother
      exact absurd hr (hother e s')

/-- What the receivers of a signal do in one run: calls on the same instance, each with what its
own receivers do, and with what comes after it returned or raised. -/
inductive Receiver
  | done
  | raise (e : Exn)
  | again (call : Call) (within : Receiver) (next : Option Exn → Receiver)

def Receiver.run : Receiver → Live Unit
  | done => fun s => (.ok (), s)
  | raise e => fun s => (.error (.raised e), s)
  | again call within next => fun s =>
    match call.run (fun _ => within.run) s with
    | (.ok (), s') => (next none).run s'
    | (.error (.raised e), s') => (next (some e)).run s'
    | (.error .diverges, s') => (.error .diverges, s')

theorem Finishes.raised {v : State} (h : Finishes s row receivers (.error (.raised e)) v)
    (hrow : s.world.tables.assignment s.self.fields.id = some row) : Agrees v.self row := by
  cases h with
  | early => exact agrees_refreshed row
  | finish hfinish => exact finish_raised (.of hrow) hfinish

/-- A call that raises leaves the row as it was, and the instance with the fields of the row,
whatever the instance was and whatever the receivers did to it and to the tables. -/
theorem failed_call_agrees {call : Call}
    (hrow : s.world.tables.assignment s.self.fields.id = some row)
    (h : call.run receivers s = (.error (.raised e), s')) :
    s'.world = s.world ∧ Agrees s'.self row := by
  obtain ⟨v, hv, hself, hworld⟩ := Call.run_eq hrow h
  exact ⟨hworld, hself ▸ hv.raised hrow⟩

open Helpdesk (staffed alice)

def mailer : Receiver :=
  .again (.reactivate (some alice) "") .done fun _ =>
    .again (.revoke (some alice) "left") .done fun _ => .raise ⟨.valueError, "no mail server"⟩

def edited : AssignmentInstance where
  fields := { id := 2, user := 1, role := 2, level := none, status := .revoked, reason := "gone" }

theorem mailer_undone : ∃ s' : State,
    (Call.suspend (some alice) "away").run (fun _ => mailer.run) ⟨staffed, edited⟩ =
        (.error (.raised ⟨.valueError, "no mail server"⟩), s') ∧
      s'.world = staffed ∧ s'.self.fields.status = .active := by
  have h : (Call.suspend (some alice) "away").run (fun _ => mailer.run) ⟨staffed, edited⟩ =
      (.error (.raised ⟨.valueError, "no mail server"⟩), _) := Prod.ext (by decide +kernel) rfl
  obtain ⟨hworld, hagrees⟩ := failed_call_agrees (Option.some_get (by decide)).symm h
  exact ⟨_, h, hworld, hagrees.status⟩

/-- The instance is one of the stored assignment, and agrees with it. -/
def Synced (id : Nat) (s : State) : Prop :=
  s.self.fields.id = id ∧ ∃ row, s.world.tables.assignment id = some row ∧ Agrees s.self row

def Keeps (id : Nat) (p : Live Unit) : Prop :=
  ∀ {s s' outcome}, Synced id s → p s = (outcome, s') → outcome ≠ .error .diverges → Synced id s'

theorem assignment_setAssignment {t t' : Tables} {row' : AssignmentRow}
    (hrow : t.assignment row.id = some row) (hid : row'.id = row.id)
    (ht : t'.toTableRows = t.setAssignment row.id row') : t'.assignment row.id = some row' := by
  refine t'.assignment_eq_some.mpr ⟨?_, hid⟩
  rw [ht]
  exact Lib.Rows.mem_modify.mpr (.inr ⟨row, (t.assignment_eq_some.mp hrow).1, rfl, rfl⟩)

theorem transition_returned {target : AssignmentStatus} {allowedFrom : List AssignmentStatus}
    {changes : Option Revocation} (hrow : s.world.tables.assignment row.id = some row)
    (hself : s.self.fields = row) (hcache : s.self.revokedBy = row.revokedBy)
    (h : transition target allowedFrom changes s = (.ok (), s')) : Synced row.id s' := by
  have hid : s.self.fields.id = row.id := congrArg AssignmentRow.id hself
  simp only [transition, hid, hrow] at h
  split at h
  · cases h
  · split at h
    · cases h
    · rename_i t ht
      cases h
      have hchanged : (row.change target changes).id = row.id := by cases changes <;> rfl
      refine ⟨by rw [← hid]; cases changes <;> rfl, row.change target changes, ?_, ?_⟩
      · exact assignment_setAssignment hrow hchanged (TableRows.commit_ok ht)
      · exact agrees_changed hself target changes hcache

theorem finish_keeps {target : AssignmentStatus} {allowedFrom : List AssignmentStatus}
    {changes : Option Revocation} {signal : AssignmentRow → Signal} (hs : Refreshed s row)
    (hreceivers : ∀ signal, Keeps row.id (receivers signal))
    (h : finish target allowedFrom changes signal receivers s = (outcome, s'))
    (hends : outcome ≠ .error .diverges) :
    s'.self.fields.id = row.id ∧ (outcome = .ok () → Synced row.id s') := by
  rw [finish, Live.bind_ok (run_snapshot hs)] at h
  rcases Live.bind_eq h with ⟨abort, ht, rfl⟩ | ⟨⟨⟩, v, hv, hr⟩
  · obtain ⟨-, hid⟩ := transition_raised (s := s.loaded row) hs.1 (agrees_loaded row) ht
    exact ⟨hid, fun hok => nomatch hok⟩
  · have hsynced : Synced row.id v :=
      transition_returned (s := s.loaded row) hs.1 rfl rfl hv
    have hget : get v = (.ok v, v) := rfl
    rw [Live.bind_ok hget, restoring] at hr
    split at hr
    · rename_i x hx
      cases hr
      obtain ⟨hid, -⟩ := hreceivers _ hsynced hx (by simp)
      refine ⟨?_, fun hok => nomatch hok⟩
      rw [← hid]
      simp only [AssignmentInstance.restoreTransitionFields]
      split <;> rfl
    · have hkept := hreceivers _ hsynced hr hends
      exact ⟨hkept.1, fun _ => hkept⟩

theorem Call.keeps (call : Call) {id : Nat} {receivers : Receiving}
    (hreceivers : ∀ signal, Keeps id (receivers signal)) : Keeps id (call.run receivers) := by
  intro s s' outcome hsynced h hends
  obtain ⟨hid, row, hrow, -⟩ := hsynced
  obtain ⟨-, rfl⟩ := s.world.tables.assignment_eq_some.mp hrow
  rw [← hid] at hrow
  obtain ⟨v, hv, hself, hworld⟩ := Call.run_eq hrow h
  rw [hid] at hrow
  cases outcome with
  | ok _ =>
    cases hv with
    | finish hfinish =>
      obtain ⟨-, hkept⟩ := finish_keeps (.of (hid ▸ hrow)) hreceivers hfinish hends
      obtain ⟨hid', row', hrow', hagrees⟩ := hkept rfl
      exact ⟨hself ▸ hid', row', hworld ▸ hrow', hself ▸ hagrees⟩
  | error abort =>
    cases abort with
    | diverges => exact absurd rfl hends
    | raised e =>
      have hagrees : Agrees v.self row := hv.raised (by rw [hid]; exact hrow)
      refine ⟨?_, row, hworld ▸ hrow, hself ▸ hagrees⟩
      rw [hself]
      cases hv with
      | early => rfl
      | finish hfinish => exact (finish_keeps (.of (hid ▸ hrow)) hreceivers hfinish hends).1

theorem Receiver.keeps (receiver : Receiver) (id : Nat) : Keeps id receiver.run := by
  induction receiver with
  | done =>
    intro s s' outcome hsynced h _
    cases h
    exact hsynced
  | raise e =>
    intro s s' outcome hsynced h _
    cases h
    exact hsynced
  | again call within next ihwithin ihnext =>
    intro s s' outcome hsynced h hends
    have hcall : Keeps id (call.run fun _ => within.run) := call.keeps fun _ => ihwithin
    simp only [Receiver.run] at h
    split at h
    · exact ihnext none (hcall hsynced ‹_› (by simp)) h hends
    · exact ihnext (some _) (hcall hsynced ‹_› (by simp)) h hends
    · cases h
      exact absurd rfl hends

section Simulation

variable {α β : Type}

/-- On the world alone the program is the operation. -/
def Simulates (s : State) (p : Live α) (q : Op α) : Prop :=
  q.run quiet s.world = (p s).1.map fun x => (x, (p s).2.world)

theorem Simulates.bind {p : Live α} {q : Op α} {f : α → Live β} {g : α → Op β}
    (h : Simulates s p q) (hf : ∀ {x v}, p s = (.ok x, v) → Simulates v (f x) (g x)) :
    Simulates s (p >>= f) (q >>= g) := by
  unfold Simulates at h ⊢
  rw [Op.run_bind, h]
  rcases hp : p s with ⟨e | x, v⟩
  · rw [Live.bind_error hp]
    rfl
  · rw [Live.bind_ok hp]
    exact hf hp

theorem Simulates.atomic {p : Live α} {q : Op α} (h : Simulates s p q) :
    Simulates s (Live.atomic p) q := by
  unfold Simulates at h ⊢
  rw [h, Live.atomic]
  rcases p s with ⟨e | x, v⟩ <;> rfl

theorem simulates_raise (cls : ExnClass) (message : String) :
    Simulates s (raise cls message : Live α) (Op.raise cls message) := rfl

theorem reading_state {p : World → Py α} {outcome : Py α} {v : State}
    (h : reading p s = (outcome, v)) : v = s :=
  (congrArg Prod.snd h).symm

theorem simulates_reading {q : Op α}
    (hq : ∀ {x w'}, q.run quiet s.world = .ok (x, w') → w' = s.world) :
    Simulates s (reading fun w => (q.run quiet w).map Prod.fst) q := by
  change q.run quiet s.world = ((q.run quiet s.world).map Prod.fst).map _
  cases h : q.run quiet s.world with
  | error e => rfl
  | ok r =>
    obtain ⟨x, w'⟩ := r
    obtain rfl := hq h
    rfl

theorem simulates_read {p : Read α} {q : Op α} (hq : liftM p = q) :
    Simulates s (reading p.run) q := by
  subst hq
  exact Op.run_ofRead p

theorem simulates_py {p : Py α} {q : Op α} (hq : liftM p = q) :
    Simulates s (reading fun _ => p) q := by
  subst hq
  cases p <;> rfl

theorem simulates_authorizeTransition
    (hrow : s.world.tables.assignment s.self.fields.id = some row) :
    Simulates s (authorizeTransition actor)
      (ScopeAssignment.authorizeTransition (some row.id) actor) := by
  unfold Simulates
  rw [run_authorizeTransition hrow]
  refine simulates_reading fun h => ?_
  obtain ⟨-, -, -, -, -, -, -, hw⟩ := ScopeAssignment.authorizeTransition_ok h
  exact hw

def silent : Receiving := fun _ s => (.ok (), s)

theorem run_transition {pk : Nat} {target : AssignmentStatus} {allowedFrom : List AssignmentStatus}
    {changed : AssignmentRow → AssignmentRow} {w : World}
    (hrow : w.tables.assignment pk = some row) :
    (ScopeAssignment.transition pk target allowedFrom changed).run quiet w =
      if row.status ∉ allowedFrom then
        throwing .invalidAssignmentTransitionError ("Cannot transition assignment from " ++
          row.status.value ++ " to " ++ target.value ++ ".")
      else (w.tables.setAssignment pk { changed row with status := target }).commit.map
        fun t => ({ changed row with status := target }, w.save t) := by
  rw [ScopeAssignment.transition, Op.run_ask_bind]
  simp only [hrow]
  split
  · rfl
  · rw [Op.run_bind, Op.write, Op.run_bind]
    cases (w.tables.setAssignment pk { changed row with status := target }).commit <;> rfl

theorem transition_eq (target : AssignmentStatus) (allowedFrom : List AssignmentStatus)
    (changes : Option Revocation) (hrow : s.world.tables.assignment s.self.fields.id = some row) :
    transition target allowedFrom changes s =
      if row.status ∉ allowedFrom then
        (throwing .invalidAssignmentTransitionError ("Cannot transition assignment from " ++
          row.status.value ++ " to " ++ target.value ++ "."),
          { s with self := s.self.setStatus row.status })
      else match
        (s.world.tables.setAssignment s.self.fields.id (row.change target changes)).commit with
        | .error e => (.error e, s)
        | .ok t => (.ok (), { world := s.world.save t, self := s.self.set target changes }) := by
  simp only [transition, hrow]

theorem simulates_finish {target : AssignmentStatus} {allowedFrom : List AssignmentStatus}
    {changes : Option Revocation} {signal : AssignmentRow → Signal} {a : Assignment}
    {changed : AssignmentRow → AssignmentRow} (hs : Refreshed s row) (ha : a.row = row)
    (hchanged : { changed row with status := target } = row.change target changes) :
    Simulates s (finish target allowedFrom changes signal silent)
      (ScopeAssignment.finish a target allowedFrom changed signal) := by
  subst ha
  unfold Simulates
  rw [finish, Live.bind_ok (run_snapshot hs), ScopeAssignment.finish, Op.run_bind,
    run_transition hs.1, hchanged]
  have heq := transition_eq (s := s.loaded a.row) target allowedFrom changes hs.1
  by_cases hallowed : a.row.status ∈ allowedFrom
  · cases ht : (s.world.tables.setAssignment a.row.id (a.row.change target changes)).commit with
    | error e =>
      have herror : transition target allowedFrom changes (s.loaded a.row) =
          (.error e, s.loaded a.row) := by
        rw [heq, if_neg (not_not.mpr hallowed)]
        change (match (s.world.tables.setAssignment a.row.id _).commit with
          | .error e => _
          | .ok t => _) = _
        rw [ht]
      rw [Live.bind_error herror, if_neg (not_not.mpr hallowed)]
      rfl
    | ok t =>
      have hok : transition target allowedFrom changes (s.loaded a.row) =
          (.ok (), ⟨s.world.save t, (s.loaded a.row).self.set target changes⟩) := by
        rw [heq, if_neg (not_not.mpr hallowed)]
        change (match (s.world.tables.setAssignment a.row.id _).commit with
          | .error e => _
          | .ok t => _) = _
        rw [ht]
        rfl
      rw [Live.bind_ok hok, if_neg (not_not.mpr hallowed)]
      rfl
  · rw [if_pos hallowed] at heq ⊢
    rw [Live.bind_error heq]
    rfl

def Call.op (pk : Nat) : Call → Op Unit
  | suspend actor reason => ScopeAssignment.suspend (some pk) actor reason
  | reactivate actor reason => ScopeAssignment.reactivate (some pk) actor reason
  | revoke actor reason => ScopeAssignment.revoke (some pk) actor reason

theorem authorizeTransition_returned {a : Assignment} {v : State}
    (hrow : s.world.tables.assignment s.self.fields.id = some row)
    (h : authorizeTransition actor s = (.ok a, v)) : a.row = row ∧ Refreshed v row := by
  rw [run_authorizeTransition hrow] at h
  obtain rfl : { s with self := .refreshFromDb row } = v := congrArg Prod.snd h
  refine ⟨?_, .of hrow⟩
  obtain ⟨⟨x, w'⟩, hrun, hx⟩ := Lib.Loop.map_eq_ok.mp (congrArg Prod.fst h)
  obtain rfl : x = a := hx
  obtain ⟨row', -, hid, hrow', hload, -⟩ := ScopeAssignment.authorizeTransition_ok hrun
  rw [← Option.some.inj hid, (Refreshed.of hrow).1] at hrow'
  exact (World.loaded_row hload).trans (Option.some.inj hrow').symm

theorem Call.simulates (call : Call)
    (hrow : s.world.tables.assignment s.self.fields.id = some row) :
    Simulates s (call.run silent) (call.op row.id) := by
  cases call with
  | suspend actor reason =>
    refine .atomic ((simulates_authorizeTransition hrow).bind fun hauth => ?_)
    obtain ⟨ha, hs⟩ := authorizeTransition_returned hrow hauth
    exact simulates_finish hs ha rfl
  | revoke actor reason =>
    refine .atomic ((simulates_authorizeTransition hrow).bind fun hauth => ?_)
    obtain ⟨ha, hs⟩ := authorizeTransition_returned hrow hauth
    exact simulates_finish hs ha rfl
  | reactivate actor reason =>
    refine .atomic ((simulates_authorizeTransition hrow).bind fun hauth => ?_)
    obtain ⟨ha, hs⟩ := authorizeTransition_returned hrow hauth
    split
    · exact simulates_raise _ _
    · refine (simulates_reading fun h => ?_).bind fun hrole => ?_
      · obtain ⟨-, -, -, -, hw⟩ := refreshForMutation_ok.mp h
        exact hw
      obtain rfl := reading_state hrole
      refine (simulates_py rfl).bind fun hscope => ?_
      obtain rfl := reading_state hscope
      refine (simulates_read rfl).bind fun hassigns => ?_
      obtain rfl := reading_state hassigns
      split
      · exact simulates_raise _ _
      · exact simulates_finish hs ha rfl

end Simulation

end Instances

end ScopedAccess
