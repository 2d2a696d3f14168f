import ScopedAccess.Lifecycle
import ScopedAccess.Lib.Shared
import ScopedAccess.Lib.Txn

/-! Granting and the lifecycle transitions (`models.py`), one database statement at a
time, in transactions that other connections run next to them. -/

namespace ScopedAccess

namespace Concurrent

open Lib.Shared (Signature Prog)
open Lib.Txn (Db)

/-- The `**changes` of `_transition`, where there are any. -/
structure Audit where
  revokedBy : Option Nat
  revokedAt : Time
  reason : String
  deriving DecidableEq

def moveTo (row : AssignmentRow) (target : AssignmentStatus) : Option Audit → AssignmentRow
  | none => { row with status := target }
  | some audit => { row with
      status := target
      revokedBy := audit.revokedBy
      revokedAt := some audit.revokedAt
      reason := audit.reason }

inductive Entry
  | granted (row : AssignmentRow)
  | moved (target : AssignmentStatus) (audit : Option Audit)

structure Store where
  db : Db AssignmentRow Entry
  next : Nat
  site : World
  receivers : Receivers

inductive Call
  | grant (user : User) (role : Role) (actor : Option User) (level : Option String)
    (scope : Option Obj) (validFrom validUntil : Option Time)
  | suspend (pk : Option Nat) (actor : Option User) (reason : String)
  | reactivate (pk : Option Nat) (actor : Option User) (reason : String)
  | revoke (pk : Option Nat) (actor : Option User) (reason : String)

inductive Stmt
  | enter (conn : Nat)
  | leave (conn : Nat) (call : Option Call)
  | undo (conn : Nat)
  | select (conn pk : Nat)
  | update (conn pk : Nat) (target : AssignmentStatus) (allowedFrom : List AssignmentStatus)
    (changes : Option Audit)
  | insert (conn : Nat) (row : AssignmentRow)
  | ask
  | effective (u : User) (at_ : Option Time)
  | valid (a : Assignment)
  | send (s : Signal)

abbrev Stmt.Res : Stmt → Type
  | .enter .. | .leave .. | .undo .. => Unit
  | .select .. | .insert .. => Option AssignmentRow
  | .update .. => Bool
  | .ask => World
  | .effective .. => Py (List Assignment)
  | .valid _ => Py Bool
  | .send _ => Option Exn

abbrev sig : Signature := ⟨Stmt, Stmt.Res⟩

abbrev M (α : Type) := Prog sig Abort α

/-- The constraints are checked against the rows the connection sees. -/
def Store.refuses (s : Store) (conn : Nat) (row : AssignmentRow) : Bool :=
  (List.range s.next).any fun pk => (s.db.visible conn pk).any row.collides

def act : (o : Stmt) → Store → o.Res × Store
  | .enter conn, s => ((), { s with db := s.db.enter conn })
  | .leave conn _, s => ((), { s with db := s.db.leave conn })
  | .undo conn, s => ((), { s with db := s.db.undo conn })
  | .select conn pk, s => (s.db.visible conn pk, s)
  | .update conn pk target allowedFrom changes, s =>
    match s.db.visible conn pk with
    | none => (false, s)
    | some row =>
      if row.status ∈ allowedFrom then
        (true, { s with
          db := s.db.write conn pk (moveTo row target changes) (.moved target changes) })
      else (false, s)
  | .insert conn row, s =>
    let row := { row with id := s.next }
    if s.refuses conn row then (none, { s with next := s.next + 1 })
    else (some row, { s with
      db := s.db.write conn s.next row (.granted row)
      next := s.next + 1 })
  | .ask, s => (s.site, s)
  | .effective u at_, s => (s.site.fetchEffective u (at_.getD s.site.now), s)
  | .valid a, s => (s.site.assignmentIsValid a, s)
  | .send signal, s => (s.receivers signal, s)

def perform (o : Stmt) : M o.Res := Prog.perform (S := sig) o

def raise {α : Type} (cls : ExnClass) (message : String) : M α :=
  Prog.raise (.raised ⟨cls, message⟩)

def liftPy {α : Type} : Py α → M α
  | .ok x => pure x
  | .error e => Prog.raise e

def ofRead {α : Type} : Read α → M α
  | .pure x => .done x
  | .abort e => .fail e
  | .world k => .call .ask fun w => ofRead (k w)
  | .effective u at_ k => .call (.effective u at_) fun
    | .ok as => ofRead (k as)
    | .error e => .fail e
  | .valid a k => .call (.valid a) fun
    | .ok b => ofRead (k b)
    | .error e => .fail e

def emit (s : Signal) : M Unit := do
  match ← perform (.send s) with
  | none => return
  | some e => Prog.raise (.raised e)

variable (conn : Nat)

def atomic {α : Type} (call : Option Call) (p : M α) : M α := do
  perform (.enter conn)
  match ← p.attempt with
  | .ok x =>
    perform (.leave conn call)
    return x
  | .error e =>
    perform (.undo conn)
    Prog.raise e

def refreshForMutation (role : Role) : M Role := do
  let w ← perform .ask
  match role.pk.bind w.tables.role with
  | none => raise .objectDoesNotExist "Role matching query does not exist."
  | some row => return w.loadRole row

def grant (user : User) (role : Role) (actor : Option User) (level : Option String)
    (scope : Option Obj) (validFrom validUntil : Option Time) : M Unit :=
  atomic conn (some (.grant user role actor level scope validFrom validUntil)) do
    let w ← perform .ask
    let level ← liftPy (w.grantLevel level scope)
    if !ScopeAssignment.windowOpens validFrom validUntil then
      raise .valueError "valid_until must be later than valid_from."
    else
      let role ← refreshForMutation role
      let v ← perform .ask
      if !(← liftPy (v.roleAssignable role level scope)) then
        raise .roleAssignmentError "A custom role can only be assigned inside its owner's subtree."
      else if !(← ofRead (canManageAssignment actor scope none)) then
        raise .assignmentManagementPermissionError
          "The actor cannot manage assignments at the target scope."
      else if !(← ofRead (canAssignRole actor role level scope none)) then
        raise .roleAssignmentError "The actor cannot delegate this role at the target scope."
      else
        let v ← perform .ask
        match ← perform (.insert conn {
          id := 0
          user := user.pk
          role := role.pk.getD 0
          level := level
          scopeCt := scope.map fun scope => w.site.schema.contentType scope.model
          scopeId := scope.map (·.row.pk)
          validFrom := validFrom
          validUntil := validUntil
          grantedBy := actor.map User.pk
          grantedAt := v.now }) with
        | none => raise .integrityError "constraint failed"
        | some assignment => emit (.assignmentGranted assignment actor)

def authorizeTransition (pk : Option Nat) (actor : Option User) : M (Nat × Assignment) := do
  match pk with
  | none =>
    raise .invalidAssignmentTransitionError "An unsaved assignment cannot change status."
  | some pk =>
    match ← perform (.select conn pk) with
    | none => raise .objectDoesNotExist "ScopeAssignment matching query does not exist."
    | some row =>
      let w ← perform .ask
      match w.loadAssignment row with
      | none => raise .objectDoesNotExist "ScopeAssignment matching query does not exist."
      | some a =>
        let scope ← liftPy (ScopeAssignment.scopeUnlessRoot a)
        let allowed ←
          if a.row.scopeId.isSome && scope.isNone then ofRead (canManageAssignment actor none none)
          else ofRead (canManageAssignment actor (scope.map Obj.stored) none)
        if !allowed then
          raise .assignmentManagementPermissionError
            "The actor cannot manage assignments at the assignment's scope."
        else return (pk, a)

def transition (pk : Nat) (target : AssignmentStatus) (allowedFrom : List AssignmentStatus)
    (changes : Option Audit) : M Unit := do
  if ← perform (.update conn pk target allowedFrom changes) then return
  else
    match ← perform (.select conn pk) with
    | none => raise .objectDoesNotExist s!"Assignment {pk} no longer exists."
    | some row =>
      raise .invalidAssignmentTransitionError
        ("Cannot transition assignment from " ++ row.status.value ++ " to " ++ target.value ++ ".")

def suspend (pk : Option Nat) (actor : Option User) (reason : String) : M Unit :=
  atomic conn (some (.suspend pk actor reason)) do
    let (pk, a) ← authorizeTransition conn pk actor
    transition conn pk .suspended [.active] none
    emit (.assignmentSuspended (moveTo a.row .suspended none) actor reason)

def reactivate (pk : Option Nat) (actor : Option User) (reason : String) : M Unit :=
  atomic conn (some (.reactivate pk actor reason)) do
    let (pk, a) ← authorizeTransition conn pk actor
    let persisted := (← perform (.select conn pk)).map AssignmentRow.status
    if persisted ≠ some .suspended then
      raise .invalidAssignmentTransitionError
        ("Cannot transition assignment from " ++ (persisted.getD a.row.status).value ++
          " to ACTIVE.")
    else
      let role ← refreshForMutation a.role
      let scope ← liftPy (ScopeAssignment.scopeUnlessRoot a)
      if !(← ofRead (canAssignRole actor role a.row.level (scope.map Obj.stored) none)) then
        raise .roleAssignmentError "The actor cannot delegate this role at the target scope."
      else
        transition conn pk .active [.suspended] none
        emit (.assignmentReactivated (moveTo a.row .active none) actor reason)

def revoke (pk : Option Nat) (actor : Option User) (reason : String) : M Unit :=
  atomic conn (some (.revoke pk actor reason)) do
    let (pk, a) ← authorizeTransition conn pk actor
    let now := (← perform .ask).now
    let changes : Audit := { revokedBy := actor.map User.pk, revokedAt := now, reason := reason }
    transition conn pk .revoked [.active, .suspended] (some changes)
    emit (.assignmentRevoked (moveTo a.row .revoked (some changes)) actor reason)

def Call.body : Call → M Unit
  | .grant user role actor level scope validFrom validUntil =>
    Concurrent.grant conn user role actor level scope validFrom validUntil
  | .suspend pk actor reason => Concurrent.suspend conn pk actor reason
  | .reactivate pk actor reason => Concurrent.reactivate conn pk actor reason
  | .revoke pk actor reason => Concurrent.revoke conn pk actor reason

/-- What a connection runs: calls, on their own or in blocks, and what it does when
they have returned or raised. -/
inductive Code
  | done
  | fail (e : Abort)
  | call (c : Call) (next : Option Abort → Code)
  | atomic (body : Code) (next : Option Abort → Code)

def outcome {α : Type} : Except Abort α → Option Abort
  | .ok _ => none
  | .error e => some e

def Code.body : Code → M Unit
  | .done => return
  | .fail e => Prog.raise e
  | .call c next => do
    let r ← (c.body conn).attempt
    (next (outcome r)).body
  | .atomic body next => do
    let r ← (Concurrent.atomic conn none body.body).attempt
    (next (outcome r)).body

end Concurrent

end ScopedAccess
