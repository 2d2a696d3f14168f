import ScopedAccess.Locked.Edits
import ScopedAccess.Lib.Shared

/-! Grants, transitions and changes of roles (`models.py`, `services.py`), one database statement
at a time.  A role is locked before a call decides what to write about it, and the lock lasts as
long as the transaction. -/

namespace ScopedAccess.Locked

open Concurrent (Audit moveTo)
open Lib.Locks (Db Change)
open Lib.Shared (Signature Prog)
open Read (ask)

def raise {α : Type} (cls : ExnClass) (message : String) : Read α := .abort (.raised ⟨cls, message⟩)

/-- What a call writes, what it does if no row was to be changed, and the signal it sends
with the key of the row. -/
structure Decision where
  edit : Edit
  missed : Read Unit := pure ()
  signal : Nat → Option Signal := fun _ => none

/-- The role to lock, and what is decided then. -/
structure Plan where
  role : Option Nat
  decide : Read Decision

def refreshed (pk : Nat) : Read Role := do
  let w ← ask
  match w.tables.role pk with
  | none => raise .objectDoesNotExist "Role matching query does not exist."
  | some row => return w.loadRole row

def refreshForMutation (role : Role) (decide : Role → Read Decision) : Read Plan :=
  match role.pk with
  | none => raise .objectDoesNotExist "Role matching query does not exist."
  | some pk => return ⟨some pk, refreshed pk >>= decide⟩

/-- `ScopeAssignment.objects.grant`, from the level on. -/
def grantDecision (user : User) (actor : Option User) (level : Option String) (scope : Option Obj)
    (validFrom validUntil : Option Time) (role : Role) : Read Decision := do
  let w ← ask
  if !(← w.roleAssignable role level scope) then
    raise .roleAssignmentError "A custom role can only be assigned inside its owner's subtree."
  else if !(← canManageAssignment actor scope none) then
    raise .assignmentManagementPermissionError
      "The actor cannot manage assignments at the target scope."
  else if !(← canAssignRole actor role level scope none) then
    raise .roleAssignmentError "The actor cannot delegate this role at the target scope."
  else
    let w ← ask
    let row : AssignmentRow := {
      id := 0
      user := user.pk
      role := role.pk.getD 0
      level := level
      scopeCt := scope.map fun scope => w.site.schema.contentType scope.model
      scopeId := scope.map (·.row.pk)
      validFrom := validFrom
      validUntil := validUntil
      grantedBy := actor.map User.pk
      grantedAt := w.now }
    return {
      edit := .assigned row
      signal := fun pk => some (.assignmentGranted { row with id := pk } actor) }

def grant (user : User) (role : Role) (actor : Option User) (level : Option String)
    (scope : Option Obj) (validFrom validUntil : Option Time) : Read Plan := do
  let w ← ask
  let level ← w.grantLevel level scope
  if !ScopeAssignment.windowOpens validFrom validUntil then
    raise .valueError "valid_until must be later than valid_from."
  else refreshForMutation role (grantDecision user actor level scope validFrom validUntil)

def authorizeTransition (pk : Option Nat) (actor : Option User) : Read Assignment := do
  match pk with
  | none =>
    raise .invalidAssignmentTransitionError "An unsaved assignment cannot change status."
  | some pk =>
    let w ← ask
    match (w.tables.assignment pk).bind w.loadAssignment with
    | none => raise .objectDoesNotExist "ScopeAssignment matching query does not exist."
    | some a =>
      let scope ← ScopeAssignment.scopeUnlessRoot a
      let allowed ← if a.row.scopeId.isSome && scope.isNone then canManageAssignment actor none none
        else canManageAssignment actor (scope.map Obj.stored) none
      if !allowed then
        raise .assignmentManagementPermissionError
          "The actor cannot manage assignments at the assignment's scope."
      else return a

def missedTransition (pk : Nat) (target : AssignmentStatus) : Read Unit := do
  match (← ask).tables.assignment pk with
  | none => raise .objectDoesNotExist s!"Assignment {pk} no longer exists."
  | some row =>
    raise .invalidAssignmentTransitionError
      ("Cannot transition assignment from " ++ row.status.value ++ " to " ++ target.value ++ ".")

def transition (a : Assignment) (target : AssignmentStatus) (allowedFrom : List AssignmentStatus)
    (changes : Option Audit) (signal : AssignmentRow → Signal) : Decision where
  edit := .moved a.row.id target allowedFrom changes
  missed := missedTransition a.row.id target
  signal := fun _ => some (signal (moveTo a.row target changes))

def suspend (pk : Option Nat) (actor : Option User) (reason : String) : Read Plan := do
  let a ← authorizeTransition pk actor
  return {
    role := none
    decide := pure (transition a .suspended [.active] none (.assignmentSuspended · actor reason)) }

def reactivateDecision (a : Assignment) (actor : Option User) (reason : String) (role : Role) :
    Read Decision := do
  let scope ← ScopeAssignment.scopeUnlessRoot a
  if !(← canAssignRole actor role a.row.level (scope.map Obj.stored) none) then
    raise .roleAssignmentError "The actor cannot delegate this role at the target scope."
  else return transition a .active [.suspended] none (.assignmentReactivated · actor reason)

def reactivate (pk : Option Nat) (actor : Option User) (reason : String) : Read Plan := do
  let a ← authorizeTransition pk actor
  let persisted := ((← ask).tables.assignment a.row.id).map AssignmentRow.status
  if persisted ≠ some .suspended then
    raise .invalidAssignmentTransitionError
      ("Cannot transition assignment from " ++ (persisted.getD a.row.status).value ++ " to ACTIVE.")
  else refreshForMutation a.role (reactivateDecision a actor reason)

def revoke (pk : Option Nat) (actor : Option User) (reason : String) : Read Plan := do
  let a ← authorizeTransition pk actor
  let changes : Audit := {
    revokedBy := actor.map User.pk
    revokedAt := (← ask).now
    reason := reason }
  return {
    role := none
    decide := pure (transition a .revoked [.active, .suspended] (some changes)
      (.assignmentRevoked · actor reason)) }

def grantPermissionsDecision (perms : List Permission) (actor : Option User) (role : Role) :
    Read Decision := do
  match actor with
  | none => raise .roleManagementPermissionError "The actor cannot manage this role."
  | some user =>
    if !(← canManageRole actor role none) then
      raise .roleManagementPermissionError "The actor cannot manage this role."
    else
      let w ← ask
      let pk := role.pk.getD 0
      let added := perms.filter fun p => !w.tables.carries pk p
      let forbidden ← forbiddenLabels user role (labels added)
      if !forbidden.isEmpty then
        raise .roleManagementPermissionError
          ("The actor cannot delegate these permissions: " ++ ", ".intercalate forbidden ++ ".")
      else return {
        edit := .extended pk perms
        signal := fun _ => if added.isEmpty then none
          else some (.rolePermissionsChanged role (labels added) [] actor) }

def grantPermissions (role : Role) (perms : List Permission) (actor : Option User) : Read Plan :=
  refreshForMutation role (grantPermissionsDecision perms actor)

def revokePermissionsDecision (perms : List Permission) (actor : Option User) (role : Role) :
    Read Decision := do
  if !(← canManageRole actor role none) then
    raise .roleManagementPermissionError "The actor cannot manage this role."
  else
    let w ← ask
    let pk := role.pk.getD 0
    let removed := perms.filter fun p => w.tables.carries pk p
    return {
      edit := .reduced pk perms
      signal := fun _ => if removed.isEmpty then none
        else some (.rolePermissionsChanged role [] (labels removed) actor) }

def revokePermissions (role : Role) (perms : List Permission) (actor : Option User) : Read Plan :=
  refreshForMutation role (revokePermissionsDecision perms actor)

def saved (role : Role) : Read Decision := do
  let w ← ask
  let role ← w.validateOwner role
  match role.pk with
  | none => return { edit := .roleAdded none role w.now }
  | some pk =>
    if (w.tables.role pk).isNone then return { edit := .roleAdded (some pk) role w.now }
    else
      match role.createdAt with
      | none => raise .integrityError "NOT NULL constraint failed: created_at"
      | some createdAt => return { edit := .roleSet (role.columns pk createdAt) }

def createDecision (actor : Option User) (fields : RoleService.Fields) : Read Decision := do
  let w ← ask
  let role ← w.validateOwner (fields.role w)
  if !(← canManageRole actor role none) then
    raise .roleManagementPermissionError "The actor cannot create this role."
  else saved role

/-- `RoleService.create`, up to the permissions it is given: granting these is a call
in the same block. -/
def create (actor : Option User) (fields : RoleService.Fields) : Read Plan :=
  return ⟨none, createDecision actor fields⟩

def updateDecision (actor : Option User) (changes : RoleService.Changes) (role : Role) :
    Read Decision := do
  if !(← canManageRole actor role none) then
    raise .roleManagementPermissionError "The actor cannot edit this role."
  else
    let w ← ask
    let role ← w.validateOwner (changes.apply w role)
    if !(← canManageRole actor role none) then
      raise .roleManagementPermissionError "The actor cannot move this role to the target owner."
    else saved role

def update (role : Role) (actor : Option User) (changes : RoleService.Changes) : Read Plan :=
  refreshForMutation role (updateDecision actor changes)

def deleteDecision (actor : Option User) (role : Role) : Read Decision := do
  if !(← canManageRole actor role none) then
    raise .roleManagementPermissionError "The actor cannot delete this role."
  else
    let w ← ask
    let pk := role.pk.getD 0
    if w.tables.assignments.any (·.role = pk) then
      raise .protectedError
        "Cannot delete some instances of model 'Role' because they are referenced through protected foreign keys: 'ScopeAssignment.role'."
    else return { edit := .roleDeleted pk }

def delete (role : Role) (actor : Option User) : Read Plan :=
  refreshForMutation role (deleteDecision actor)

inductive Call
  | grant (user : User) (role : Role) (actor : Option User) (level : Option String)
    (scope : Option Obj) (validFrom validUntil : Option Time)
  | suspend (pk : Option Nat) (actor : Option User) (reason : String)
  | reactivate (pk : Option Nat) (actor : Option User) (reason : String)
  | revoke (pk : Option Nat) (actor : Option User) (reason : String)
  | create (actor : Option User) (fields : RoleService.Fields)
  | update (role : Role) (actor : Option User) (changes : RoleService.Changes)
  | delete (role : Role) (actor : Option User)
  | grantPermissions (role : Role) (perms : List Permission) (actor : Option User)
  | revokePermissions (role : Role) (perms : List Permission) (actor : Option User)

def Call.plan : Call → Read Plan
  | .grant user role actor level scope validFrom validUntil =>
    Locked.grant user role actor level scope validFrom validUntil
  | .suspend pk actor reason => Locked.suspend pk actor reason
  | .reactivate pk actor reason => Locked.reactivate pk actor reason
  | .revoke pk actor reason => Locked.revoke pk actor reason
  | .create actor fields => Locked.create actor fields
  | .update role actor changes => Locked.update role actor changes
  | .delete role actor => Locked.delete role actor
  | .grantPermissions role perms actor => Locked.grantPermissions role perms actor
  | .revokePermissions role perms actor => Locked.revokePermissions role perms actor

structure Store where
  db : Db Key Edit TableRows
  /-- The next primary key: a sequence, which no rollback sets back. -/
  next : Nat
  site : World
  receivers : Receivers

namespace Store

variable (s : Store) (conn : Nat)

def visible : TableRows := s.db.visible theory conn

def sees : Py World := do
  let t ← (s.visible conn).commit
  return s.site.save t

def hasRole (pk : Nat) : Bool := (s.visible conn).roles.any (·.id = pk)

def commits : Bool :=
  match s.db.blocks conn with
  | [B] => decide (theory.replay B.edits s.db.committed).Valid
  | _ => true

end Store

inductive Stmt
  | enter (conn : Nat) (call : Option Call)
  | leave (conn : Nat)
  | undo (conn : Nat)
  | lock (conn pk : Nat)
  | write (conn : Nat) (e : Edit)
  | ask (conn : Nat)
  | effective (conn : Nat) (u : User) (at_ : Option Time)
  | valid (conn : Nat) (a : Assignment)
  | send (s : Signal)

abbrev Stmt.Res : Stmt → Type
  | .enter .. | .undo _ => Unit
  | .leave _ | .lock .. => Bool
  | .write .. => Py (Option Nat)
  | .ask _ => Py World
  | .effective .. => Py (List Assignment)
  | .valid .. => Py Bool
  | .send _ => Option Exn

abbrev sig : Signature := ⟨Stmt, Stmt.Res⟩

abbrev M (α : Type) := Prog sig Abort α

namespace Store

def accepts (s : Store) (conn : Nat) (e : Edit) : Bool :=
  decide ((e.withKey s.next).apply (s.visible conn)).Valid

def answer (s : Store) : (o : Stmt) → o.Res
  | .enter .. | .undo _ => ()
  | .leave conn => s.commits conn
  | .lock conn pk => s.hasRole conn pk
  | .write conn e =>
    if !e.holds (s.visible conn) then .ok none
    else if s.accepts conn e then .ok (some s.next)
    else throwing .integrityError "constraint failed"
  | .ask conn => s.sees conn
  | .effective conn u at_ => do
    let w ← s.sees conn
    w.fetchEffective u (at_.getD w.now)
  | .valid conn a => do
    let w ← s.sees conn
    w.assignmentIsValid a
  | .send signal => s.receivers signal

def change (s : Store) : Stmt → Change Key Edit
  | .enter .. => .enter
  | .leave _ => .leave
  | .undo _ => .undo
  | .lock conn pk => if s.hasRole conn pk then .lock (.role pk) else .none
  | .write conn e =>
    if e.holds (s.visible conn) && s.accepts conn e then
      .write (e.withKey s.next).locks (e.withKey s.next)
    else .none
  | _ => .none

end Store

def Stmt.conn : Stmt → Nat
  | .enter conn _ | .leave conn | .undo conn | .lock conn _ | .write conn _ | .ask conn
  | .effective conn _ _ | .valid conn _ => conn
  | .send _ => 0

def Stmt.keys : Stmt → Nat
  | .write .. => 1
  | _ => 0

def act (o : Stmt) (s : Store) : o.Res × Store :=
  (s.answer o, { s with db := s.db.run theory o.conn (s.change o), next := s.next + o.keys })

def perform (o : Stmt) : M o.Res := Prog.perform (S := sig) o

def liftPy {α : Type} : Py α → M α
  | .ok x => .done x
  | .error e => .fail e

def ofRead (conn : Nat) {α : Type} : Read α → M α
  | .pure x => .done x
  | .abort e => .fail e
  | .world k => do
    let w ← liftPy (← perform (.ask conn))
    ofRead conn (k w)
  | .effective u at_ k => do
    let as ← liftPy (← perform (.effective conn u at_))
    ofRead conn (k as)
  | .valid a k => do
    let b ← liftPy (← perform (.valid conn a))
    ofRead conn (k b)

def atomic (conn : Nat) {α : Type} (call : Option Call) (p : M α) : M α := do
  perform (.enter conn call)
  match ← p.attempt with
  | .ok x =>
    if ← perform (.leave conn) then return x
    else Prog.raise (.raised ⟨.integrityError, "constraint failed"⟩)
  | .error e =>
    perform (.undo conn)
    Prog.raise e

/-- `select_for_update().get(pk=...)` -/
def lockRole (conn pk : Nat) : M Unit := do
  if ← perform (.lock conn pk) then return
  else Prog.raise (.raised ⟨.objectDoesNotExist, "Role matching query does not exist."⟩)

def emit : Option Signal → M Unit
  | none => return
  | some s => do
    match ← perform (.send s) with
    | none => return
    | some e => Prog.raise (.raised e)

def write (conn : Nat) (d : Decision) : M Nat := do
  match ← liftPy (← perform (.write conn d.edit)) with
  | none =>
    ofRead conn d.missed
    return 0
  | some pk =>
    emit (d.signal pk)
    return pk

def Call.body (conn : Nat) (c : Call) : M Nat := atomic conn (some c) do
  let plan ← ofRead conn c.plan
  match plan.role with
  | none => write conn (← ofRead conn plan.decide)
  | some pk =>
    lockRole conn pk
    write conn (← ofRead conn plan.decide)

/-- What a connection runs: calls, on their own or in blocks, and what it does when
they have returned or raised. -/
inductive Code
  | done
  | fail (e : Abort)
  | call (c : Call) (next : Except Abort Nat → Code)
  | atomic (body : Code) (next : Except Abort Unit → Code)

def Code.body (conn : Nat) : Code → M Unit
  | .done => return
  | .fail e => Prog.raise e
  | .call c next => do
    let r ← (c.body conn).attempt
    (next r).body conn
  | .atomic body next => do
    let r ← (Locked.atomic conn none (body.body conn)).attempt
    (next r).body conn

end ScopedAccess.Locked
