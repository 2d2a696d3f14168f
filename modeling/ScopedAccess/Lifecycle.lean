import ScopedAccess.Op

/-! The assignment lifecycle (`models.py`, SPEC §8.1): granting, and the
transitions between the stored states. -/

namespace ScopedAccess

open Op (ask raise write invalidateCache afterCommit emit)

def refreshForMutation (role : Role) : Op Role := do
  let w ← ask
  match role.pk.bind w.tables.role with
  | none => raise .objectDoesNotExist "Role matching query does not exist."
  | some row =>
    invalidateCache .all
    return w.loadRole row

def World.matchingLevels (w : World) (o : Obj) : List String :=
  ((w.hierarchy.levelsForModel o.model).filter (·.selects w.db o.row)).map Level.name

def World.grantLevel (w : World) (level : Option String) (scope : Option Obj) :
    Py (Option String) :=
  match scope, level with
  | some scope, none =>
    match w.matchingLevels scope with
    | [name] => .ok (some name)
    | _ => throwing .assignmentScopeError
      "The scope must match exactly one hierarchy level, or level must be provided explicitly."
  | some scope, some name =>
    if name ∈ w.matchingLevels scope then .ok (some name)
    else throwing .assignmentScopeError "The assignment level does not match the scope node."
  | none, none => .ok none
  | none, some name =>
    if w.hierarchy.isRoot name then .ok (some name)
    else throwing .assignmentScopeError
      "An assignment without a scope must use a configured root level or None."

namespace ScopeAssignment

def windowOpens (validFrom validUntil : Option Time) : Bool :=
  validFrom.all fun start => validUntil.all (start < ·)

def grant (user : User) (role : Role) (actor : Option User) (level : Option String)
    (scope : Option Obj) (validFrom validUntil : Option Time) : Op AssignmentRow := do
  let w ← ask
  let level ← w.grantLevel level scope
  if !windowOpens validFrom validUntil then
    raise .valueError "valid_until must be later than valid_from."
  else
    let role ← refreshForMutation role
    if !(← w.roleAssignable role level scope) then
      raise .roleAssignmentError "A custom role can only be assigned inside its owner's subtree."
    else if !(← canManageAssignment actor scope none) then
      raise .assignmentManagementPermissionError
        "The actor cannot manage assignments at the target scope."
    else if !(← canAssignRole actor role level scope none) then
      raise .roleAssignmentError "The actor cannot delegate this role at the target scope."
    else
      let w ← ask
      let assignment : AssignmentRow := {
        id := Lib.Rows.fresh (w.tables.assignments.map AssignmentRow.id)
        user := user.pk
        role := role.pk.getD 0
        level := level
        scopeCt := scope.map fun scope => w.site.schema.contentType scope.model
        scopeId := scope.map (·.row.pk)
        validFrom := validFrom
        validUntil := validUntil
        grantedBy := actor.map User.pk
        grantedAt := w.now }
      write (w.tables.addAssignment assignment)
      invalidateCache (.user user.pk)
      afterCommit (.user user.pk)
      emit (.assignmentGranted assignment actor)
      return assignment

def scopeUnlessRoot (a : Assignment) : Py (Option Row) :=
  if a.row.scopeId.isNone then .ok none else a.scope

def authorizeTransition (pk : Option Nat) (actor : Option User) : Op Assignment := do
  match pk with
  | none =>
    raise .invalidAssignmentTransitionError "An unsaved assignment cannot change status."
  | some pk =>
    let w ← ask
    match (w.tables.assignment pk).bind w.loadAssignment with
    | none => raise .objectDoesNotExist "ScopeAssignment matching query does not exist."
    | some a =>
      let scope ← scopeUnlessRoot a
      -- the original node may be gone: then a global manager may clean up
      let allowed ← if a.row.scopeId.isSome && scope.isNone then canManageAssignment actor none none
        else canManageAssignment actor (scope.map Obj.stored) none
      if !allowed then
        raise .assignmentManagementPermissionError
          "The actor cannot manage assignments at the assignment's scope."
      else return a

def transition (pk : Nat) (target : AssignmentStatus) (allowedFrom : List AssignmentStatus)
    (changes : AssignmentRow → AssignmentRow) : Op AssignmentRow := do
  let w ← ask
  match w.tables.assignment pk with
  | none => raise .objectDoesNotExist s!"Assignment {pk} no longer exists."
  | some row =>
    if row.status ∉ allowedFrom then
      raise .invalidAssignmentTransitionError
        ("Cannot transition assignment from " ++ row.status.value ++ " to " ++ target.value ++ ".")
    else
      let changed := { changes row with status := target }
      write (w.tables.setAssignment pk changed)
      return changed

def finish (a : Assignment) (target : AssignmentStatus) (allowedFrom : List AssignmentStatus)
    (changes : AssignmentRow → AssignmentRow) (signal : AssignmentRow → Signal) : Op Unit := do
  let row ← transition a.row.id target allowedFrom changes
  invalidateCache (.user a.row.user)
  afterCommit (.user a.row.user)
  emit (signal row)

def suspend (pk : Option Nat) (actor : Option User) (reason : String) : Op Unit := do
  let a ← authorizeTransition pk actor
  finish a .suspended [.active] id (.assignmentSuspended · actor reason)

def reactivate (pk : Option Nat) (actor : Option User) (reason : String) : Op Unit := do
  let a ← authorizeTransition pk actor
  if a.row.status ≠ .suspended then
    raise .invalidAssignmentTransitionError
      ("Cannot transition assignment from " ++ a.row.status.value ++ " to ACTIVE.")
  else
    let role ← refreshForMutation a.role
    let scope ← scopeUnlessRoot a
    if !(← canAssignRole actor role a.row.level (scope.map Obj.stored) none) then
      raise .roleAssignmentError "The actor cannot delegate this role at the target scope."
    else
      finish a .active [.suspended] id (.assignmentReactivated · actor reason)

def revoke (pk : Option Nat) (actor : Option User) (reason : String) : Op Unit := do
  let a ← authorizeTransition pk actor
  let now := (← ask).now
  finish a .revoked [.active, .suspended]
    (fun row => { row with
      revokedBy := actor.map User.pk
      revokedAt := some now
      reason := reason })
    (.assignmentRevoked · actor reason)

end ScopeAssignment

end ScopedAccess
