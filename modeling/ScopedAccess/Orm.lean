import ScopedAccess.LifecycleLaws
import ScopedAccess.Helpdesk

namespace ScopedAccess

open Op (ask raise write)

def immutableAssignmentFields : List String :=
  ["user", "user_id", "role", "role_id", "level", "scope_ct", "scope_ct_id", "scope_id",
    "valid_from", "valid_until", "granted_by", "granted_by_id", "granted_at", "revoked_by",
    "revoked_by_id", "revoked_at", "reason"]

def assignmentFields : List String := "status" :: immutableAssignmentFields

def assignmentColumns : List String :=
  ["user_id", "role_id", "level", "scope_ct_id", "scope_id", "status", "valid_from", "valid_until",
    "granted_by_id", "granted_at", "revoked_by_id", "revoked_at", "reason"]

/-- A ScopeAssignment in memory, whatever has become of it. -/
structure Instance where
  adding : Bool := true
  pk : Option Nat := none
  user : Option Nat := none
  role : Option Nat := none
  level : Option String := none
  scopeCt : Option Ct := none
  scopeId : Option String := none
  status : AssignmentStatus := .active
  validFrom : Option Time := none
  validUntil : Option Time := none
  grantedBy : Option Nat := none
  grantedAt : Time := 0
  revokedBy : Option Nat := none
  revokedAt : Option Time := none
  reason : String := ""
  /-- The columns that were not loaded. -/
  deferred : List String := []
  /-- `_state.db` is the database it is saved to. -/
  sameDb : Bool := true
  /-- It holds a related instance that is not stored. -/
  holdsUnsaved : Bool := false

structure SaveArgs where
  forceInsert : Bool := false
  forceUpdate : Bool := false
  updateFields : Option (List String) := none

namespace Instance

def newRow (x : Instance) (w : World) (user role : Nat) : AssignmentRow where
  id := Lib.Rows.fresh (w.tables.assignments.map AssignmentRow.id)
  user := user
  role := role
  level := x.level
  scopeCt := x.scopeCt
  scopeId := x.scopeId
  status := x.status
  validFrom := x.validFrom
  validUntil := x.validUntil
  grantedBy := x.grantedBy
  grantedAt := w.now
  revokedBy := x.revokedBy
  revokedAt := x.revokedAt
  reason := x.reason

def copyTo (x : Instance) (fields : List String) (row : AssignmentRow) : AssignmentRow :=
  let named (names : List String) : Bool := names.any (· ∈ fields)
  { id := row.id
    user := if named ["user", "user_id"] then x.user.getD row.user else row.user
    role := if named ["role", "role_id"] then x.role.getD row.role else row.role
    level := if named ["level"] then x.level else row.level
    scopeCt := if named ["scope_ct", "scope_ct_id"] then x.scopeCt else row.scopeCt
    scopeId := if named ["scope_id"] then x.scopeId else row.scopeId
    status := if named ["status"] then x.status else row.status
    validFrom := if named ["valid_from"] then x.validFrom else row.validFrom
    validUntil := if named ["valid_until"] then x.validUntil else row.validUntil
    grantedBy := if named ["granted_by", "granted_by_id"] then x.grantedBy else row.grantedBy
    grantedAt := if named ["granted_at"] then x.grantedAt else row.grantedAt
    revokedBy := if named ["revoked_by", "revoked_by_id"] then x.revokedBy else row.revokedBy
    revokedAt := if named ["revoked_at"] then x.revokedAt else row.revokedAt
    reason := if named ["reason"] then x.reason else row.reason }

def insert (x : Instance) : Op Unit := do
  let w ← ask
  match x.user, x.role with
  | some user, some role =>
    write (w.tables.addAssignment (x.newRow w user role))
  | _, _ => raise .integrityError "NOT NULL constraint failed"

def fieldsToWrite (x : Instance) (args : SaveArgs) : Option (List String) :=
  match args.updateFields with
  | some fields => some fields
  | none =>
    let loaded := assignmentColumns.filter (· ∉ x.deferred)
    if args.forceInsert || !x.sameDb || x.deferred.isEmpty || loaded.isEmpty then none
    else some loaded

/-- `Model.save` of an instance without a primary key. -/
def saveKeyless (x : Instance) (args : SaveArgs) : Op Unit :=
  if x.holdsUnsaved then
    raise .valueError "save() prohibited to prevent data loss due to unsaved related object."
  else if args.forceInsert && (args.forceUpdate || args.updateFields.any (!·.isEmpty)) then
    raise .valueError "Cannot force both insert and updating in model saving."
  else if args.updateFields = some [] then return ()
  else if (args.updateFields.getD []).any (· ∉ assignmentFields) then
    raise .valueError "The following fields do not exist in this model, are m2m fields, primary keys, or are non-concrete fields"
  else if args.forceUpdate || (x.fieldsToWrite args).isSome then
    raise .valueError "Cannot force an update in save() with no primary key."
  -- what was not loaded is read by the key, but for `granted_at`, which is set to the moment
  else if x.deferred.any (· ≠ "granted_at") then
    raise .objectDoesNotExist "ScopeAssignment matching query does not exist."
  else x.insert

/-- `Model.save(update_fields=...)` of an instance with a primary key. -/
def saveFields (x : Instance) (pk : Nat) (args : SaveArgs) (fields : List String) : Op Unit :=
  if x.holdsUnsaved then
    raise .valueError "save() prohibited to prevent data loss due to unsaved related object."
  else if args.forceInsert && (args.forceUpdate || !fields.isEmpty) then
    raise .valueError "Cannot force both insert and updating in model saving."
  else if fields.isEmpty then return ()
  else if fields.any (· ∉ assignmentFields) then
    raise .valueError "The following fields do not exist in this model, are m2m fields, primary keys, or are non-concrete fields"
  else do
    let w ← ask
    match w.tables.assignment pk with
    | none => raise .databaseError "Save with update_fields did not affect any rows."
    | some row => write (w.tables.setAssignment pk (x.copyTo fields row))

def save (managed : Bool) (x : Instance) (args : SaveArgs) : Op Unit :=
  if x.adding && !managed then
    raise .directAssignmentMutationError "Use ScopeAssignment.objects.grant(..., by=actor)."
  else match x.pk with
    | none => x.saveKeyless args
    | some pk =>
      match args.updateFields with
      | none => raise .directAssignmentMutationError
          "Persisted assignments require an explicit, non-security-sensitive update_fields list."
      | some fields =>
        if "status" ∈ fields then
          raise .invalidAssignmentTransitionError
            "Assignment status must be changed through suspend(), reactivate(), or revoke()."
        else if fields.any (· ∈ immutableAssignmentFields) then
          raise .directAssignmentMutationError
            "Assignment identity, validity and audit fields are immutable after creation."
        else x.saveFields pk args fields

def delete (_ : Instance) : Op Unit :=
  raise .assignmentDeletionError "Scope assignments must be revoked, not deleted."

end Instance

def TableRows.setKeys (t : TableRows) (selects : AssignmentRow → Bool)
    (f : AssignmentRow → Nat) : TableRows :=
  { t with assignments := t.assignments.map fun a => if selects a then { a with id := f a } else a }

namespace AssignmentQuerySet

def create (managed : Bool) (x : Instance) : Op Unit :=
  if !managed then
    raise .directAssignmentMutationError "Use ScopeAssignment.objects.grant(..., by=actor)."
  else { x with adding := true }.save managed { forceInsert := true }

def insertAll : List Instance → Op Unit
  | [] => return ()
  | x :: xs => do
    x.insert
    insertAll xs

def bulkCreate (managed : Bool) (xs : List Instance) : Op Unit :=
  if !managed then
    raise .directAssignmentMutationError
      "Bulk assignment creation requires an explicit trusted import."
  else insertAll xs

inductive Value
  | key (f : AssignmentRow → Nat)
  | other

def updateKeys (selects : AssignmentRow → Bool) (changes : List (String × Value)) : Op Unit :=
  if changes.any (·.1 = "scope") then
    raise .fieldError "Cannot update model field 'scope' (only concrete fields are permitted)."
  else if changes.any (·.1 ≠ "id") then
    raise .fieldDoesNotExist "ScopeAssignment has no such field"
  else match changes.lookup "id" with
    | none => return ()
    | some .other => raise .valueError "Field 'id' expected a number"
    | some (.key f) => do
      -- the database checks the keys once all of them are written
      let w ← ask
      write (w.tables.setKeys selects f)

def update (selects : AssignmentRow → Bool) (changes : List (String × Value)) : Op Unit :=
  if changes.any (·.1 = "status") then
    raise .invalidAssignmentTransitionError
      "Assignment status must be changed through suspend(), reactivate(), or revoke()."
  else if changes.any (·.1 ∈ immutableAssignmentFields) then
    raise .directAssignmentMutationError
      "Assignment identity and scope are immutable after creation."
  else updateKeys selects changes

def updateAll (fields : List String) : List Instance → Op Unit
  | [] => return ()
  | x :: xs => do
    let w ← ask
    match x.pk.bind w.tables.assignment with
    | none => updateAll fields xs
    | some row =>
      write (w.tables.setAssignment row.id (x.copyTo fields row))
      updateAll fields xs

def bulkUpdate (xs : List Instance) (fields : List String) : Op Unit :=
  if "status" ∈ fields then
    raise .invalidAssignmentTransitionError
      "Assignment status must be changed through suspend(), reactivate(), or revoke()."
  else if fields.any (· ∈ immutableAssignmentFields) then
    raise .directAssignmentMutationError
      "Assignment identity and scope are immutable after creation."
  else if fields.isEmpty then
    raise .valueError "Field names must be given to bulk_update()."
  else if xs.any (·.pk.isNone) then
    raise .valueError "All bulk_update() objects must have a primary key set."
  else if fields.any fun f => f ≠ "id" && f ≠ "scope" && f ∉ assignmentFields then
    raise .fieldDoesNotExist "ScopeAssignment has no such field"
  else if "scope" ∈ fields then
    raise .valueError "bulk_update() can only be used with concrete fields."
  else if "id" ∈ fields then
    raise .valueError "bulk_update() cannot be used with primary key fields."
  else updateAll fields xs

def delete : Op Unit :=
  raise .assignmentDeletionError "Scope assignments must be revoked, not deleted."

end AssignmentQuerySet

inductive OrmCall
  | save (x : Instance) (args : SaveArgs)
  | delete (x : Instance)
  | create (x : Instance)
  | bulkCreate (xs : List Instance)
  | update (selects : AssignmentRow → Bool) (changes : List (String × AssignmentQuerySet.Value))
  | bulkUpdate (xs : List Instance) (fields : List String)
  | deleteAll (selects : AssignmentRow → Bool)

def OrmCall.op : OrmCall → Op Unit
  | .save x args => x.save false args
  | .delete x => x.delete
  | .create x => AssignmentQuerySet.create false x
  | .bulkCreate xs => AssignmentQuerySet.bulkCreate false xs
  | .update selects changes => AssignmentQuerySet.update selects changes
  | .bulkUpdate xs fields => AssignmentQuerySet.bulkUpdate xs fields
  | .deleteAll _ => AssignmentQuerySet.delete

namespace World

def AssignmentsKept (w w' : World) : Prop :=
  ∀ a, a ∈ w'.tables.assignments ↔ a ∈ w.tables.assignments

variable {w : World}

/-- An instance that is not being added, has no key, and is whole but perhaps for its
`granted_at`, is saved as a new row, if the database accepts that. -/
def Copies (w : World) (x : Instance) (args : SaveArgs) : Prop :=
  x.adding = false ∧ x.pk = none ∧ x.holdsUnsaved = false ∧ args.updateFields = none ∧
    args.forceUpdate = false ∧ (∀ column ∈ x.deferred, column = "granted_at") ∧
    (x.deferred = [] ∨ args.forceInsert ∨ x.sameDb = false) ∧
    ∃ user role, x.user = some user ∧ x.role = some role ∧
      (w.tables.addAssignment (x.newRow w user role)).Valid

/-- An update of nothing but the key gives a selected row a key it is not stored
under, if the database accepts that. -/
def Rekeys (w : World) (selects : AssignmentRow → Bool)
    (changes : List (String × AssignmentQuerySet.Value)) : Prop :=
  (∀ c ∈ changes, c.1 = "id") ∧ ∃ f, changes.lookup "id" = some (.key f) ∧
    (w.tables.setKeys selects f).Valid ∧
    ∃ a ∈ w.tables.assignments, selects a ∧ { a with id := f a } ∉ w.tables.assignments

def Harmless (w : World) : OrmCall → Prop
  | .save x args => ¬ w.Copies x args
  | .update selects changes => ¬ w.Rekeys selects changes
  | _ => True

theorem AssignmentsKept.refl : AssignmentsKept w w := fun _ => Iff.rfl

end World

namespace Op

variable {α : Type} {rc : Receivers} {w : World}

@[simp] theorem after_raise (cls : ExnClass) (message : String) :
    (raise cls message : Op α).after rc w = w := rfl

@[simp] theorem after_pure (x : α) : (Pure.pure x : Op α).after rc w = w := rfl

@[simp] theorem after_ask_bind (f : World → Op α) : (ask >>= f).after rc w = (f w).after rc w := rfl

theorem after_write_valid {rows : TableRows} (h : rows.Valid) :
    (write rows).after rc w = w.save ⟨rows, h⟩ :=
  after_ok (x := ()) (run_write_ok.mpr ⟨⟨rows, h⟩, rfl, rfl⟩)

theorem after_write_refused {rows : TableRows} (h : ¬ rows.Valid) :
    (write rows).after rc w = w := by
  have hcommit : rows.commit = throwing .integrityError "constraint failed" := dif_neg h
  simp [after, write, run_bind, hcommit, throwing, liftM, monadLift, MonadLift.monadLift, ofPy, run]

end Op

namespace World

variable {rc : Receivers} {w : World}

theorem insert_kept_iff {x : Instance} : AssignmentsKept w (x.insert.after rc w) ↔
    ¬ ∃ user role, x.user = some user ∧ x.role = some role ∧
      (w.tables.addAssignment (x.newRow w user role)).Valid := by
  rw [Instance.insert, Op.after_ask_bind]
  cases huser : x.user with
  | none => simp [AssignmentsKept.refl]
  | some user =>
    cases hrole : x.role with
    | none => simp [AssignmentsKept.refl]
    | some role =>
      simp only [Option.some.injEq, exists_and_left, exists_eq_left']
      by_cases hvalid : (w.tables.addAssignment (x.newRow w user role)).Valid
      · rw [Op.after_write_valid hvalid]
        refine iff_of_false (fun hkept => ?_) (not_not_intro hvalid)
        have hadded := (hkept _).mp (List.mem_append_right _ (List.mem_singleton_self _))
        have hid := List.mem_map_of_mem (f := AssignmentRow.id) hadded
        exact Lib.Rows.fresh_not_mem _ hid
      · rw [Op.after_write_refused hvalid]
        exact iff_of_true .refl hvalid

theorem fieldsToWrite_none {x : Instance} {args : SaveArgs} (hfields : args.updateFields = none)
    (hwhole : ∀ column ∈ x.deferred, column = "granted_at") : x.fieldsToWrite args = none ↔
      x.deferred = [] ∨ args.forceInsert ∨ x.sameDb = false := by
  have hloaded : (assignmentColumns.filter (· ∉ x.deferred)).isEmpty = false := by
    rw [List.isEmpty_eq_false_iff_exists_mem]
    refine ⟨"level", List.mem_filter.mpr ⟨by decide, decide_eq_true fun h => ?_⟩⟩
    exact absurd (hwhole _ h) (by decide)
  simp only [Instance.fieldsToWrite, hfields, hloaded, Bool.or_false, ite_eq_left_iff,
    reduceCtorEq, imp_false, not_not, Bool.or_eq_true, Bool.not_eq_true', List.isEmpty_iff]
  tauto

theorem saveKeyless_kept_iff {x : Instance} {args : SaveArgs} :
    AssignmentsKept w ((x.saveKeyless args).after rc w) ↔
      ¬ (x.holdsUnsaved = false ∧ args.updateFields = none ∧ args.forceUpdate = false ∧
        (∀ column ∈ x.deferred, column = "granted_at") ∧
        (x.deferred = [] ∨ args.forceInsert ∨ x.sameDb = false) ∧
        ¬ AssignmentsKept w (x.insert.after rc w)) := by
  unfold Instance.saveKeyless
  cases hunsaved : x.holdsUnsaved with
  | true => exact iff_of_true .refl (by simp)
  | false =>
    rw [if_neg (by simp)]
    cases hfields : args.updateFields with
    | some fields =>
      refine iff_of_true ?_ (by simp)
      cases fields with
      | nil => split <;> simp [AssignmentsKept.refl]
      | cons field fields =>
        have hwrite : (x.fieldsToWrite args).isSome := by simp [Instance.fieldsToWrite, hfields]
        simp only [Option.some.injEq, reduceCtorEq, if_false, hwrite, Bool.or_true, if_true]
        split
        · exact .refl
        · split <;> exact .refl
    | none =>
      simp only [Option.any_none, Bool.or_false, reduceCtorEq, if_false, Option.getD_none,
        List.any_nil, Bool.false_eq_true, true_and]
      cases hupdate : args.forceUpdate with
      | true =>
        refine iff_of_true ?_ (by simp)
        simp only [Bool.and_true, Bool.true_or, if_true]
        split <;> exact .refl
      | false =>
        simp only [Bool.and_false, Bool.false_eq_true, if_false, Bool.false_or, true_and]
        by_cases hwhole : ∀ column ∈ x.deferred, column = "granted_at"
        · have hread : x.deferred.any (· ≠ "granted_at") = false := by simpa using hwhole
          have hwrite := fieldsToWrite_none hfields hwhole
          rw [hread, if_neg (by simp : ¬ (false : Bool) = true)]
          cases hfound : x.fieldsToWrite args with
          | none =>
            simp only [Option.isSome_none, Bool.false_eq_true, if_false]
            refine ⟨fun hkept h => h.2.2 hkept, fun h => ?_⟩
            exact by_contra fun hkept => h ⟨hwhole, hwrite.mp hfound, hkept⟩
          | some fields =>
            refine iff_of_true .refl fun h => ?_
            exact absurd (hfound.symm.trans (hwrite.mpr h.2.1)) (by simp)
        · have hread : x.deferred.any (· ≠ "granted_at") = true := by simpa using hwhole
          refine iff_of_true ?_ fun h => hwhole h.1
          rw [hread, if_pos rfl]
          split <;> exact .refl

theorem saveFields_kept {x : Instance} {pk : Nat} {args : SaveArgs} {fields : List String}
    (hstatus : "status" ∉ fields) (hfields : fields.any (· ∈ immutableAssignmentFields) = false) :
    AssignmentsKept w ((x.saveFields pk args fields).after rc w) := by
  unfold Instance.saveFields
  split
  · exact .refl
  · split
    · exact .refl
    · cases fields with
      | nil => exact .refl
      | cons field fields =>
        have hunknown : (field :: fields).any (· ∉ assignmentFields) := by
          rw [List.any_eq_true]
          refine ⟨field, List.mem_cons_self, ?_⟩
          simp only [List.any_cons, Bool.or_eq_false_iff, decide_eq_false_iff_not] at hfields
          simp only [decide_eq_true_eq, assignmentFields, List.mem_cons, not_or]
          exact ⟨fun h => hstatus (h ▸ List.mem_cons_self), hfields.1⟩
        rw [if_neg (by simp), if_pos hunknown]
        exact .refl

theorem save_kept_iff {x : Instance} {args : SaveArgs} :
    AssignmentsKept w ((x.save false args).after rc w) ↔ ¬ w.Copies x args := by
  unfold Instance.save Copies
  cases hadding : x.adding with
  | true => simp [AssignmentsKept.refl]
  | false =>
    cases hpk : x.pk with
    | none =>
      rw [if_neg (by simp)]
      simp only [true_and]
      rw [saveKeyless_kept_iff, insert_kept_iff, not_not]
    | some pk =>
      refine iff_of_true ?_ (by simp)
      simp only [Bool.not_false, Bool.and_true, Bool.false_eq_true, if_false]
      cases args.updateFields with
      | none => exact .refl
      | some fields =>
        dsimp only
        split
        · exact .refl
        · split
          · exact .refl
          · rename_i hstatus hfields
            exact saveFields_kept hstatus (by simpa using hfields)

theorem setKeys_kept_iff {selects : AssignmentRow → Bool} {f : AssignmentRow → Nat}
    (hvalid : (w.tables.setKeys selects f).Valid) :
    AssignmentsKept w (w.save ⟨_, hvalid⟩) ↔
      ∀ a ∈ w.tables.assignments, selects a → { a with id := f a } ∈ w.tables.assignments := by
  let g (a : AssignmentRow) : AssignmentRow := if selects a then { a with id := f a } else a
  change (∀ a, a ∈ w.tables.assignments.map g ↔ a ∈ w.tables.assignments) ↔ _
  constructor
  · intro hkept a ha hsel
    refine (hkept _).mp (List.mem_map.mpr ⟨a, ha, ?_⟩)
    simp [g, hsel]
  · intro hstored
    have hsub : w.tables.assignments.map g ⊆ w.tables.assignments := by
      intro b hb
      obtain ⟨a, ha, rfl⟩ := List.mem_map.mp hb
      by_cases hsel : selects a
      · simpa [g, hsel] using hstored a ha hsel
      · simpa [g, hsel] using ha
    -- distinct keys make the rows written as many as the rows there were
    have hnodup : (w.tables.assignments.map g).Nodup := hvalid.2.2.1.of_map
    have hperm := (List.subperm_of_subset hnodup hsub).perm_of_length_le (by simp)
    exact fun a => hperm.mem_iff

theorem update_kept_iff {selects : AssignmentRow → Bool}
    {changes : List (String × AssignmentQuerySet.Value)} :
    AssignmentsKept w ((AssignmentQuerySet.update selects changes).after rc w) ↔
      ¬ w.Rekeys selects changes := by
  unfold AssignmentQuerySet.update AssignmentQuerySet.updateKeys Rekeys
  by_cases hkeys : ∀ c ∈ changes, c.1 = "id"
  · have hnone (name : String) (hname : name ≠ "id") : changes.any (·.1 = name) = false := by
      simp only [List.any_eq_false, decide_eq_true_eq]
      exact fun c hc h => hname (h.symm.trans (hkeys c hc))
    have himmutable : changes.any (·.1 ∈ immutableAssignmentFields) = false := by
      simp only [List.any_eq_false, decide_eq_true_eq]
      intro c hc h
      rw [hkeys c hc] at h
      exact absurd h (by decide)
    have hother : changes.any (·.1 ≠ "id") = false := by
      simp only [List.any_eq_false, decide_eq_true_eq, not_not]
      exact hkeys
    rw [hnone "status" (by decide), himmutable, hnone "scope" (by decide), hother,
      and_iff_right hkeys]
    simp only [Bool.false_eq_true, if_false]
    cases hlookup : changes.lookup "id" with
    | none => simp [AssignmentsKept.refl]
    | some value =>
      cases value with
      | other => simp [AssignmentsKept.refl]
      | key f =>
        simp only [Option.some.injEq, AssignmentQuerySet.Value.key.injEq, exists_eq_left',
          Op.after_ask_bind]
        by_cases hvalid : (w.tables.setKeys selects f).Valid
        · rw [Op.after_write_valid hvalid, setKeys_kept_iff]
          simp [hvalid]
        · rw [Op.after_write_refused hvalid]
          exact iff_of_true .refl fun h => hvalid h.1
  · refine iff_of_true ?_ fun h => hkeys h.1
    have hother : changes.any (·.1 ≠ "id") := by simpa using hkeys
    rw [if_pos hother]
    split
    · exact .refl
    · split
      · exact .refl
      · split <;> exact .refl

theorem bulkUpdate_kept {xs : List Instance} {fields : List String} :
    AssignmentsKept w ((AssignmentQuerySet.bulkUpdate xs fields).after rc w) := by
  unfold AssignmentQuerySet.bulkUpdate
  split
  · exact .refl
  · rename_i hstatus
    split
    · exact .refl
    · rename_i himmutable
      cases fields with
      | nil => exact .refl
      | cons field fields =>
        rw [if_neg (by simp)]
        split
        · exact .refl
        · split
          · exact .refl
          · rename_i hknown
            -- a field the guards let through is the key or the generic reference
            have hfield : field = "id" ∨ field = "scope" := by
              simp only [List.any_cons, Bool.or_eq_true, not_or, decide_eq_true_eq] at himmutable
              simp only [List.mem_cons, not_or] at hstatus
              simp only [List.any_cons, Bool.or_eq_true, not_or, Bool.and_eq_true, not_and,
                decide_eq_true_eq, not_not] at hknown
              by_contra hneither
              rw [not_or] at hneither
              have hmem := hknown.1 hneither
              rcases List.mem_cons.mp hmem with h | h
              · exact hstatus.1 h.symm
              · exact himmutable.1 h
            split
            · exact .refl
            · rename_i hscope
              have hid : "id" ∈ field :: fields := by
                rcases hfield with rfl | rfl
                · exact List.mem_cons_self
                · exact absurd List.mem_cons_self hscope
              rw [if_pos hid]
              exact .refl

/-- Direct use of the ORM keeps the assignment rows exactly when it is harmless. -/
theorem orm_kept_iff_harmless (rc : Receivers) (w : World) (call : OrmCall) :
    AssignmentsKept w (call.op.after rc w) ↔ w.Harmless call := by
  cases call with
  | save x args => exact save_kept_iff
  | update selects changes => exact update_kept_iff
  | delete x => exact iff_of_true .refl trivial
  | create x => exact iff_of_true .refl trivial
  | bulkCreate xs => exact iff_of_true .refl trivial
  | bulkUpdate xs fields => exact iff_of_true bulkUpdate_kept trivial
  | deleteAll selects => exact iff_of_true .refl trivial

end World

namespace Helpdesk

def copied : Instance :=
  { adding := false, user := some 3, role := some 2, level := some "ORGANIZATION",
    scopeCt := some organization, scopeId := some "1" }

def rekey : OrmCall := .update (·.id = 1) [("id", .key fun _ => 9)]

theorem direct_changes :
    ¬ World.AssignmentsKept staffed ((OrmCall.save copied {}).op.after quiet staffed) ∧
      ¬ World.AssignmentsKept staffed (rekey.op.after quiet staffed) := by
  constructor
  · intro hkept
    exact absurd ((hkept (copied.newRow staffed 3 2)).mp (by decide)) (by decide)
  · intro hkept
    exact absurd ((hkept staff.assignments[0]).mpr (by decide)) (by decide)

end Helpdesk

end ScopedAccess
