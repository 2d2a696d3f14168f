import ScopedAccess.Lifecycle

namespace ScopedAccess

open Lib.Loop (bind_eq_ok)
open Op (ask raise write invalidateCache afterCommit emit run_bind_ok run_read_ok run_py_ok
  run_write_ok run_emit_ok)

variable {rc : Receivers} {w w' : World}

namespace Op

variable {α β : Type}

@[simp] theorem run_ask_bind (f : World → Op α) :
    (ask >>= f).run rc w = (f w).run rc w := rfl

@[simp] theorem run_invalidateCache_bind (i : Invalidation) (f : Unit → Op α) :
    (invalidateCache i >>= f).run rc w = (f ()).run rc w := rfl

@[simp] theorem run_afterCommit_bind (i : Invalidation) (f : Unit → Op α) :
    (afterCommit i >>= f).run rc w = (f ()).run rc w := rfl

theorem run_guard_ok {cls : ExnClass} {message : String} {b : Bool} {p : Op α} {x : α} :
    (if !b then raise cls message else p).run rc w = .ok (x, w') ↔
      b = true ∧ p.run rc w = .ok (x, w') := by
  cases b <;> simp

theorem run_reject_ok {cls : ExnClass} {message : String} {c : Prop} [Decidable c] {p : Op α}
    {x : α} :
    (if c then raise cls message else p).run rc w = .ok (x, w') ↔
      ¬ c ∧ p.run rc w = .ok (x, w') := by
  by_cases h : c <;> simp [h]

theorem run_read_bind_ok {p : Read α} {f : α → Op β} {y : β} :
    ((liftM p : Op α) >>= f).run rc w = .ok (y, w') ↔
      ∃ x, p.run w = .ok x ∧ (f x).run rc w = .ok (y, w') := by
  simp only [run_bind_ok, run_read_ok]
  constructor
  · rintro ⟨x, _, ⟨hx, rfl⟩, h⟩
    exact ⟨x, hx, h⟩
  · rintro ⟨x, hx, h⟩
    exact ⟨x, w, ⟨hx, rfl⟩, h⟩

theorem run_py_bind_ok {p : Py α} {f : α → Op β} {y : β} :
    ((liftM p : Op α) >>= f).run rc w = .ok (y, w') ↔
      ∃ x, p = .ok x ∧ (f x).run rc w = .ok (y, w') := by
  simp only [run_bind_ok, run_py_ok]
  constructor
  · rintro ⟨x, _, ⟨hx, rfl⟩, h⟩
    exact ⟨x, hx, h⟩
  · rintro ⟨x, hx, h⟩
    exact ⟨x, w, ⟨hx, rfl⟩, h⟩

theorem run_write_bind_ok {rows : TableRows} {f : Unit → Op β} {y : β} :
    (write rows >>= f).run rc w = .ok (y, w') ↔
      ∃ t : Tables, t.toTableRows = rows ∧ (f ()).run rc (w.save t) = .ok (y, w') := by
  simp only [run_bind_ok, run_write_ok]
  constructor
  · rintro ⟨_, _, ⟨t, ht, rfl⟩, h⟩
    exact ⟨t, ht, h⟩
  · rintro ⟨t, ht, h⟩
    exact ⟨(), _, ⟨t, ht, rfl⟩, h⟩

theorem run_emit_bind_ok {s : Signal} {f : Unit → Op β} {y : β} :
    (emit s >>= f).run rc w = .ok (y, w') ↔ rc s = none ∧ (f ()).run rc w = .ok (y, w') := by
  simp only [run_bind_ok, run_emit_ok]
  constructor
  · rintro ⟨_, _, ⟨hs, rfl⟩, h⟩
    exact ⟨hs, h⟩
  · rintro ⟨hs, h⟩
    exact ⟨(), w, ⟨hs, rfl⟩, h⟩

theorem run_pure_ok {x y : α} :
    (Pure.pure x : Op α).run rc w = .ok (y, w') ↔ x = y ∧ w = w' := by
  simp

end Op

open Op (run_guard_ok run_reject_ok run_read_bind_ok run_py_bind_ok run_write_bind_ok
  run_emit_bind_ok run_pure_ok)

theorem refreshForMutation_ok {role role' : Role} :
    (refreshForMutation role).run rc w = .ok (role', w') ↔
      ∃ row, role.pk = some row.id ∧ w.tables.role row.id = some row ∧
        role' = w.loadRole row ∧ w' = w := by
  rw [refreshForMutation, Op.run_ask_bind]
  cases hrow : role.pk.bind w.tables.role with
  | none =>
    simp only [Op.run_raise, reduceCtorEq, false_iff, not_exists]
    rintro row ⟨hpk, hrole, -⟩
    simp [hpk, hrole] at hrow
  | some row =>
    obtain ⟨pk, hpk, hrole⟩ := Option.bind_eq_some_iff.mp hrow
    obtain ⟨hmem, rfl⟩ := w.tables.role_eq_some.mp hrole
    simp only [Op.run_invalidateCache_bind, run_pure_ok]
    constructor
    · rintro ⟨rfl, rfl⟩
      exact ⟨row, hpk, hrole, rfl, rfl⟩
    · rintro ⟨row', hpk', hrole', rfl, rfl⟩
      have hid : row.id = row'.id := Option.some.inj (hpk.symm.trans hpk')
      rw [hid] at hrole
      obtain rfl := Option.some.inj (hrole.symm.trans hrole')
      exact ⟨rfl, rfl⟩

theorem run_refresh_bind_ok {α : Type} {role : Role} {f : Role → Op α} {y : α} :
    (refreshForMutation role >>= f).run rc w = .ok (y, w') ↔
      ∃ row, role.pk = some row.id ∧ w.tables.role row.id = some row ∧
        (f (w.loadRole row)).run rc w = .ok (y, w') := by
  simp only [run_bind_ok, refreshForMutation_ok]
  constructor
  · rintro ⟨_, _, ⟨row, hpk, hrow, rfl, rfl⟩, h⟩
    exact ⟨row, hpk, hrow, h⟩
  · rintro ⟨row, hpk, hrow, h⟩
    exact ⟨_, w, ⟨row, hpk, hrow, rfl, rfl⟩, h⟩

namespace ScopeAssignment

def granted (w : World) (user : User) (role : RoleRow) (actor : Option User)
    (level : Option String) (scope : Option Obj) (validFrom validUntil : Option Time) :
    AssignmentRow where
  id := Lib.Rows.fresh (w.tables.assignments.map AssignmentRow.id)
  user := user.pk
  role := role.id
  level := level
  scopeCt := scope.map fun scope => w.site.schema.contentType scope.model
  scopeId := scope.map (·.row.pk)
  validFrom := validFrom
  validUntil := validUntil
  grantedBy := actor.map User.pk
  grantedAt := w.now

theorem grant_ok {user : User} {role : Role} {actor : Option User} {level : Option String}
    {scope : Option Obj} {validFrom validUntil : Option Time} {a : AssignmentRow}
    (h : (grant user role actor level scope validFrom validUntil).run rc w = .ok (a, w')) :
    ∃ (row : RoleRow) (level' : Option String) (t : Tables),
      w.tables.role row.id = some row ∧ w.grantLevel level scope = .ok level' ∧
      (canManageAssignment actor scope none).run w = .ok true ∧
      (canAssignRole actor (w.loadRole row) level' scope none).run w = .ok true ∧
      a = granted w user row actor level' scope validFrom validUntil ∧
      t.toTableRows = w.tables.addAssignment a ∧
      w' = w.save t := by
  simp only [grant, Op.run_ask_bind, run_py_bind_ok, run_guard_ok, run_refresh_bind_ok,
    run_read_bind_ok, run_write_bind_ok, Op.run_invalidateCache_bind, Op.run_afterCommit_bind,
    run_emit_bind_ok, run_pure_ok] at h
  obtain ⟨level', hlevel, -, row, -, hrow, fits, -, rfl, may, hmay, rfl, assigns, hassigns, rfl,
    t, ht, -, rfl, rfl⟩ := h
  exact ⟨row, level', t, hrow, hlevel, hmay, hassigns, rfl, ht, rfl⟩

theorem authorizeTransition_ok {pk : Option Nat} {actor : Option User} {a : Assignment}
    (h : (authorizeTransition pk actor).run rc w = .ok (a, w')) :
    ∃ row scope, pk = some row.id ∧ w.tables.assignment row.id = some row ∧
      w.loadAssignment row = some a ∧ scopeUnlessRoot a = .ok scope ∧
      (canManageAssignment actor (scope.map Obj.stored) none).run w = .ok true ∧ w' = w := by
  cases pk with
  | none => simp [authorizeTransition] at h
  | some pk =>
    rw [authorizeTransition, Op.run_ask_bind] at h
    cases ha : (w.tables.assignment pk).bind w.loadAssignment with
    | none => simp [ha] at h
    | some a' =>
      obtain ⟨row, hrow, hload⟩ := Option.bind_eq_some_iff.mp ha
      obtain ⟨-, rfl⟩ := w.tables.assignment_eq_some.mp hrow
      simp only [ha, run_py_bind_ok] at h
      obtain ⟨scope, hscope, h⟩ := h
      have hallowed : ∃ allowed, (canManageAssignment actor (scope.map Obj.stored) none).run w =
          .ok allowed ∧ allowed = true ∧ a' = a ∧ w = w' := by
        split at h
        · rename_i horphan
          obtain rfl : scope = none := by
            simp only [Bool.and_eq_true, Option.isNone_iff_eq_none] at horphan
            exact horphan.2
          simpa only [Option.map_none, run_read_bind_ok, run_guard_ok, run_pure_ok] using h
        · simpa only [run_read_bind_ok, run_guard_ok, run_pure_ok] using h
      obtain ⟨allowed, hrun, rfl, rfl, rfl⟩ := hallowed
      exact ⟨row, scope, rfl, hrow, hload, hscope, hrun, rfl⟩

theorem authorizeTransition_of_allowed (rc : Receivers) {u : User} {row : AssignmentRow} {x : Row}
    (hrow : w.tables.assignment row.id = some row)
    (hx : w.db.generic row.scopeCt row.scopeId = .ok (some x))
    (h : (canManageAssignment (some u) (some (.stored x)) none).run w = .ok true) :
    ∃ a, (authorizeTransition (some row.id) (some u)).run rc w = .ok (a, w) := by
  obtain ⟨r, hr⟩ := w.tables.exists_role (w.tables.assignment_eq_some.mp hrow).1
  obtain ⟨-, -, i, hid, -⟩ := w.db.generic_some hx
  have hload : (w.tables.assignment row.id).bind w.loadAssignment =
      some ⟨row, w.loadRole r, .ok (some x)⟩ := by
    rw [hrow, Option.bind_some, World.loadAssignment, hr, ← hx]
    rfl
  refine ⟨⟨row, w.loadRole r, .ok (some x)⟩, ?_⟩
  rw [authorizeTransition, Op.run_ask_bind, hload]
  simp only [scopeUnlessRoot, hid, Option.isNone_some, Bool.false_eq_true, if_false,
    run_py_bind_ok]
  exact ⟨some x, rfl, run_read_bind_ok.mpr ⟨true, h, by simp⟩⟩

theorem transition_ok {pk : Nat} {target : AssignmentStatus} {allowedFrom : List AssignmentStatus}
    {changes : AssignmentRow → AssignmentRow} {changed : AssignmentRow}
    (h : (transition pk target allowedFrom changes).run rc w = .ok (changed, w')) :
    ∃ (row : AssignmentRow) (t : Tables), w.tables.assignment pk = some row ∧
      row.status ∈ allowedFrom ∧ changed = { changes row with status := target } ∧
      t.toTableRows = w.tables.setAssignment pk changed ∧
      w' = w.save t := by
  rw [transition, Op.run_ask_bind] at h
  cases hrow : w.tables.assignment pk with
  | none => simp [hrow] at h
  | some row =>
    simp only [hrow, run_reject_ok, run_write_bind_ok, run_pure_ok, not_not] at h
    obtain ⟨hallowed, t, ht, rfl, rfl⟩ := h
    exact ⟨row, t, rfl, hallowed, rfl, ht, rfl⟩

theorem finish_ok {a : Assignment} {target : AssignmentStatus}
    {allowedFrom : List AssignmentStatus} {changes : AssignmentRow → AssignmentRow}
    {signal : AssignmentRow → Signal} {x : Unit}
    (h : (finish a target allowedFrom changes signal).run rc w = .ok (x, w')) :
    ∃ (row : AssignmentRow) (t : Tables), w.tables.assignment a.row.id = some row ∧
      row.status ∈ allowedFrom ∧
      t.toTableRows =
        w.tables.setAssignment a.row.id { changes row with status := target } ∧
      w' = w.save t := by
  obtain ⟨changed, v, htransition, h⟩ := run_bind_ok.mp h
  obtain ⟨row, t, hrow, hallowed, rfl, ht, rfl⟩ := transition_ok htransition
  simp only [Op.run_invalidateCache_bind, Op.run_afterCommit_bind, run_emit_ok] at h
  exact ⟨row, t, hrow, hallowed, ht, h.2⟩

/-- What a transition that returns has done to the one row it is about. -/
def Moved (w w' : World) (row : AssignmentRow) (target : AssignmentStatus) : Prop :=
  ∃ (row' : AssignmentRow) (t : Tables), row'.status = target ∧ row'.id = row.id ∧
    row'.user = row.user ∧ row'.role = row.role ∧ row'.level = row.level ∧
    row'.scopeCt = row.scopeCt ∧ row'.scopeId = row.scopeId ∧
    row'.validFrom = row.validFrom ∧ row'.validUntil = row.validUntil ∧
    t.toTableRows = w.tables.setAssignment row.id row' ∧ w' = w.save t

theorem suspend_ok {pk : Option Nat} {actor : Option User} {reason : String} {x : Unit}
    (h : (suspend pk actor reason).run rc w = .ok (x, w')) :
    ∃ row, Moved w w' row .suspended := by
  obtain ⟨a, v, hauth, hrest⟩ := run_bind_ok.mp h
  obtain ⟨row, scope, -, hrow, hload, -, -, rfl⟩ := authorizeTransition_ok hauth
  obtain rfl : a.row = row := World.loaded_row hload
  obtain ⟨row', t, hrow', -, ht, rfl⟩ := finish_ok hrest
  obtain rfl := Option.some.inj (hrow.symm.trans hrow')
  refine ⟨_, _, t, ?_, ?_, ?_, ?_, ?_, ?_, ?_, ?_, ?_, ht, rfl⟩ <;> rfl

theorem revoke_ok {pk : Option Nat} {actor : Option User} {reason : String} {x : Unit}
    (h : (revoke pk actor reason).run rc w = .ok (x, w')) :
    ∃ row, Moved w w' row .revoked := by
  obtain ⟨a, v, hauth, hrest⟩ := run_bind_ok.mp h
  obtain ⟨row, scope, -, hrow, hload, -, -, rfl⟩ := authorizeTransition_ok hauth
  obtain rfl : a.row = row := World.loaded_row hload
  rw [Op.run_ask_bind] at hrest
  obtain ⟨row', t, hrow', -, ht, rfl⟩ := finish_ok hrest
  obtain rfl := Option.some.inj (hrow.symm.trans hrow')
  refine ⟨_, _, t, ?_, ?_, ?_, ?_, ?_, ?_, ?_, ?_, ?_, ht, rfl⟩ <;> rfl

theorem reactivate_ok {pk : Option Nat} {actor : Option User} {reason : String} {x : Unit}
    (h : (reactivate pk actor reason).run rc w = .ok (x, w')) :
    ∃ row role scope, Moved w w' row .active ∧
      w.tables.role row.role = some role ∧
      (if row.scopeId.isNone then .ok none else w.db.generic row.scopeCt row.scopeId) =
        .ok scope ∧
      (canAssignRole actor (w.loadRole role) row.level (scope.map Obj.stored) none).run w =
        .ok true := by
  obtain ⟨a, v, hauth, hrest⟩ := run_bind_ok.mp h
  obtain ⟨row, scope, -, hrow, hload, hscope, -, rfl⟩ := authorizeTransition_ok hauth
  obtain ⟨role, hrole, rfl⟩ := Option.map_eq_some_iff.mp hload
  simp only [run_reject_ok, run_refresh_bind_ok, run_py_bind_ok, run_read_bind_ok,
    Bool.not_eq_true', Bool.not_eq_false] at hrest
  obtain ⟨-, role', hpk, hrole', scope', hscope', assigns, hassigns, rfl, hrest⟩ := hrest
  obtain rfl := Except.ok.inj (hscope.symm.trans hscope')
  obtain ⟨row', t, hrow', -, ht, rfl⟩ := finish_ok hrest
  obtain rfl := Option.some.inj (hrow.symm.trans hrow')
  have hid : role.id = role'.id := Option.some.inj hpk
  obtain ⟨hmem, hid'⟩ := (Tables.role_eq_some _).mp hrole
  rw [← hid, hid'] at hrole'
  obtain rfl := Option.some.inj (hrole.symm.trans hrole')
  refine ⟨row, role, scope, ⟨_, t, ?_, ?_, ?_, ?_, ?_, ?_, ?_, ?_, ?_, ht, rfl⟩,
    hrole, hscope, hassigns⟩ <;> rfl

end ScopeAssignment

end ScopedAccess
