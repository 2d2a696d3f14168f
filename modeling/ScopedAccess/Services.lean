import ScopedAccess.RoleCalls

namespace ScopedAccess

open Op (run_bind_ok run_guard_ok run_reject_ok run_read_bind_ok run_py_bind_ok
  run_write_bind_ok run_emit_bind_ok run_pure_ok)

inductive ServiceCall
  | grant (user : User) (role : Role) (level : Option String) (scope : Option Obj)
      (validFrom validUntil : Option Time)
  | suspend (pk : Option Nat) (reason : String)
  | reactivate (pk : Option Nat) (reason : String)
  | revoke (pk : Option Nat) (reason : String)
  | onRole (call : RoleCall)

def ServiceCall.by_ (actor : Option User) : ServiceCall → Op Unit
  | .grant user role level scope validFrom validUntil => do
    let _ ← ScopeAssignment.grant user role actor level scope validFrom validUntil
    return ()
  | .suspend pk reason => ScopeAssignment.suspend pk actor reason
  | .reactivate pk reason => ScopeAssignment.reactivate pk actor reason
  | .revoke pk reason => ScopeAssignment.revoke pk actor reason
  | .onRole call => call.by_ actor

inductive UserChange
  | add (pk : Nat)
  | delete (pk : Nat)

def UserChange.apply (t : Tables) : UserChange → Tables
  | .add pk => t.addUser pk
  | .delete pk => t.deleteUser pk

/-- What happens to a running site: a call, which may fail, time that passes, or
a change the host makes to its own rows or to its users. -/
inductive SiteEvent
  | call (actor : Option User) (call : ServiceCall) (receivers : Receivers)
  | tick (elapsed : Time)
  | host (change : (sc : Schema) → Database sc → Database sc)
  | users (change : UserChange)

namespace World

def step (w : World) : SiteEvent → World
  | .call actor call receivers => (call.by_ actor).after receivers w
  | .tick elapsed => { w with now := w.now + elapsed }
  | .host change => { w with db := change w.site.schema w.db }
  | .users change => w.save (change.apply w.tables)

def history (w : World) (events : List SiteEvent) : World := events.foldl step w

@[simp] theorem history_nil (w : World) : w.history [] = w := rfl

@[simp] theorem history_cons (w : World) (e : SiteEvent) (events : List SiteEvent) :
    w.history (e :: events) = (w.step e).history events := rfl

end World

inductive Transition (w : World) (actor : Option User) (row : AssignmentRow) :
    ServiceCall → AssignmentRow → Prop
  | suspend {pk : Option Nat} {reason : String} (hfrom : row.status = .active) :
      Transition w actor row (.suspend pk reason) { row with status := .suspended }
  | reactivate {pk : Option Nat} {reason : String} {r : RoleRow} {scope : Option Row}
      (hfrom : row.status = .suspended)
      (hrole : w.tables.role row.role = some r)
      (hscope : (if row.scopeId.isNone then .ok none
        else w.db.generic row.scopeCt row.scopeId) = .ok scope)
      (hassign : (canAssignRole actor (w.loadRole r) row.level (scope.map Obj.stored) none).run w =
        .ok true) : Transition w actor row (.reactivate pk reason) { row with status := .active }
  | revoke {pk : Option Nat} {reason : String} (hfrom : row.status ≠ .revoked) :
      Transition w actor row (.revoke pk reason) { row with
        revokedBy := actor.map User.pk
        revokedAt := some w.now
        reason := reason
        status := .revoked }

def RoleCall.adds : RoleCall → Option (List Permission)
  | .create permissions _ => some permissions
  | .grantPermissions _ perms => some perms
  | _ => none

/-- One write of a call, with what the call has checked before it. -/
inductive Write (actor : Option User) (w : World) : ServiceCall → TableRows → Prop
  | granted {user : User} {role : Role} {r : RoleRow} {given level : Option String}
      {scope : Option Obj} {validFrom validUntil : Option Time}
      (hrole : w.tables.role r.id = some r) (hlevel : w.grantLevel given scope = .ok level)
      (hopens : ScopeAssignment.windowOpens validFrom validUntil)
      (hfits : w.roleAssignable (w.loadRole r) level scope = .ok true)
      (hmanage : (canManageAssignment actor scope none).run w = .ok true)
      (hassign : (canAssignRole actor (w.loadRole r) level scope none).run w = .ok true) :
      Write actor w (.grant user role given scope validFrom validUntil)
        (w.tables.addAssignment
          (ScopeAssignment.granted w user r actor level scope validFrom validUntil))
  | moved {call : ServiceCall} {row row' : AssignmentRow} {scope : Option Row}
      (hstored : w.tables.assignment row.id = some row)
      (hscope : (if row.scopeId.isNone then .ok none
        else w.db.generic row.scopeCt row.scopeId) = .ok scope)
      (hmanage : (canManageAssignment actor (scope.map Obj.stored) none).run w = .ok true)
      (htransition : Transition w actor row call row') :
      Write actor w call (w.tables.setAssignment row.id row')
  | created {permissions : List Permission} {fields : RoleService.Fields} {v : Role} {pk : Nat}
      {createdAt : Time} {rows : TableRows} (hv : w.validateOwner (fields.role w) = .ok v)
      (hmanage : (canManageRole actor v none).run w = .ok true)
      (hsaved : Saved w v pk createdAt rows) :
      Write actor w (.onRole (.create permissions fields)) rows
  | updated {role v : Role} {changes : RoleService.Changes} {r : RoleRow}
      (hpk : role.pk = some r.id) (hr : w.tables.role r.id = some r)
      (hmanages : w.Manages actor r)
      (hv : w.validateOwner (changes.apply w (w.loadRole r)) = .ok v)
      (hmanage : (canManageRole actor v none).run w = .ok true) :
      Write actor w (.onRole (.update role changes))
        (w.tables.setRole r.id (v.columns r.id r.createdAt))
  | deleted {role : Role} {r : RoleRow} (hr : w.tables.role r.id = some r)
      (hmanages : w.Manages actor r) (hfree : ∀ a ∈ w.tables.assignments, a.role ≠ r.id) :
      Write actor w (.onRole (.delete role)) { w.tables.toTableRows with
        roles := w.tables.roles.filter (·.id ≠ r.id)
        rolePermissions := w.tables.rolePermissions.filter (·.role ≠ r.id) }
  | extended {call : RoleCall} {perms : List Permission} {r : RoleRow} {user : User}
      (hadds : call.adds = some perms)
      (hr : w.tables.role r.id = some r) (hactor : actor = some user)
      (hmanages : w.Manages actor r)
      (hgrant : ∀ p ∈ perms, w.tables.carries r.id p = false →
        (canGrantPermission user (w.loadRole r) p.label none).run w = .ok true) :
      Write actor w (.onRole call) (w.tables.addPermissions r.id perms)
  | reduced {role : Role} {perms : List Permission} {r : RoleRow}
      (hr : w.tables.role r.id = some r) (hmanages : w.Manages actor r) :
      Write actor w (.onRole (.revokePermissions role perms))
        (w.tables.removePermissions r.id perms)

inductive Writes (actor : Option User) (call : ServiceCall) : World → World → Prop
  | done (w : World) : Writes actor call w w
  | write {w w' : World} {t : Tables} (hwrite : Write actor w call t.toTableRows)
      (hrest : Writes actor call (w.save t) w') : Writes actor call w w'

variable {actor : Option User} {call : ServiceCall} {rc : Receivers} {w w' : World}

theorem Writes.one {t : Tables} (h : Write actor w call t.toTableRows) :
    Writes actor call w (w.save t) := .write h (.done _)

namespace ScopeAssignment

theorem grant_writes {user : User} {role : Role} {level : Option String} {scope : Option Obj}
    {validFrom validUntil : Option Time} {a : AssignmentRow}
    (h : (grant user role actor level scope validFrom validUntil).run rc w = .ok (a, w')) :
    Writes actor (.grant user role level scope validFrom validUntil) w w' := by
  simp only [grant, Op.run_ask_bind, run_py_bind_ok, run_guard_ok, run_refresh_bind_ok,
    run_read_bind_ok, run_write_bind_ok, Op.run_invalidateCache_bind, Op.run_afterCommit_bind,
    run_emit_bind_ok, run_pure_ok] at h
  obtain ⟨level', hlevel, hopens, r, -, hrole, fits, hfits, rfl, may, hmanage, rfl, assigns,
    hassign, rfl, t, ht, -, rfl, rfl⟩ := h
  refine .one ?_
  rw [ht]
  exact .granted hrole hlevel hopens hfits hmanage hassign

theorem finish_writes {a : Assignment} {row : AssignmentRow} {scope : Option Row}
    {target : AssignmentStatus} {allowedFrom : List AssignmentStatus}
    {changes : AssignmentRow → AssignmentRow} {signal : AssignmentRow → Signal} {x : Unit}
    (hstored : w.tables.assignment row.id = some row) (hload : w.loadAssignment row = some a)
    (hscope : scopeUnlessRoot a = .ok scope)
    (hmanage : (canManageAssignment actor (scope.map Obj.stored) none).run w = .ok true)
    (htransition : row.status ∈ allowedFrom →
      Transition w actor row call { changes row with status := target })
    (h : (finish a target allowedFrom changes signal).run rc w = .ok (x, w')) :
    Writes actor call w w' := by
  obtain ⟨row', t, hrow', hallowed, ht, rfl⟩ := finish_ok h
  obtain ⟨r, -, rfl⟩ := Option.map_eq_some_iff.mp hload
  obtain rfl := Option.some.inj (hstored.symm.trans hrow')
  refine .one ?_
  rw [ht]
  exact .moved hstored hscope hmanage (htransition hallowed)

theorem suspend_writes {pk : Option Nat} {reason : String} {x : Unit}
    (h : (suspend pk actor reason).run rc w = .ok (x, w')) :
    Writes actor (.suspend pk reason) w w' := by
  obtain ⟨a, v, hauth, hrest⟩ := run_bind_ok.mp h
  obtain ⟨row, scope, -, hstored, hload, hscope, hmanage, rfl⟩ := authorizeTransition_ok hauth
  exact finish_writes hstored hload hscope hmanage
    (fun hfrom => .suspend (List.mem_singleton.mp hfrom)) hrest

theorem revoke_writes {pk : Option Nat} {reason : String} {x : Unit}
    (h : (revoke pk actor reason).run rc w = .ok (x, w')) :
    Writes actor (.revoke pk reason) w w' := by
  obtain ⟨a, v, hauth, hrest⟩ := run_bind_ok.mp h
  obtain ⟨row, scope, -, hstored, hload, hscope, hmanage, rfl⟩ := authorizeTransition_ok hauth
  rw [Op.run_ask_bind] at hrest
  refine finish_writes hstored hload hscope hmanage (fun hfrom => .revoke ?_) hrest
  intro hrevoked
  simp [hrevoked] at hfrom

theorem reactivate_writes {pk : Option Nat} {reason : String} {x : Unit}
    (h : (reactivate pk actor reason).run rc w = .ok (x, w')) :
    Writes actor (.reactivate pk reason) w w' := by
  obtain ⟨a, v, hauth, hrest⟩ := run_bind_ok.mp h
  obtain ⟨row, scope, -, hstored, hload, hscope, hmanage, rfl⟩ := authorizeTransition_ok hauth
  obtain ⟨r, hrole, rfl⟩ := Option.map_eq_some_iff.mp hload
  simp only [run_reject_ok, run_refresh_bind_ok, run_py_bind_ok, run_read_bind_ok,
    Bool.not_eq_true', Bool.not_eq_false] at hrest
  obtain ⟨-, r', hpk, hr', scope', hscope', assigns, hassign, rfl, hrest⟩ := hrest
  obtain rfl := Except.ok.inj (hscope.symm.trans hscope')
  obtain rfl : r = r' := by
    have hid : r.id = r'.id := Option.some.inj hpk
    obtain ⟨hmem, -⟩ := (Tables.role_eq_some _).mp hrole
    exact Option.some.inj (((Tables.role_eq_some _).mpr ⟨hmem, hid⟩).symm.trans hr')
  refine finish_writes hstored hload hscope hmanage (fun hfrom => ?_) hrest
  exact .reactivate (List.mem_singleton.mp hfrom) hrole hscope hassign

end ScopeAssignment

theorem grantPermissions_writes {role : Role} {perms : List Permission} {call : RoleCall}
    {x : Unit} (hadds : call.adds = some perms)
    (h : (role.grantPermissions perms actor).run rc w = .ok (x, w')) :
    Writes actor (.onRole call) w w' := by
  obtain ⟨r, user, t, -, hr, hactor, hmanages, hgrant, ht, rfl⟩ := Role.grantPermissions_ok h
  refine .one ?_
  rw [ht]
  exact .extended hadds hr hactor hmanages hgrant

theorem RoleCall.writes {call : RoleCall} {x : Unit}
    (h : (call.by_ actor).run rc w = .ok (x, w')) : Writes actor (.onRole call) w w' := by
  cases call with
  | create permissions fields =>
    obtain ⟨role, v, hcreate, hdone⟩ := run_bind_ok.mp h
    obtain ⟨-, rfl⟩ := run_pure_ok.mp hdone
    obtain ⟨v, pk, createdAt, t, hv, hmanage, hsaved, -, hrest⟩ := RoleService.create_ok hcreate
    refine .write (.created hv hmanage hsaved) ?_
    rcases hrest with ⟨-, rfl⟩ | hgrant
    · exact .done _
    · exact grantPermissions_writes rfl hgrant
  | update role changes =>
    obtain ⟨role', v, hupdate, hdone⟩ := run_bind_ok.mp h
    obtain ⟨-, rfl⟩ := run_pure_ok.mp hdone
    obtain ⟨r, v, t, hpk, hr, hmanages, hv, hmanage, ht, rfl⟩ := RoleService.update_ok hupdate
    refine .one ?_
    rw [ht]
    exact .updated hpk hr hmanages hv hmanage
  | delete role =>
    obtain ⟨r, t, -, hr, hmanages, hfree, ht, rfl⟩ := RoleService.delete_ok h
    refine .one ?_
    rw [ht]
    exact .deleted hr hmanages hfree
  | grantPermissions role perms => exact grantPermissions_writes rfl h
  | revokePermissions role perms =>
    obtain ⟨r, t, -, hr, hmanages, ht, rfl⟩ := Role.revokePermissions_ok h
    refine .one ?_
    rw [ht]
    exact .reduced hr hmanages

theorem ServiceCall.writes (call : ServiceCall) (actor : Option User) (rc : Receivers)
    (w : World) : Writes actor call w ((call.by_ actor).after rc w) := by
  cases h : (call.by_ actor).run rc w with
  | error e =>
    rw [Op.after, h]
    exact .done w
  | ok r =>
    obtain ⟨x, w'⟩ := r
    rw [Op.after_ok h]
    cases call with
    | grant user role level scope validFrom validUntil =>
      obtain ⟨a, v, hgrant, hdone⟩ := run_bind_ok.mp h
      obtain ⟨-, rfl⟩ := run_pure_ok.mp hdone
      exact ScopeAssignment.grant_writes hgrant
    | suspend pk reason => exact ScopeAssignment.suspend_writes h
    | reactivate pk reason => exact ScopeAssignment.reactivate_writes h
    | revoke pk reason => exact ScopeAssignment.revoke_writes h
    | onRole call => exact RoleCall.writes h

theorem World.history_keeps {P : World → Prop} {A : SiteEvent → Prop}
    (hwrite : ∀ {w : World} {actor : Option User} {call : ServiceCall} {t : Tables}
      {rc : Receivers}, A (.call actor call rc) → P w → Write actor w call t.toTableRows →
        P (w.save t))
    (htick : ∀ {w : World} (elapsed : Time), P w → P (w.step (.tick elapsed)))
    (hhost : ∀ {w : World} (change : (sc : Schema) → Database sc → Database sc),
      A (.host change) → P w → P (w.step (.host change)))
    (husers : ∀ {w : World} (change : UserChange), A (.users change) → P w →
      P (w.save (change.apply w.tables)))
    {events : List SiteEvent} (hevents : ∀ e ∈ events, A e) {w : World} (h : P w) :
    P (w.history events) := by
  induction events generalizing w with
  | nil => exact h
  | cons e events ih =>
    obtain ⟨he, hrest⟩ := List.forall_mem_cons.mp hevents
    refine ih hrest ?_
    cases e with
    | tick elapsed => exact htick elapsed h
    | host change => exact hhost change he h
    | users change => exact husers change he h
    | call actor call rc =>
      have hwrites := call.writes actor rc w
      rw [World.step]
      generalize (call.by_ actor).after rc w = w' at hwrites
      induction hwrites with
      | done w => exact h
      | write hw _ ih => exact ih (hwrite he h hw)

def SiteEvent.Internal : SiteEvent → Prop
  | .host _ => False
  | _ => True

theorem World.history_frame {events : List SiteEvent} (hevents : ∀ e ∈ events, e.Internal)
    (w : World) : ∃ now t, w.history events = { w with now := now, tables := t } := by
  refine history_keeps (P := fun v => ∃ now t, v = { w with now := now, tables := t })
    ?_ ?_ ?_ ?_ hevents ⟨w.now, w.tables, rfl⟩
  · rintro _ _ _ t _ - ⟨now, _, rfl⟩ -
    exact ⟨now, t, rfl⟩
  · rintro _ elapsed ⟨now, t, rfl⟩
    exact ⟨_, t, rfl⟩
  · exact fun _ hhost _ => hhost.elim
  · rintro _ change - ⟨now, t, rfl⟩
    exact ⟨now, change.apply t, rfl⟩

end ScopedAccess
