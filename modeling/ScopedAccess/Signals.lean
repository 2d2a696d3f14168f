import ScopedAccess.RoleServiceLaws

namespace ScopedAccess

open Lib.Loop (bind_eq_ok)
open Op (ask raise write invalidateCache afterCommit emit)

variable {rc : Receivers} {w w' : World}

namespace Op

variable {α β : Type}

def signals (receivers : Receivers) (w : World) : Op α → List Signal
  | .pure _ => []
  | .abort _ => []
  | .world k => (k w).signals receivers w
  | .effective u at_ k =>
    match w.fetchEffective u (at_.getD w.now) with
    | .ok as => (k as).signals receivers w
    | .error _ => []
  | .valid a k =>
    match w.assignmentIsValid a with
    | .ok b => (k b).signals receivers w
    | .error _ => []
  | .save t k => k.signals receivers (w.save t)
  | .invalidate _ k => k.signals receivers w
  | .onCommit _ k => k.signals receivers w
  | .send s k =>
    match receivers s with
    | none => s :: k.signals receivers w
    | some _ => [s]

/-- The operation returns, and this is what it has sent. -/
structure Sends (rc : Receivers) (w : World) (p : Op α) (x : α) (w' : World)
    (sent : List Signal) : Prop where
  returns : p.run rc w = .ok (x, w')
  signals : p.signals rc w = sent

variable {x : α} {y : β} {sent : List Signal}

theorem signals_bind {p : Op α} {f : α → Op β} (h : p.run rc w = .ok (x, w')) :
    (p >>= f).signals rc w = p.signals rc w ++ (f x).signals rc w' := by
  change (p.bind f).signals rc w = _
  induction p generalizing w with
  | pure z =>
    obtain ⟨rfl, rfl⟩ : z = x ∧ w = w' := by simpa [run] using h
    rfl
  | abort e => cases h
  | world k ih => exact ih w h
  | effective u at_ k ih =>
    cases has : w.fetchEffective u (at_.getD w.now) with
    | error e => simp [run, has] at h
    | ok as =>
      simp only [bind, Op.signals, has]
      exact ih as (by simpa [run, has] using h)
  | valid a k ih =>
    cases hb : w.assignmentIsValid a with
    | error e => simp [run, hb] at h
    | ok b =>
      simp only [bind, Op.signals, hb]
      exact ih b (by simpa [run, hb] using h)
  | save t k ih | invalidate i k ih | onCommit i k ih => exact ih h
  | send s k ih =>
    cases hs : rc s with
    | some e => simp [run, hs] at h
    | none =>
      simp only [bind, Op.signals, hs, List.cons_append]
      exact congrArg (s :: ·) (ih (by simpa [run, hs] using h))

theorem sends_bind {p : Op α} {f : α → Op β} : (p >>= f).Sends rc w y w' sent ↔
    ∃ x v before after, p.Sends rc w x v before ∧ (f x).Sends rc v y w' after ∧
      sent = before ++ after := by
  constructor
  · rintro ⟨hrun, rfl⟩
    obtain ⟨x, v, hp, hf⟩ := run_bind_ok.mp hrun
    exact ⟨x, v, _, _, ⟨hp, rfl⟩, ⟨hf, rfl⟩, signals_bind hp⟩
  · rintro ⟨x, v, _, _, ⟨hp, rfl⟩, ⟨hf, rfl⟩, rfl⟩
    exact ⟨run_bind_ok.mpr ⟨x, v, hp, hf⟩, signals_bind hp⟩

theorem sends_pure {z : α} :
    (Pure.pure z : Op α).Sends rc w x w' sent ↔ z = x ∧ w = w' ∧ sent = [] :=
  ⟨fun h => ⟨(run_pure_ok.mp h.returns).1, (run_pure_ok.mp h.returns).2, h.signals.symm⟩,
    fun h => ⟨run_pure_ok.mpr ⟨h.1, h.2.1⟩, h.2.2.symm⟩⟩

theorem sends_raise {cls : ExnClass} {message : String} :
    ¬ (raise cls message : Op α).Sends rc w x w' sent :=
  fun h => by simpa using h.returns

theorem sends_guard {cls : ExnClass} {message : String} {b : Bool} {p : Op α} :
    (if !b then raise cls message else p).Sends rc w x w' sent ↔
      b = true ∧ p.Sends rc w x w' sent := by
  cases b <;> simp [sends_raise]

theorem sends_reject {cls : ExnClass} {message : String} {c : Prop} [Decidable c] {p : Op α} :
    (if c then raise cls message else p).Sends rc w x w' sent ↔ ¬ c ∧ p.Sends rc w x w' sent := by
  by_cases h : c <;> simp [h, sends_raise]

theorem signals_ask_bind {f : World → Op α} : (ask >>= f).signals rc w = (f w).signals rc w := rfl

theorem sends_ask_bind {f : World → Op α} :
    (ask >>= f).Sends rc w x w' sent ↔ (f w).Sends rc w x w' sent := by
  constructor <;> exact fun ⟨hrun, hsent⟩ => ⟨hrun, hsent⟩

theorem signals_read (p : Read α) : (liftM p : Op α).signals rc w = [] := by
  change (ofRead p).signals rc w = []
  induction p with
  | pure x => rfl
  | abort e => rfl
  | world k ih => exact ih w
  | effective u at_ k ih =>
    simp only [ofRead, Op.signals]
    cases w.fetchEffective u (at_.getD w.now) with
    | error e => rfl
    | ok as => exact ih as
  | valid a k ih =>
    simp only [ofRead, Op.signals]
    cases w.assignmentIsValid a with
    | error e => rfl
    | ok b => exact ih b

theorem sends_read_bind {p : Read α} {f : α → Op β} :
    ((liftM p : Op α) >>= f).Sends rc w y w' sent ↔
      ∃ x, p.run w = .ok x ∧ (f x).Sends rc w y w' sent := by
  rw [sends_bind]
  constructor
  · rintro ⟨x, v, _, after, ⟨hp, rfl⟩, hf, rfl⟩
    obtain ⟨hx, rfl⟩ := run_read_ok.mp hp
    exact ⟨x, hx, by rwa [signals_read]⟩
  · rintro ⟨x, hx, hf⟩
    exact ⟨x, w, [], sent, ⟨run_read_ok.mpr ⟨hx, rfl⟩, signals_read p⟩, hf, rfl⟩

theorem signals_py (p : Py α) : (liftM p : Op α).signals rc w = [] := by
  cases p <;> rfl

theorem sends_py_bind {p : Py α} {f : α → Op β} :
    ((liftM p : Op α) >>= f).Sends rc w y w' sent ↔
      ∃ x, p = .ok x ∧ (f x).Sends rc w y w' sent := by
  rw [sends_bind]
  constructor
  · rintro ⟨x, v, _, after, ⟨hp, rfl⟩, hf, rfl⟩
    obtain ⟨hx, rfl⟩ := run_py_ok.mp hp
    exact ⟨x, hx, by rwa [signals_py]⟩
  · rintro ⟨x, hx, hf⟩
    exact ⟨x, w, [], sent, ⟨run_py_ok.mpr ⟨hx, rfl⟩, signals_py p⟩, hf, rfl⟩

theorem signals_write {rows : TableRows} : (write rows).signals rc w = [] := by
  cases h : rows.commit with
  | error e => simp only [write, h]; rfl
  | ok t => simp only [write, h]; rfl

theorem sends_write_bind {rows : TableRows} {f : Unit → Op β} :
    (write rows >>= f).Sends rc w y w' sent ↔
      ∃ t : Tables, t.toTableRows = rows ∧ (f ()).Sends rc (w.save t) y w' sent := by
  rw [sends_bind]
  constructor
  · rintro ⟨x, v, _, after, ⟨hp, rfl⟩, hf, rfl⟩
    obtain ⟨t, ht, rfl⟩ := run_write_ok.mp hp
    exact ⟨t, ht, by rwa [signals_write]⟩
  · rintro ⟨t, ht, hf⟩
    exact ⟨(), _, [], sent, ⟨run_write_ok.mpr ⟨t, ht, rfl⟩, signals_write⟩, hf, rfl⟩

theorem sends_invalidateCache_bind {i : Invalidation} {f : Unit → Op β} :
    (invalidateCache i >>= f).Sends rc w y w' sent ↔ (f ()).Sends rc w y w' sent := by
  constructor <;> exact fun ⟨hrun, hsent⟩ => ⟨hrun, hsent⟩

theorem sends_afterCommit_bind {i : Invalidation} {f : Unit → Op β} :
    (afterCommit i >>= f).Sends rc w y w' sent ↔ (f ()).Sends rc w y w' sent := by
  constructor <;> exact fun ⟨hrun, hsent⟩ => ⟨hrun, hsent⟩

theorem sends_emit {s : Signal} {z : Unit} :
    (emit s).Sends rc w z w' sent ↔ rc s = none ∧ w' = w ∧ sent = [s] := by
  constructor
  · rintro ⟨hrun, rfl⟩
    obtain ⟨hs, rfl⟩ := run_emit_ok.mp hrun
    refine ⟨hs, rfl, ?_⟩
    simp [emit, Op.signals, hs]
  · rintro ⟨hs, rfl, rfl⟩
    refine ⟨run_emit_ok.mpr ⟨hs, rfl⟩, ?_⟩
    simp [emit, Op.signals, hs]

theorem sends_emit_bind {s : Signal} {f : Unit → Op β} :
    (emit s >>= f).Sends rc w y w' sent ↔
      rc s = none ∧ ∃ more, (f ()).Sends rc w y w' more ∧ sent = s :: more := by
  rw [sends_bind]
  simp only [sends_emit]
  constructor
  · rintro ⟨_, _, _, more, ⟨hs, rfl, rfl⟩, hf, rfl⟩
    exact ⟨hs, more, hf, rfl⟩
  · rintro ⟨hs, more, hf, rfl⟩
    exact ⟨(), w, [s], more, ⟨hs, rfl, rfl⟩, hf, rfl⟩

end Op

open Op (Sends sends_bind sends_pure sends_guard sends_reject sends_ask_bind sends_read_bind
  sends_py_bind sends_write_bind sends_invalidateCache_bind sends_afterCommit_bind sends_emit
  sends_emit_bind)

theorem signals_refresh {role : Role} : (refreshForMutation role).signals rc w = [] := by
  rw [refreshForMutation, Op.signals_ask_bind]
  cases role.pk.bind w.tables.role <;> rfl

theorem sends_refresh_bind {α : Type} {role : Role} {f : Role → Op α} {y : α}
    {sent : List Signal} : (refreshForMutation role >>= f).Sends rc w y w' sent ↔
      ∃ row, role.pk = some row.id ∧ w.tables.role row.id = some row ∧
        (f (w.loadRole row)).Sends rc w y w' sent := by
  rw [sends_bind]
  constructor
  · rintro ⟨_, _, _, after, ⟨hrun, rfl⟩, hf, rfl⟩
    obtain ⟨row, hpk, hrow, rfl, rfl⟩ := refreshForMutation_ok.mp hrun
    exact ⟨row, hpk, hrow, by rwa [signals_refresh]⟩
  · rintro ⟨row, hpk, hrow, hf⟩
    exact ⟨_, w, [], sent, ⟨refreshForMutation_ok.mpr ⟨row, hpk, hrow, rfl, rfl⟩, signals_refresh⟩,
      hf, rfl⟩

namespace ScopeAssignment

theorem grant_sends {user : User} {role : Role} {actor : Option User} {level : Option String}
    {scope : Option Obj} {validFrom validUntil : Option Time} {a : AssignmentRow}
    {sent : List Signal}
    (h : (grant user role actor level scope validFrom validUntil).Sends rc w a w' sent) :
    sent = [.assignmentGranted a actor] := by
  simp only [grant, sends_ask_bind, sends_py_bind, sends_guard, sends_refresh_bind,
    sends_read_bind, sends_write_bind, sends_invalidateCache_bind, sends_afterCommit_bind,
    sends_emit_bind, sends_pure] at h
  obtain ⟨_, -, -, _, -, -, _, -, -, _, -, -, _, -, -, _, -, -, _, ⟨rfl, -, rfl⟩, rfl⟩ := h
  rfl

theorem signals_authorizeTransition {pk : Option Nat} {actor : Option User} {a : Assignment}
    (h : (authorizeTransition pk actor).run rc w = .ok (a, w')) :
    (authorizeTransition pk actor).signals rc w = [] := by
  obtain ⟨sent, hsent⟩ : ∃ sent, (authorizeTransition pk actor).Sends rc w a w' sent := ⟨_, h, rfl⟩
  rw [hsent.signals]
  cases pk with
  | none => exact absurd hsent Op.sends_raise
  | some pk =>
    simp only [authorizeTransition, sends_ask_bind] at hsent
    cases ha : (w.tables.assignment pk).bind w.loadAssignment with
    | none =>
      rw [ha] at hsent
      exact absurd hsent Op.sends_raise
    | some a' =>
      simp only [ha, sends_py_bind] at hsent
      obtain ⟨scope, -, hsent⟩ := hsent
      split at hsent
      · simp only [sends_read_bind, sends_guard, sends_pure] at hsent
        obtain ⟨-, -, -, -, -, rfl⟩ := hsent
        rfl
      · simp only [sends_read_bind, sends_guard, sends_pure] at hsent
        obtain ⟨-, -, -, -, -, rfl⟩ := hsent
        rfl

structure Transitioned (w w' : World) (target : AssignmentStatus)
    (allowedFrom : List AssignmentStatus) (row row' : AssignmentRow) : Prop where
  stored : w.tables.assignment row.id = some row
  allowed : row.status ∈ allowedFrom
  status : row'.status = target
  id : row'.id = row.id
  written : ∃ t : Tables, t.toTableRows = w.tables.setAssignment row.id row' ∧ w' = w.save t

theorem finish_sends {a : Assignment} {target : AssignmentStatus}
    {allowedFrom : List AssignmentStatus} (changes : AssignmentRow → AssignmentRow)
    {signal : AssignmentRow → Signal} {x : Unit} {sent : List Signal}
    (hchanges : ∀ row, (changes row).id = row.id)
    (h : (finish a target allowedFrom changes signal).Sends rc w x w' sent) :
    ∃ row row', Transitioned w w' target allowedFrom row row' ∧ sent = [signal row'] := by
  simp only [finish, transition] at h
  obtain ⟨changed, v, before, after, htransition, hrest, rfl⟩ := sends_bind.mp h
  simp only [sends_ask_bind] at htransition
  cases hrow : w.tables.assignment a.row.id with
  | none =>
    rw [hrow] at htransition
    exact absurd htransition Op.sends_raise
  | some row =>
    obtain ⟨-, hid⟩ := w.tables.assignment_eq_some.mp hrow
    simp only [hrow, sends_reject, sends_write_bind, sends_pure, not_not] at htransition
    obtain ⟨hallowed, t, ht, rfl, rfl, rfl⟩ := htransition
    simp only [sends_invalidateCache_bind, sends_afterCommit_bind, sends_emit] at hrest
    obtain ⟨-, rfl, rfl⟩ := hrest
    rw [← hid] at hrow ht
    exact ⟨row, { changes row with status := target },
      ⟨hrow, hallowed, rfl, hchanges row, t, ht, rfl⟩, rfl⟩

section Transitions

variable {pk : Option Nat} {actor : Option User} {reason : String} {x : Unit} {sent : List Signal}

theorem sends_authorize_bind {f : Assignment → Op Unit}
    (h : (authorizeTransition pk actor >>= f).Sends rc w x w' sent) :
    ∃ a, (f a).Sends rc w x w' sent := by
  obtain ⟨a, v, _, after, ⟨hauth, rfl⟩, hf, rfl⟩ := sends_bind.mp h
  obtain ⟨-, -, -, -, -, -, -, rfl⟩ := authorizeTransition_ok hauth
  exact ⟨a, by rwa [signals_authorizeTransition hauth]⟩

theorem suspend_sends (h : (suspend pk actor reason).Sends rc w x w' sent) :
    ∃ row row', Transitioned w w' .suspended [.active] row row' ∧
      sent = [.assignmentSuspended row' actor reason] := by
  obtain ⟨a, h⟩ := sends_authorize_bind h
  exact finish_sends _ (fun _ => rfl) h

theorem reactivate_sends (h : (reactivate pk actor reason).Sends rc w x w' sent) :
    ∃ row row', Transitioned w w' .active [.suspended] row row' ∧
      sent = [.assignmentReactivated row' actor reason] := by
  obtain ⟨a, h⟩ := sends_authorize_bind h
  simp only [sends_reject, sends_refresh_bind, sends_py_bind, sends_read_bind] at h
  obtain ⟨-, _, -, -, _, -, _, -, -, h⟩ := h
  exact finish_sends _ (fun _ => rfl) h

theorem revoke_sends (h : (revoke pk actor reason).Sends rc w x w' sent) :
    ∃ row row', Transitioned w w' .revoked [.active, .suspended] row row' ∧
      sent = [.assignmentRevoked row' actor reason] := by
  obtain ⟨a, h⟩ := sends_authorize_bind h
  rw [sends_ask_bind] at h
  exact finish_sends (fun row => { row with
    revokedBy := actor.map User.pk
    revokedAt := some w.now
    reason := reason }) (fun _ => rfl) h

end Transitions

end ScopeAssignment

namespace Role

variable {role : Role} {perms : List Permission} {actor : Option User} {x : Unit}
  {sent : List Signal}

def changed (role : Role) (added removed : List Permission) (actor : Option User) : List Signal :=
  if added.isEmpty && removed.isEmpty then []
  else [.rolePermissionsChanged role (labels added) (labels removed) actor]

theorem announce_sends {added removed : List Permission}
    (h : (role.announce added removed actor).Sends rc w x w' sent) :
    w' = w ∧ sent = role.changed added removed actor := by
  unfold announce at h
  unfold changed
  split at h
  · obtain ⟨-, rfl, rfl⟩ := sends_pure.mp h
    simp_all
  · simp only [sends_invalidateCache_bind, sends_afterCommit_bind, sends_emit] at h
    simp_all

theorem grantPermissions_sends (h : (role.grantPermissions perms actor).Sends rc w x w' sent) :
    ∃ (row : RoleRow) (t : Tables), role.pk = some row.id ∧ w.tables.role row.id = some row ∧
      t.toTableRows = w.tables.addPermissions row.id perms ∧ w' = w.save t ∧
      sent = (w.loadRole row).changed (perms.filter fun p => !w.tables.carries row.id p) [] actor := by
  rw [grantPermissions, sends_refresh_bind] at h
  obtain ⟨row, hpk, hrow, h⟩ := h
  cases actor with
  | none => exact absurd h Op.sends_raise
  | some user =>
    have hid : (w.loadRole row).pk.getD 0 = row.id := rfl
    simp only [sends_read_bind, sends_reject, sends_ask_bind, sends_write_bind, hid] at h
    obtain ⟨-, -, -, -, -, -, t, ht, h⟩ := h
    obtain ⟨rfl, rfl⟩ := announce_sends h
    exact ⟨row, t, hpk, hrow, ht, rfl, rfl⟩

theorem revokePermissions_sends (h : (role.revokePermissions perms actor).Sends rc w x w' sent) :
    ∃ (row : RoleRow) (t : Tables), role.pk = some row.id ∧ w.tables.role row.id = some row ∧
      t.toTableRows = w.tables.removePermissions row.id perms ∧ w' = w.save t ∧
      sent = (w.loadRole row).changed [] (perms.filter fun p => w.tables.carries row.id p) actor := by
  rw [revokePermissions, sends_refresh_bind] at h
  obtain ⟨row, hpk, hrow, h⟩ := h
  have hid : (w.loadRole row).pk.getD 0 = row.id := rfl
  simp only [sends_read_bind, sends_reject, sends_ask_bind, sends_write_bind, hid] at h
  obtain ⟨-, -, -, t, ht, h⟩ := h
  obtain ⟨rfl, rfl⟩ := announce_sends h
  exact ⟨row, t, hpk, hrow, ht, rfl, rfl⟩

end Role

end ScopedAccess
