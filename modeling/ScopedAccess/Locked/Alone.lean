import ScopedAccess.Alone
import ScopedAccess.Locked.Races

namespace ScopedAccess.Locked

open Concurrent (Audit moveTo)
open Lib.Shared (Prog)

def Call.op : Call → Op Unit
  | .grant user role actor level scope validFrom validUntil => do
    let _ ← ScopeAssignment.grant user role actor level scope validFrom validUntil
  | .suspend pk actor reason => ScopeAssignment.suspend pk actor reason
  | .reactivate pk actor reason => ScopeAssignment.reactivate pk actor reason
  | .revoke pk actor reason => ScopeAssignment.revoke pk actor reason
  | .create actor fields => do
    let _ ← RoleService.create actor [] fields
  | .update role actor changes => do
    let _ ← RoleService.update role actor changes
  | .delete role actor => RoleService.delete role actor
  | .grantPermissions role perms actor => role.grantPermissions perms actor
  | .revokePermissions role perms actor => role.revokePermissions perms actor

/-- The key that an inserted row gets is the one that the operation takes. -/
def Call.Numbers (w : World) (next : Nat) : Call → Prop
  | .grant .. => next = Lib.Rows.fresh (w.tables.assignments.map AssignmentRow.id)
  | .create .. => next = Lib.Rows.fresh (w.tables.roles.map RoleRow.id)
  | _ => True

structure Inside (s₀ : Store) (conn : Nat) (es : List Edit) (s : Store) : Prop where
  blocks : ∃ locks, s.db.blocks conn = [⟨es, locks⟩]
  committed : s.db.committed = s₀.db.committed
  site : s.site = s₀.site
  receivers : s.receivers = s₀.receivers

structure Reading (s₀ : Store) (conn : Nat) (w : World) (s : Store) : Prop
    extends Inside s₀ conn [] s where
  next : s.next = s₀.next
  idle : s₀.db.blocks conn = []
  shown : s₀.sees conn = .ok w

def Wrote (s₀ : Store) (conn : Nat) (w : World) (s : Store) (w' : World) : Prop :=
  ∃ e t, Inside s₀ conn [e] s ∧ t.toTableRows = e.apply w.tables.toTableRows ∧ w' = w.save t

def Failed (s₀ : Store) (conn : Nat) (s : Store) : Prop := ∃ es, Inside s₀ conn es s

variable {s₀ s : Store} {conn : Nat} {w : World} {α β γ δ : Type} {rc : Receivers}

theorem Store.visible_idle (hidle : s₀.db.blocks conn = []) :
    s₀.visible conn = s₀.db.committed := by
  rw [Store.visible, Lib.Locks.Db.visible, Lib.Locks.Db.pending, hidle]
  rfl

theorem Inside.visible {es : List Edit} (h : Inside s₀ conn es s) :
    s.visible conn = theory.replay es s₀.db.committed := by
  obtain ⟨locks, hblocks⟩ := h.blocks
  rw [Store.visible, Lib.Locks.Db.visible, Lib.Locks.Db.pending, hblocks, h.committed]
  simp

theorem committed_eq (hidle : s₀.db.blocks conn = []) (hsees : s₀.sees conn = .ok w) :
    s₀.db.committed = w.tables.toTableRows := by
  rw [← Store.visible_idle hidle, Store.sees_tables hsees]

section Reads

variable (h : Reading s₀ conn w s)
include h

theorem Reading.failed : Failed s₀ conn s := ⟨[], h.toInside⟩

theorem Reading.visible : s.visible conn = w.tables.toTableRows :=
  h.toInside.visible.trans (committed_eq h.idle h.shown)

theorem Reading.sees : s.sees conn = .ok w := by
  have hshown := h.shown
  rw [Store.sees, Store.visible_idle h.idle] at hshown
  rw [Store.sees, h.toInside.visible, h.site]
  exact hshown

end Reads

theorem run_ofRead (hworld : s.sees conn = .ok w) (p : Read γ) :
    (ofRead conn p).run act s = (p.run w, s) := by
  induction p with
  | pure x => rfl
  | abort e => rfl
  | world k ih =>
    have hask : (perform (.ask conn)).run act s = (.ok (.ok w), s) :=
      congrArg (fun r => (Except.ok r, s)) hworld
    rw [ofRead, Prog.run_bind, hask]
    exact ih w
  | effective u at_ k ih =>
    have hanswer : s.answer (.effective conn u at_) = w.fetchEffective u (at_.getD w.now) := by
      change (s.sees conn >>= _) = _
      rw [hworld]
      rfl
    have hask : (perform (.effective conn u at_)).run act s =
        (.ok (w.fetchEffective u (at_.getD w.now)), s) :=
      congrArg (fun r => (Except.ok r, s)) hanswer
    rw [ofRead, Prog.run_bind, hask, Read.run]
    cases w.fetchEffective u (at_.getD w.now) with
    | ok as => exact ih as
    | error e => rfl
  | valid a k ih =>
    have hanswer : s.answer (.valid conn a) = w.assignmentIsValid a := by
      change (s.sees conn >>= _) = _
      rw [hworld]
      rfl
    have hask : (perform (.valid conn a)).run act s = (.ok (w.assignmentIsValid a), s) :=
      congrArg (fun r => (Except.ok r, s)) hanswer
    rw [ofRead, Prog.run_bind, hask, Read.run]
    cases w.assignmentIsValid a with
    | ok b => exact ih b
    | error e => rfl

theorem ofRead_bind (p : Read γ) (f : γ → Read δ) :
    ofRead conn (p >>= f) = ofRead conn p >>= fun x => ofRead conn (f x) := by
  induction p with
  | pure x => rfl
  | abort e => rfl
  | world k ih =>
    change (perform (.ask conn) >>= fun r => liftPy r >>= fun w => ofRead conn (k w >>= f)) = _
    simp only [ih, ofRead, bind_assoc]
  | effective u at_ k ih =>
    change (perform (.effective conn u at_) >>= fun r => liftPy r >>= fun as =>
      ofRead conn (k as >>= f)) = _
    simp only [ih, ofRead, bind_assoc]
  | valid a k ih =>
    change (perform (.valid conn a) >>= fun r => liftPy r >>= fun b => ofRead conn (k b >>= f)) = _
    simp only [ih, ofRead, bind_assoc]

abbrev Does (s₀ : Store) (conn : Nat) (w : World) (s : Store) (p : M α) (q : Op β) : Prop :=
  Follows act s₀.receivers (Wrote s₀ conn w) (Failed s₀ conn) s w p q

section Steps

variable (h : Reading s₀ conn w s)
include h

theorem Reading.read {p : Read γ} {f : γ → Read δ} {k : δ → M α} {g : γ → Op β}
    (hf : ∀ x, p.run w = .ok x → Does s₀ conn w s (ofRead conn (f x) >>= k) (g x)) :
    Does s₀ conn w s (ofRead conn (p >>= f) >>= k) ((liftM p : Op γ) >>= g) := by
  rw [ofRead_bind, bind_assoc]
  exact .read (run_ofRead h.sees p) (Op.run_ofRead p) h.failed hf

theorem Reading.py {p : Py γ} {f : γ → Read δ} {k : δ → M α} {g : γ → Op β}
    (hf : ∀ x, p = .ok x → Does s₀ conn w s (ofRead conn (f x) >>= k) (g x)) :
    Does s₀ conn w s (ofRead conn ((liftM p : Read γ) >>= f) >>= k) ((liftM p : Op γ) >>= g) := by
  cases p with
  | ok x => exact hf x rfl
  | error e => exact ⟨s, rfl, h.failed⟩

theorem Reading.look {f : World → Read δ} {k : δ → M α} {q : Op β}
    (hf : Does s₀ conn w s (ofRead conn (f w) >>= k) q) :
    Does s₀ conn w s (ofRead conn (Read.ask >>= f) >>= k) q := by
  rw [ofRead_bind, bind_assoc]
  exact .step (run_ofRead h.sees Read.ask) hf

theorem Reading.ask {f : World → Read δ} {k : δ → M α} {g : World → Op β}
    (hf : Does s₀ conn w s (ofRead conn (f w) >>= k) (g w)) :
    Does s₀ conn w s (ofRead conn (Read.ask >>= f) >>= k) (Op.ask >>= g) :=
  h.look (.skip Op.run_ask hf)

theorem Reading.raise {k : δ → M α} (cls : ExnClass) (message : String) :
    Does s₀ conn w s (ofRead conn (Locked.raise cls message) >>= k) (Op.raise cls message : Op β) :=
  ⟨s, rfl, h.failed⟩

theorem Reading.guard {b : Bool} {cls : ExnClass} {message : String} {p : Read δ} {k : δ → M α}
    {q : Op β} (hp : Does s₀ conn w s (ofRead conn p >>= k) q) :
    Does s₀ conn w s (ofRead conn (if !b then Locked.raise cls message else p) >>= k)
      (if !b then Op.raise cls message else q) := by
  cases b with
  | true => exact hp
  | false => exact h.raise cls message

end Steps

def proceed (conn : Nat) (plan : Plan) : M Nat :=
  match plan.role with
  | none => do
    write conn (← ofRead conn plan.decide)
  | some pk => do
    lockRole conn pk
    write conn (← ofRead conn plan.decide)

theorem Call.body_eq (c : Call) :
    c.body conn = atomic conn (some c) (ofRead conn c.plan >>= proceed conn) := rfl

theorem Reading.hasRole (h : Reading s₀ conn w s) (pk : Nat) :
    s.hasRole conn pk = (w.tables.role pk).isSome := by
  rw [Store.hasRole, h.visible, Tables.role, Bool.eq_iff_iff]
  simp

theorem Reading.locked (h : Reading s₀ conn w s) {pk : Nat} (hpk : s.hasRole conn pk = true) :
    Reading s₀ conn w (act (.lock conn pk) s).2 := by
  obtain ⟨locks, hblocks⟩ := h.blocks
  have hdb : (act (.lock conn pk) s).2.db = s.db.setBlocks conn [⟨[], .role pk :: locks⟩] := by
    simp only [act, Store.change, hpk, if_true, Stmt.conn, Lib.Locks.Db.run, Lib.Locks.Db.lock,
      hblocks]
    rfl
  refine { h with blocks := ⟨.role pk :: locks, ?_⟩, committed := ?_ }
  · rw [hdb]
    simp
  · rw [hdb]
    exact h.committed

theorem Reading.refresh (h : Reading s₀ conn w s) {role : Role} {decide : Role → Read Decision}
    {g : Role → Op β} (hf : ∀ s' role' row, Reading s₀ conn w s' → role' = w.loadRole row →
      w.tables.role row.id = some row →
      Does s₀ conn w s' (ofRead conn (decide role') >>= write conn) (g role')) :
    Does s₀ conn w s (ofRead conn (refreshForMutation role decide) >>= proceed conn)
      (ScopedAccess.refreshForMutation role >>= g) := by
  rw [refreshForMutation, ScopedAccess.refreshForMutation, bind_assoc]
  refine .skip (Op.run_ask) ?_
  cases role.pk with
  | none => exact ⟨s, rfl, h.failed⟩
  | some pk =>
    change Does s₀ conn w s (lockRole conn pk >>= fun _ =>
      ofRead conn (refreshed pk >>= decide) >>= write conn) _
    rw [lockRole, bind_assoc]
    have hlock : (perform (.lock conn pk)).run act s =
        (.ok (s.hasRole conn pk), (act (.lock conn pk) s).2) := rfl
    refine .step hlock ?_
    cases hrow : w.tables.role pk with
    | none =>
      have hpk : s.hasRole conn pk = false := by rw [h.hasRole, hrow, Option.isSome_none]
      have hs' : (act (.lock conn pk) s).2 = s := by
        simp [act, Store.change, hpk, Lib.Locks.Db.run, Stmt.keys]
      rw [hpk, hs', Option.bind_some, hrow]
      exact .abort rfl rfl h.failed
    | some row =>
      obtain rfl := (w.tables.role_eq_some.mp hrow).2
      have hpk : s.hasRole conn row.id = true := by rw [h.hasRole, hrow, Option.isSome_some]
      have hs' := h.locked hpk
      have hrefreshed : (refreshed row.id).run w = .ok (w.loadRole row) := by
        simp only [refreshed, Read.run_bind, Read.run_ask, Lib.Loop.ok_bind, hrow]
        rfl
      have hread := run_ofRead hs'.sees (refreshed row.id)
      rw [hrefreshed] at hread
      rw [hpk, Option.bind_some, hrow]
      refine .skip rfl (.step rfl ?_)
      rw [ofRead_bind, bind_assoc]
      exact .step hread (hf _ _ row hs' rfl hrow)

def tell : Option Signal → Op Unit
  | none => return
  | some signal => Op.emit signal

theorem Reading.wrote (h : Reading s₀ conn w s) {e : Edit}
    (hholds : e.holds w.tables.toTableRows = true)
    (hvalid : ((e.withKey s₀.next).apply w.tables.toTableRows).Valid) :
    (act (.write conn e) s).1 = .ok (some s₀.next) ∧
      Inside s₀ conn [e.withKey s₀.next] (act (.write conn e) s).2 := by
  obtain ⟨locks, hblocks⟩ := h.blocks
  have haccepts : s.accepts conn e = true := by
    rw [Store.accepts, h.visible, h.next]
    exact decide_eq_true hvalid
  have hdb : (act (.write conn e) s).2.db =
      s.db.setBlocks conn [⟨[e.withKey s₀.next], (e.withKey s₀.next).locks ++ locks⟩] := by
    simp only [act, Store.change, h.visible, hholds, haccepts, Bool.and_self, if_true, Stmt.conn,
      Lib.Locks.Db.run, Lib.Locks.Db.push, Lib.Locks.Db.lock, hblocks, h.next]
    simp [Lib.Locks.Db.setBlocks]
  refine ⟨?_, ⟨⟨(e.withKey s₀.next).locks ++ locks, ?_⟩, ?_, h.site, h.receivers⟩⟩
  · simp [act, Store.answer, h.visible, hholds, haccepts, h.next]
  · rw [hdb, Lib.Locks.Db.blocks_setBlocks, if_pos rfl]
  · rw [hdb]
    exact h.committed

theorem follows_emit {good : Store → World → Prop} {bad : Store → Prop} {x : α} {w' : World}
    (signal : Option Signal) (hreceivers : s.receivers = rc) (hgood : good s w') (hbad : bad s) :
    Follows act rc good bad s w' (emit signal >>= fun _ => Pure.pure x) (tell signal) := by
  subst hreceivers
  cases signal with
  | none => exact .step rfl (.pure hgood)
  | some signal =>
    have hsent : (perform (.send signal)).run act s = (.ok (s.receivers signal), s) := rfl
    rw [emit, bind_assoc]
    refine .step hsent ?_
    cases hsend : s.receivers signal with
    | none =>
      have htold : (tell (some signal)).run s.receivers w' = .ok ((), w') :=
        Op.run_emit_ok.mpr ⟨hsend, rfl⟩
      rw [← bind_pure (tell (some signal))]
      exact .skip htold (.step rfl (.pure hgood))
    | some e =>
      refine .abort rfl ?_ hbad
      rw [tell, Op.emit, Op.run, hsend]

theorem Reading.write (h : Reading s₀ conn w s) {d : Decision} {q : Op β}
    (hholds : d.edit.holds w.tables.toTableRows = true)
    (hq : (q.run s₀.receivers w).map Prod.snd =
      ((Op.write ((d.edit.withKey s₀.next).apply w.tables.toTableRows) >>= fun _ =>
        tell (d.signal s₀.next)).run s₀.receivers w).map Prod.snd) :
    Does s₀ conn w s (write conn d) q := by
  refine .congr hq ?_
  by_cases hvalid : ((d.edit.withKey s₀.next).apply w.tables.toTableRows).Valid
  · obtain ⟨hanswer, hinside⟩ := h.wrote hholds hvalid
    have hwritten : Wrote s₀ conn w (act (.write conn d.edit) s).2 (w.save ⟨_, hvalid⟩) :=
      ⟨_, ⟨_, hvalid⟩, hinside, rfl, rfl⟩
    have hperform : (perform (.write conn d.edit)).run act s =
        (.ok (.ok (some s₀.next)), (act (.write conn d.edit) s).2) :=
      congrArg (fun r => (Except.ok r, _)) hanswer
    have hop : (Op.write ((d.edit.withKey s₀.next).apply w.tables.toTableRows)).run s₀.receivers w =
        .ok ((), w.save ⟨_, hvalid⟩) := run_write rfl
    refine .step hperform (.step rfl (.skip hop ?_))
    exact follows_emit (d.signal s₀.next) hinside.receivers hwritten ⟨_, hinside⟩
  · have hop : (Op.write ((d.edit.withKey s₀.next).apply w.tables.toTableRows) >>= fun _ =>
        tell (d.signal s₀.next)).run s₀.receivers w =
          .error (.raised ⟨.integrityError, "constraint failed"⟩) := run_write_refused hvalid _
    have haccepts : s.accepts conn d.edit = false := by
      rw [Store.accepts, h.visible, h.next]
      exact decide_eq_false hvalid
    have hs' : (act (.write conn d.edit) s).2.db = s.db := by
      simp [act, Store.change, haccepts, Lib.Locks.Db.run]
    have hanswer : (act (.write conn d.edit) s).1 =
        .error (.raised ⟨.integrityError, "constraint failed"⟩) := by
      simp only [act, Store.answer, h.visible, hholds, haccepts]
      rfl
    have hperform : (perform (.write conn d.edit)).run act s =
        (.ok (.error (.raised ⟨.integrityError, "constraint failed"⟩)),
          (act (.write conn d.edit) s).2) :=
      congrArg (fun r => (Except.ok r, _)) hanswer
    refine .step hperform (.abort rfl hop ⟨[], ?_, ?_, h.site, h.receivers⟩)
    · exact hs' ▸ h.blocks
    · exact hs' ▸ h.committed

theorem Reading.finish (h : Reading s₀ conn w s) {a : Assignment} {target : AssignmentStatus}
    {allowedFrom : List AssignmentStatus} {changes : Option Audit}
    {change : AssignmentRow → AssignmentRow} {signal : AssignmentRow → Signal}
    (hrow : w.tables.assignment a.row.id = some a.row)
    (hchange : ∀ row, { change row with status := target } = moveTo row target changes) :
    Does s₀ conn w s (Locked.write conn (transition a target allowedFrom changes signal))
      (ScopeAssignment.finish a target allowedFrom change signal) := by
  have hmem := (w.tables.assignment_eq_some.mp hrow).1
  have hholds : (Edit.moved a.row.id target allowedFrom changes).holds w.tables.toTableRows =
      decide (a.row.status ∈ allowedFrom) := by
    change ((w.tables.assignment a.row.id).any _) = _
    rw [hrow, Option.any_some]
  by_cases hstatus : a.row.status ∈ allowedFrom
  · refine h.write (hholds.trans (decide_eq_true hstatus)) ?_
    have hrows : w.tables.setAssignment a.row.id { change a.row with status := target } =
        (Edit.moved a.row.id target allowedFrom changes).apply w.tables.toTableRows := by
      rw [hchange, TableRows.setAssignment, Edit.apply,
        Lib.Rows.modify_eq w.tables.assignment_ids hmem (moveTo · target changes)]
    have hfinish : (ScopeAssignment.finish a target allowedFrom change signal).run s₀.receivers w =
        (Op.write (w.tables.setAssignment a.row.id { change a.row with status := target }) >>=
          fun _ => Op.emit (signal { change a.row with status := target })).run s₀.receivers w := by
      rw [ScopeAssignment.finish, ScopeAssignment.transition, bind_assoc, Op.run_ask_bind]
      simp only [hrow, hstatus, not_true_eq_false, if_false, bind_assoc, pure_bind]
      rw [Op.run_bind, Op.run_bind]
      rfl
    rw [hfinish, hrows, hchange]
    rfl
  · have hs' : act (.write conn (.moved a.row.id target allowedFrom changes)) s =
        (.ok none, { s with next := s.next + 1 }) := by
      have hmisses := hholds.trans (decide_eq_false hstatus)
      rw [← h.visible] at hmisses
      simp only [act, Store.answer, Store.change, hmisses]
      rfl
    have hperform : (perform (.write conn (.moved a.row.id target allowedFrom changes))).run act s =
        (.ok (.ok none), { s with next := s.next + 1 }) :=
      congrArg (fun r => (Except.ok r.1, r.2)) hs'
    have hmissed := run_ofRead (s := { s with next := s.next + 1 }) h.sees
      (missedTransition a.row.id target)
    have hraised : (missedTransition a.row.id target).run w =
        .error (.raised ⟨.invalidAssignmentTransitionError, "Cannot transition assignment from " ++
          a.row.status.value ++ " to " ++ target.value ++ "."⟩) := by
      simp only [missedTransition, Read.run_bind, Read.run_ask, Lib.Loop.ok_bind, hrow]
      rfl
    rw [hraised] at hmissed
    have hprogram : (ofRead conn (missedTransition a.row.id target) >>= fun _ =>
        (Pure.pure 0 : M Nat)).run act { s with next := s.next + 1 } =
          (.error (.raised ⟨.invalidAssignmentTransitionError, "Cannot transition assignment from " ++
            a.row.status.value ++ " to " ++ target.value ++ "."⟩), { s with next := s.next + 1 }) := by
      rw [Prog.run_bind, hmissed]
      rfl
    refine .step hperform (.step rfl (.abort hprogram ?_
      ⟨[], h.blocks, h.committed, h.site, h.receivers⟩))
    rw [ScopeAssignment.finish, ScopeAssignment.transition, bind_assoc, Op.run_ask_bind]
    simp only [hrow, hstatus, not_false_eq_true, if_true]
    rfl

theorem authorizeTransition_eq (pk : Option Nat) (actor : Option User) :
    ScopeAssignment.authorizeTransition pk actor = liftM (authorizeTransition pk actor) := by
  cases pk with
  | none => rfl
  | some pk =>
    change _ = Op.ofRead (Read.ask >>= _)
    rw [ScopeAssignment.authorizeTransition, Op.ofRead_bind]
    refine congrArg (Op.ask >>= ·) (funext fun w => ?_)
    dsimp only
    cases (w.tables.assignment pk).bind w.loadAssignment with
    | none => rfl
    | some a =>
      dsimp only
      cases ScopeAssignment.scopeUnlessRoot a with
      | error e => rfl
      | ok scope =>
        have hguard (allowed : Bool) : (if !allowed then
            Op.raise .assignmentManagementPermissionError
              "The actor cannot manage assignments at the assignment's scope."
            else Pure.pure a) = Op.ofRead (if !allowed then
              raise .assignmentManagementPermissionError
                "The actor cannot manage assignments at the assignment's scope."
              else Pure.pure a) := by
          cases allowed <;> rfl
        change (if _ then _ else _) = Op.ofRead (if _ then _ else _)
        split <;> rw [Op.ofRead_bind] <;> exact congrArg (_ >>= ·) (funext hguard)

theorem authorized_row {pk : Option Nat} {actor : Option User} {a : Assignment}
    (h : (authorizeTransition pk actor).run w = .ok a) :
    w.tables.assignment a.row.id = some a.row ∧ w.loadAssignment a.row = some a := by
  have hrun : (ScopeAssignment.authorizeTransition pk actor).run quiet w = .ok (a, w) := by
    rw [authorizeTransition_eq]
    exact Op.run_read_ok.mpr ⟨h, rfl⟩
  obtain ⟨row, -, -, hrow, hload, -⟩ := ScopeAssignment.authorizeTransition_ok hrun
  obtain rfl := World.loaded_row hload
  exact ⟨hrow, hload⟩

theorem Reading.saved (h : Reading s₀ conn w s) {role : Role}
    (hkey : role.pk = none → s₀.next = Lib.Rows.fresh (w.tables.roles.map RoleRow.id)) :
    Does s₀ conn w s (ofRead conn (Locked.saved role) >>= Locked.write conn) (saveRole role) := by
  refine h.ask (h.py fun role' hrole => ?_)
  rw [← World.validateOwner_pk hrole] at hkey
  cases hpk : role'.pk with
  | none =>
    refine h.write rfl ?_
    simp only [Edit.withKey, Edit.apply, hkey hpk, Option.getD_some]
    exact run_write_congr fun v => rfl
  | some pk =>
    cases hrow : w.tables.role pk with
    | none =>
      simp only [hrow, Option.isNone_none, Option.isSome_none, if_true, Bool.false_eq_true, if_false]
      refine h.write rfl ?_
      exact run_write_congr fun v => rfl
    | some row =>
      simp only [hrow, Option.isNone_some, Option.isSome_some, if_true, Bool.false_eq_true, if_false]
      cases role'.createdAt with
      | none => exact h.raise _ _
      | some createdAt =>
        refine h.write rfl ?_
        exact run_write_congr fun v => rfl

theorem labels_nil : labels [] = [] := rfl

theorem run_announce (role : Role) (added removed : List Permission) (actor : Option User) :
    ((role.announce added removed actor).run rc w).map Prod.snd =
      ((tell (if added.isEmpty && removed.isEmpty then none
        else some (.rolePermissionsChanged role (labels added) (labels removed) actor))).run rc
          w).map Prod.snd := by
  rw [Role.announce]
  split <;> rfl

theorem does_call (c : Call) (h : Reading s₀ conn w s) (hnumbers : c.Numbers w s₀.next) :
    Does s₀ conn w s (ofRead conn c.plan >>= proceed conn) c.op := by
  cases c with
  | grant user role actor level scope validFrom validUntil =>
    have hnext : s₀.next = Lib.Rows.fresh (w.tables.assignments.map AssignmentRow.id) := hnumbers
    refine .congr (run_discard _ _) ?_
    change Does s₀ conn w s (ofRead conn (Read.ask >>= _) >>= proceed conn) (Op.ask >>= _)
    refine h.ask (h.py fun level' _ => ?_)
    cases ScopeAssignment.windowOpens validFrom validUntil with
    | false => exact h.raise _ _
    | true =>
      refine h.refresh fun s' role' row h hrole hrow => h.look (h.py fun fits _ => h.guard ?_)
      refine h.read fun may _ => h.guard (h.read fun assigns _ => h.guard (h.ask ?_))
      refine h.write rfl ?_
      simp only [Edit.withKey, Edit.apply, hnext]
      exact run_write_congr fun v => run_discard _ _
  | suspend pk actor reason =>
    change Does s₀ conn w s (ofRead conn (authorizeTransition pk actor >>= _) >>= proceed conn)
      (ScopeAssignment.authorizeTransition pk actor >>= _)
    rw [authorizeTransition_eq]
    refine h.read fun a ha => ?_
    exact h.finish (authorized_row ha).1 fun _ => rfl
  | reactivate pk actor reason =>
    change Does s₀ conn w s (ofRead conn (authorizeTransition pk actor >>= _) >>= proceed conn)
      (ScopeAssignment.authorizeTransition pk actor >>= _)
    rw [authorizeTransition_eq]
    refine h.read fun a ha => ?_
    obtain ⟨hrow, -⟩ := authorized_row ha
    refine h.look ?_
    rw [hrow]
    by_cases hstatus : a.row.status = .suspended
    · simp only [hstatus, Option.map_some, ne_eq, not_true_eq_false, if_false]
      refine h.refresh fun s' role' row h hrole hstored => h.py fun scope _ => ?_
      exact h.read fun assigns _ => h.guard (h.finish hrow fun _ => rfl)
    · simp only [hstatus, Option.map_some, ne_eq, Option.some.injEq, not_false_eq_true, if_true]
      exact h.raise _ _
  | revoke pk actor reason =>
    change Does s₀ conn w s (ofRead conn (authorizeTransition pk actor >>= _) >>= proceed conn)
      (ScopeAssignment.authorizeTransition pk actor >>= _)
    rw [authorizeTransition_eq]
    refine h.read fun a ha => h.ask ?_
    exact h.finish (authorized_row ha).1 fun _ => rfl
  | create actor fields =>
    refine .congr (run_discard _ _) ?_
    change Does s₀ conn w s (ofRead conn (createDecision actor fields) >>= write conn) _
    refine h.ask (h.py fun role hrole => h.read fun may _ => h.guard ?_)
    refine .congr (run_saved fun _ _ => rfl) (h.saved fun _ => hnumbers)
  | update role actor changes =>
    refine .congr (run_discard _ _) ?_
    refine h.refresh fun s' role' row h hrole hrow => h.read fun may _ => h.guard (h.ask ?_)
    refine h.py fun role'' hvalid => h.read fun may' _ => h.guard ?_
    refine .congr (run_saved fun _ _ => rfl) (h.saved fun hnone => ?_)
    rw [World.validateOwner_pk hvalid, RoleService.Changes.apply_pk, hrole] at hnone
    cases hnone
  | delete role actor =>
    refine h.refresh fun s' role' row h hrole hrow => h.read fun may _ => h.guard (h.ask ?_)
    dsimp only
    split
    · exact h.raise _ _
    · refine h.write rfl ?_
      rw [← bind_pure (Op.write _)]
      exact run_write_congr fun v => rfl
  | grantPermissions role perms actor =>
    refine h.refresh fun s' role' row h hrole hrow => ?_
    cases actor with
    | none => exact h.raise _ _
    | some user =>
      refine h.read fun may _ => h.guard (h.ask (h.read fun forbidden _ => ?_))
      split
      · exact h.raise _ _
      · refine h.write rfl (run_write_congr fun v => ?_)
        exact (run_announce _ _ [] _).trans (by simp [labels_nil])
  | revokePermissions role perms actor =>
    refine h.refresh fun s' role' row h hrole hrow => h.read fun may _ => h.guard (h.ask ?_)
    refine h.write rfl (run_write_congr fun v => ?_)
    exact (run_announce _ [] _ _).trans (by simp [labels_nil])

/-- No block is open, and the queries of the connection find this world. -/
structure Shows (s : Store) (conn : Nat) (w : World) : Prop where
  idle : s.db.blocks conn = []
  sees : s.sees conn = .ok w

theorem Shows.entered (hs : Shows s conn w) (call : Option Call) :
    Reading s conn w (act (.enter conn call) s).2 := by
  refine ⟨⟨⟨[], ?_⟩, rfl, rfl, rfl⟩, rfl, hs.idle, hs.sees⟩
  simp [act, Store.change, Stmt.conn, Lib.Locks.Db.run, Lib.Locks.Db.enter, hs.idle]

theorem Shows.undone (hs : Shows s₀ conn w) (h : Failed s₀ conn s) :
    Shows (act (.undo conn) s).2 conn w := by
  obtain ⟨es, ⟨⟨locks, hblocks⟩, hcommitted, hsite, -⟩⟩ := h
  have hidle : (act (.undo conn) s).2.db.blocks conn = [] := by
    simp [act, Store.change, Stmt.conn, Lib.Locks.Db.run, Lib.Locks.Db.undo, hblocks]
  have hsees := hs.sees
  rw [Store.sees, Store.visible_idle hs.idle] at hsees
  refine ⟨hidle, ?_⟩
  rw [Store.sees, Store.visible_idle hidle]
  change (s.db.committed.commit >>= fun t => Pure.pure (s.site.save t)) = _
  rw [hcommitted, hsite]
  exact hsees

theorem Shows.left (hs : Shows s₀ conn w) {w' : World} (h : Wrote s₀ conn w s w') :
    s.commits conn = true ∧ Shows (act (.leave conn) s).2 conn w' := by
  obtain ⟨e, t, ⟨⟨locks, hblocks⟩, hcommitted, hsite, -⟩, ht, rfl⟩ := h
  have hreplay : theory.replay [e] s.db.committed = t.toTableRows := by
    rw [hcommitted, committed_eq hs.idle hs.sees, ht]
    rfl
  have hcommits : s.commits conn = true := by
    simp only [Store.commits, hblocks, hreplay]
    exact decide_eq_true t.valid
  have hdb : (act (.leave conn) s).2.db =
      { committed := t.toTableRows, blocks := Function.update s.db.blocks conn [] } := by
    have hcommit : s.db.commit theory [e] = t.toTableRows := by
      rw [Lib.Locks.Db.commit, hreplay]
      exact if_pos (decide_eq_true t.valid)
    simp [act, Store.change, Stmt.conn, Lib.Locks.Db.run, Lib.Locks.Db.leave, hblocks, hcommit]
  have hidle : (act (.leave conn) s).2.db.blocks conn = [] := by
    rw [hdb]
    exact Function.update_self ..
  refine ⟨hcommits, hidle, ?_⟩
  have hsees := hs.sees
  obtain ⟨t₀, -, hw⟩ := Lib.Loop.bind_eq_ok.mp hsees
  obtain rfl := Except.ok.inj hw
  rw [Store.sees, Store.visible_idle hidle, hdb, t.commit_self]
  change Except.ok (s.site.save t) = _
  rw [hsite, World.save_save]

theorem Call.follows_op (hs : Shows s conn w) (c : Call) (hnumbers : c.Numbers w s.next) :
    Follows act s.receivers (Shows · conn ·) (Shows · conn w) s w (c.body conn) c.op := by
  have hdoes := does_call c (hs.entered (some c)) hnumbers
  have henter : (perform (.enter conn (some c))).run act s = (.ok (), _) := rfl
  rw [Call.body_eq, atomic]
  refine .step henter ?_
  unfold Does Follows at hdoes
  unfold Follows
  rw [Prog.run_bind, Prog.run_attempt]
  cases hop : c.op.run s.receivers w with
  | error e =>
    rw [hop] at hdoes
    obtain ⟨s', hrun, hfailed⟩ := hdoes
    exact ⟨_, by rw [hrun]; rfl, hs.undone hfailed⟩
  | ok r =>
    rw [hop] at hdoes
    obtain ⟨x, s', hrun, hwrote⟩ := hdoes
    obtain ⟨hcommits, hleft⟩ := hs.left hwrote
    have hleave : (perform (.leave conn)).run act s' = (.ok true, (act (.leave conn) s').2) :=
      congrArg (fun b => (Except.ok b, _)) hcommits
    refine ⟨x, _, ?_, hleft⟩
    rw [hrun]
    change ((perform (.leave conn) >>= _).run act s') = _
    rw [Prog.run_bind, hleave]
    rfl

end ScopedAccess.Locked
