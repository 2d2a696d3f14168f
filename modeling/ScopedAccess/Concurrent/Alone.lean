import ScopedAccess.Alone
import ScopedAccess.Concurrent.Live

namespace ScopedAccess.Concurrent

open Lib.Shared (Prog)

def Call.op : Call → Op Unit
  | .grant user role actor level scope validFrom validUntil => do
    let _ ← ScopeAssignment.grant user role actor level scope validFrom validUntil
  | .suspend pk actor reason => ScopeAssignment.suspend pk actor reason
  | .reactivate pk actor reason => ScopeAssignment.reactivate pk actor reason
  | .revoke pk actor reason => ScopeAssignment.revoke pk actor reason

/-- The rows that the call refers to are stored, and the key it inserts under is the one the
operation takes. -/
def Call.Stored (w : World) (next : Nat) : Call → Prop
  | .grant user _ actor _ scope _ _ =>
    next = Lib.Rows.fresh (w.tables.assignments.map AssignmentRow.id) ∧
      user.pk ∈ w.tables.users ∧ (∀ u ∈ actor, u.pk ∈ w.tables.users) ∧
      ∀ o ∈ scope, w.site.schema.contentType o.model ∈ w.tables.contentTypes
  | .revoke _ actor _ => ∀ u ∈ actor, u.pk ∈ w.tables.users
  | _ => True

/-- No block is open, and the assignments are those of the world. -/
structure Shows (s : Store) (conn : Nat) (w : World) : Prop where
  idle : s.db.levels conn = []
  rows : ∀ pk, s.db.committed pk = w.tables.assignment pk

structure Inside (s₀ : Store) (conn : Nat) (s : Store) (rows : Nat → Option AssignmentRow) :
    Prop where
  levels : ∃ L, s.db.levels conn = [L] ∧ s.db.view L = rows
  committed : s.db.committed = s₀.db.committed

structure Reading (s₀ : Store) (conn : Nat) (w : World) (s : Store) : Prop where
  level : s.db.levels conn = [{}]
  committed : s.db.committed = s₀.db.committed
  site : s.site = w
  receivers : s.receivers = s₀.receivers
  next : s.next = s₀.next
  shows : Shows s₀ conn w

def Failed (s₀ : Store) (conn : Nat) (s : Store) : Prop := ∃ rows, Inside s₀ conn s rows

abbrev Does (s₀ : Store) (conn : Nat) (s : Store) (w : World) {α β : Type} (p : M α) (q : Op β) :
    Prop :=
  Follows act s₀.receivers (fun s' w' => Inside s₀ conn s' w'.tables.assignment) (Failed s₀ conn)
    s w p q

variable {s₀ s : Store} {conn : Nat} {w : World} {α β γ : Type}

theorem run_ofRead (s : Store) (p : Read γ) : (ofRead p).run act s = (p.run s.site, s) := by
  induction p with
  | pure x => rfl
  | abort e => rfl
  | world k ih => exact ih s.site
  | effective u at_ k ih =>
    have hact : act (.effective u at_) s =
        (s.site.fetchEffective u (at_.getD s.site.now), s) := rfl
    rw [ofRead, Prog.run, Read.run, hact]
    cases s.site.fetchEffective u (at_.getD s.site.now) with
    | ok as => exact ih as
    | error e => rfl
  | valid a k ih =>
    have hact : act (.valid a) s = (s.site.assignmentIsValid a, s) := rfl
    rw [ofRead, Prog.run, Read.run, hact]
    cases s.site.assignmentIsValid a with
    | ok b => exact ih b
    | error e => rfl

section Steps

variable (h : Reading s₀ conn w s)
include h

theorem Reading.view : s.db.visible conn = w.tables.assignment := by
  funext pk
  rw [Lib.Txn.Db.visible, Lib.Txn.Db.top, h.level, ← h.shows.rows, ← h.committed]
  rfl

theorem Reading.failed : Failed s₀ conn s := ⟨_, ⟨_, h.level, rfl⟩, h.committed⟩

theorem Reading.ask {f : World → M α} {g : World → Op β} (hf : Does s₀ conn s w (f w) (g w)) :
    Does s₀ conn s w (perform .ask >>= f) (Op.ask >>= g) := by
  have hask : (perform .ask).run act s = (.ok w, s) := congrArg (fun w => (Except.ok w, s)) h.site
  exact .step hask (.skip Op.run_ask hf)

theorem Reading.look {f : World → M α} {q : Op β} (hf : Does s₀ conn s w (f w) q) :
    Does s₀ conn s w (perform .ask >>= f) q := by
  have hask : (perform .ask).run act s = (.ok w, s) := congrArg (fun w => (Except.ok w, s)) h.site
  exact .step hask hf

theorem Reading.select {pk : Nat} {f : Option AssignmentRow → M α} {q : Op β}
    (hf : Does s₀ conn s w (f (w.tables.assignment pk)) q) :
    Does s₀ conn s w (perform (.select conn pk) >>= f) q := by
  have hselect : (perform (.select conn pk)).run act s = (.ok (w.tables.assignment pk), s) :=
    congrArg (fun r => (Except.ok (r pk), s)) h.view
  exact .step hselect hf

theorem Reading.read {p : Read γ} {f : γ → M α} {g : γ → Op β}
    (hf : ∀ x, p.run w = .ok x → Does s₀ conn s w (f x) (g x)) :
    Does s₀ conn s w (ofRead p >>= f) ((liftM p : Op γ) >>= g) := by
  have hread := run_ofRead s p
  rw [h.site] at hread
  exact .read hread (Op.run_ofRead p) h.failed hf

theorem Reading.py {p : Py γ} {f : γ → M α} {g : γ → Op β}
    (hf : ∀ x, p = .ok x → Does s₀ conn s w (f x) (g x)) :
    Does s₀ conn s w (liftPy p >>= f) ((liftM p : Op γ) >>= g) := by
  cases p with
  | ok x => exact hf x rfl
  | error e => exact .abort rfl rfl h.failed

theorem Reading.raise (cls : ExnClass) (message : String) :
    Does s₀ conn s w (Concurrent.raise cls message : M α) (Op.raise cls message : Op β) :=
  .abort rfl rfl h.failed

theorem Reading.guard {b : Bool} {cls : ExnClass} {message : String} {p : M α} {q : Op β}
    (hp : Does s₀ conn s w p q) :
    Does s₀ conn s w (if !b then Concurrent.raise cls message else p)
      (if !b then Op.raise cls message else q) :=
  .guard h.failed hp

theorem Reading.refresh {role : Role} {f : Role → M α} {g : Role → Op β}
    (hf : ∀ row, w.tables.role row.id = some row →
      Does s₀ conn s w (f (w.loadRole row)) (g (w.loadRole row))) :
    Does s₀ conn s w (refreshForMutation role >>= f) (ScopedAccess.refreshForMutation role >>= g) := by
  rw [refreshForMutation, ScopedAccess.refreshForMutation, bind_assoc, bind_assoc]
  refine h.ask ?_
  cases hpk : role.pk.bind w.tables.role with
  | none => exact h.raise _ _
  | some row =>
    obtain ⟨pk, -, hrow⟩ := Option.bind_eq_some_iff.mp hpk
    obtain rfl := (w.tables.role_eq_some.mp hrow).2
    rw [bind_assoc]
    exact .skip rfl (hf row hrow)

theorem Reading.authorize {pk : Option Nat} {actor : Option User} {f : Nat × Assignment → M α}
    {g : Assignment → Op β} (hf : ∀ a, w.tables.assignment a.row.id = some a.row →
      Does s₀ conn s w (f (a.row.id, a)) (g a)) :
    Does s₀ conn s w (authorizeTransition conn pk actor >>= f)
      (ScopeAssignment.authorizeTransition pk actor >>= g) := by
  cases pk with
  | none => exact h.raise _ _
  | some pk =>
    rw [authorizeTransition, ScopeAssignment.authorizeTransition, bind_assoc, bind_assoc]
    refine h.select (.skip Op.run_ask ?_)
    cases hrow : w.tables.assignment pk with
    | none => exact h.raise _ _
    | some row =>
      obtain rfl := (w.tables.assignment_eq_some.mp hrow).2
      rw [Option.bind_some, bind_assoc]
      refine h.look ?_
      cases hload : w.loadAssignment row with
      | none => exact h.raise _ _
      | some a =>
        obtain rfl := World.loaded_row hload
        have hallowed (allowed : Bool) : Does s₀ conn s w ((if !allowed then
            Concurrent.raise .assignmentManagementPermissionError
              "The actor cannot manage assignments at the assignment's scope."
            else Pure.pure (a.row.id, a)) >>= f) ((if !allowed then
              Op.raise .assignmentManagementPermissionError
                "The actor cannot manage assignments at the assignment's scope."
              else Pure.pure a) >>= g) := by
          cases allowed with
          | true => exact hf a hrow
          | false => exact h.raise _ _
        rw [bind_assoc, bind_assoc]
        refine h.py fun scope _ => ?_
        dsimp only
        split
        · rw [bind_assoc, bind_assoc]
          exact h.read fun allowed _ => hallowed allowed
        · rw [bind_assoc, bind_assoc]
          exact h.read fun allowed _ => hallowed allowed

theorem Reading.written {s' : Store} {pk : Nat} {row : AssignmentRow} {e : Entry}
    (hdb : s'.db = s.db.write conn pk row e) :
    Inside s₀ conn s' (Function.update w.tables.assignment pk (some row)) := by
  have hwrite : s'.db = s.db.setLevels conn
      [{ rows := Function.update (fun _ => none) pk (some row), done := [(pk, e)] }] := by
    rw [hdb, Lib.Txn.Db.write, h.level]
  refine ⟨⟨{ rows := Function.update (fun _ => none) pk (some row), done := [(pk, e)] }, ?_, ?_⟩, ?_⟩
  · rw [hwrite, Lib.Txn.Db.levels_setLevels, if_pos rfl]
  · rw [hwrite]
    have hview : s.db.view {} = w.tables.assignment := by
      funext pk
      rw [← h.view, Lib.Txn.Db.visible, Lib.Txn.Db.top, h.level]
      rfl
    exact (s.db.view_level {} pk row _).trans (by rw [hview])
  · rw [hwrite]
    exact h.committed

theorem Reading.moved {pk : Nat} {row : AssignmentRow} {allowedFrom : List AssignmentStatus}
    (target : AssignmentStatus) (changes : Option Audit)
    (hrow : w.tables.assignment pk = some row) (hstatus : row.status ∈ allowedFrom) :
    (act (.update conn pk target allowedFrom changes) s).1 = true ∧
      Inside s₀ conn (act (.update conn pk target allowedFrom changes) s).2
        (Function.update w.tables.assignment pk (some (moveTo row target changes))) := by
  have hview : s.db.visible conn pk = some row := by rw [h.view, hrow]
  have hact : act (.update conn pk target allowedFrom changes) s = (true, { s with
      db := s.db.write conn pk (moveTo row target changes) (.moved target changes) }) := by
    simp only [act, hview, hstatus, if_true]
  refine ⟨by rw [hact], ?_⟩
  rw [hact]
  exact h.written rfl

end Steps

theorem moveTo_id (row : AssignmentRow) (target : AssignmentStatus) (changes : Option Audit) :
    (moveTo row target changes).id = row.id := by
  cases changes <;> rfl

theorem valid_moved {pk : Nat} {row : AssignmentRow} {target : AssignmentStatus}
    {changes : Option Audit} (hrow : w.tables.assignment pk = some row) (hlive : row.isLive = true)
    (hby : ∀ audit ∈ changes, ∀ u ∈ audit.revokedBy, u ∈ w.tables.users) :
    (w.tables.setAssignment pk (moveTo row target changes)).Valid := by
  obtain ⟨hmem, rfl⟩ := w.tables.assignment_eq_some.mp hrow
  obtain ⟨hroles, hperms, hids, hunique, hrefs⟩ := w.tables.valid
  have hapart : w.tables.assignments.Pairwise fun a b => a.id ≠ b.id ∧ (!a.collides b) = true :=
    (List.pairwise_map.mp hids).and hunique
  refine ⟨hroles, hperms, ?_, ?_, fun x hx => ?_⟩
  · have hkeys : (w.tables.setAssignment row.id (moveTo row target changes)).assignments.map
        AssignmentRow.id = w.tables.assignments.map AssignmentRow.id := by
      rw [TableRows.setAssignment, Lib.Rows.modify, List.map_map]
      refine List.map_congr_left fun x _ => ?_
      rw [Function.comp_apply]
      split
      · rw [moveTo_id, ‹x.id = row.id›]
      · rfl
    rw [hkeys]
    exact hids
  · refine List.pairwise_map.mpr (hapart.imp_of_mem fun {a b} ha hb hab => ?_)
    obtain ⟨hne, hcollides⟩ := hab
    have hmoved {x : AssignmentRow} (hx : row.collides x = false) :
        (moveTo row target changes).collides x = false := by
      rw [← Bool.not_eq_true] at hx ⊢
      exact fun hclash => hx (Clash.of_moveTo hclash hlive)
    rw [Bool.not_eq_true'] at hcollides ⊢
    by_cases ha' : a.id = row.id
    · obtain rfl := w.tables.assignment_unique ha hmem ha'
      rw [if_pos rfl, if_neg (Ne.symm hne)]
      exact hmoved hcollides
    · rw [if_neg ha']
      by_cases hb' : b.id = row.id
      · obtain rfl := w.tables.assignment_unique hb hmem hb'
        rw [if_pos rfl, collides_comm]
        exact hmoved (collides_comm a b ▸ hcollides)
      · rw [if_neg hb']
        exact hcollides
  · rcases Lib.Rows.mem_modify.mp hx with ⟨hx, -⟩ | ⟨x', hx', hid, rfl⟩
    · exact hrefs x hx
    · obtain ⟨hrole, huser, hct, hgranted, hrevoked⟩ := hrefs row hmem
      cases changes with
      | none => exact ⟨hrole, huser, hct, hgranted, hrevoked⟩
      | some audit => exact ⟨hrole, huser, hct, hgranted, hby audit rfl⟩

theorem act_receivers (o : Stmt) (s : Store) : (act o s).2.receivers = s.receivers := by
  cases o with
  | enter | leave | undo | select | ask | effective | valid | send => rfl
  | update | insert =>
    simp only [act]
    repeat' split
    all_goals rfl

theorem follows_emit (signal : Signal) {w' : World} (hreceivers : s.receivers = s₀.receivers)
    (hgood : Inside s₀ conn s w'.tables.assignment) :
    Does s₀ conn s w' (emit signal) (Op.emit signal) := by
  have hsent : (perform (.send signal)).run act s = (.ok (s₀.receivers signal), s) := by
    rw [← hreceivers]
    rfl
  refine .step hsent ?_
  rw [← bind_pure (Op.emit signal)]
  cases hsend : s₀.receivers signal with
  | none =>
    have hop : (Op.emit signal).run s₀.receivers w' = .ok ((), w') :=
      Op.run_emit_ok.mpr ⟨hsend, rfl⟩
    exact .skip hop (.pure hgood)
  | some e =>
    refine .abort rfl ?_ ⟨_, hgood⟩
    rw [Op.run_bind, Op.emit, Op.run, hsend]
    rfl

theorem Reading.finish (h : Reading s₀ conn w s) {a : Assignment} {target : AssignmentStatus}
    {allowedFrom : List AssignmentStatus} {changes : Option Audit}
    {change : AssignmentRow → AssignmentRow} {signal : AssignmentRow → Signal}
    (hrow : w.tables.assignment a.row.id = some a.row)
    (hchange : ∀ row, { change row with status := target } = moveTo row target changes)
    (hlive : AssignmentStatus.revoked ∉ allowedFrom)
    (hby : ∀ audit ∈ changes, ∀ u ∈ audit.revokedBy, u ∈ w.tables.users) :
    Does s₀ conn s w (transition conn a.row.id target allowedFrom changes >>= fun _ =>
      emit (signal (moveTo a.row target changes)))
      (ScopeAssignment.finish a target allowedFrom change signal) := by
  rw [transition, bind_assoc, ScopeAssignment.finish, ScopeAssignment.transition, bind_assoc]
  by_cases hstatus : a.row.status ∈ allowedFrom
  · obtain ⟨t, ht⟩ : ∃ t : Tables, t.toTableRows =
        w.tables.setAssignment a.row.id (moveTo a.row target changes) :=
      ⟨⟨_, valid_moved hrow (decide_eq_true fun hrevoked => hlive (hrevoked ▸ hstatus)) hby⟩, rfl⟩
    have hop : (Op.write (w.tables.setAssignment a.row.id
        { change a.row with status := target })).run s₀.receivers w = .ok ((), w.save t) := by
      rw [hchange]
      exact run_write ht
    have hrows : Function.update w.tables.assignment a.row.id (some (moveTo a.row target changes)) =
        t.assignment := by
      funext pk
      have hfound : w.tables.assignments.find? (fun x => x.id = a.row.id) = some a.row := hrow
      rw [Tables.assignment, ht]
      refine Eq.trans ?_ (Lib.Rows.find_modify (moveTo_id a.row target changes)).symm
      rw [Function.update_apply, hfound]
      rfl
    obtain ⟨htrue, hinside⟩ := h.moved target changes hrow hstatus
    have hperform : (perform (.update conn a.row.id target allowedFrom changes)).run act s =
        (.ok true, (act (.update conn a.row.id target allowedFrom changes) s).2) :=
      congrArg (fun b => (Except.ok b, _)) htrue
    refine .step hperform (.step rfl (.skip Op.run_ask ?_))
    simp only [hrow, hstatus, not_true_eq_false, if_false, bind_assoc, pure_bind]
    refine .skip hop (.skip rfl (.skip rfl ?_))
    rw [hchange]
    exact follows_emit _ ((act_receivers _ s).trans h.receivers) (hrows ▸ hinside)
  · have hmissed : act (.update conn a.row.id target allowedFrom changes) s = (false, s) := by
      have hview : s.db.visible conn a.row.id = some a.row := by rw [h.view, hrow]
      simp only [act, hview, hstatus, if_false]
    have hperform : (perform (.update conn a.row.id target allowedFrom changes)).run act s =
        (.ok false, s) := congrArg (fun r => (Except.ok r.1, r.2)) hmissed
    refine .step hperform (.skip Op.run_ask ?_)
    simp only [hrow, hstatus, not_false_eq_true, if_true, Bool.false_eq_true, if_false]
    rw [bind_assoc]
    refine h.select ?_
    rw [hrow]
    exact h.raise _ _

theorem valid_granted {row : AssignmentRow} {role : RoleRow}
    (hid : row.id = Lib.Rows.fresh (w.tables.assignments.map AssignmentRow.id))
    (hrole : w.tables.role row.role = some role) (huser : row.user ∈ w.tables.users)
    (hct : ∀ ct ∈ row.scopeCt, ct ∈ w.tables.contentTypes)
    (hby : ∀ u ∈ row.grantedBy, u ∈ w.tables.users) (hrevoked : row.revokedBy = none) :
    (w.tables.addAssignment row).Valid ↔
      ∀ a ∈ w.tables.assignments, row.collides a = false := by
  obtain ⟨hroles, hperms, hids, hunique, hrefs⟩ := w.tables.valid
  constructor
  · rintro ⟨-, -, -, hapart, -⟩ a ha
    have hnot := (List.pairwise_append.mp hapart).2.2 a ha row (List.mem_singleton_self row)
    rwa [collides_comm, ← Bool.not_eq_true']
  · intro hfree
    refine ⟨hroles, hperms, ?_, ?_, fun x hx => ?_⟩
    · rw [TableRows.addAssignment, List.map_append, List.map_singleton, hid]
      exact hids.append (List.nodup_singleton _) (List.disjoint_singleton.mpr
        (Lib.Rows.fresh_not_mem _))
    · refine List.pairwise_append.mpr ⟨hunique, List.pairwise_singleton _ _, fun a ha b hb => ?_⟩
      rw [List.mem_singleton.mp hb, Bool.not_eq_true', collides_comm]
      exact hfree a ha
    · rcases List.mem_append.mp hx with hx | hx
      · exact hrefs x hx
      · rw [List.mem_singleton.mp hx]
        refine ⟨?_, huser, hct, hby, fun u hu => ?_⟩
        · obtain ⟨hmem, heq⟩ := w.tables.role_eq_some.mp hrole
          exact List.mem_map.mpr ⟨role, hmem, heq⟩
        · rw [hrevoked] at hu
          cases hu

theorem Reading.refuses_iff (h : Reading s₀ conn w s) (row : AssignmentRow)
    (hnext : s.next = Lib.Rows.fresh (w.tables.assignments.map AssignmentRow.id)) :
    s.refuses conn row = true ↔ ∃ a ∈ w.tables.assignments, row.collides a = true := by
  rw [Store.refuses, h.view, List.any_eq_true]
  constructor
  · rintro ⟨pk, -, hany⟩
    obtain ⟨a, ha, hcollides⟩ := (Option.any_eq_true _ _).mp hany
    exact ⟨a, (w.tables.assignment_eq_some.mp ha).1, hcollides⟩
  · rintro ⟨a, ha, hcollides⟩
    have hlt : a.id < s.next := by
      rw [hnext, Lib.Rows.fresh]
      exact Nat.lt_succ_of_le (Lib.Rows.le_foldr_max (List.mem_map_of_mem ha))
    refine ⟨a.id, List.mem_range.mpr hlt, ?_⟩
    rw [w.tables.assignment_eq_some.mpr ⟨ha, rfl⟩]
    exact hcollides

theorem Reading.inserted (h : Reading s₀ conn w s) (row : AssignmentRow) {new : AssignmentRow}
    {role : RoleRow}
    (hnew : new = { row with id := s₀.next })
    (hid : s₀.next = Lib.Rows.fresh (w.tables.assignments.map AssignmentRow.id))
    (hrole : w.tables.role row.role = some role) (huser : row.user ∈ w.tables.users)
    (hct : ∀ ct ∈ row.scopeCt, ct ∈ w.tables.contentTypes)
    (hby : ∀ u ∈ row.grantedBy, u ∈ w.tables.users) (hrevoked : row.revokedBy = none) :
    (∃ (t : Tables) (s' : Store), t.toTableRows = w.tables.addAssignment new ∧
      (perform (.insert conn row)).run act s = (.ok (some new), s') ∧
        s'.receivers = s₀.receivers ∧ Inside s₀ conn s' t.assignment) ∨
      ∃ s', ¬ (w.tables.addAssignment new).Valid ∧
        (perform (.insert conn row)).run act s = (.ok none, s') ∧ Failed s₀ conn s' := by
  subst hnew
  have hvalid : (w.tables.addAssignment { row with id := s₀.next }).Valid ↔
      ∀ a ∈ w.tables.assignments, row.collides a = false :=
    valid_granted hid hrole huser hct hby hrevoked
  have hrefuses := h.refuses_iff { row with id := s₀.next } (h.next.trans hid)
  by_cases hfree : ∀ a ∈ w.tables.assignments, row.collides a = false
  · obtain ⟨t, ht⟩ : ∃ t : Tables, t.toTableRows =
        w.tables.addAssignment { row with id := s₀.next } := ⟨⟨_, hvalid.mpr hfree⟩, rfl⟩
    have hrows : Function.update w.tables.assignment s₀.next (some { row with id := s₀.next }) =
        t.assignment := by
      funext pk
      have hfresh : s₀.next ∉ w.tables.assignments.map AssignmentRow.id :=
        hid ▸ Lib.Rows.fresh_not_mem _
      rw [Tables.assignment, ht]
      refine Eq.trans ?_ (Lib.Rows.find_append_fresh hfresh).symm
      rw [Function.update_apply]
      rfl
    have hnot : s.refuses conn { row with id := s₀.next } = false := by
      rw [← Bool.not_eq_true, hrefuses]
      rintro ⟨a, ha, hcollides⟩
      exact Bool.false_ne_true ((hfree a ha).symm.trans hcollides)
    have hact : act (.insert conn row) s = (some { row with id := s₀.next }, { s with
        db := s.db.write conn s₀.next { row with id := s₀.next }
          (.granted { row with id := s₀.next })
        next := s₀.next + 1 }) := by
      simp only [act, h.next, hnot, Bool.false_eq_true, if_false]
    refine .inl ⟨t, (act (.insert conn row) s).2, ht,
      congrArg (fun r => (Except.ok r, (act (.insert conn row) s).2)) (congrArg Prod.fst hact),
      (act_receivers _ s).trans h.receivers, ?_⟩
    rw [hact]
    exact hrows ▸ h.written rfl
  · have hinvalid : ¬ (w.tables.addAssignment { row with id := s₀.next }).Valid := fun hv =>
      hfree (hvalid.mp hv)
    have hrefused : s.refuses conn { row with id := s₀.next } = true := by
      rw [hrefuses]
      simp only [not_forall, Bool.not_eq_false] at hfree
      obtain ⟨a, ha, hcollides⟩ := hfree
      exact ⟨a, ha, hcollides⟩
    have hact : act (.insert conn row) s = (none, { s with next := s₀.next + 1 }) := by
      simp only [act, h.next, hrefused, if_true]
    refine .inr ⟨(act (.insert conn row) s).2, hinvalid,
      congrArg (fun r => (Except.ok r, (act (.insert conn row) s).2)) (congrArg Prod.fst hact), ?_⟩
    rw [hact]
    exact ⟨_, ⟨_, h.level, rfl⟩, h.committed⟩

theorem does_call (c : Call) (h : Reading s₀ conn w s) (hstored : c.Stored w s₀.next) :
    ∃ p, c.body conn = atomic conn (some c) p ∧ Does s₀ conn s w p c.op := by
  cases c with
  | grant user role actor level scope validFrom validUntil =>
    obtain ⟨hid, huser, hactor, hscope⟩ := hstored
    refine ⟨_, rfl, .congr (run_discard _ _) ?_⟩
    refine h.ask (h.py fun level' _ => ?_)
    cases ScopeAssignment.windowOpens validFrom validUntil with
    | false => exact h.raise _ _
    | true =>
      refine h.refresh fun row hrow => h.look (h.py fun fits _ => h.guard ?_)
      refine h.read fun may _ => h.guard (h.read fun assigns _ => h.guard (h.ask ?_))
      have hnew : ScopeAssignment.granted w user row actor level' scope validFrom validUntil =
          { ScopeAssignment.granted w user row actor level' scope validFrom validUntil with
            id := s₀.next } := by
        rw [hid]
        rfl
      have hct : ∀ ct ∈ scope.map fun o => w.site.schema.contentType o.model,
          ct ∈ w.tables.contentTypes := by
        intro ct hct
        obtain ⟨o, ho, rfl⟩ := Option.map_eq_some_iff.mp hct
        exact hscope o ho
      have hby : ∀ pk ∈ actor.map User.pk, pk ∈ w.tables.users := by
        intro pk hpk
        obtain ⟨u, hu, rfl⟩ := Option.map_eq_some_iff.mp hpk
        exact hactor u hu
      rcases h.inserted { ScopeAssignment.granted w user row actor level' scope validFrom
          validUntil with id := 0 } hnew hid hrow huser hct hby rfl with
        ⟨t, s', ht, hinsert, hreceivers, hinside⟩ | ⟨s', hinvalid, hinsert, hfailed⟩
      · refine .step hinsert (.skip (run_write ht) (.skip rfl (.skip rfl ?_)))
        exact .congr (run_discard _ _) (follows_emit _ hreceivers hinside)
      · exact .step hinsert (.abort rfl (run_write_refused hinvalid _) hfailed)
  | suspend pk actor reason =>
    refine ⟨_, rfl, h.authorize fun a hrow => ?_⟩
    exact h.finish hrow (fun _ => rfl) (by simp) (by simp)
  | reactivate pk actor reason =>
    refine ⟨_, rfl, h.authorize fun a hrow => h.select ?_⟩
    rw [hrow]
    by_cases hstatus : a.row.status = .suspended
    · simp only [hstatus, Option.map_some, ne_eq, not_true_eq_false, if_false]
      refine h.refresh fun row _ => h.py fun scope _ => h.read fun assigns _ => h.guard ?_
      exact h.finish hrow (fun _ => rfl) (by simp) (by simp)
    · simp only [hstatus, Option.map_some, ne_eq, Option.some.injEq, not_false_eq_true, if_true]
      exact h.raise _ _
  | revoke pk actor reason =>
    refine ⟨_, rfl, h.authorize fun a hrow => h.ask ?_⟩
    refine h.finish hrow (fun _ => rfl) (by simp) ?_
    rintro _ ⟨⟩ u hu
    obtain ⟨u', hu', rfl⟩ := Option.map_eq_some_iff.mp hu
    exact hstored u' hu'

theorem Shows.entered (hs : Shows s conn w) (hsite : s.site = w) :
    Reading s conn w (act (.enter conn) s).2 := by
  refine ⟨?_, rfl, hsite, rfl, rfl, hs⟩
  simp [act, Lib.Txn.Db.enter, Lib.Txn.Db.levels_setLevels, Lib.Txn.Db.top, hs.idle]

theorem Shows.undone (hs : Shows s₀ conn w) (h : Failed s₀ conn s) :
    Shows (act (.undo conn) s).2 conn w := by
  obtain ⟨rows, ⟨L, hlevels, -⟩, hcommitted⟩ := h
  refine ⟨?_, fun pk => ?_⟩
  · simp [act, Lib.Txn.Db.undo, Lib.Txn.Db.levels_setLevels, hlevels]
  · change s.db.committed pk = _
    rw [hcommitted, hs.rows]

theorem Inside.left {call : Option Call} (h : Inside s₀ conn s w.tables.assignment) :
    Shows (act (.leave conn call) s).2 conn w := by
  obtain ⟨L, hlevels, hview⟩ := h.levels
  have hleave : s.db.leave conn =
      ⟨s.db.view L, Function.update s.db.levels conn [], L.done ++ s.db.journal⟩ := by
    rw [Lib.Txn.Db.leave, hlevels]
  refine ⟨?_, fun pk => ?_⟩
  · change (s.db.leave conn).levels conn = []
    rw [hleave]
    exact Function.update_self ..
  · change (s.db.leave conn).committed pk = _
    rw [hleave, hview]

theorem Call.follows_op (hs : Shows s conn w) (hsite : s.site = w) (c : Call)
    (hstored : c.Stored w s.next) :
    Follows act s.receivers (Shows · conn ·) (Shows · conn w) s w (c.body conn) c.op := by
  obtain ⟨p, hbody, hdoes⟩ := does_call c (hs.entered hsite) hstored
  have henter : (perform (.enter conn)).run act s = (.ok (), _) := rfl
  rw [hbody, atomic]
  refine .step henter ?_
  unfold Does Follows at hdoes
  unfold Follows
  rw [Prog.run_bind, Prog.run_attempt]
  cases hop : c.op.run s.receivers w with
  | error e =>
    rw [hop] at hdoes
    obtain ⟨s', hrun, hfailed⟩ := hdoes
    exact ⟨_, by rw [hrun]; rfl, hs.undone hfailed⟩
  | ok r =>
    rw [hop] at hdoes
    obtain ⟨x, s', hrun, hinside⟩ := hdoes
    exact ⟨x, _, by rw [hrun]; rfl, hinside.left⟩

end ScopedAccess.Concurrent
