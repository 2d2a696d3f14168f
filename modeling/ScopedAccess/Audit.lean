import ScopedAccess.Signals
import ScopedAccess.Helpdesk
import ScopedAccess.Lib.Replay

namespace ScopedAccess

open Lib.Replay (Each Entry Exact Faithful replay)
open Op (Sends)

@[ext] structure Record where
  status : Nat → Option AssignmentStatus
  labels : Nat → Finset String

namespace Record

def setStatus (r : Record) (id : Nat) (status : AssignmentStatus) : Record :=
  { r with status := Function.update r.status id (some status) }

def relabel (r : Record) (role : Nat) (added removed : List String) : Record :=
  { r with labels :=
      Function.update r.labels role ((r.labels role ∪ added.toFinset) \ removed.toFinset) }

def apply (r : Record) : Signal → Record
  | .assignmentGranted a _ => r.setStatus a.id .active
  | .assignmentSuspended a _ _ => r.setStatus a.id .suspended
  | .assignmentReactivated a _ _ => r.setStatus a.id .active
  | .assignmentRevoked a _ _ => r.setStatus a.id .revoked
  | .rolePermissionsChanged role added removed _ =>
    role.pk.elim r fun pk => r.relabel pk added removed

@[simp] theorem relabel_nil (r : Record) (role : Nat) : r.relabel role [] [] = r := by
  simp [relabel]

theorem relabel_held {r : Record} {role : Nat} {added : List String}
    (h : ∀ label ∈ added, label ∈ r.labels role) : r.relabel role added [] = r := by
  have hsub : added.toFinset ⊆ r.labels role := fun label hlabel => h label (by simpa using hlabel)
  simp [relabel, Finset.union_eq_left.mpr hsub]

theorem mem_relabel {r : Record} {role : Nat} {added removed : List String} {label : String} :
    label ∈ (r.relabel role added removed).labels role ↔
      (label ∈ r.labels role ∨ label ∈ added) ∧ label ∉ removed := by
  simp [relabel]

end Record

def Tables.record (t : Tables) : Record where
  status id := (t.assignment id).map AssignmentRow.status
  labels := t.roleLabels

/-- `auth_permission`: rows with a key of their own, not a label of their own. -/
structure Catalog where
  rows : List Permission
  ids : (rows.map Permission.id).Nodup

namespace Catalog

abbrev Perm (c : Catalog) : Type := {p : Permission // p ∈ c.rows}

structure Stored (c : Catalog) where
  tables : Tables
  drawn : ∀ rp ∈ tables.rolePermissions, rp.permission ∈ c.rows

variable {c : Catalog}

theorem eq_of_id {p q : Permission} (hp : p ∈ c.rows) (hq : q ∈ c.rows) (h : p.id = q.id) :
    p = q :=
  List.inj_on_of_nodup_map c.ids hp hq h

inductive Call (c : Catalog)
  | grant (user : User) (role : Role) (actor : Option User) (level : Option String)
      (scope : Option Obj) (validFrom validUntil : Option Time)
  | suspend (pk : Option Nat) (actor : Option User) (reason : String)
  | reactivate (pk : Option Nat) (actor : Option User) (reason : String)
  | revoke (pk : Option Nat) (actor : Option User) (reason : String)
  | grantPermissions (role : Role) (perms : List c.Perm) (actor : Option User)
  | revokePermissions (role : Role) (perms : List c.Perm) (actor : Option User)

def Call.program : c.Call → Op Unit
  | .grant user role actor level scope validFrom validUntil => do
    let _ ← ScopeAssignment.grant user role actor level scope validFrom validUntil
    return ()
  | .suspend pk actor reason => ScopeAssignment.suspend pk actor reason
  | .reactivate pk actor reason => ScopeAssignment.reactivate pk actor reason
  | .revoke pk actor reason => ScopeAssignment.revoke pk actor reason
  | .grantPermissions role perms actor => role.grantPermissions (perms.map Subtype.val) actor
  | .revokePermissions role perms actor => role.revokePermissions (perms.map Subtype.val) actor

end Catalog

namespace Tables

variable {t t' : Tables}

theorem roleLabels_congr (h : t'.rolePermissions = t.rolePermissions) :
    t'.roleLabels = t.roleLabels := by
  funext id
  rw [roleLabels, roleLabels, h]

theorem record_setAssignment {row row' : AssignmentRow} (hrow : t.assignment row.id = some row)
    (hid : row'.id = row.id) (ht : t'.toTableRows = t.setAssignment row.id row') :
    t'.record = t.record.setStatus row.id row'.status := by
  ext1
  · funext id
    change (t'.assignments.find? _).map _ = _
    rw [ht, TableRows.setAssignment, Lib.Rows.find_modify hid]
    by_cases hk : id = row.id
    · subst hk
      rw [if_pos rfl, show t.assignments.find? _ = some row from hrow]
      simp [Record.setStatus]
    · rw [if_neg hk]
      simp [Record.setStatus, Function.update_of_ne hk, record, assignment]
  · exact roleLabels_congr (by rw [ht]; rfl)

theorem record_addAssignment {a : AssignmentRow} (ha : a.id ∉ t.assignments.map AssignmentRow.id)
    (ht : t'.toTableRows = t.addAssignment a) :
    t'.record = t.record.setStatus a.id a.status := by
  ext1
  · funext id
    change (t'.assignments.find? _).map _ = _
    rw [ht, TableRows.addAssignment, Lib.Rows.find_append_fresh ha]
    by_cases hk : id = a.id
    · subst hk
      simp [Record.setStatus]
    · rw [if_neg hk]
      simp [Record.setStatus, Function.update_of_ne hk, record, assignment]
  · exact roleLabels_congr (by rw [ht]; rfl)

theorem status_congr (h : t'.assignments = t.assignments) :
    t'.record.status = t.record.status := by
  funext id
  change (t'.assignments.find? _).map _ = (t.assignments.find? _).map _
  rw [h]

end Tables

namespace Catalog

variable {c : Catalog} {t t' : Tables} {role : Nat} {perms : List Permission}

theorem mem_roleLabels_of_carries (ht : ∀ rp ∈ t.rolePermissions, rp.permission ∈ c.rows)
    {p : Permission} (hp : p ∈ c.rows) (h : t.carries role p) : p.label ∈ t.roleLabels role := by
  obtain ⟨rp, hrp, hrole, hid⟩ := TableRows.carries_iff.mp h
  exact t.mem_roleLabels.mpr ⟨rp, hrp, hrole, by rw [eq_of_id (ht rp hrp) hp hid]⟩

theorem record_addPermissions (hdrawn : ∀ rp ∈ t'.rolePermissions, rp.permission ∈ c.rows)
    (hperms : ∀ p ∈ perms, p ∈ c.rows)
    (ht : t'.toTableRows = t.addPermissions role perms) :
    t'.record =
      t.record.relabel role (labels (perms.filter fun p => !t.carries role p)) [] := by
  ext1
  · exact Tables.status_congr (by rw [ht, TableRows.addPermissions_rest])
  · funext k
    ext label
    change label ∈ t'.roleLabels k ↔ label ∈ Function.update t.roleLabels role _ k
    by_cases hk : k = role
    · subst hk
      simp only [Function.update_self, List.toFinset_nil, Finset.sdiff_empty, Finset.mem_union,
        List.mem_toFinset, mem_labels, List.mem_filter, Bool.not_eq_true']
      constructor
      · intro h
        obtain ⟨rp, hrp, hrole, hlabel⟩ := t'.mem_roleLabels.mp h
        rw [ht] at hrp
        rcases TableRows.mem_addPermissions hrp with hold | ⟨p, hp, hnew, rfl⟩
        · exact .inl (t.mem_roleLabels.mpr ⟨rp, hold, hrole, hlabel⟩)
        · exact .inr ⟨p, ⟨hp, hnew⟩, hlabel⟩
      · rintro (h | ⟨p, ⟨hp, hnew⟩, rfl⟩)
        · obtain ⟨rp, hrp, hrole, hlabel⟩ := t.mem_roleLabels.mp h
          exact t'.mem_roleLabels.mpr
            ⟨rp, by rw [ht]; exact TableRows.addPermissions_sub hrp, hrole, hlabel⟩
        · have hcarries : t'.carries k p := by
            rw [ht]
            exact TableRows.carries_addPermissions.mpr (.inr ⟨rfl, p, hp, rfl⟩)
          exact mem_roleLabels_of_carries hdrawn (hperms p hp) hcarries
    · rw [Function.update_of_ne hk, t'.mem_roleLabels, t.mem_roleLabels]
      constructor
      · rintro ⟨rp, hrp, rfl, hlabel⟩
        rw [ht] at hrp
        rcases TableRows.mem_addPermissions hrp with hold | ⟨p, -, -, rfl⟩
        · exact ⟨rp, hold, rfl, hlabel⟩
        · exact absurd rfl hk
      · rintro ⟨rp, hrp, hrole, hlabel⟩
        exact ⟨rp, by rw [ht]; exact TableRows.addPermissions_sub hrp, hrole, hlabel⟩

def Cleared (t : Tables) (role : Nat) (perms : List Permission) : Prop :=
  ∀ p ∈ perms, t.carries role p → ∀ rp ∈ t.rolePermissions, rp.role = role →
    rp.permission.label = p.label → ∃ q ∈ perms, q.id = rp.permission.id

theorem mem_roleLabels_removed (ht : t'.toTableRows = t.removePermissions role perms) {k : Nat}
    {label : String} : label ∈ t'.roleLabels k ↔ ∃ rp ∈ t.rolePermissions, rp.role = k ∧
      rp.permission.label = label ∧ ¬ (k = role ∧ ∃ p ∈ perms, p.id = rp.permission.id) := by
  rw [t'.mem_roleLabels, ht]
  simp only [TableRows.removePermissions, List.mem_filter, decide_eq_true_eq]
  constructor
  · rintro ⟨rp, ⟨hrp, hkept⟩, rfl, hlabel⟩
    exact ⟨rp, hrp, rfl, hlabel, hkept⟩
  · rintro ⟨rp, hrp, rfl, hlabel, hkept⟩
    exact ⟨rp, ⟨hrp, hkept⟩, rfl, hlabel⟩

theorem record_removePermissions (hdrawn : ∀ rp ∈ t.rolePermissions, rp.permission ∈ c.rows)
    (hperms : ∀ p ∈ perms, p ∈ c.rows)
    (ht : t'.toTableRows = t.removePermissions role perms) :
    t'.record = t.record.relabel role [] (labels (perms.filter fun p => t.carries role p)) ↔
      Cleared t role perms := by
  have hmem (label : String) :
      label ∈ (t.record.relabel role [] (labels (perms.filter fun p => t.carries role p))).labels
        role ↔ label ∈ t.roleLabels role ∧
          ¬ ∃ p ∈ perms, t.carries role p ∧ p.label = label := by
    simp [Record.relabel, Tables.record, mem_labels, and_assoc]
  constructor
  · intro h p hp hcarries rp hrp hrole hlabel
    by_contra hkept
    have hstays : p.label ∈ t'.roleLabels role :=
      (mem_roleLabels_removed ht).mpr ⟨rp, hrp, hrole, hlabel, fun hgone => hkept hgone.2⟩
    rw [show t'.roleLabels = _ from congrArg Record.labels h, hmem] at hstays
    exact hstays.2 ⟨p, hp, hcarries, rfl⟩
  · intro hcleared
    ext1
    · exact Tables.status_congr (by rw [ht]; rfl)
    · funext k
      ext label
      by_cases hk : k = role
      · subst hk
        rw [hmem]
        change label ∈ t'.roleLabels k ↔ _
        rw [mem_roleLabels_removed ht]
        constructor
        · rintro ⟨rp, hrp, hrole, rfl, hkept⟩
          refine ⟨t.mem_roleLabels.mpr ⟨rp, hrp, hrole, rfl⟩, ?_⟩
          rintro ⟨p, hp, hcarries, hlabel⟩
          exact hkept ⟨rfl, hcleared p hp hcarries rp hrp hrole hlabel.symm⟩
        · rintro ⟨hold, hnot⟩
          obtain ⟨rp, hrp, hrole, rfl⟩ := t.mem_roleLabels.mp hold
          refine ⟨rp, hrp, hrole, rfl, ?_⟩
          rintro ⟨-, p, hp, hid⟩
          obtain rfl := eq_of_id (hperms p hp) (hdrawn rp hrp) hid
          exact hnot ⟨_, hp, TableRows.carries_iff.mpr ⟨rp, hrp, hrole, rfl⟩, rfl⟩
      · change label ∈ t'.roleLabels k ↔ label ∈ Function.update t.roleLabels role _ k
        rw [Function.update_of_ne hk, mem_roleLabels_removed ht, t.mem_roleLabels]
        simp [hk]

/-- Labels tell the call apart: one that adds rows adds a label, and one that removes rows
leaves no other row with their labels. -/
def Call.LabelsApart (t : Tables) : c.Call → Prop
  | .grantPermissions role perms _ => ∀ pk, role.pk = some pk →
    (∃ p ∈ perms, t.carries pk p = false) → ∃ p ∈ perms, p.val.label ∉ t.roleLabels pk
  | .revokePermissions role perms _ => ∀ pk, role.pk = some pk →
    Cleared t pk (perms.map Subtype.val)
  | _ => True

structure Step (c : Catalog) where
  world : World
  receivers : Receivers
  call : c.Call

inductive Effect (w : World) : c.Call → World → List Signal → Prop
  | granted {user : User} {role : Role} {actor : Option User} {level : Option String}
    {scope : Option Obj} {validFrom validUntil : Option Time} {a : AssignmentRow} {t : Tables}
    (hfresh : a.id ∉ w.tables.assignments.map AssignmentRow.id) (hstatus : a.status = .active)
    (ht : t.toTableRows = w.tables.addAssignment a) :
    Effect w (.grant user role actor level scope validFrom validUntil) (w.save t)
      [.assignmentGranted a actor]
  | suspended {pk : Option Nat} {actor : Option User} {reason : String} {row row' : AssignmentRow}
    {w' : World} (h : ScopeAssignment.Transitioned w w' .suspended [.active] row row') :
    Effect w (.suspend pk actor reason) w' [.assignmentSuspended row' actor reason]
  | reactivated {pk : Option Nat} {actor : Option User} {reason : String}
    {row row' : AssignmentRow} {w' : World}
    (h : ScopeAssignment.Transitioned w w' .active [.suspended] row row') :
    Effect w (.reactivate pk actor reason) w' [.assignmentReactivated row' actor reason]
  | revoked {pk : Option Nat} {actor : Option User} {reason : String} {row row' : AssignmentRow}
    {w' : World} (h : ScopeAssignment.Transitioned w w' .revoked [.active, .suspended] row row') :
    Effect w (.revoke pk actor reason) w' [.assignmentRevoked row' actor reason]
  | added {role : Role} {perms : List c.Perm} {actor : Option User} {row : RoleRow} {t : Tables}
    (hpk : role.pk = some row.id)
    (ht : t.toTableRows = w.tables.addPermissions row.id (perms.map Subtype.val)) :
    Effect w (.grantPermissions role perms actor) (w.save t) ((w.loadRole row).changed
      ((perms.map Subtype.val).filter fun p => !w.tables.carries row.id p) [] actor)
  | removed {role : Role} {perms : List c.Perm} {actor : Option User} {row : RoleRow} {t : Tables}
    (hpk : role.pk = some row.id)
    (ht : t.toTableRows = w.tables.removePermissions row.id (perms.map Subtype.val)) :
    Effect w (.revokePermissions role perms actor) (w.save t) ((w.loadRole row).changed []
      ((perms.map Subtype.val).filter fun p => w.tables.carries row.id p) actor)

variable {rc : Receivers} {w w' : World} {call : c.Call} {sent : List Signal}

theorem Call.effect (h : call.program.Sends rc w () w' sent) : Effect w call w' sent := by
  cases call with
  | grant user role actor level scope validFrom validUntil =>
    obtain ⟨a, v, before, after, hgrant, hdone, rfl⟩ := Op.sends_bind.mp h
    obtain ⟨-, rfl, rfl⟩ := Op.sends_pure.mp hdone
    obtain rfl := ScopeAssignment.grant_sends hgrant
    obtain ⟨row, level', t, -, -, -, -, rfl, ht, rfl⟩ := ScopeAssignment.grant_ok hgrant.returns
    exact .granted (Lib.Rows.fresh_not_mem _) rfl ht
  | suspend pk actor reason =>
    obtain ⟨row, row', htransitioned, rfl⟩ := ScopeAssignment.suspend_sends h
    exact .suspended htransitioned
  | reactivate pk actor reason =>
    obtain ⟨row, row', htransitioned, rfl⟩ := ScopeAssignment.reactivate_sends h
    exact .reactivated htransitioned
  | revoke pk actor reason =>
    obtain ⟨row, row', htransitioned, rfl⟩ := ScopeAssignment.revoke_sends h
    exact .revoked htransitioned
  | grantPermissions role perms actor =>
    obtain ⟨row, t, hpk, -, ht, rfl, rfl⟩ := Role.grantPermissions_sends h
    exact .added hpk ht
  | revokePermissions role perms actor =>
    obtain ⟨row, t, hpk, -, ht, rfl, rfl⟩ := Role.revokePermissions_sends h
    exact .removed hpk ht

theorem Effect.drawn (h : Effect w call w' sent)
    (hw : ∀ rp ∈ w.tables.rolePermissions, rp.permission ∈ c.rows) :
    ∀ rp ∈ w'.tables.rolePermissions, rp.permission ∈ c.rows := by
  cases h with
  | granted _ _ ht =>
    rw [World.save_tables, ht]
    exact hw
  | suspended h | reactivated h | revoked h =>
    obtain ⟨t, ht, rfl⟩ := h.written
    rw [World.save_tables, ht]
    exact hw
  | added hpk ht =>
    rw [World.save_tables, ht]
    intro rp hrp
    rcases TableRows.mem_addPermissions hrp with hold | ⟨p, hp, -, rfl⟩
    · exact hw rp hold
    · obtain ⟨q, -, rfl⟩ := List.mem_map.mp hp
      exact q.property
  | removed hpk ht =>
    rw [World.save_tables, ht]
    exact fun rp hrp => hw rp (List.mem_filter.mp hrp).1

namespace Step

def Returns (s : c.Step) (b : c.Stored) : Prop :=
  (s.call.program.run s.receivers (s.world.save b.tables)).isOk

theorem drawn_after (s : c.Step) (b : c.Stored) :
    ∀ rp ∈ (s.call.program.after s.receivers (s.world.save b.tables)).tables.rolePermissions,
      rp.permission ∈ c.rows := by
  cases hrun : s.call.program.run s.receivers (s.world.save b.tables) with
  | error e =>
    rw [Op.after, hrun]
    exact b.drawn
  | ok r =>
    rw [Op.after_ok hrun]
    exact (Call.effect ⟨hrun, rfl⟩).drawn b.drawn

def events (s : c.Step) (b : c.Stored) : List Signal :=
  match s.call.program.run s.receivers (s.world.save b.tables) with
  | .ok _ => s.call.program.signals s.receivers (s.world.save b.tables)
  | .error _ => []

def entry (s : c.Step) (b : c.Stored) : Entry Signal c.Stored where
  events := s.events b
  next := ⟨(s.call.program.after s.receivers (s.world.save b.tables)).tables, s.drawn_after b⟩

end Step

def run : c.Stored → List c.Step → List (Entry Signal c.Stored)
  | _, [] => []
  | b, s :: steps => s.entry b :: run (s.entry b).next steps

/-- A step that changes nothing logs nothing. -/
def Silent (b : c.Stored) (e : Entry Signal c.Stored) : Prop :=
  e.next.tables.record = b.tables.record → e.events = []

def Told (w w' : World) (sent : List Signal) : Prop :=
  replay Record.apply w.tables.record sent = w'.tables.record ∧
    (w'.tables.record = w.tables.record → sent = [])

theorem told_of_status (id : Nat) (status : AssignmentStatus)
    (hold : (w.tables.assignment id).map AssignmentRow.status ≠ some status)
    (hrecord : w'.tables.record = w.tables.record.setStatus id status)
    (hsent : replay Record.apply w.tables.record sent = w.tables.record.setStatus id status) :
    Told w w' sent := by
  refine ⟨hsent.trans hrecord.symm, fun hsame => absurd ?_ hold⟩
  have hstatus := congrArg (Record.status · id) (hsame.symm.trans hrecord)
  simpa [Record.setStatus, Tables.record] using hstatus

theorem told_of_transitioned {target : AssignmentStatus} {allowedFrom : List AssignmentStatus}
    {row row' : AssignmentRow}
    (h : ScopeAssignment.Transitioned w w' target allowedFrom row row')
    (htarget : target ∉ allowedFrom)
    (hsent : replay Record.apply w.tables.record sent =
      w.tables.record.setStatus row'.id target) : Told w w' sent := by
  obtain ⟨t, ht, rfl⟩ := h.written
  rw [h.id] at hsent
  refine told_of_status _ _ ?_ (h.status ▸ Tables.record_setAssignment h.stored h.id ht) hsent
  rw [h.stored]
  rintro ⟨⟩
  exact htarget h.allowed

@[simp] theorem changed_eq_nil {role : Role} {added removed : List Permission}
    {actor : Option User} : role.changed added removed actor = [] ↔ added = [] ∧ removed = [] := by
  simp [Role.changed]

theorem replay_changed (role : Role) {pk : Nat} (hpk : role.pk = some pk) (r : Record)
    (added removed : List Permission) (actor : Option User) :
    replay Record.apply r (role.changed added removed actor) =
      r.relabel pk (labels added) (labels removed) := by
  unfold Role.changed
  split
  · rename_i hempty
    obtain ⟨rfl, rfl⟩ : added = [] ∧ removed = [] := by simpa using hempty
    exact (Record.relabel_nil r pk).symm
  · simp [Record.apply, hpk]

section Changed

variable {role : Role} {row : RoleRow} {t : Tables} {perms : List c.Perm} {actor : Option User}
  (hpk : role.pk = some row.id)
  (hw : ∀ rp ∈ w.tables.rolePermissions, rp.permission ∈ c.rows)
include hpk hw

theorem told_of_added (ht : t.toTableRows = w.tables.addPermissions row.id (perms.map Subtype.val)) :
    Told w (w.save t) ((w.loadRole row).changed
      ((perms.map Subtype.val).filter fun p => !w.tables.carries row.id p) [] actor) ↔
      (Call.grantPermissions role perms actor).LabelsApart w.tables := by
  have hperms : ∀ p ∈ perms.map Subtype.val, p ∈ c.rows := by
    intro p hp
    obtain ⟨q, -, rfl⟩ := List.mem_map.mp hp
    exact q.property
  have heffect : Effect w (.grantPermissions role perms actor) _ _ := .added hpk ht
  have hdrawn := heffect.drawn hw
  have hrecord : (w.save t).tables.record = _ := record_addPermissions hdrawn hperms ht
  have hreplay : replay Record.apply w.tables.record _ = _ :=
    replay_changed (w.loadRole row) rfl w.tables.record
      ((perms.map Subtype.val).filter fun p => !w.tables.carries row.id p) [] actor
  constructor
  · rintro ⟨-, hsilent⟩ pk hpk' ⟨p, hp, hnew⟩
    obtain rfl : row.id = pk := Option.some.inj (hpk.symm.trans hpk')
    by_contra hheld
    push Not at hheld
    have hsame : (w.save t).tables.record = w.tables.record := by
      rw [hrecord]
      refine Record.relabel_held fun label hlabel => ?_
      obtain ⟨q, hq, rfl⟩ := mem_labels.mp hlabel
      obtain ⟨q', hq', rfl⟩ := List.mem_map.mp (List.mem_filter.mp hq).1
      exact hheld q' hq'
    have hnone := (changed_eq_nil.mp (hsilent hsame)).1
    have hmem : p.val ∈ (perms.map Subtype.val).filter fun p => !w.tables.carries row.id p :=
      List.mem_filter.mpr ⟨List.mem_map_of_mem hp, by simp [hnew]⟩
    rw [hnone] at hmem
    cases hmem
  · intro hapart
    refine ⟨hreplay.trans hrecord.symm, fun hsame => changed_eq_nil.mpr ⟨?_, rfl⟩⟩
    by_contra hadded
    obtain ⟨p, hp⟩ := List.exists_mem_of_ne_nil _ hadded
    obtain ⟨hp, hnew⟩ := List.mem_filter.mp hp
    obtain ⟨p', hp', rfl⟩ := List.mem_map.mp hp
    obtain ⟨q, hq, hlabel⟩ := hapart row.id hpk ⟨p', hp', by simpa using hnew⟩
    have hq' : w.tables.carries row.id q = false := by
      rw [Bool.eq_false_iff]
      exact fun hcarries => hlabel (mem_roleLabels_of_carries hw q.property hcarries)
    have hgained : q.val.label ∈ (w.save t).tables.record.labels row.id := by
      rw [hrecord, Record.mem_relabel]
      refine ⟨.inr (mem_labels.mpr ⟨q, ?_, rfl⟩), List.not_mem_nil⟩
      exact List.mem_filter.mpr ⟨List.mem_map_of_mem hq, by simp [hq']⟩
    rw [hsame] at hgained
    exact hlabel hgained

theorem told_of_removed
    (ht : t.toTableRows = w.tables.removePermissions row.id (perms.map Subtype.val)) :
    Told w (w.save t) ((w.loadRole row).changed []
      ((perms.map Subtype.val).filter fun p => w.tables.carries row.id p) actor) ↔
      (Call.revokePermissions role perms actor).LabelsApart w.tables := by
  have hperms : ∀ p ∈ perms.map Subtype.val, p ∈ c.rows := by
    intro p hp
    obtain ⟨q, -, rfl⟩ := List.mem_map.mp hp
    exact q.property
  have hexact := record_removePermissions hw hperms ht
  have hreplay : replay Record.apply w.tables.record _ = _ :=
    replay_changed (w.loadRole row) rfl w.tables.record []
      ((perms.map Subtype.val).filter fun p => w.tables.carries row.id p) actor
  constructor
  · rintro ⟨htold, -⟩ pk hpk'
    obtain rfl : row.id = pk := Option.some.inj (hpk.symm.trans hpk')
    exact hexact.mp (htold.symm.trans hreplay)
  · intro hapart
    have hrecord := hexact.mpr (hapart row.id hpk)
    refine ⟨hreplay.trans hrecord.symm, fun hsame => changed_eq_nil.mpr ⟨rfl, ?_⟩⟩
    by_contra hremoved
    obtain ⟨p, hp⟩ := List.exists_mem_of_ne_nil _ hremoved
    have hheld : p.label ∈ w.tables.record.labels row.id :=
      mem_roleLabels_of_carries hw (hperms p (List.mem_filter.mp hp).1)
        (by simpa using (List.mem_filter.mp hp).2)
    rw [← show t.record = w.tables.record from hsame, hrecord, Record.mem_relabel] at hheld
    exact hheld.2 (mem_labels.mpr ⟨p, hp, rfl⟩)

end Changed

theorem Effect.told_iff (h : Effect w call w' sent)
    (hw : ∀ rp ∈ w.tables.rolePermissions, rp.permission ∈ c.rows) :
    Told w w' sent ↔ call.LabelsApart w.tables := by
  cases h with
  | @granted _ _ _ _ _ _ _ a t hfresh hstatus ht =>
    refine iff_of_true (told_of_status a.id .active ?_ ?_ rfl) trivial
    · rw [show w.tables.assignment a.id = none from List.find?_eq_none.mpr fun x hx hid =>
        hfresh (List.mem_map.mpr ⟨x, hx, by simpa using hid⟩)]
      simp
    · exact hstatus ▸ Tables.record_addAssignment hfresh ht
  | suspended h => exact iff_of_true (told_of_transitioned h (by simp) rfl) trivial
  | reactivated h => exact iff_of_true (told_of_transitioned h (by simp) rfl) trivial
  | revoked h => exact iff_of_true (told_of_transitioned h (by simp) rfl) trivial
  | added hpk ht => exact told_of_added hpk hw ht
  | removed hpk ht => exact told_of_removed hpk hw ht

theorem Step.told_iff (s : c.Step) (b : c.Stored) :
    Exact Record.apply (·.tables.record) b (s.entry b) ∧ Silent b (s.entry b) ↔
      (s.Returns b → s.call.LabelsApart b.tables) := by
  cases hrun : s.call.program.run s.receivers (s.world.save b.tables) with
  | error e =>
    have hevents : (s.entry b).events = [] := by simp [entry, events, hrun]
    have hnext : (s.entry b).next.tables = b.tables := by simp [entry, Op.after, hrun]
    refine iff_of_true ⟨?_, fun _ => hevents⟩ fun hreturns => ?_
    · rw [Exact, hevents, hnext]
      rfl
    · rw [Returns, hrun] at hreturns
      cases hreturns
  | ok r =>
    obtain ⟨_, w'⟩ := r
    have hevents : (s.entry b).events =
        s.call.program.signals s.receivers (s.world.save b.tables) := by simp [entry, events, hrun]
    have hnext : (s.entry b).next.tables = w'.tables := by simp [entry, Op.after, hrun]
    have heffect : Effect _ s.call w' _ := Call.effect ⟨hrun, hevents.symm⟩
    have htold := heffect.told_iff b.drawn
    have hreturns : s.Returns b := by rw [Returns, hrun]; rfl
    rw [Exact, Silent, hnext, imp_iff_right hreturns]
    exact htold

def LabelsApart : c.Stored → List c.Step → Prop
  | _, [] => True
  | b, s :: steps => (s.Returns b → s.call.LabelsApart b.tables) ∧ LabelsApart (s.entry b).next steps

theorem each_told_iff {b : c.Stored} {steps : List c.Step} :
    Each (fun b e => Exact Record.apply (·.tables.record) b e ∧ Silent b e) b (run b steps) ↔
      LabelsApart b steps := by
  induction steps generalizing b with
  | nil => exact Iff.rfl
  | cons s steps ih => exact and_congr (s.told_iff b) ih

/-- At every moment of a run the log replays to what is stored, and no call logs
without a change, just if labels tell every call apart. -/
theorem audit_faithful_iff (c : Catalog) (b : c.Stored) (steps : List c.Step) :
    (∀ n, Faithful Record.apply (·.tables.record) b ((run b steps).take n)) ∧
      Each Silent b (run b steps) ↔ LabelsApart b steps := by
  rw [Lib.Replay.faithful_iff_exact, ← Lib.Replay.each_and]
  exact each_told_iff

end Catalog

namespace Helpdesk

def exportTeam : Permission := ⟨5, "helpdesk", "export"⟩
def exportTicket : Permission := ⟨6, "helpdesk", "export"⟩

def exports : Catalog where
  rows := [exportTeam, exportTicket]
  ids := by decide

def exporting : exports.Stored where
  tables := {
    roles := [{ id := 1, name := "exporter" }]
    rolePermissions := [⟨1, exportTeam⟩, ⟨1, exportTicket⟩]
    valid := by decide }
  drawn := by decide

def exporter : Role := (world db 10 exporting.tables).loadRole { id := 1, name := "exporter" }

def revokeExport : exports.Step where
  world := world db 10 exporting.tables
  receivers := quiet
  call := .revokePermissions exporter [⟨exportTicket, by decide⟩]
    (some { pk := 1, isSuperuser := true })

theorem export_stays : ¬ ∀ (c : Catalog) (b : c.Stored) (steps : List c.Step),
    Faithful Record.apply (·.tables.record) b (Catalog.run b steps) ∧
      Each Catalog.Silent b (Catalog.run b steps) := by
  intro h
  have hlabels := congrArg (Record.labels · 1) (h exports exporting [revokeExport]).1
  have hlost : "helpdesk.export" ∉ (replay Record.apply exporting.tables.record
      (Lib.Replay.events (Catalog.run exporting [revokeExport]))).labels 1 := by decide +kernel
  have hkept : "helpdesk.export" ∈ (Lib.Replay.last exporting
      (Catalog.run exporting [revokeExport])).tables.record.labels 1 := by decide +kernel
  exact hlost (hlabels ▸ hkept)

end Helpdesk

end ScopedAccess
