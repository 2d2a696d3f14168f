import ScopedAccess.Services
import ScopedAccess.Engine.Inert

namespace ScopedAccess

open Lib.Rows (Extends)

def Names (gone : Nat → Prop) (x x' : Option Nat) : Prop :=
  x' = x ∨ x' = none ∧ ∃ u ∈ x, gone u

theorem Names.trans {gone : Nat → Prop} {x x' x'' : Option Nat} (h : Names gone x x')
    (h' : Names gone x' x'') : Names gone x x'' := by
  rcases h' with rfl | ⟨rfl, u, hu, hgone⟩
  · exact h
  · rcases h with rfl | ⟨rfl, -⟩
    · exact .inr ⟨rfl, u, hu, hgone⟩
    · cases hu

/-- The later row of a record: the same grant, its status and revocation stamp changed only
while it was live, and the actors it names forgotten only when they are gone. -/
structure AssignmentRow.Continues (gone : Nat → Prop) (a a' : AssignmentRow) : Prop where
  grant : { a' with
    status := a.status, grantedBy := a.grantedBy, revokedBy := a.revokedBy,
    revokedAt := a.revokedAt, reason := a.reason } = a
  granter : Names gone a.grantedBy a'.grantedBy
  final : a.status = .revoked →
    { a' with grantedBy := a.grantedBy, revokedBy := a.revokedBy } = a ∧
      Names gone a.revokedBy a'.revokedBy
  live : a'.status ≠ .revoked →
    { a' with status := a.status, grantedBy := a.grantedBy, revokedBy := a.revokedBy } = a ∧
      Names gone a.revokedBy a'.revokedBy

namespace AssignmentRow.Continues

variable {gone : Nat → Prop} {a a' a'' : AssignmentRow}

theorem refl (a : AssignmentRow) : a.Continues gone a :=
  ⟨rfl, .inl rfl, fun _ => ⟨rfl, .inl rfl⟩, fun _ => ⟨rfl, .inl rfl⟩⟩

theorem status_final (h : a.Continues gone a') (hrevoked : a.status = .revoked) :
    a'.status = .revoked := by
  rw [← (h.final hrevoked).1] at hrevoked
  exact hrevoked

theorem trans (h : a.Continues gone a') (h' : a'.Continues gone a'') :
    a.Continues gone a'' where
  grant := by
    rw [← h.grant, ← h'.grant]
  granter := h.granter.trans h'.granter
  final hrevoked := by
    obtain ⟨hsame, hby⟩ := h.final hrevoked
    obtain ⟨hsame', hby'⟩ := h'.final (h.status_final hrevoked)
    exact ⟨by rw [← hsame, ← hsame'], hby.trans hby'⟩
  live hlive := by
    obtain ⟨hsame', hby'⟩ := h'.live hlive
    obtain ⟨hsame, hby⟩ := h.live fun hrevoked => hlive (h'.status_final hrevoked)
    exact ⟨by rw [← hsame, ← hsame'], hby.trans hby'⟩

theorem forget {pk : Nat} (hpk : gone pk) (a : AssignmentRow) : a.Continues gone (a.forget pk) := by
  have hnames (x : Option Nat) : Names gone x (x.filter (· ≠ pk)) := by
    cases x with
    | none => exact .inl rfl
    | some u =>
      by_cases hu : u = pk
      · exact .inr ⟨by simp [hu], u, rfl, hu ▸ hpk⟩
      · exact .inl (by simp [hu])
  exact ⟨rfl, hnames _, fun _ => ⟨rfl, hnames _⟩, fun _ => ⟨rfl, hnames _⟩⟩

end AssignmentRow.Continues

def Tables.Continues (gone : Nat → Prop) (t t' : Tables) : Prop :=
  Extends (AssignmentRow.Continues gone) t.assignments t'.assignments

variable {actor : Option User} {w : World} {gone : Nat → Prop}

theorem Tables.Continues.refl (t : Tables) : t.Continues gone t := Extends.refl .refl _

theorem Tables.Continues.trans {t t' t'' : Tables} (h : t.Continues gone t')
    (h' : t'.Continues gone t'') : t.Continues gone t'' := Extends.trans .trans h h'

theorem UserChange.continues {change : UserChange} (h : ∀ pk, change = .delete pk → gone pk)
    (t : Tables) : t.Continues gone (change.apply t) := by
  cases change with
  | add pk => exact .refl t
  | delete pk =>
    rw [UserChange.apply, Tables.deleteUser]
    split
    · exact .refl t
    · intro i a ha
      exact ⟨a.forget pk, by simp [ha], .forget (h pk rfl) a⟩

theorem Transition.continues {call : ServiceCall} {row row' : AssignmentRow}
    (h : Transition w actor row call row') :
    row.Continues gone row' := by
  cases h with
  | suspend hfrom | reactivate hfrom =>
    exact ⟨rfl, .inl rfl, fun hrevoked => by simp [hrevoked] at hfrom, fun _ => ⟨rfl, .inl rfl⟩⟩
  | revoke hfrom =>
    exact ⟨rfl, .inl rfl, fun hrevoked => absurd hrevoked hfrom, fun hlive => absurd rfl hlive⟩

theorem Write.continues {call : ServiceCall} {t : Tables} (h : Write actor w call t.toTableRows) :
    w.tables.Continues gone t := by
  unfold Tables.Continues
  generalize t.toTableRows = rows at h ⊢
  cases h with
  | granted => exact .append .refl _ _
  | @moved _ row row' _ hstored _ _ htransition =>
    refine .modify .refl fun r hr hid => ?_
    obtain rfl : r = row :=
      w.tables.assignment_unique hr (w.tables.assignment_eq_some.mp hstored).1 hid
    exact htransition.continues
  | created _ _ hsaved => cases hsaved <;> exact .refl .refl _
  | updated | deleted | reduced => exact .refl .refl _
  | extended =>
    rw [TableRows.addPermissions_rest]
    exact .refl .refl _

namespace World

theorem history_continues (w : World) (events : List SiteEvent) :
    w.tables.Continues (fun u => .users (.delete u) ∈ events) (w.history events).tables := by
  refine history_keeps (A := (· ∈ events))
    (P := fun w' => w.tables.Continues (fun u => .users (.delete u) ∈ events) w'.tables)
    ?_ ?_ ?_ ?_ (fun _ he => he) (.refl _)
  · exact fun _ h hwrite => h.trans hwrite.continues
  · exact fun _ h => h
  · exact fun _ _ h => h
  · intro w' change he h
    exact h.trans (change.continues (fun pk hpk => hpk ▸ he) w'.tables)

/-- Whatever is called, by whomever, and whatever the host does meanwhile, every
assignment stays where it is stored, the same grant with the same validity. -/
theorem assignments_append_only (w : World) (events : List SiteEvent) {i : Nat} {a : AssignmentRow}
    (ha : w.tables.assignments[i]? = some a) :
    ∃ a', (w.history events).tables.assignments[i]? = some a' ∧
      a.Continues (fun u => .users (.delete u) ∈ events) a' :=
  w.history_continues events i a ha

theorem inert_of_never {x : AssignmentRow} (hx : x ∈ w.tables.assignments)
    (hnever : ∀ t, x.isEffective t = false) : w.Inert x.id := by
  have hpass (t : Time) (ht : x.isEffective t) :
      ∃ a, w.prefetch x = .ok (some a) ∧ w.assignmentIsValid a = .ok false := by
    simp [hnever t] at ht
  exact {
    userPermissions := skips_userPermissions hx hpass
    hasPerm := skips_hasPerm hx hpass
    userCovers := skips_userCovers hx hpass
    accessSummary := skips_accessSummary hx hpass
    accessibleNodes := skips_accessibleNodes hx hpass
    scopeFilterQ := skips_scopeFilterQ hx hpass
    roleVisible := skips_roleVisible hx hpass
    canGrantPermission := skips_canGrantPermission hx hpass
    canManageRole := skips_canManageRole hx hpass
    canManageAssignment := skips_canManageAssignment hx hpass
    canAssignRole := skips_canAssignRole hx hpass }

theorem revoke_stamps {rc : Receivers} {w' : World} {pk : Nat} {reason : String} {x : Unit}
    (h : (ScopeAssignment.revoke (some pk) actor reason).run rc w = .ok (x, w')) :
    ∃ a ∈ w'.tables.assignments, a.id = pk ∧ a.status = .revoked ∧
      a.revokedBy = actor.map User.pk ∧ a.revokedAt = some w.now ∧ a.reason = reason := by
  obtain ⟨a, v, hauth, hrest⟩ := Op.run_bind_ok.mp h
  obtain ⟨row, scope, hpk, hrow, hload, -, -, rfl⟩ :=
    ScopeAssignment.authorizeTransition_ok hauth
  obtain rfl : a.row = row := loaded_row hload
  rw [Op.run_ask_bind] at hrest
  obtain ⟨row', t, hrow', -, ht, rfl⟩ := ScopeAssignment.finish_ok hrest
  obtain rfl := Option.some.inj (hrow.symm.trans hrow')
  refine ⟨{ a.row with
    revokedBy := actor.map User.pk, revokedAt := some v.now, reason := reason,
    status := .revoked }, ?_, (Option.some.inj hpk).symm, rfl, rfl, rfl, rfl⟩
  rw [save_tables, ht]
  exact Lib.Rows.mem_modify.mpr (.inr ⟨a.row, (v.tables.assignment_eq_some.mp hrow).1, rfl, rfl⟩)

/-- Once revoked, an assignment keeps its stamp and counts for nothing, in every later state
and at every instant; who revoked it is forgotten when that user is deleted. -/
theorem revocation_is_final {rc : Receivers} {w' : World} {pk : Nat} {reason : String}
    (h : (ScopeAssignment.revoke (some pk) actor reason).run rc w = .ok ((), w'))
    (events : List SiteEvent) :
    (∃ a ∈ (w'.history events).tables.assignments, a.id = pk ∧ a.status = .revoked ∧
      Names (fun u => .users (.delete u) ∈ events) (actor.map User.pk) a.revokedBy ∧
      a.revokedAt = some w.now ∧ a.reason = reason) ∧
    (w'.history events).Inert pk := by
  obtain ⟨a, ha, rfl, hstatus, hby, hat, hreason⟩ := revoke_stamps h
  obtain ⟨a', ha', hcontinues⟩ := (w'.history_continues events).mem ha
  obtain ⟨hsame, hnames⟩ := hcontinues.final hstatus
  have hstatus' := hcontinues.status_final hstatus
  have hid : a'.id = a.id := by rw [← hsame]
  have hat' : a'.revokedAt = a.revokedAt := by rw [← hsame]
  have hreason' : a'.reason = a.reason := by rw [← hsame]
  refine ⟨⟨a', ha', hid, hstatus', hby ▸ hnames, hat'.trans hat, hreason'.trans hreason⟩, ?_⟩
  rw [← hid]
  refine inert_of_never ha' fun t => ?_
  simp [AssignmentRow.isEffective, hstatus']

end World

namespace Helpdesk

def bobRow : AssignmentRow :=
  { id := 2, user := 2, role := 3, level := some "TEAM", scopeCt := some team, scopeId := some "2" }

def farewell : List SiteEvent := [
  .call (some alice) (.suspend (some 2) "") quiet,
  .call (some alice) (.revoke (some 2) "left") quiet,
  .users (.delete 3)]

theorem bob_recorded : ∃ a', (staffed.history farewell).tables.assignments[1]? = some a' ∧
    bobRow.Continues (fun u => .users (.delete u) ∈ farewell) a' :=
  staffed.assignments_append_only _ rfl

theorem bob_revoked : ∃ w' : World,
    (ScopeAssignment.revoke (some 2) (some alice) "left").run quiet staffed = .ok ((), w') ∧
    (w'.history [.call (some alice) (.reactivate (some 2) "") quiet, .tick 5]).Inert 2 := by
  obtain ⟨_, hrun⟩ := Op.run_of_isOk quiet (w := staffed)
    (p := ScopeAssignment.revoke (some 2) (some alice) "left") (by decide)
  exact ⟨_, hrun, (World.revocation_is_final hrun _).2⟩

end Helpdesk

end ScopedAccess
