import ScopedAccess.RoleService
import ScopedAccess.LifecycleLaws

namespace ScopedAccess

open Lib.Loop (bind_eq_ok)
open Op (run_bind_ok run_guard_ok run_reject_ok run_read_bind_ok run_py_bind_ok
  run_write_bind_ok run_emit_ok run_pure_ok)

variable {rc : Receivers} {w w' : World}

theorem World.mem_matchingLevels {o : Obj} {name : String} :
    name ∈ w.matchingLevels o ↔
      ∃ l ∈ w.hierarchy.levels, l.selects w.db o.row ∧ l.name = name := by
  simp only [World.matchingLevels, List.mem_map, List.mem_filter, Hierarchy.mem_levelsForModel]
  constructor
  · rintro ⟨l, ⟨⟨hl, -⟩, hsel⟩, rfl⟩
    exact ⟨l, hl, hsel, rfl⟩
  · rintro ⟨l, hl, hsel, rfl⟩
    exact ⟨l, ⟨⟨hl, Level.selects_model hsel⟩, hsel⟩, rfl⟩

theorem World.ownerLevelFor_mem {owner : Obj} {level : Option String} {name : String}
    (h : w.ownerLevelFor owner level = .ok name) : name ∈ w.matchingLevels owner := by
  unfold World.ownerLevelFor at h
  cases level with
  | some given =>
    by_cases hmem : given ∈ w.matchingLevels owner
    · obtain rfl : given = name := by simpa [hmem] using h
      exact hmem
    · simp [hmem, throwing] at h
  | none =>
    dsimp only at h
    split at h
    · obtain rfl := Except.ok.inj h
      simp [*]
    · simp [throwing] at h

theorem World.validateOwner_ok {role role' : Role} (h : w.validateOwner role = .ok role') :
    (role.ownerId = none ∧ role.ownerCt = none ∧ role.ownerLevel = none ∧ role' = role) ∨
      ∃ owner level, role.ownerId ≠ none ∧ role.ownerCt ≠ none ∧ role.owner = .ok (some owner) ∧
        level ∈ w.matchingLevels owner ∧ level ∈ w.site.roleOwnerLevels ∧
        role' = { role with ownerLevel := some level } := by
  unfold World.validateOwner at h
  by_cases hid : role.ownerId.isNone
  · rw [if_pos hid] at h
    by_cases hmeta : role.ownerCt.isSome || role.ownerLevel.isSome
    · simp [hmeta, throwing] at h
    · obtain rfl : role = role' := by simpa [hmeta] using h
      simp only [Bool.or_eq_true, not_or, Bool.not_eq_true, Option.isSome_eq_false_iff,
        Option.isNone_iff_eq_none] at hmeta
      exact .inl ⟨Option.isNone_iff_eq_none.mp hid, hmeta.1, hmeta.2, rfl⟩
  · rw [if_neg hid] at h
    by_cases hct : role.ownerCt.isNone
    · simp [hct, throwing] at h
    · rw [if_neg hct] at h
      obtain ⟨owner, howner, h⟩ := bind_eq_ok.mp h
      cases owner with
      | none => simp [throwing] at h
      | some owner =>
        obtain ⟨level, hlevel, h⟩ := bind_eq_ok.mp h
        by_cases hallowed : level ∈ w.site.roleOwnerLevels
        · obtain rfl : _ = role' := by simpa [hallowed] using h
          exact .inr ⟨owner, level, by simpa using hid, by simpa using hct, howner,
            ownerLevelFor_mem hlevel, hallowed, rfl⟩
        · simp [hallowed, throwing] at h

theorem World.validateOwner_idem {role role' : Role} (h : w.validateOwner role = .ok role') :
    w.validateOwner role' = .ok role' := by
  obtain ⟨hid, hct, hlevel, rfl⟩ | ⟨owner, level, hid, hct, howner, hmem, hallowed, rfl⟩ :=
    validateOwner_ok h
  · exact h
  · simp [World.validateOwner, hid, hct, howner, World.ownerLevelFor, hmem, hallowed]

theorem World.validateOwner_pk {role role' : Role} (h : w.validateOwner role = .ok role') :
    role'.pk = role.pk := by
  obtain ⟨-, -, -, rfl⟩ | ⟨_, _, -, -, -, -, -, rfl⟩ := validateOwner_ok h <;> rfl

theorem World.validateOwner_createdAt {role role' : Role}
    (h : w.validateOwner role = .ok role') : role'.createdAt = role.createdAt := by
  obtain ⟨-, -, -, rfl⟩ | ⟨_, _, -, -, -, -, -, rfl⟩ := validateOwner_ok h <;> rfl

/-- Where `saveRole` writes: over a stored row, or into a row of its own. -/
inductive Saved (w : World) (role : Role) : Nat → Time → TableRows → Prop
  | overwrite {row : RoleRow} {createdAt : Time} (hpk : role.pk = some row.id)
      (hrow : w.tables.role row.id = some row) (hcreated : role.createdAt = some createdAt) :
      Saved w role row.id createdAt (w.tables.setRole row.id (role.columns row.id createdAt))
  | fresh {pk : Nat} (hpk : role.pk = some pk ∨ role.pk = none)
      (hfresh : pk ∉ w.tables.roles.map RoleRow.id) :
      Saved w role pk w.now (w.tables.addRole (role.columns pk w.now))

def Role.saved (role : Role) (pk : Nat) (createdAt : Time) : Role :=
  { role with pk := some pk, createdAt := some createdAt }

theorem saveRole_ok {role role' : Role} (h : (saveRole role).run rc w = .ok (role', w')) :
    ∃ (v : Role) (pk : Nat) (createdAt : Time) (t : Tables), w.validateOwner role = .ok v ∧
      Saved w v pk createdAt t.toTableRows ∧
      role' = v.saved pk createdAt ∧ w' = w.save t := by
  simp only [saveRole, Op.run_ask_bind, run_py_bind_ok] at h
  obtain ⟨v, hv, h⟩ := h
  refine ⟨v, ?_⟩
  cases hpk : v.pk with
  | none =>
    simp only [hpk, run_write_bind_ok, run_pure_ok] at h
    obtain ⟨t, ht, rfl, rfl⟩ := h
    exact ⟨_, _, t, hv, ht ▸ .fresh (.inr hpk) (Lib.Rows.fresh_not_mem _), rfl, rfl⟩
  | some pk =>
    simp only [hpk] at h
    cases hrow : w.tables.role pk with
    | none =>
      simp only [hrow, Option.isSome_none, Bool.false_eq_true, if_false, run_write_bind_ok,
        run_pure_ok] at h
      obtain ⟨t, ht, rfl, rfl⟩ := h
      refine ⟨pk, w.now, t, hv, ht ▸ .fresh (.inl hpk) ?_, by rw [Role.saved, ← hpk], rfl⟩
      intro hmem
      obtain ⟨row, hrow', hid⟩ := List.mem_map.mp hmem
      simp [w.tables.role_eq_some.mpr ⟨hrow', hid⟩] at hrow
    | some row =>
      obtain ⟨-, rfl⟩ := w.tables.role_eq_some.mp hrow
      simp only [hrow, Option.isSome_some, if_true] at h
      cases hcreated : v.createdAt with
      | none => simp [hcreated] at h
      | some createdAt =>
        simp only [hcreated, run_write_bind_ok, run_pure_ok] at h
        obtain ⟨t, ht, rfl, rfl⟩ := h
        exact ⟨row.id, createdAt, t, hv, ht ▸ .overwrite hpk hrow hcreated,
          by rw [Role.saved, ← hpk, ← hcreated], rfl⟩

namespace TableRows

variable {t : TableRows} {role : Nat}

theorem carries_iff {p : Permission} :
    t.carries role p ↔ ∃ rp ∈ t.rolePermissions, rp.role = role ∧ rp.permission.id = p.id := by
  simp [carries]

theorem addPermissions_rest (perms : List Permission) :
    t.addPermissions role perms =
      { t with rolePermissions := (t.addPermissions role perms).rolePermissions } := by
  induction perms generalizing t with
  | nil => rfl
  | cons p perms ih =>
    rw [addPermissions, ih]
    split <;> rfl

theorem addPermissions_sub {perms : List Permission} {rp : RolePermission}
    (h : rp ∈ t.rolePermissions) : rp ∈ (t.addPermissions role perms).rolePermissions := by
  induction perms generalizing t with
  | nil => exact h
  | cons p perms ih =>
    rw [addPermissions]
    split
    · exact ih h
    · exact ih (List.mem_append_left _ h)

theorem mem_addPermissions {perms : List Permission} {rp : RolePermission}
    (h : rp ∈ (t.addPermissions role perms).rolePermissions) :
    rp ∈ t.rolePermissions ∨ ∃ p ∈ perms, t.carries role p = false ∧ rp = ⟨role, p⟩ := by
  induction perms generalizing t with
  | nil => exact .inl h
  | cons p perms ih =>
    rw [addPermissions] at h
    cases hp : t.carries role p with
    | true =>
      rw [if_pos hp] at h
      rcases ih h with hmem | ⟨q, hq, hnot, rfl⟩
      · exact .inl hmem
      · exact .inr ⟨q, List.mem_cons_of_mem _ hq, hnot, rfl⟩
    | false =>
      rw [if_neg (by simp [hp])] at h
      rcases ih h with hmem | ⟨q, hq, hnot, rfl⟩
      · rcases List.mem_append.mp hmem with hmem | hmem
        · exact .inl hmem
        · exact .inr ⟨p, List.mem_cons_self, hp, List.mem_singleton.mp hmem⟩
      · refine .inr ⟨q, List.mem_cons_of_mem _ hq, ?_, rfl⟩
        rw [Bool.eq_false_iff] at hnot ⊢
        intro hq'
        obtain ⟨rp, hrp, hmatch⟩ := carries_iff.mp hq'
        exact hnot (carries_iff.mpr ⟨rp, List.mem_append_left _ hrp, hmatch⟩)

end TableRows

theorem TableRows.carries_addPermissions {t : TableRows} {role role' : Nat} {p : Permission}
    {perms : List Permission} : (t.addPermissions role perms).carries role' p ↔
      t.carries role' p ∨ role' = role ∧ ∃ q ∈ perms, q.id = p.id := by
  induction perms generalizing t with
  | nil => simp [addPermissions]
  | cons q perms ih =>
    rw [addPermissions, ih]
    by_cases hq : t.carries role q
    · rw [if_pos hq]
      constructor
      · rintro (h | ⟨rfl, x, hx, hid⟩)
        · exact .inl h
        · exact .inr ⟨rfl, x, List.mem_cons_of_mem _ hx, hid⟩
      · rintro (h | ⟨rfl, x, hx, hid⟩)
        · exact .inl h
        · rcases List.mem_cons.mp hx with rfl | hx
          · obtain ⟨rp, hrp, hrole, hrpid⟩ := carries_iff.mp hq
            exact .inl (carries_iff.mpr ⟨rp, hrp, hrole, hrpid.trans hid⟩)
          · exact .inr ⟨rfl, x, hx, hid⟩
    · rw [if_neg hq]
      simp only [carries, List.any_append, List.any_cons, List.any_nil, Bool.or_false,
        Bool.or_eq_true, Bool.and_eq_true, decide_eq_true_eq, or_assoc, List.mem_cons,
        exists_eq_or_imp, and_or_left, eq_comm (a := role)]

theorem TableRows.carries_removePermissions {t : TableRows} {role role' : Nat} {p : Permission}
    {perms : List Permission} (hne : role' ≠ role) :
    (t.removePermissions role perms).carries role' p = t.carries role' p := by
  rw [Bool.eq_iff_iff, carries_iff, carries_iff]
  simp only [removePermissions, List.mem_filter, decide_eq_true_eq]
  constructor
  · rintro ⟨rp, ⟨hrp, -⟩, hrole, hid⟩
    exact ⟨rp, hrp, hrole, hid⟩
  · rintro ⟨rp, hrp, rfl, hid⟩
    exact ⟨rp, ⟨hrp, fun h => hne h.1⟩, rfl, hid⟩

namespace Tables

variable {t t' : Tables} {r x y : RoleRow} {k : Nat}

theorem role_of_roles (h : t'.roles = t.roles) : t'.role k = t.role k := by
  rw [role, h]
  rfl

theorem role_setRole (hr : t.role r.id = some r) (hid : y.id = r.id)
    (ht : t'.toTableRows = t.setRole r.id y) :
    t'.role k = some x ↔ t.role k = some x ∧ k ≠ r.id ∨ k = r.id ∧ x = y := by
  rw [role_eq_some, role_eq_some, ht]
  simp only [TableRows.setRole, Lib.Rows.mem_modify]
  constructor
  · rintro ⟨⟨hx, hne⟩ | ⟨_, -, -, rfl⟩, rfl⟩
    · exact .inl ⟨⟨hx, rfl⟩, hne⟩
    · exact .inr ⟨hid, rfl⟩
  · rintro (⟨⟨hx, rfl⟩, hne⟩ | ⟨rfl, rfl⟩)
    · exact ⟨.inl ⟨hx, hne⟩, rfl⟩
    · exact ⟨.inr ⟨r, (t.role_eq_some.mp hr).1, rfl, rfl⟩, hid⟩

theorem role_addRole (hfresh : r.id ∉ t.roles.map RoleRow.id)
    (ht : t'.toTableRows = t.addRole r) :
    t'.role k = some x ↔ t.role k = some x ∧ k ≠ r.id ∨ k = r.id ∧ x = r := by
  rw [role_eq_some, role_eq_some, ht]
  simp only [TableRows.addRole, List.mem_append, List.mem_singleton]
  constructor
  · rintro ⟨hx | rfl, rfl⟩
    · exact .inl ⟨⟨hx, rfl⟩, fun hid => hfresh (hid ▸ List.mem_map_of_mem hx)⟩
    · exact .inr ⟨rfl, rfl⟩
  · rintro (⟨⟨hx, rfl⟩, -⟩ | ⟨rfl, rfl⟩)
    · exact ⟨.inl hx, rfl⟩
    · exact ⟨.inr rfl, rfl⟩

end Tables

theorem forbiddenLabels_nil {actor : User} {role : Role} {ls : List String}
    (h : (forbiddenLabels actor role ls).run w = .ok []) :
    ∀ label ∈ ls, (canGrantPermission actor role label none).run w = .ok true := by
  induction ls with
  | nil => simp
  | cons label ls ih =>
    simp only [forbiddenLabels, Read.run_bind] at h
    obtain ⟨granted, hgranted, h⟩ := bind_eq_ok.mp h
    obtain ⟨forbidden, hforbidden, h⟩ := bind_eq_ok.mp h
    cases granted with
    | false => simp at h
    | true =>
      obtain rfl : forbidden = [] := by simpa using h
      intro label' hmem
      rcases List.mem_cons.mp hmem with rfl | hmem
      · exact hgranted
      · exact ih hforbidden label' hmem

theorem mem_labels {perms : List Permission} {label : String} :
    label ∈ labels perms ↔ ∃ p ∈ perms, p.label = label := by
  simp [labels]

namespace Role

theorem announce_ok {role : Role} {added removed : List Permission} {actor : Option User}
    {x : Unit} (h : (role.announce added removed actor).run rc w = .ok (x, w')) : w' = w := by
  unfold announce at h
  split at h
  · simpa [eq_comm] using h
  · simp only [Op.run_invalidateCache_bind, Op.run_afterCommit_bind, run_emit_ok] at h
    exact h.2

theorem grantPermissions_ok {role : Role} {perms : List Permission} {actor : Option User}
    {x : Unit} (h : (role.grantPermissions perms actor).run rc w = .ok (x, w')) :
    ∃ (row : RoleRow) (user : User) (t : Tables), role.pk = some row.id ∧
      w.tables.role row.id = some row ∧ actor = some user ∧
      (canManageRole actor (w.loadRole row) none).run w = .ok true ∧
      (∀ p ∈ perms, w.tables.carries row.id p = false →
        (canGrantPermission user (w.loadRole row) p.label none).run w = .ok true) ∧
      t.toTableRows = w.tables.addPermissions row.id perms ∧ w' = w.save t := by
  rw [grantPermissions, run_refresh_bind_ok] at h
  obtain ⟨row, hpk, hrow, h⟩ := h
  cases actor with
  | none => simp at h
  | some user =>
    have hid : (w.loadRole row).pk.getD 0 = row.id := rfl
    simp only [run_read_bind_ok, run_reject_ok, Op.run_ask_bind, run_write_bind_ok, hid,
      Bool.not_eq_true', Bool.not_eq_false, List.isEmpty_iff] at h
    obtain ⟨manages, hmanages, rfl, forbidden, hforbidden, rfl, t, ht, h⟩ := h
    obtain rfl := announce_ok h
    refine ⟨row, user, t, hpk, hrow, rfl, hmanages, fun p hp hnew => ?_, ht, rfl⟩
    exact forbiddenLabels_nil hforbidden _ (mem_labels.mpr ⟨p, by simp [hp, hnew], rfl⟩)

theorem revokePermissions_ok {role : Role} {perms : List Permission} {actor : Option User}
    {x : Unit} (h : (role.revokePermissions perms actor).run rc w = .ok (x, w')) :
    ∃ (row : RoleRow) (t : Tables), role.pk = some row.id ∧ w.tables.role row.id = some row ∧
      (canManageRole actor (w.loadRole row) none).run w = .ok true ∧
      t.toTableRows = w.tables.removePermissions row.id perms ∧ w' = w.save t := by
  rw [revokePermissions, run_refresh_bind_ok] at h
  obtain ⟨row, hpk, hrow, h⟩ := h
  have hid : (w.loadRole row).pk.getD 0 = row.id := rfl
  simp only [run_read_bind_ok, run_guard_ok, Op.run_ask_bind, run_write_bind_ok, hid] at h
  obtain ⟨manages, hmanages, rfl, t, ht, h⟩ := h
  obtain rfl := announce_ok h
  exact ⟨row, t, hpk, hrow, hmanages, ht, rfl⟩

end Role

namespace RoleService

theorem create_ok {actor : Option User} {permissions : List Permission} {fields : Fields}
    {role : Role} (h : (create actor permissions fields).run rc w = .ok (role, w')) :
    ∃ (v : Role) (pk : Nat) (createdAt : Time) (t : Tables),
      w.validateOwner (fields.role w) = .ok v ∧
      (canManageRole actor v none).run w = .ok true ∧ Saved w v pk createdAt t.toTableRows ∧
      role = v.saved pk createdAt ∧
      (permissions = [] ∧ w' = w.save t ∨
        (role.grantPermissions permissions actor).run rc (w.save t) = .ok ((), w')) := by
  simp only [create, Op.run_ask_bind, run_py_bind_ok, run_read_bind_ok, run_guard_ok] at h
  obtain ⟨v, hv, manages, hmanages, rfl, h⟩ := h
  obtain ⟨saved, w₁, hsave, h⟩ := run_bind_ok.mp h
  obtain ⟨v', pk, createdAt, t, hv', hsaved, rfl, rfl⟩ := saveRole_ok hsave
  obtain rfl := Except.ok.inj ((World.validateOwner_idem hv).symm.trans hv')
  refine ⟨v, pk, createdAt, t, hv, hmanages, hsaved, ?_⟩
  cases permissions with
  | nil =>
    simp only [List.isEmpty_nil, if_true, run_pure_ok] at h
    obtain ⟨rfl, rfl⟩ := h
    exact ⟨rfl, .inl ⟨rfl, rfl⟩⟩
  | cons p permissions =>
    simp only [List.isEmpty_cons, Bool.false_eq_true, if_false, run_bind_ok, run_pure_ok] at h
    obtain ⟨x, w₂, hgrant, rfl, rfl⟩ := h
    exact ⟨rfl, .inr hgrant⟩

theorem Changes.apply_pk (w : World) (changes : Changes) (role : Role) :
    (changes.apply w role).pk = role.pk := by
  unfold Changes.apply
  cases changes.owner <;> rfl

theorem Changes.apply_createdAt (w : World) (changes : Changes) (role : Role) :
    (changes.apply w role).createdAt = role.createdAt := by
  unfold Changes.apply
  cases changes.owner <;> rfl

theorem update_ok {role role' : Role} {actor : Option User} {changes : Changes}
    (h : (update role actor changes).run rc w = .ok (role', w')) :
    ∃ (row : RoleRow) (v : Role) (t : Tables), role.pk = some row.id ∧
      w.tables.role row.id = some row ∧
      (canManageRole actor (w.loadRole row) none).run w = .ok true ∧
      w.validateOwner (changes.apply w (w.loadRole row)) = .ok v ∧
      (canManageRole actor v none).run w = .ok true ∧
      t.toTableRows = w.tables.setRole row.id (v.columns row.id row.createdAt) ∧
      w' = w.save t := by
  rw [update, run_refresh_bind_ok] at h
  obtain ⟨row, hpk, hrow, h⟩ := h
  simp only [run_read_bind_ok, run_guard_ok, Op.run_ask_bind, run_py_bind_ok] at h
  obtain ⟨manages, hmanages, rfl, v, hv, moves, hmoves, rfl, h⟩ := h
  obtain ⟨saved, w₁, hsave, h⟩ := run_bind_ok.mp h
  obtain ⟨v', pk, createdAt, t, hv', hsaved, rfl, rfl⟩ := saveRole_ok hsave
  rw [Op.run_invalidateCache_bind] at h
  obtain ⟨-, rfl⟩ := run_pure_ok.mp h
  obtain rfl := Except.ok.inj ((World.validateOwner_idem hv).symm.trans hv')
  have hvpk : v.pk = some row.id := by
    rw [World.validateOwner_pk hv, Changes.apply_pk]
    rfl
  have hvcreated : v.createdAt = some row.createdAt := by
    rw [World.validateOwner_createdAt hv, Changes.apply_createdAt]
    rfl
  refine ⟨row, v, t, hpk, hrow, hmanages, hv, hmoves, ?_, rfl⟩
  generalize t.toTableRows = rows at hsaved ⊢
  cases hsaved with
  | @overwrite row' createdAt hpk' hrow' hcreated =>
    obtain rfl : row.createdAt = createdAt := by simpa [hvcreated] using hcreated
    have hid : row.id = row'.id := by simpa [hvpk] using hpk'
    simp [← hid]
  | @fresh pk hpk' hfresh =>
    obtain rfl : row.id = pk := by simpa [hvpk] using hpk'
    exact absurd (List.mem_map.mpr ⟨row, (w.tables.role_eq_some.mp hrow).1, rfl⟩) hfresh

theorem delete_ok {role : Role} {actor : Option User} {x : Unit}
    (h : (delete role actor).run rc w = .ok (x, w')) :
    ∃ (row : RoleRow) (t : Tables), role.pk = some row.id ∧ w.tables.role row.id = some row ∧
      (canManageRole actor (w.loadRole row) none).run w = .ok true ∧
      (∀ a ∈ w.tables.assignments, a.role ≠ row.id) ∧
      t.toTableRows = { w.tables.toTableRows with
        roles := w.tables.roles.filter (·.id ≠ row.id)
        rolePermissions := w.tables.rolePermissions.filter (·.role ≠ row.id) } ∧
      w' = w.save t := by
  rw [delete, run_refresh_bind_ok] at h
  obtain ⟨row, hpk, hrow, h⟩ := h
  have hid : (w.loadRole row).pk.getD 0 = row.id := rfl
  simp only [run_read_bind_ok, run_guard_ok, Op.run_ask_bind, hid] at h
  obtain ⟨manages, hmanages, rfl, h⟩ := h
  obtain ⟨hfree, h⟩ := run_reject_ok.mp h
  obtain ⟨t, ht, rfl⟩ := Op.run_write_ok.mp h
  exact ⟨row, t, hpk, hrow, hmanages, by simpa using hfree, ht, rfl⟩

end RoleService

end ScopedAccess
