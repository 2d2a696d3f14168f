import ScopedAccess.Engine.Containment

namespace ScopedAccess

open Lib.Walk (Ends Reaches)
open Lib.Loop

namespace World

variable {w : World}

/-- None of the three shapes, or a custom role whose owner is gone or not above the scope. -/
def Malformed (w : World) (x : AssignmentRow) : Prop :=
  (¬ w.RootShape x ∧
    ∀ s, w.db.generic x.scopeCt x.scopeId = .ok (some s) → ¬ w.NodeShape x s) ∨
  ∃ r, w.tables.role x.role = some r ∧ r.ownerId ≠ none ∧
    ∀ s X, w.db.generic x.scopeCt x.scopeId = .ok (some s) →
      w.db.generic r.ownerCt r.ownerId = .ok (some X) → ¬ Reaches w.parent s X

theorem Malformed.not_valid {x : AssignmentRow} (hbad : w.Malformed x) {a : Assignment}
    (ha : w.loadAssignment x = some a) : ¬ w.Valid a := by
  intro hvalid
  have hrow := loaded_row ha
  rcases hbad with ⟨hroot, hnode⟩ | ⟨r, hr, hcustom, hout⟩
  · rcases assignmentScopeIsValid_true.mp (valid_iff.mp hvalid).1 with hshape | ⟨s, hs, hshape⟩
    · exact hroot (hrow ▸ hshape)
    · have hscope := orNone_some hs
      rw [loaded_scope ha] at hscope
      exact hnode s hscope (hrow ▸ hshape)
  · have hrole : a.role = w.loadRole r := by
      obtain ⟨r', hr', rfl⟩ := Option.map_eq_some_iff.mp ha
      rw [Option.some.inj (hr.symm.trans hr')]
    obtain ⟨s, X, -, hs, -, hX, hsX⟩ := hvalid.scope_contained ha (by rw [hrole]; exact hcustom)
    rw [hrow] at hs
    rw [hrole] at hX
    exact hout s X hs (genericObj_stored.mp hX) hsX

theorem Malformed.passed {x : AssignmentRow} (hx : x ∈ w.tables.assignments)
    (hbad : w.Malformed x) (hset : w.Settles x) :
    ∃ a, w.prefetch x = .ok (some a) ∧ w.assignmentIsValid a = .ok false := by
  obtain ⟨r, hr⟩ := w.tables.exists_role hx
  obtain ⟨scope, valid, hscope, hvalid⟩ := (settles_iff hr).mp hset
  have hfetch := prefetch_some.mpr ⟨scope, r, hscope, hr, rfl⟩
  refine ⟨_, hfetch, ?_⟩
  cases valid with
  | false => exact hvalid
  | true => exact absurd hvalid (hbad.not_valid (loadAssignment_of_prefetch hfetch))

/-- The answer is the same after the row is deleted. -/
def Skips (w : World) (id : Nat) {α : Type} (p : Read α) : Prop :=
  p.run (w.without id) = p.run w

namespace Skips

variable {id : Nat} {α β : Type}

theorem pure (v : α) : w.Skips id (Pure.pure v : Read α) := rfl

theorem liftPy (v : Py α) : w.Skips id (liftM v : Read α) := by
  rw [Skips, Read.run_liftPy, Read.run_liftPy]

theorem isValid (a : Assignment) : w.Skips id (Read.isValid a) := by
  rw [Skips, Read.run_isValid, Read.run_isValid, without_assignmentIsValid]

theorem bind {p : Read α} {f : α → Read β} (hp : w.Skips id p) (hf : ∀ v, w.Skips id (f v)) :
    w.Skips id (p >>= f) := by
  rw [Skips, Read.run_bind, Read.run_bind, hp]
  congr 1
  funext v
  exact hf v

theorem ite {c : Prop} [Decidable c] {p q : Read α} (hp : w.Skips id p) (hq : w.Skips id q) :
    w.Skips id (if c then p else q) := by
  split
  · exact hp
  · exact hq

theorem ask {f : World → Read α} (hf : f (w.without id) = f w) (h : w.Skips id (f w)) :
    w.Skips id (Read.ask >>= f) := by
  rw [Skips, Read.run_bind, Read.run_bind, Read.run_ask, Read.run_ask, ok_bind, ok_bind, hf]
  exact h

end Skips

section Passed

variable {x : AssignmentRow} (hx : x ∈ w.tables.assignments)
  (hpass : ∀ t, x.isEffective t →
    ∃ a, w.prefetch x = .ok (some a) ∧ w.assignmentIsValid a = .ok false)
include hx hpass

theorem Skips.effective {α : Type} {u : User} {at_ : Option Time}
    {f : List Assignment → Read α}
    (hf : ∀ (as : List Assignment) (keep : Assignment → Bool),
      (∀ a ∈ as, keep a = false → w.assignmentIsValid a = .ok false) →
      (f (as.filter keep)).run (w.without x.id) = (f as).run w) :
    w.Skips x.id (Read.effectiveAssignments u at_ >>= f) := by
  have hnow : (w.without x.id).now = w.now := rfl
  rw [Skips, Read.run_bind, Read.run_bind, Read.run_effectiveAssignments,
    Read.run_effectiveAssignments, hnow, fetchEffective_without]
  · cases has : w.fetchEffective u (at_.getD w.now) with
    | error e => rfl
    | ok as =>
      refine hf as _ fun a ha hid => ?_
      obtain ⟨row, hrow, -, heffective, hfetch⟩ := (mem_fetchEffective has).mp ha
      obtain ⟨a', ha', rfl⟩ := prefetch_row hrow hfetch
      obtain rfl := Option.some.inj ha'
      obtain rfl := w.tables.assignment_unique hrow hx (by simpa using hid)
      obtain ⟨a', ha', hinvalid⟩ := hpass _ heffective
      obtain rfl : a = a' := by simpa [hfetch] using ha'
      exact hinvalid
  · intro row hrow hid _ heffective
    obtain rfl := w.tables.assignment_unique hrow hx hid
    obtain ⟨a, ha, -⟩ := hpass _ heffective
    obtain ⟨scope, -, hscope, -⟩ := prefetch_some.mp ha
    exact ⟨scope, hscope⟩

theorem Skips.gather {u : User} {at_ : Option Time} {f : Assignment → Read (Finset String)}
    (hf : ∀ a, w.Skips x.id (f a))
    (hinvalid : ∀ a, w.assignmentIsValid a = .ok false → (f a).run w = .ok ∅) :
    w.Skips x.id (Read.effectiveAssignments u at_ >>= fun as => Lib.Loop.gather f as ∅) := by
  refine Skips.effective hx hpass fun as keep hkeep => ?_
  rw [Read.run_gather, Read.run_gather, funext hf]
  exact gather_filter fun a ha hk => hinvalid a (hkeep a ha hk)

theorem Skips.anyM {u : User} {at_ : Option Time} {f : Assignment → Read Bool}
    (hf : ∀ a, w.Skips x.id (f a))
    (hinvalid : ∀ a, w.assignmentIsValid a = .ok false → (f a).run w = .ok false) :
    w.Skips x.id (Read.effectiveAssignments u at_ >>= fun as => as.anyM f) := by
  refine Skips.effective hx hpass fun as keep hkeep => ?_
  rw [Read.run_anyM, Read.run_anyM, funext hf]
  exact anyM_filter fun a ha hk => hinvalid a (hkeep a ha hk)

theorem Skips.collect {u : User} {at_ : Option Time} {permission : Option String}
    {paths : Nat → Py (List (List String))} :
    w.Skips x.id (Read.effectiveAssignments u at_ >>= fun as =>
      ScopedAccess.collect (term w.hierarchy permission paths) as .never) := by
  refine Skips.effective hx hpass fun as keep hkeep => ?_
  rw [run_collect_congr (w := w.without x.id) (v := w) fun a _ => by rw [run_term, run_term]; rfl]
  refine collect_filter (fun a ha hk => ?_) _
  refine run_term_of_not ⟨false, hkeep a ha hk⟩ ?_
  simp [Valid, hkeep a ha hk]

theorem Skips.summarize {u : User} {at_ : Option Time} :
    w.Skips x.id (Read.effectiveAssignments u at_ >>= fun as => ScopedAccess.summarize as ∅ []) := by
  refine Skips.effective hx hpass fun as keep hkeep => ?_
  suffices h : ∀ perms entries,
      (ScopedAccess.summarize (as.filter keep) perms entries).run (w.without x.id) =
        (ScopedAccess.summarize as perms entries).run w from h ∅ []
  induction as with
  | nil => exact fun _ _ => rfl
  | cons a as ih =>
    intro perms entries
    have ih := ih fun a ha => hkeep a (List.mem_cons_of_mem _ ha)
    cases hk : keep a with
    | true =>
      rw [List.filter_cons_of_pos hk]
      simp only [ScopedAccess.summarize, Read.run_bind, Read.run_isValid, Read.run_ite,
        Read.run_liftPy, without_assignmentIsValid, ih]
    | false =>
      rw [List.filter_cons_of_neg (by simp [hk]), ih]
      simp [ScopedAccess.summarize, hkeep a List.mem_cons_self hk]

theorem skips_userPermissions (u : User) (o : Option Obj) (at_ : Option Time) :
    w.Skips x.id (userPermissions u o at_) := by
  unfold userPermissions
  refine .ite (.pure _) (.ask rfl ?_)
  refine .ite (.pure _) (.gather hx hpass (fun a => ?_) fun a ha => by simp [ha])
  refine .bind (.isValid a) fun valid => .ite (.pure _) ?_
  cases w.anchorOf o with
  | everywhere | denied | unregistered => exact .pure _
  | node n => exact .ite (.pure _) (.bind (.liftPy _) fun covered => .pure _)

theorem skips_hasPerm (u : User) (p : String) (o : Option Obj) (at_ : Option Time) :
    w.Skips x.id (hasPerm u p o at_) := by
  unfold hasPerm
  refine .ite (.pure _) (.ite (.pure _) ?_)
  exact .bind (skips_userPermissions hx hpass u o at_) fun P => .pure _

theorem skips_userCovers (u : User) (o : Obj) (at_ : Option Time) :
    w.Skips x.id (userCovers u o at_) := by
  unfold userCovers
  refine .ite (.pure _) (.ite (.pure _) (.ask rfl ?_))
  refine .ite (.pure _) (.ite (.pure _) ?_)
  refine .anyM hx hpass (fun a => ?_) fun a ha => by simp [ha]
  refine .bind (.isValid a) fun valid => .ite (.pure _) (.ite (.pure _) ?_)
  cases w.resolveAnchor o with
  | everywhere | denied | unregistered => exact .pure _
  | node n => exact .liftPy _

theorem skips_accessSummary (u : User) (at_ : Option Time) :
    w.Skips x.id (accessSummary u at_) := by
  unfold accessSummary
  exact .ite (.pure _) (.summarize hx hpass)

theorem skips_accessibleNodes (u : User) (name : String) (at_ : Option Time)
    (permission : Option String) : w.Skips x.id (accessibleNodes u name at_ permission) := by
  unfold accessibleNodes
  refine .ask rfl ?_
  dsimp only
  cases w.hierarchy.level name with
  | none => exact .liftPy _
  | some level =>
    cases w.hierarchy.rank name with
    | none => exact .liftPy _
    | some target =>
      dsimp only
      cases level.model with
      | none => exact .liftPy _
      | some m =>
        refine .ite (.pure _) (.ite (.pure _) ?_)
        rw [← bind_assoc]
        refine .bind (.collect hx hpass) fun q => .ask rfl ?_
        exact .bind (.liftPy _) fun _ => .pure _

theorem skips_nodeFilterLoop (u : User) (at_ : Option Time) (permission : Option String)
    (levels : List Level) (q : Q) :
    w.Skips x.id (nodeFilterLoop u at_ permission levels q) := by
  induction levels generalizing q with
  | nil => exact .pure q
  | cons level levels ih =>
    exact .bind (skips_accessibleNodes hx hpass u level.name at_ permission) fun nodes => ih _

theorem skips_catalogueQ (u : User) (at_ : Option Time) (permission : Option String) :
    w.Skips x.id (catalogueQ u at_ permission) := by
  cases permission with
  | none => exact .pure _
  | some p => exact .bind (skips_userPermissions hx hpass u none at_) fun P => .pure _

theorem skips_scopeFilterQ (u : User) (m : Model) (at_ : Option Time)
    (permission : Option String) : w.Skips x.id (scopeFilterQ u m at_ permission) := by
  have hcatalogue := skips_catalogueQ hx hpass u at_ permission
  unfold scopeFilterQ hierarchyNodeFilterQ
  refine .ite (.pure _) (.bind (.ask rfl ?_) fun q => ?_)
  · exact .ite (.pure _) (.bind (skips_nodeFilterLoop hx hpass u at_ permission _ _) fun q => .pure _)
  · cases q with
    | some q => exact .pure q
    | none =>
      refine .ite (.pure _) (.ask rfl (.ite hcatalogue ?_))
      cases w.site.resources.anchorFor m with
      | none => exact .ite (.pure _) hcatalogue
      | some anchor => exact .bind (.liftPy _) fun targets => .collect hx hpass

theorem skips_roleVisible (u : User) (role : Role) (at_ : Option Time) :
    w.Skips x.id (roleVisible u role at_) := by
  unfold roleVisible
  refine .ite (.pure _) (.ite (.pure _) (.bind (.liftPy _) fun owner => ?_))
  cases owner with
  | none => exact .pure _
  | some owner =>
    refine .ite (.pure _) (.anyM hx hpass (fun a => ?_) fun a ha => by simp [covers, ha])
    unfold covers
    refine .bind (.isValid a) fun valid => .ite (.pure _) (.ask rfl (.ite (.pure _) (.ite (.pure _) ?_)))
    cases (w.resolveAnchor owner).node? with
    | none => exact .pure _
    | some n => exact .liftPy _

theorem skips_heldAtRoot (u : User) (at_ : Option Time) : w.Skips x.id (heldAtRoot u at_) := by
  refine .gather hx hpass (fun a => ?_) fun a ha => by simp [ha]
  exact .bind (.isValid a) fun valid => .ite (.pure _) (.pure _)

theorem skips_carriedAtRoot (u : User) (p : String) (at_ : Option Time) :
    w.Skips x.id (carriedAtRoot u p at_) := by
  refine .anyM hx hpass (fun a => ?_) fun a ha => by simp [ha]
  exact .bind (.isValid a) fun valid => .ite (.pure _) (.pure _)

theorem skips_canGrantPermission (u : User) (role : Role) (p : String) (at_ : Option Time) :
    w.Skips x.id (canGrantPermission u role p at_) := by
  unfold canGrantPermission
  refine .ite (.pure _) (.bind (.liftPy _) fun owner => .ite (.pure _) (.ite (.pure _) (.ask rfl ?_)))
  cases w.site.grantablePermissions with
  | any | explicit labels | callable policy => exact .pure _
  | self =>
    refine .ite ?_ ?_
    · exact .bind (skips_heldAtRoot hx hpass u at_) fun P => .pure _
    · exact .bind (skips_userPermissions hx hpass u owner at_) fun P => .pure _

theorem skips_canManageRole (u : Option User) (role : Role) (at_ : Option Time) :
    w.Skips x.id (canManageRole u role at_) := by
  cases u with
  | none => exact .pure _
  | some u =>
    unfold canManageRole
    refine .ite (.pure _) (.bind (.liftPy _) fun owner => .ite (.pure _) (.ite (.pure _) (.ask rfl ?_)))
    exact .ite (skips_hasPerm hx hpass u _ owner at_) (skips_carriedAtRoot hx hpass u _ at_)

theorem skips_canManageAssignment (u : Option User) (n : Option Obj) (at_ : Option Time) :
    w.Skips x.id (canManageAssignment u n at_) := by
  cases u with
  | none => exact .pure _
  | some u =>
    unfold canManageAssignment
    refine .ite (.pure _) (.ite (.pure _) (.ask rfl ?_))
    exact .ite (skips_hasPerm hx hpass u _ n at_) (skips_carriedAtRoot hx hpass u _ at_)

theorem skips_canAssignRole (u : Option User) (role : Role) (level : Option String)
    (n : Option Obj) (at_ : Option Time) : w.Skips x.id (canAssignRole u role level n at_) := by
  cases u with
  | none => exact .pure _
  | some u =>
    unfold canAssignRole
    refine .ite (.pure _) ?_
    cases role.pk with
    | none => exact .pure _
    | some pk =>
      refine .ask rfl ?_
      cases w.tables.role pk with
      | none => exact .pure _
      | some row =>
        refine .bind (.liftPy _) fun fits => .ite (.pure _) (.ite (.pure _) ?_)
        refine .bind (skips_roleVisible hx hpass u _ at_) fun visible => .ite (.pure _) ?_
        cases w.site.grantablePermissions with
        | any | explicit labels | callable policy => exact .pure _
        | self =>
          refine .ite ?_ ?_
          · exact .bind (skips_heldAtRoot hx hpass u at_) fun held => .pure _
          · exact .bind (skips_userPermissions hx hpass u n at_) fun held => .pure _

end Passed

/-- Every decision answers, or fails to, as if the row were not stored. -/
structure Inert (w : World) (id : Nat) : Prop where
  userPermissions : ∀ u o at_, w.Skips id (userPermissions u o at_)
  hasPerm : ∀ u p o at_, w.Skips id (hasPerm u p o at_)
  userCovers : ∀ u o at_, w.Skips id (userCovers u o at_)
  accessSummary : ∀ u at_, w.Skips id (accessSummary u at_)
  accessibleNodes : ∀ u name at_ permission, w.Skips id (accessibleNodes u name at_ permission)
  scopeFilterQ : ∀ u m at_ permission, w.Skips id (scopeFilterQ u m at_ permission)
  roleVisible : ∀ u role at_, w.Skips id (roleVisible u role at_)
  canGrantPermission : ∀ u role p at_, w.Skips id (canGrantPermission u role p at_)
  canManageRole : ∀ u role at_, w.Skips id (canManageRole u role at_)
  canManageAssignment : ∀ u n at_, w.Skips id (canManageAssignment u n at_)
  canAssignRole : ∀ u role level n at_, w.Skips id (canAssignRole u role level n at_)

theorem Malformed.inert {x : AssignmentRow} (hx : x ∈ w.tables.assignments)
    (hbad : w.Malformed x) (hset : ∀ t, x.isEffective t → w.Settles x) : w.Inert x.id := by
  have hpass (t : Time) (ht : x.isEffective t) := hbad.passed hx (hset t ht)
  exact {
    userPermissions := skips_userPermissions hx hpass
    hasPerm := skips_hasPerm hx hpass
    userCovers := skips_userCovers hx hpass
    accessSummary := skips_accessSummary hx hpass
    accessibleNodes := skips_accessibleNodes hx hpass
    scopeFilterQ := skips_scopeFilterQ hx hpass
    roleVisible := skips_roleVisible hx hpass
    canGrantPermission := skips_canGrantPermission hx hpass
    canManageRole := skips_canManageRole hx hpass
    canManageAssignment := skips_canManageAssignment hx hpass
    canAssignRole := skips_canAssignRole hx hpass }

variable {u : User}

theorem userPermissions_returns (hactive : u.isActive) {t : Time} :
    (∃ P, (userPermissions u none (some t)).run w = .ok P) ↔
      ∀ y ∈ w.tables.assignments, y.user = u.pk → y.isEffective t → w.Settles y := by
  have hnone : w.anchorOf none = .everywhere := rfl
  rw [userPermissions_ok hactive (by simp [hnone]), hnone]
  simp [mem_fetched, tells_everywhere]

/-- A malformed row is inert if what its validity is read from can be read.  Where the
principal's other rows settle only then; and its principal gets answers at all
just where every row fetched with it settles too. -/
theorem malformed_row_inert {x : AssignmentRow} (hx : x ∈ w.tables.assignments)
    (hbad : w.Malformed x) :
    ((∀ t, x.isEffective t → w.Settles x) → w.Inert x.id) ∧
    ((∀ y ∈ w.tables.assignments, y.user = x.user → y.id ≠ x.id → w.Settles y) →
      (w.Inert x.id ↔ ∀ t, x.isEffective t → w.Settles x)) ∧
    ((w.Inert x.id ∧ ∀ u : User, u.pk = x.user → u.isActive → ∀ t, x.isEffective t →
        ∃ P, (userPermissions u none (some t)).run w = .ok P) ↔
      ∀ t, x.isEffective t → ∀ y ∈ w.tables.assignments, y.user = x.user → y.isEffective t →
        w.Settles y) := by
  refine ⟨hbad.inert hx, fun hothers => ⟨fun hinert t ht => ?_, hbad.inert hx⟩, ?_, ?_⟩
  · obtain ⟨P, hP⟩ := (userPermissions_returns (w := w.without x.id) (u := { pk := x.user })
      (t := t) rfl).mpr fun y hy huser _ => by
        obtain ⟨hy, hid⟩ := List.mem_filter.mp hy
        exact hothers y hy huser (by simpa using hid)
    rw [hinert.userPermissions] at hP
    exact (userPermissions_returns rfl).mp ⟨P, hP⟩ x hx rfl ht
  · rintro ⟨-, hreturns⟩ t ht y hy huser heffective
    exact (userPermissions_returns rfl).mp (hreturns { pk := x.user } rfl rfl t ht) y hy huser
      heffective
  · intro hset
    refine ⟨hbad.inert hx fun t ht => hset t ht x hx rfl ht, fun u hu hactive t ht => ?_⟩
    exact (userPermissions_returns hactive).mpr fun y hy huser heffective =>
      hset t ht y hy (huser.trans hu) heffective

end World

namespace Helpdesk

def garbledRow : AssignmentRow :=
  { id := 5, user := 1, role := 1, level := some "TEAM", scopeCt := some team,
    scopeId := some "not-a-number" }

def orphanRow : AssignmentRow :=
  { id := 6, user := 2, role := 1, level := some "TEAM", scopeCt := some team,
    scopeId := some "9" }

def garbled : World := world db 10
  { toTableRows := { tables.toTableRows with
      assignments := tables.assignments ++ [garbledRow, orphanRow] }
    valid := by decide }

theorem garbled_malformed : garbled.Malformed garbledRow := by
  refine .inl ⟨fun h => absurd h.1 (by decide), fun s hs => ?_⟩
  have hraises : (garbled.db.generic (some team) (some "not-a-number")).isOk = false := by decide
  rw [garbledRow] at hs
  simp [hs, Except.isOk, Except.toBool] at hraises

theorem garbled_not_inert : garbledRow ∈ garbled.tables.assignments ∧
    garbled.Malformed garbledRow ∧
    ((userPermissions alice none (some 10)).run garbled).isOk = false ∧
    (userPermissions alice none (some 10)).run (garbled.without 5) =
      .ok {"helpdesk.view_ticket", "helpdesk.add_ticket"} :=
  ⟨by decide, garbled_malformed, by decide, by decide⟩

theorem orphan_inert : garbled.Inert 6 := by
  have hnone : garbled.db.generic (some team) (some "9") = .ok none := by decide
  have hbad : garbled.Malformed orphanRow := by
    refine .inl ⟨fun h => absurd h.1 (by decide), fun s hs => ?_⟩
    simp [orphanRow, hnone] at hs
  refine (World.malformed_row_inert (x := orphanRow) (by decide) hbad).1 fun t _ => ?_
  refine ⟨none, hnone, ?_⟩
  rintro (⟨hid, -⟩ | ⟨s, hs, -⟩)
  · exact absurd hid (by decide)
  · cases hs

end Helpdesk

end ScopedAccess
