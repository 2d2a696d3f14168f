import ScopedAccess.Engine.RolesLaws

namespace ScopedAccess

open Lib.Loop

def Read.Returns (w : World) {α : Type} (p : Read α) : Prop := ∃ x, p.run w = .ok x

namespace Read.Returns

variable {w : World} {α β : Type}

theorem pure (x : α) : (Pure.pure x : Read α).Returns w := ⟨x, rfl⟩

theorem liftPy {p : Py α} (h : ∃ x, p = .ok x) : (liftM p : Read α).Returns w := by
  obtain ⟨x, rfl⟩ := h
  exact ⟨x, run_liftPy w _⟩

theorem bind {p : Read α} {f : α → Read β} (hp : p.Returns w)
    (hf : ∀ x, p.run w = .ok x → (f x).Returns w) : (p >>= f).Returns w := by
  obtain ⟨x, hx⟩ := hp
  obtain ⟨y, hy⟩ := hf x hx
  exact ⟨y, by rw [run_bind, hx, ok_bind, hy]⟩

theorem ite {c : Prop} [Decidable c] {p q : Read α} (hp : p.Returns w) (hq : q.Returns w) :
    (if c then p else q).Returns w := by
  split
  · exact hp
  · exact hq

theorem ask {f : World → Read α} (h : (f w).Returns w) : (Read.ask >>= f).Returns w := h

theorem gather [DecidableEq β] {f : α → Read (Finset β)} {as : List α}
    (h : ∀ a ∈ as, (f a).Returns w) (acc : Finset β) : (Lib.Loop.gather f as acc).Returns w := by
  obtain ⟨s, hs⟩ : ∃ s, Lib.Loop.gather (fun a => (f a).run w) as acc = .ok s := gather_total h
  exact ⟨s, by rw [run_gather, hs]⟩

theorem anyM {f : α → Read Bool} {as : List α} (h : ∀ a ∈ as, (f a).Returns w) :
    (as.anyM f).Returns w := by
  obtain ⟨b, hb, -⟩ := anyM_total h
  exact ⟨b, by rw [run_anyM, hb]⟩

end Read.Returns

namespace World

variable {w : World} (hw : w.Readable) (hac : w.Grounded)
include hw hac

theorem returns_effective {α : Type} (u : User) (at_ : Option Time)
    {f : List Assignment → Read α}
    (hf : ∀ as, (∀ a ∈ as, w.Effective u.pk (at_.getD w.now) a ∧
      (Read.isValid a).Returns w) → (f as).Returns w) :
    (Read.effectiveAssignments u at_ >>= f).Returns w := by
  obtain ⟨as, has⟩ := hw.fetchEffective u (at_.getD w.now)
  refine .bind ⟨as, by rw [Read.run_effectiveAssignments, has]⟩ fun as' has' => ?_
  obtain rfl : as = as' := by simpa [has] using has'
  refine hf as fun a ha => ?_
  have heffective := (mem_fetchEffective has).mp ha
  obtain ⟨b, hb⟩ := heffective.valid_total hw.owners (nodesEnd_of_acyclic hac.toAcyclic)
  exact ⟨heffective, b, by rw [Read.run_isValid, hb]⟩

theorem returns_userPermissions (u : User) (o : Option Obj) (at_ : Option Time) :
    (userPermissions u o at_).Returns w :=
  userPermissions_total hw (nodesEnd_of_acyclic hac.toAcyclic) u at_ (hac.walks o)

theorem returns_hasPerm (u : User) (p : String) (o : Option Obj) (at_ : Option Time) :
    (hasPerm u p o at_).Returns w :=
  .ite (.pure _) (.ite (.pure _) (.bind (returns_userPermissions hw hac u o at_) fun _ _ => .pure _))

omit hw in
theorem returns_covers {a : Assignment} (ha : (Read.isValid a).Returns w) (o : Obj) :
    (covers a o).Returns w := by
  obtain ⟨valid, hvalid⟩ := ha
  rw [Read.run_isValid] at hvalid
  obtain ⟨b, hb⟩ : ∃ b, w.reach (w.resolveAnchor o) a = .ok b :=
    reach_total (hac.walks (some o)) a
  rw [Read.Returns, run_covers, validReach, hvalid, ok_bind]
  cases valid with
  | false => exact ⟨false, rfl⟩
  | true => exact ⟨b, hb⟩

theorem returns_userCovers (u : User) (o : Obj) (at_ : Option Time) :
    (userCovers u o at_).Returns w := by
  refine .ite (.pure _) (.ite (.pure _) (.ask (.ite (.pure _) (.ite (.pure _) ?_))))
  refine returns_effective hw hac u at_ fun as has => .anyM fun a ha => ?_
  refine .bind (has a ha).2 fun _ _ => .ite (.pure _) (.ite (.pure _) ?_)
  cases hanchor : w.resolveAnchor o with
  | node n =>
    obtain ⟨b, hb, -⟩ := anyAncestor_total (p := w.sameNode a) (hac.walks (some o) n hanchor)
    exact .liftPy ⟨b, hb⟩
  | everywhere | denied | unregistered => exact .pure _

theorem returns_accessSummary (u : User) (at_ : Option Time) :
    (accessSummary u at_).Returns w := by
  refine .ite (.pure _) (returns_effective hw hac u at_ fun as has => ?_)
  generalize (∅ : Finset String) = perms
  generalize ([] : List SummaryEntry) = entries
  induction as generalizing perms entries with
  | nil => exact .pure _
  | cons a as ih =>
    obtain ⟨heffective, hvalid⟩ := has a List.mem_cons_self
    have ih := ih fun a ha => has a (List.mem_cons_of_mem _ ha)
    refine .bind hvalid fun _ _ => .ite (ih _ _) (.bind (.liftPy ?_) fun _ _ => ih _ _)
    obtain ⟨row, -, -, -, hfetch⟩ := heffective
    obtain ⟨scope, r, -, -, rfl⟩ := prefetch_some.mp hfetch
    simp only [summaryEntry]
    split <;> exact ⟨_, rfl⟩

theorem returns_heldAtRoot (u : User) (at_ : Option Time) : (heldAtRoot u at_).Returns w :=
  returns_effective hw hac u at_ fun _ has => .gather (fun a ha =>
    .bind (has a ha).2 fun _ _ => .ite (.pure _) (.pure _)) _

theorem returns_carriedAtRoot (u : User) (p : String) (at_ : Option Time) :
    (carriedAtRoot u p at_).Returns w :=
  returns_effective hw hac u at_ fun _ has => .anyM fun a ha =>
    .bind (has a ha).2 fun _ _ => .ite (.pure _) (.pure _)

theorem returns_canManageAssignment (actor : Option User) (n : Option Obj) (at_ : Option Time) :
    (canManageAssignment actor n at_).Returns w := by
  cases actor with
  | none => exact .pure _
  | some u =>
    exact .ite (.pure _) (.ite (.pure _) (.ask (.ite (returns_hasPerm hw hac ..)
      (returns_carriedAtRoot hw hac ..))))

section Stored

variable {r : RoleRow} (hr : r ∈ w.tables.roles)
include hr

omit hac in
theorem returns_owner : (liftM (ownerUnlessSystem (w.loadRole r)) : Read (Option Obj)).Returns w := by
  refine .liftPy ?_
  unfold ownerUnlessSystem
  by_cases hid : (w.loadRole r).ownerId.isNone
  · exact ⟨none, if_pos hid⟩
  · rw [if_neg hid]
    exact hw.owners r hr fun hnone => hid (Option.isNone_iff_eq_none.mpr hnone)

theorem returns_roleVisible (u : User) (at_ : Option Time) :
    (roleVisible u (w.loadRole r) at_).Returns w := by
  refine .ite (.pure _) ?_
  by_cases hid : (w.loadRole r).ownerId.isNone
  · rw [if_pos hid]
    exact .pure _
  · rw [if_neg hid]
    have howner := hw.owners r hr fun hnone => hid (Option.isNone_iff_eq_none.mpr hnone)
    refine .bind (.liftPy howner) fun owner _ => ?_
    cases owner with
    | none => exact .pure _
    | some owner =>
      exact .ite (.pure _) (returns_effective hw hac u at_ fun _ has => .anyM fun a ha =>
        returns_covers hac (has a ha).2 owner)

theorem returns_canGrantPermission (u : User) (p : String) (at_ : Option Time) :
    (canGrantPermission u (w.loadRole r) p at_).Returns w := by
  refine .ite (.pure _) (.bind (returns_owner hw hr) fun owner _ => ?_)
  refine .ite (.pure _) (.ite (.pure _) (.ask ?_))
  cases w.site.grantablePermissions with
  | any | explicit | callable => exact .pure _
  | self =>
    exact .ite (.bind (returns_heldAtRoot hw hac u at_) fun _ _ => .pure _)
      (.bind (returns_userPermissions hw hac u owner at_) fun _ _ => .pure _)

theorem returns_canManageRole (actor : Option User) (at_ : Option Time) :
    (canManageRole actor (w.loadRole r) at_).Returns w := by
  cases actor with
  | none => exact .pure _
  | some u =>
    refine .ite (.pure _) (.bind (returns_owner hw hr) fun owner _ => ?_)
    exact .ite (.pure _) (.ite (.pure _) (.ask (.ite (returns_hasPerm hw hac ..)
      (returns_carriedAtRoot hw hac ..))))

end Stored

theorem returns_canAssignRole (actor : Option User) (role : Role) (level : Option String)
    (n : Option Obj) (at_ : Option Time) : (canAssignRole actor role level n at_).Returns w := by
  cases actor with
  | none => exact .pure _
  | some u =>
    refine .ite (.pure _) ?_
    cases role.pk with
    | none => exact .pure _
    | some pk =>
      refine .ask ?_
      cases hrow : w.tables.role pk with
      | none => exact .pure _
      | some r =>
        have hr := (w.tables.role_eq_some.mp hrow).1
        have hfits : ∃ b, w.roleAssignable (w.loadRole r) level n = .ok b :=
          roleAssignable_total (hw.owners r hr) fun n _ _ _ _ _ _ =>
            walks_of_acyclic hac.toAcyclic n
        refine .bind (.liftPy hfits) fun _ _ => .ite (.pure _) (.ite (.pure _) ?_)
        refine .bind (returns_roleVisible hw hac hr u at_) fun _ _ => .ite (.pure _) ?_
        cases w.site.grantablePermissions with
        | any | explicit | callable => exact .pure _
        | self =>
          exact .ite (.bind (returns_heldAtRoot hw hac u at_) fun _ _ => .pure _)
            (.bind (returns_userPermissions hw hac u n at_) fun _ _ => .pure _)

end World

end ScopedAccess
