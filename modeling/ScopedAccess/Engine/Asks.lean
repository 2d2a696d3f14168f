import ScopedAccess.Engine.Containment

namespace ScopedAccess

open Lib.Loop (gather)
open World (mem_fetchEffective)

def World.Loaded (w : World) (a : Assignment) : Prop :=
  ∃ row ∈ w.tables.assignments, w.prefetch row = .ok (some a)

theorem World.loaded_of_fetchEffective {w : World} {u : User} {at_ : Time}
    {as : List Assignment} (h : w.fetchEffective u at_ = .ok as) {a : Assignment}
    (ha : a ∈ as) : w.Loaded a := by
  obtain ⟨row, hrow, -, -, hfetch⟩ := (mem_fetchEffective h).mp ha
  exact ⟨row, hrow, hfetch⟩

/-- As the program runs it reads the assignments of the given principals only,
and asks for the validity of loaded ones only. -/
def Read.Asks (w : World) (principals : User → Prop) {α : Type} : Read α → Prop
  | .pure _ => True
  | .abort _ => True
  | .world k => (k w).Asks w principals
  | .effective u at_ k => principals u ∧
    ∀ as, w.fetchEffective u (at_.getD w.now) = .ok as → (k as).Asks w principals
  | .valid a k => w.Loaded a ∧
    ∀ b, w.assignmentIsValid a = .ok b → (k b).Asks w principals

namespace Read.Asks

variable {w : World} {principals : User → Prop} {α β : Type}

theorem pure (x : α) : (Pure.pure x : Read α).Asks w principals := trivial

theorem liftPy (x : Py α) : (liftM x : Read α).Asks w principals := by
  cases x <;> exact trivial

theorem bind {p : Read α} {f : α → Read β} (hp : p.Asks w principals)
    (hf : ∀ x, (f x).Asks w principals) : (p >>= f).Asks w principals := by
  change (p.bind f).Asks w principals
  induction p with
  | pure x => exact hf x
  | abort e => exact trivial
  | world k ih => exact ih w hp
  | effective u at_ k ih => exact ⟨hp.1, fun as has => ih as (hp.2 as has)⟩
  | valid a k ih => exact ⟨hp.1, fun b hb => ih b (hp.2 b hb)⟩

theorem ite {c : Prop} [Decidable c] {p q : Read α} (hp : p.Asks w principals)
    (hq : q.Asks w principals) : (if c then p else q).Asks w principals := by
  split
  · exact hp
  · exact hq

theorem ask {f : World → Read α} (h : (f w).Asks w principals) :
    (Read.ask >>= f).Asks w principals := h

theorem isValid {a : Assignment} (ha : w.Loaded a) {f : Bool → Read α}
    (hf : ∀ b, (f b).Asks w principals) : (Read.isValid a >>= f).Asks w principals :=
  ⟨ha, fun b _ => hf b⟩

theorem effective {u : User} (hu : principals u) {at_ : Option Time}
    {f : List Assignment → Read α}
    (hf : ∀ as, (∀ a ∈ as, w.Loaded a) → (f as).Asks w principals) :
    (Read.effectiveAssignments u at_ >>= f).Asks w principals :=
  ⟨hu, fun as has => hf as fun _ => World.loaded_of_fetchEffective has⟩

theorem gather [DecidableEq β] {f : α → Read (Finset β)} {as : List α}
    (h : ∀ a ∈ as, (f a).Asks w principals) (acc : Finset β) :
    (Lib.Loop.gather f as acc).Asks w principals := by
  induction as generalizing acc with
  | nil => exact .pure acc
  | cons a as ih =>
    have ih := ih fun a ha => h a (List.mem_cons_of_mem _ ha)
    exact .bind (h a List.mem_cons_self) fun found => ih _

theorem anyM {f : α → Read Bool} {as : List α} (h : ∀ a ∈ as, (f a).Asks w principals) :
    (as.anyM f).Asks w principals := by
  induction as with
  | nil => exact .pure false
  | cons a as ih =>
    have ih := ih fun a ha => h a (List.mem_cons_of_mem _ ha)
    rw [List.anyM_cons]
    refine .bind (h a List.mem_cons_self) fun found => ?_
    cases found with
    | true => exact .pure true
    | false => exact ih

theorem collect {f : Assignment → Read Term} {as : List Assignment}
    (h : ∀ a ∈ as, (f a).Asks w principals) (q : Q) :
    (ScopedAccess.collect f as q).Asks w principals := by
  induction as generalizing q with
  | nil => exact .pure q
  | cons a as ih =>
    have ih := ih fun a ha => h a (List.mem_cons_of_mem _ ha)
    refine .bind (h a List.mem_cons_self) fun found => ?_
    cases found with
    | nothing => exact ih q
    | everything => exact .pure _
    | below paths => exact ih _

end Read.Asks

section Engine

variable {w : World} {principals : User → Prop} {u : User} (hu : principals u)

theorem asks_term {a : Assignment} (ha : w.Loaded a) (h : Hierarchy) (permission : Option String)
    (paths : Nat → Py (List (List String))) :
    (term h permission paths a).Asks w principals := by
  unfold term
  refine .isValid ha fun valid => .ite (.pure _) (.ite (.pure _) (.ite (.pure _) ?_))
  cases rankOrNone h a with
  | none => exact .pure _
  | some rank => exact .bind (.liftPy _) fun found => .pure _

theorem asks_covers {a : Assignment} (ha : w.Loaded a) (o : Obj) :
    (covers a o).Asks w principals := by
  unfold covers
  refine .isValid ha fun valid => .ite (.pure _) (.ask (.ite (.pure _) (.ite (.pure _) ?_)))
  cases (w.resolveAnchor o).node? with
  | none => exact .pure _
  | some n => exact .liftPy _

include hu

theorem asks_userPermissions (o : Option Obj) (at_ : Option Time) :
    (userPermissions u o at_).Asks w principals := by
  unfold userPermissions
  refine .ite (.pure _) (.ask (.ite (.pure _) (.effective hu fun as has => ?_)))
  refine .gather (fun a ha => .isValid (has a ha) fun valid => .ite (.pure _) ?_) ∅
  cases w.anchorOf o with
  | everywhere | denied | unregistered => exact .pure _
  | node n => exact .ite (.pure _) (.bind (.liftPy _) fun covered => .pure _)

theorem asks_hasPerm (p : String) (o : Option Obj) (at_ : Option Time) :
    (hasPerm u p o at_).Asks w principals := by
  unfold hasPerm
  refine .ite (.pure _) (.ite (.pure _) ?_)
  exact .bind (asks_userPermissions hu o at_) fun P => .pure _

theorem asks_userCovers (o : Obj) (at_ : Option Time) :
    (userCovers u o at_).Asks w principals := by
  unfold userCovers
  refine .ite (.pure _) (.ite (.pure _) (.ask (.ite (.pure _) (.ite (.pure _) ?_))))
  refine .effective hu fun as has => .anyM fun a ha => .isValid (has a ha) fun valid => ?_
  refine .ite (.pure _) (.ite (.pure _) ?_)
  cases w.resolveAnchor o with
  | everywhere | denied | unregistered => exact .pure _
  | node n => exact .liftPy _

theorem asks_accessibleNodes (name : String) (at_ : Option Time) (permission : Option String) :
    (accessibleNodes u name at_ permission).Asks w principals := by
  unfold accessibleNodes
  refine .ask ?_
  dsimp only
  cases w.hierarchy.level name with
  | none => exact .liftPy _
  | some level =>
    cases w.hierarchy.rank name with
    | none => exact .liftPy _
    | some target =>
      dsimp only
      cases level.model with
      | none => exact .liftPy _
      | some m =>
        refine .ite (.pure _) (.ite (.pure _) (.effective hu fun as has => ?_))
        refine .bind (.collect (fun a ha => asks_term (has a ha) _ _ _) _) fun q => .ask ?_
        exact .bind (.liftPy _) fun _ => .pure _

theorem asks_nodeFilterLoop (at_ : Option Time) (permission : Option String)
    (levels : List Level) (q : Q) :
    (nodeFilterLoop u at_ permission levels q).Asks w principals := by
  induction levels generalizing q with
  | nil => exact .pure q
  | cons level levels ih =>
    exact .bind (asks_accessibleNodes hu level.name at_ permission) fun nodes => ih _

theorem asks_catalogueQ (at_ : Option Time) (permission : Option String) :
    (catalogueQ u at_ permission).Asks w principals := by
  cases permission with
  | none => exact .pure _
  | some p => exact .bind (asks_userPermissions hu none at_) fun P => .pure _

theorem asks_scopeFilterQ (m : Model) (at_ : Option Time) (permission : Option String) :
    (scopeFilterQ u m at_ permission).Asks w principals := by
  have hcatalogue := asks_catalogueQ (w := w) hu at_ permission
  unfold scopeFilterQ hierarchyNodeFilterQ
  refine .ite (.pure _) (.bind (.ask (.ite (.pure _) ?_)) fun q => ?_)
  · exact .bind (asks_nodeFilterLoop hu at_ permission _ _) fun q => .pure _
  · cases q with
    | some q => exact .pure q
    | none =>
      refine .ite (.pure _) (.ask (.ite hcatalogue ?_))
      cases w.site.resources.anchorFor m with
      | none => exact .ite (.pure _) hcatalogue
      | some anchor =>
        refine .bind (.liftPy _) fun targets => .effective hu fun as has => ?_
        exact .collect (fun a ha => asks_term (has a ha) _ _ _) _

theorem asks_roleVisible (role : Role) (at_ : Option Time) :
    (roleVisible u role at_).Asks w principals := by
  unfold roleVisible
  refine .ite (.pure _) (.ite (.pure _) (.bind (.liftPy _) fun owner => ?_))
  cases owner with
  | none => exact .pure _
  | some owner =>
    refine .ite (.pure _) (.effective hu fun as has => ?_)
    exact .anyM fun a ha => asks_covers (has a ha) owner

theorem asks_carriedAtRoot (p : String) (at_ : Option Time) :
    (carriedAtRoot u p at_).Asks w principals := by
  refine .effective hu fun as has => .anyM fun a ha => ?_
  exact .isValid (has a ha) fun valid => .ite (.pure _) (.pure _)

omit hu

variable {actor : Option User} (hactor : ∀ u ∈ actor, principals u)
include hactor

theorem asks_canManageRole (role : Role) (at_ : Option Time) :
    (canManageRole actor role at_).Asks w principals := by
  cases actor with
  | none => exact .pure _
  | some u =>
    have hu := hactor u rfl
    unfold canManageRole
    refine .ite (.pure _) (.bind (.liftPy _) fun owner => .ite (.pure _) (.ite (.pure _) (.ask ?_)))
    exact .ite (asks_hasPerm hu _ owner at_) (asks_carriedAtRoot hu _ at_)

theorem asks_canManageAssignment (n : Option Obj) (at_ : Option Time) :
    (canManageAssignment actor n at_).Asks w principals := by
  cases actor with
  | none => exact .pure _
  | some u =>
    have hu := hactor u rfl
    unfold canManageAssignment
    refine .ite (.pure _) (.ite (.pure _) (.ask ?_))
    exact .ite (asks_hasPerm hu _ n at_) (asks_carriedAtRoot hu _ at_)

end Engine

end ScopedAccess
