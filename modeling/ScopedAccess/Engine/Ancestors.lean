import ScopedAccess.Startup
import ScopedAccess.Engine.DecisionLaws

namespace ScopedAccess

open Lib.Walk (Ends Reaches nth nth_add nth_succ' trace enough)
open Lib.Loop

abbrev Stops {α : Type} : Py α → Prop := Fails (· ≠ .diverges)

namespace World

variable (w : World)

/-- `list(iter_ancestors(node))` -/
def iterAncestors (x : Attr) : Py (List Attr) :=
  match trace w.parentAttr (w.walkFuel x) x with
  | some xs => .ok xs
  | none => .error .diverges

variable {w} {x : Attr} {xs : List Attr} {p : Row → Bool}

theorem iterAncestors_eq_ok :
    w.iterAncestors x = .ok xs ↔ trace w.parentAttr (w.walkFuel x) x = some xs := by
  unfold iterAncestors
  cases trace w.parentAttr (w.walkFuel x) x <;> simp

theorem ends_fuel (h : Ends w.parentAttr x) : nth w.parentAttr (w.walkFuel x) x = none := by
  cases x with
  | plain => rfl
  | object o =>
    change nth w.parentAttr (o.depth + 1 + enough w.db.rows) (.object o) = none
    rw [nth_add]
    cases hx : nth w.parentAttr (o.depth + 1) (.object o) with
    | none => rfl
    | some x =>
      have hends : Ends w.parentAttr x := (Reaches.ends_iff ⟨_, hx⟩).mp h
      rw [Option.bind_some, enough, nth_succ']
      cases hy : nth w.parentAttr (w.db.rows.length + 1) x with
      | none => rfl
      | some y =>
        rcases nth_depth hx with ⟨r, rfl⟩ | rfl
        · rcases nth_stored hy with ⟨s, -, hs⟩ | rfl
          · simp [(ends_stored.mp hends).bound w.parent_within] at hs
          · rfl
        · cases hy

theorem iterAncestors_returns : (∃ xs, w.iterAncestors x = .ok xs) ↔ Ends w.parentAttr x := by
  simp only [iterAncestors_eq_ok, Lib.Walk.trace_isSome_iff]
  exact ⟨fun h => ⟨_, h⟩, ends_fuel⟩

theorem iterAncestors_nodup (h : w.iterAncestors x = .ok xs) : xs.Nodup :=
  Lib.Walk.trace_nodup (iterAncestors_eq_ok.mp h)

theorem generic_stops {ct : Option Ct} {id : Option String} : Stops (w.db.generic ct id) := by
  unfold Database.generic
  split
  · exact .ok none
  · split
    · exact .error (fun h => nomatch h)
    · split
      · exact .ok none
      · split
        · exact .error (fun h => nomatch h)
        · exact .ok _

theorem genericObj_stops {ct : Option Ct} {id : Option String} :
    Stops (w.genericObj ct id) := by
  unfold genericObj
  cases hg : w.db.generic ct id with
  | ok found => exact .ok _
  | error e => exact .error (generic_stops e hg)

theorem orNone_stops {α : Type} {x : Py (Option α)} (h : Stops x) : Stops (orNone x) := by
  cases x with
  | ok found => exact .ok found
  | error e =>
    cases e with
    | diverges => exact absurd rfl (h _ rfl)
    | raised e => exact .ite (.ok none) (.error fun h => nomatch h)

/-- The references of the instance are read or raise. -/
structure RefsStop (a : Assignment) : Prop where
  scope : Stops a.scope
  owner : Stops a.role.owner

section Walking

variable (hends : ∀ x, Ends w.parentAttr x) {a : Assignment}
include hends

theorem anyAncestor_stops : Stops (w.anyAncestor x p) := by
  rintro e he rfl
  exact (anyAncestor_diverges he).1 (hends x)

theorem roleAssignable_stops {role : Role} (howner : Stops role.owner) (level : Option String)
    (node : Option Obj) : Stops (w.roleAssignable role level node) := by
  unfold roleAssignable
  split
  · exact .ok true
  · refine (orNone_stops howner).bind fun owner _ => ?_
    split
    · exact .ok false
    · split
      · split
        · exact .ok false
        · split
          · exact .ok false
          · exact anyAncestor_stops hends
      · exact .ok false

omit hends in
theorem assignmentScopeIsValid_stops (hscope : Stops a.scope) :
    Stops (w.assignmentScopeIsValid a) := by
  unfold assignmentScopeIsValid
  split
  · split <;> exact .ok _
  · refine .ite ((orNone_stops hscope).bind fun scope _ => ?_) ?_
    · dsimp only
      split <;> exact .ok _
    · exact .ok _

theorem assignmentIsValid_stops (ha : RefsStop a) : Stops (w.assignmentIsValid a) := by
  refine (assignmentScopeIsValid_stops ha.scope).bind fun shape _ => ?_
  split
  · exact .ok false
  · split
    · exact .ok true
    · refine (orNone_stops ha.owner).bind fun owner _ => ?_
      split
      · exact .ok false
      · refine (orNone_stops ha.scope).bind fun scope _ => ?_
        exact roleAssignable_stops hends ha.owner _ _

theorem reach_stops (anchor : Anchor) : Stops (w.reach anchor a) := by
  cases anchor with
  | everywhere => exact .ok true
  | denied => exact .ok _
  | unregistered => exact .ok false
  | node x => exact .ite (.ok true) (anyAncestor_stops hends)

theorem validReach_stops (ha : RefsStop a) (anchor : Anchor) : Stops (w.validReach anchor a) := by
  refine (assignmentIsValid_stops hends ha).bind fun valid _ => ?_
  split
  · exact .ok false
  · exact reach_stops hends anchor

theorem contribution_stops (ha : RefsStop a) (anchor : Anchor) :
    Stops (w.contribution anchor a) := by
  refine (assignmentIsValid_stops hends ha).bind fun valid _ => ?_
  split
  · exact .ok ∅
  · exact (reach_stops hends anchor).bind fun covered _ => .ok _

omit hends

theorem fetchEffective_stops {u : User} {t : Time} : Stops (w.fetchEffective u t) := by
  refine Fails.bind (Fails.mapM fun row _ => ?_) fun found _ => .ok _
  exact generic_stops.bind fun scope _ => .ok _

theorem Effective.refsStop {u : Nat} {t : Time} (ha : w.Effective u t a) : RefsStop a := by
  obtain ⟨row, -, -, -, hfetch⟩ := ha
  obtain ⟨scope, r, -, -, rfl⟩ := prefetch_some.mp hfetch
  exact ⟨.ok scope, genericObj_stops⟩

end Walking

/-- The walk yields finitely many nodes, none twice from a stored one, and what walks stops. -/
structure Terminating (w : World) : Prop where
  ancestors : ∀ r, ∃ rows, w.iterAncestors (.stored r) = .ok rows ∧ rows.Nodup
  finite : ∀ x, ∃ xs, w.iterAncestors x = .ok xs
  covers : ∀ a o, RefsStop a → Stops ((ScopedAccess.covers a o).run w)
  userPermissions : ∀ u o at_, Stops ((ScopedAccess.userPermissions u o at_).run w)
  userCovers : ∀ u o at_, Stops ((ScopedAccess.userCovers u o at_).run w)
  roleAssignable : ∀ role level node, Stops role.owner →
    Stops (w.roleAssignable role level node)

theorem terminating_of_acyclic (hac : Lib.Walk.Acyclic w.parent) : w.Terminating := by
  have hends := ends_attr hac
  refine ⟨fun r => ?_, fun o => iterAncestors_returns.mpr (hends o), fun a o ha => ?_,
    fun u o at_ => ?_, fun u o at_ => ?_, fun role level node howner =>
      roleAssignable_stops hends howner level node⟩
  · obtain ⟨rows, hrows⟩ := iterAncestors_returns.mpr (hends (.stored r))
    exact ⟨rows, hrows, iterAncestors_nodup hrows⟩
  · rw [run_covers]
    exact validReach_stops hends ha _
  · rw [run_userPermissions]
    refine .ite (.ok ∅) (fetchEffective_stops.bind fun as has => .gather (fun a ha => ?_) ∅)
    exact contribution_stops hends ((mem_fetchEffective has).mp ha).refsStop _
  · rw [run_userCovers]
    refine .ite (.ok false) (.ite (.ok true) (.ite (.ok false) ?_))
    refine fetchEffective_stops.bind fun as has => .anyM fun a ha => ?_
    exact validReach_stops hends ((mem_fetchEffective has).mp ha).refsStop _

theorem Terminating.acyclic (h : w.Terminating) : Lib.Walk.Acyclic w.parent := by
  rw [Lib.Walk.acyclic_iff_ends w.parent_within]
  intro r
  obtain ⟨rows, hrows, -⟩ := h.ancestors r
  exact ends_stored.mp (iterAncestors_returns.mp ⟨rows, hrows⟩)

/-- The walk ends exactly where no stored parent reference leads back. -/
theorem terminating_iff_acyclic : w.Terminating ↔ Lib.Walk.Acyclic w.parent :=
  ⟨Terminating.acyclic, terminating_of_acyclic⟩

end World

namespace Testapp

def east : Row := ⟨node, "3"⟩
def west : Row := ⟨node, "4"⟩

def ring : Database schema := Database.ofLinks schema [north, east, west]
  [((east, "parent"), west), ((west, "parent"), east)]
  [((north, "level"), "REGIONAL"), ((east, "level"), "DISTRICT"), ((west, "level"), "DISTRICT")]
  (by decide) (by decide) (by decide)

def ringed : World := world ring tables

theorem ringed_diverges : Accepted apps settings ringed.site ∧
    (userPermissions nadia (some (.stored east)) none).run ringed = .error .diverges ∧
    ¬ ringed.Terminating := by
  have hdiverges : (userPermissions nadia (some (.stored east)) none).run ringed =
    .error .diverges := by decide +kernel
  exact ⟨accepted, hdiverges, fun h => h.userPermissions _ _ _ _ hdiverges rfl⟩

end Testapp

def Site.parentModel (site : Site) (m : Model) : Option Model :=
  (site.hierarchy.parentAccessorForModel m).bind fun accessor =>
    site.schema.relatedPath m accessor.parts

theorem World.parentModel_parent {w : World} (r s : Row) (h : w.parent r = some s) :
    w.site.parentModel r.model = some s.model := by
  obtain ⟨accessor, haccessor, hs⟩ := Option.bind_eq_some_iff.mp h
  exact Option.bind_eq_some_iff.mpr ⟨accessor, haccessor, w.db.follow_model hs⟩

def Schema.trail (sc : Schema) (m : Model) : List String → List Model
  | [] => []
  | f :: rest =>
    match sc.relatedModel m f with
    | none => []
    | some m' => m' :: sc.trail m' rest

section OneRow

variable {sc : Schema} (key : Model → Pk) (hkey : ∀ m, sc.toPk m (key m) = .ok (key m))
  (models : List Model)

def Database.oneRow : Database sc where
  rows := models.map fun m => ⟨m, key m⟩
  related r f :=
    if r.pk = key r.model then
      (sc.relatedModel r.model f).bind fun m => if m ∈ models then some ⟨m, key m⟩ else none
    else none
  shown _ := true
  satisfies _ _ := true
  related_model {r f s} h := by
    split at h
    · obtain ⟨m, hm, h⟩ := Option.bind_eq_some_iff.mp h
      split at h
      · obtain rfl := Option.some.inj h
        exact hm
      · cases h
    · cases h
  related_mem {r f s} h := by
    split at h
    · obtain ⟨m, -, h⟩ := Option.bind_eq_some_iff.mp h
      split at h
      · obtain rfl := Option.some.inj h
        exact List.mem_map_of_mem ‹_›
      · cases h
    · cases h
  toPk_pk {r} h := by
    obtain ⟨m, -, rfl⟩ := List.mem_map.mp h
    exact hkey m

theorem Database.oneRow_follow {m m' : Model} {path : List String}
    (h : sc.relatedPath m path = some m') (hall : ∀ x ∈ sc.trail m path, x ∈ models) :
    (Database.oneRow key hkey models).follow ⟨m, key m⟩ path = some ⟨m', key m'⟩ := by
  induction path generalizing m with
  | nil =>
    obtain rfl := Option.some.inj h
    rfl
  | cons f path ih =>
    obtain ⟨x, hx, h⟩ := Option.bind_eq_some_iff.mp h
    rw [Schema.trail, hx] at hall
    obtain ⟨hmem, hrest⟩ := List.forall_mem_cons.mp hall
    have hstep : (Database.oneRow key hkey models).related ⟨m, key m⟩ f = some ⟨x, key x⟩ := by
      simp [oneRow, hx, hmem]
    rw [Database.follow, hstep]
    exact ih h hrest

end OneRow

def Site.parentTrail (site : Site) : List Model :=
  site.hierarchy.levels.flatMap fun l =>
    l.model.toList.flatMap fun m =>
      (site.hierarchy.parentAccessorForModel m).toList.flatMap fun accessor =>
        site.schema.trail m accessor.parts

theorem Hierarchy.isNodeModel_of_accessor {h : Hierarchy} {m : Model} {accessor : Accessor}
    (ha : h.parentAccessorForModel m = some accessor) : h.isNodeModel m := by
  obtain ⟨l, hl, -⟩ := List.exists_of_findSome?_eq_some ha
  exact h.isNodeModel_iff.mpr ⟨l, (h.mem_levelsForModel.mp hl).1, (h.mem_levelsForModel.mp hl).2⟩

theorem site_terminating_iff {site : Site} {key : Model → Pk}
    (hkey : ∀ m, site.schema.toPk m (key m) = .ok (key m)) :
    (∀ w : World, w.site = site → w.Terminating) ↔ Lib.Walk.Acyclic site.parentModel := by
  constructor
  · intro h
    have hends := h ⟨site, .oneRow key hkey site.parentTrail, 0, Testapp.tables⟩ rfl
    refine hends.acyclic.comap (f := fun m => ⟨m, key m⟩) fun m m' hm => ?_
    obtain ⟨accessor, haccessor, hpath⟩ := Option.bind_eq_some_iff.mp hm
    refine Option.bind_eq_some_iff.mpr ⟨accessor, haccessor, ?_⟩
    refine Database.oneRow_follow key hkey _ hpath fun x hx => ?_
    obtain ⟨l, hl, hlm⟩ := site.hierarchy.isNodeModel_iff.mp
      (Hierarchy.isNodeModel_of_accessor haccessor)
    simp only [Site.parentTrail, List.mem_flatMap, Option.mem_toList]
    exact ⟨l, hl, m, hlm, accessor, haccessor, hx⟩
  · rintro h w rfl
    exact World.terminating_of_acyclic (h.comap (f := Row.model) w.parentModel_parent)

end ScopedAccess
