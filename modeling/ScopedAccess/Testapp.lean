import ScopedAccess.Engine.Climb

/-! The conformance project (`tests/testapp`): one self-referential model plays
every level, and a column tells the levels apart. -/

namespace ScopedAccess.Testapp

def node : Model := "testapp.Node"
def resource : Model := "testapp.Resource"

def schema : Schema where
  relatedModel m f :=
    if m = node ∧ f = "parent" then some node
    else if m = resource ∧ f = "anchor" then some node
    else none
  column m f :=
    if m = node ∧ f = "parent_id" then some "parent"
    else if m = resource ∧ f = "anchor_id" then some "anchor"
    else none
  contentType m := m
  modelClass ct := some ct
  -- a key field of strings
  toPk _ s := .ok s
  modelClass_eq_some := @Schema.modelClass_self

def level (name : String) (parent : Option Accessor) : Level where
  name := name
  model := some node
  parent := parent
  discriminator := [("level", name)]

def hierarchy : Hierarchy where
  levels := [
    { name := "NATIONAL" },
    level "REGIONAL" none,
    level "DISTRICT" (some { first := "parent" }),
    level "FACILITY" (some { first := "parent" })]

def site : Site where
  schema := schema
  hierarchy := hierarchy
  resources := ResourceRegistry.register {} resource { first := "anchor" }

def world (db : Database schema) (tables : Tables) : World where
  site := site
  db := db
  now := 10
  tables := tables

theorem accessorsRelate : World.AccessorsRelate site := by
  intro m accessor h
  by_cases hm : m = node
  · subst hm
    obtain rfl : { first := "parent" } = accessor :=
      Option.some.inj ((by decide : hierarchy.parentAccessorForModel node = _).symm.trans h)
    exact (by decide : (schema.relatedPath node ["parent"]).isSome)
  · have hlevels : hierarchy.levelsForModel m = [] := by
      simp [Hierarchy.levelsForModel, hierarchy, level, Ne.symm hm]
    have hnone : hierarchy.parentAccessorForModel m = none := by
      simp [Hierarchy.parentAccessorForModel, hlevels]
    exact absurd (hnone.symm.trans h) (by simp)

theorem anchorsRelate : World.AnchorsRelate site := by
  intro m path h
  by_cases hm : m = resource
  · subst hm
    obtain rfl : { first := "anchor" } = path :=
      Option.some.inj ((by decide : site.resources.anchorFor resource = _).symm.trans h)
    exact (by decide : (schema.relatedPath resource ["anchor"]).isSome)
  · have hnone : site.resources.anchorFor m = none := by
      simp [site, ResourceRegistry.anchorFor_register, hm]
      rfl
    exact absurd (hnone.symm.trans h) (by simp)

theorem regular : hierarchy.Regular schema where
  names := by decide
  root_first {k l} hl hroot := by
    match k with
    | 0 => rfl
    | 1 | 2 | 3 => cases hl; cases hroot
    | _ + 4 => cases hl
  parents {k l l' m m'} hl hl' hm hm' := by
    match k with
    | 0 => cases hl; cases hm
    | 1 | 2 =>
      cases hl
      cases hl'
      cases hm
      cases hm'
      exact ⟨{ first := "parent" }, rfl, by decide, by decide⟩
    | _ + 3 => cases hl'

def north : Row := ⟨node, "1"⟩
def clinic : Row := ⟨node, "2"⟩

def db : Database schema := Database.ofLinks schema [north, clinic]
  [((clinic, "parent"), north)]
  [((north, "level"), "REGIONAL"), ((clinic, "level"), "FACILITY")]
  (by decide) (by decide) (by decide)

def viewPatient : Permission := ⟨1, "patients", "view_patient"⟩

def nadia : User := { pk := 1 }

def tables : Tables where
  users := [1]
  contentTypes := [node]
  roles := [{ id := 1, name := "viewer" }]
  rolePermissions := [⟨1, viewPatient⟩]
  assignments := [
    { id := 1, user := 1, role := 1, level := some "REGIONAL", scopeCt := some node,
      scopeId := some "1" }]
  valid := by decide

def sparse : World := world db tables

theorem stored : sparse.StoredAsPk := fun _ _ _ _ _ _ => rfl

theorem readable : sparse.Readable where
  scopes := by
    have h : ∀ a ∈ tables.assignments, (db.generic a.scopeCt a.scopeId).isOk := by decide
    exact fun a ha => Lib.Loop.isOk_iff.mp (h a ha)
  owners := by
    have h : ∀ r ∈ tables.roles, r.ownerId = none := by decide
    exact fun r hr hid => absurd (h r hr) hid

end ScopedAccess.Testapp
