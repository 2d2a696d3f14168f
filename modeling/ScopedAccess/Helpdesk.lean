import ScopedAccess.Engine.Climb

/-! The example project (`example/`): organizations own teams, tickets belong to
a team, and only organizations may own roles. -/

namespace ScopedAccess.Helpdesk

open Lib.Loop (isOk_iff)

def organization : Model := "helpdesk.Organization"
def team : Model := "helpdesk.Team"
def ticket : Model := "helpdesk.Ticket"

def isSpace (c : Char) : Bool := c ∈ [' ', '\t', '\n', '\x0b', '\x0c', '\r']

def strip (cs : List Char) : List Char :=
  ((cs.dropWhile isSpace).reverse.dropWhile isSpace).reverse

def digits : List Char → Option (List Char)
  | [] => none
  | [c] => if c.isDigit then some [c] else none
  | c :: '_' :: cs => if c.isDigit then (digits cs).map (c :: ·) else none
  | c :: cs => if c.isDigit then (digits cs).map (c :: ·) else none

/-- `str(int(s))`, for digits of ASCII. -/
def toPk (_ : Model) (s : String) : Except Exn Pk :=
  let (sign, body) := match strip s.toList with
    | '-' :: cs => (['-'], cs)
    | '+' :: cs => ([], cs)
    | cs => ([], cs)
  match digits body with
  | none => .error ⟨.valueError, "Field 'id' expected a number but got '" ++ s ++ "'."⟩
  | some ds => .ok (match ds.dropWhile (· = '0') with
    | [] => "0"
    | ds => String.ofList (sign ++ ds))

def schema : Schema where
  relatedModel m f :=
    if m = team ∧ f = "organization" then some organization
    else if m = ticket ∧ f = "team" then some team
    else none
  column m f :=
    if m = team ∧ f = "organization_id" then some "organization"
    else if m = ticket ∧ f = "team_id" then some "team"
    else none
  contentType m := m
  modelClass ct := some ct
  toPk := toPk
  modelClass_eq_some := @Schema.modelClass_self

def hierarchy : Hierarchy where
  levels := [
    { name := "ORGANIZATION", model := some organization },
    { name := "TEAM", model := some team, parent := some { first := "organization" } }]

def site : Site where
  schema := schema
  hierarchy := hierarchy
  resources := ResourceRegistry.register {} ticket { first := "team" }
  roleOwnerLevels := ["ORGANIZATION"]

def world (db : Database schema) (now : Time) (tables : Tables) : World where
  site := site
  db := db
  now := now
  tables := tables

theorem parentAccessorForModel_some {m : Model} {accessor : Accessor}
    (h : hierarchy.parentAccessorForModel m = some accessor) :
    m = team ∧ accessor = { first := "organization" } := by
  by_cases hteam : m = team
  · subst hteam
    exact ⟨rfl, Option.some.inj (h.symm.trans (by decide))⟩
  · by_cases horg : m = organization
    · subst horg
      have hnone : hierarchy.parentAccessorForModel organization = none := by decide
      simp [hnone] at h
    · have hnone : hierarchy.levelsForModel m = [] := by
        simp [Hierarchy.levelsForModel, hierarchy, Ne.symm hteam, Ne.symm horg]
      simp [Hierarchy.parentAccessorForModel, hnone] at h

theorem anchorFor_some {m : Model} {path : Accessor} (h : site.resources.anchorFor m = some path) :
    m = ticket ∧ path = { first := "team" } := by
  have hsome : (if m = ticket then some ({ first := "team" } : Accessor) else none) = some path :=
    (ResourceRegistry.anchorFor_register {} ticket m _).symm.trans h
  by_cases hm : m = ticket
  · exact ⟨hm, (Option.some.inj (by simpa [hm] using hsome)).symm⟩
  · simp [hm] at hsome

theorem parent_models {db : Database schema} {now : Time} {tables : Tables} {r s : Row}
    (h : (world db now tables).parent r = some s) : r.model = team ∧ s.model = organization := by
  obtain ⟨accessor, haccessor, hs⟩ := Option.bind_eq_some_iff.mp h
  obtain ⟨hr, rfl⟩ := parentAccessorForModel_some haccessor
  have hmodel := db.follow_model hs
  rw [hr] at hmodel
  exact ⟨hr, (Option.some.inj (hmodel.symm.trans rfl))⟩

theorem acyclic_parents (db : Database schema) (now : Time) (tables : Tables) :
    Lib.Walk.Acyclic (world db now tables).parent := by
  intro r s hrs hsr
  obtain ⟨hr, hs⟩ := parent_models hrs
  obtain rfl | ⟨q, hsq, -⟩ := Lib.Walk.reaches_iff.mp hsr
  · exact absurd (hr.symm.trans hs) (by decide)
  · exact absurd ((parent_models hsq).1.symm.trans hs) (by decide)

theorem grounded (db : Database schema) (now : Time) (tables : Tables) :
    (world db now tables).Grounded where
  relations m accessor h := by
    obtain ⟨rfl, rfl⟩ := parentAccessorForModel_some h
    exact (by decide : (schema.relatedPath team ["organization"]).isSome)
  parents := acyclic_parents db now tables
  anchors m path h := by
    obtain ⟨rfl, rfl⟩ := anchorFor_some h
    exact (by decide : (schema.relatedPath ticket ["team"]).isSome)

theorem regular : hierarchy.Regular schema where
  names := by decide
  root_first {k l} hl hroot := by
    have hmodeled : ∀ l ∈ hierarchy.levels, l.model ≠ none := by decide
    exact absurd hroot (hmodeled l (List.mem_of_getElem? hl))
  parents {k l l' m m'} hl hl' hm hm' := by
    have hlt := (List.getElem?_eq_some_iff.mp hl').1
    have hlen : hierarchy.levels.length = 2 := rfl
    obtain rfl : k = 0 := by omega
    cases hl
    cases hl'
    cases hm
    cases hm'
    exact ⟨{ first := "organization" }, rfl, by decide, by decide⟩

def acme : Row := ⟨organization, "1"⟩
def globex : Row := ⟨organization, "2"⟩
def frontend : Row := ⟨team, "1"⟩
def backend : Row := ⟨team, "2"⟩
def support : Row := ⟨team, "3"⟩
def loginButton : Row := ⟨ticket, "1"⟩
def customerLogin : Row := ⟨ticket, "4"⟩

def db : Database schema := Database.ofLinks schema
  [acme, globex, frontend, backend, support, loginButton, customerLogin]
  [((frontend, "organization"), acme), ((backend, "organization"), acme),
    ((support, "organization"), globex), ((loginButton, "team"), frontend),
    ((customerLogin, "team"), support)]
  [] (by decide) (by decide) (by decide)

def viewTicket : Permission := ⟨1, "helpdesk", "view_ticket"⟩
def addTicket : Permission := ⟨2, "helpdesk", "add_ticket"⟩

def manageRoles : Permission := ⟨3, "scoped_access", "manage_roles"⟩
def manageAssignments : Permission := ⟨4, "scoped_access", "manage_assignments"⟩

def alice : User := { pk := 1 }
def bob : User := { pk := 2 }
def carol : User := { pk := 3 }
def dave : User := { pk := 4 }

def tables : Tables where
  users := [1, 2, 3]
  contentTypes := [organization, team]
  roles := [
    { id := 1, name := "viewer" },
    { id := 2, name := "agent" },
    { id := 3, name := "triage-agent", ownerLevel := some "ORGANIZATION",
      ownerCt := some organization, ownerId := some "1" }]
  rolePermissions := [⟨1, viewTicket⟩, ⟨2, viewTicket⟩, ⟨2, addTicket⟩, ⟨3, viewTicket⟩]
  assignments := [
    { id := 1, user := 1, role := 2, level := some "ORGANIZATION",
      scopeCt := some organization, scopeId := some "1" },
    { id := 2, user := 2, role := 2, level := some "TEAM", scopeCt := some team,
      scopeId := some "1" },
    { id := 3, user := 3, role := 1, level := some "ORGANIZATION",
      scopeCt := some organization, scopeId := some "1" },
    { id := 4, user := 3, role := 3, level := some "TEAM", scopeCt := some team,
      scopeId := some "2" }]
  valid := by decide

def seeded : World := world db 10 tables

theorem stored : seeded.StoredAsPk := by
  have h : ∀ a ∈ tables.assignments, ∀ i ∈ a.scopeId.toList, toPk team i = .ok i := by decide
  intro a ha m i _ hi
  exact h a ha i (by simp [hi])

theorem readable : seeded.Readable where
  scopes := by
    have h : ∀ a ∈ tables.assignments, (db.generic a.scopeCt a.scopeId).isOk := by decide
    exact fun a ha => isOk_iff.mp (h a ha)
  owners := by
    have h : ∀ r ∈ tables.roles, (seeded.loadRole r).ownerOrNone.isOk := by decide
    exact fun r hr _ => isOk_iff.mp (h r hr)

def triage : RoleRow :=
  { id := 3, name := "triage-agent", ownerLevel := some "ORGANIZATION",
    ownerCt := some organization, ownerId := some "2" }

def staff : Tables where
  users := [1, 2, 3, 4]
  contentTypes := [organization, team]
  roles := [
    { id := 1, name := "viewer" },
    { id := 2, name := "manager" },
    triage,
    { id := 4, name := "steward" }]
  rolePermissions := [⟨1, viewTicket⟩, ⟨2, viewTicket⟩, ⟨2, manageRoles⟩,
    ⟨2, manageAssignments⟩, ⟨3, viewTicket⟩, ⟨4, manageRoles⟩]
  assignments := [
    { id := 1, user := 1, role := 2, level := some "ORGANIZATION",
      scopeCt := some organization, scopeId := some "1" },
    { id := 2, user := 2, role := 3, level := some "TEAM", scopeCt := some team,
      scopeId := some "2" },
    { id := 3, user := 4, role := 4, level := some "ORGANIZATION",
      scopeCt := some organization, scopeId := some "1" },
    { id := 4, user := 4, role := 4, level := some "ORGANIZATION",
      scopeCt := some organization, scopeId := some "2" }]
  valid := by decide

def staffed : World := world db 10 staff

end ScopedAccess.Helpdesk
