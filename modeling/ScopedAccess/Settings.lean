import ScopedAccess.Conf
import ScopedAccess.Values

/-! `SCOPED_ACCESS` as a project writes it, and what `conf.py` parses it into. -/

namespace ScopedAccess

inductive HierarchyEntry
  | name (level : String)
  | entry (items : Dict)

def HierarchyEntry.dict : HierarchyEntry → Dict
  | .name level => [(.str "level", .str level)]
  | .entry items => items

/-- `settings.SCOPED_ACCESS`, a missing key by its default, and the default cache. -/
structure Settings where
  hierarchy : List HierarchyEntry := []
  roleOwnerLevels : Value := .list []
  grantablePermissions : Value := .str "self"
  strictRegistration : Value := .bool false
  reauth : Value := .dict []
  cacheBackend : String := ""

def Settings.entries (raw : Settings) : List Dict := raw.hierarchy.map HierarchyEntry.dict

/-- The project around the package: its installed models, and what its callables do. -/
structure Apps where
  getModel : String → Option Model
  appLabel : Model → String
  models : String → List Model
  autoCreated : Model → Bool
  policy : Nat → User → Role → String → Option Time → Bool
  roleApp : String := "scoped_access"
  assignmentApp : String := "scoped_access"
  getModel_empty : getModel "" = none

/-- `path.split("__")` -/
def splitPath : List Char → List Char × List (List Char)
  | '_' :: '_' :: cs => ([], (splitPath cs).1 :: (splitPath cs).2)
  | c :: cs => (c :: (splitPath cs).1, (splitPath cs).2)
  | [] => ([], [])

def Accessor.ofString (path : String) : Accessor where
  first := String.ofList (splitPath path.toList).1
  rest := (splitPath path.toList).2.map String.ofList

def Accessor.text (p : Accessor) : String := "__".intercalate p.parts

/-- A `Level` before its model is looked up. -/
structure LevelConfig where
  name : Value
  modelLabel : Value
  parent : Value
  discriminator : Dict

def LevelConfig.isRoot (l : LevelConfig) : Bool := l.modelLabel matches .none

structure ScopedAccessConfig where
  levels : List LevelConfig
  roleOwnerLevels : List Value
  grantablePermissions : Value
  strictRegistration : Value
  reauth : Dict

def discriminatorItems (v : Value) : Py Dict :=
  if !v.truthy then .ok []
  else match v with
    | .dict items => .ok items
    | v => throwing .attributeError s!"'{v.typeName}' object has no attribute 'items'"

def buildLevel (e : Dict) : Py LevelConfig :=
  match e.get? "level" with
  | none => throwing .scopedAccessConfigError "Each HIERARCHY entry needs a 'level' key."
  | some name => do
    let items ← discriminatorItems (e.get "discriminator")
    let discriminator ← items.sorted
    return {
      name := name
      modelLabel := e.get "model"
      parent := e.get "parent"
      discriminator := discriminator }

def checkHashable (names : List Value) : Py Unit :=
  match names.findSome? Value.unhashable with
  | none => .ok ()
  | some typeName => throwing .typeError s!"unhashable type: '{typeName}'"

def buildHierarchy (entries : List Dict) : Py (List LevelConfig) := do
  let levels ← entries.mapM buildLevel
  checkHashable (levels.map LevelConfig.name)
  return levels

def defaultReauth : Dict :=
  [(.str "ENABLED", .bool false), (.str "TTL", .int 300), (.str "RATE", .str "5/minute"),
    (.str "MODE", .str "single_use")]

def merged (defaults : Dict) : Value → Py Dict
  | .dict items => .ok (items ++ defaults.filter fun item => !items.any (·.1.eq item.1))
  | v => throwing .typeError s!"'{v.typeName}' object is not a mapping"

def getConfig (raw : Settings) : Py ScopedAccessConfig := do
  let levels ← buildHierarchy raw.entries
  let roleOwnerLevels ← raw.roleOwnerLevels.elements
  let reauth ← merged defaultReauth raw.reauth
  return {
    levels := levels
    roleOwnerLevels := roleOwnerLevels
    grantablePermissions := raw.grantablePermissions
    strictRegistration := raw.strictRegistration
    reauth := reauth }

def Apps.model (apps : Apps) : Value → Option (Option Model)
  | .none => some none
  | .str label => (apps.getModel label).map some
  | _ => none

def Value.accessor : Value → Option (Option Accessor)
  | .none => some Option.none
  | .str parent => some (some (.ofString parent))
  | _ => Option.none

def LevelConfig.load (apps : Apps) (l : LevelConfig) : Option Level := do
  let name ← l.name.str?
  let model ← apps.model l.modelLabel
  let parent ← l.parent.accessor
  let discriminator ← l.discriminator.mapM fun item => item.1.str?.map (·, item.2.text)
  return { name := name, model := model, parent := parent, discriminator := discriminator }

def GrantPolicy.ofValue (apps : Apps) : Value → GrantPolicy
  | .str s => if s = "any" then .any else .self
  | .list xs | .tuple xs | .set xs => .explicit (xs.filterMap Value.str?)
  | .callable policy _ => .callable (apps.policy policy)
  | _ => .self

/-- What the engine works with.  Where a level's model cannot be loaded there is none: each
of the engine's functions asks for the models of all levels, and raises. -/
def ScopedAccessConfig.site (cfg : ScopedAccessConfig) (apps : Apps) (sc : Schema)
    (resources : ResourceRegistry) : Option Site := do
  let levels ← cfg.levels.mapM (LevelConfig.load apps)
  return {
    schema := sc
    hierarchy := ⟨levels⟩
    resources := resources
    roleOwnerLevels := cfg.roleOwnerLevels.filterMap Value.str?
    grantablePermissions := .ofValue apps cfg.grantablePermissions
    strictRegistration := cfg.strictRegistration.truthy
    roleApp := apps.roleApp
    assignmentApp := apps.assignmentApp }

end ScopedAccess
