import ScopedAccess.Settings
import Mathlib.Data.List.Sort

/-! Startup validation of `SCOPED_ACCESS` (`checks.py`, SPEC §3). -/

namespace ScopedAccess

inductive CheckLevel
  | error
  | warning
  deriving DecidableEq

structure CheckMessage where
  level : CheckLevel
  text : String
  id : String
  hint : Option String := none
  obj : Option Model := none

def CheckMessage.error (text id : String) : CheckMessage :=
  { level := .error, text := text, id := id }

def walkRelationPath (sc : Schema) : Model → List String → Option String × Option Model
  | m, [] => (none, some m)
  | m, part :: parts =>
    match (sc.getField m part).bind (sc.relatedModel m) with
    | none => (some part, none)
    | some m' => walkRelationPath sc m' parts

def Dict.isModeled (e : Dict) : Bool := (e.get "model").truthy

def Dict.hasParent (e : Dict) : Bool := (e.get "parent").truthy

def Settings.modeled (raw : Settings) : List Dict := raw.entries.filter Dict.isModeled

def checkNames (entries : List Dict) : Py (List CheckMessage) := do
  let names := entries.map fun e => e.get "level"
  checkHashable names
  return if names.Pairwise (fun name name' => name.eq name' = false) then []
    else [.error "SCOPED_ACCESS: duplicate level names." "scoped_access.E001"]

def rootRanks (entries : List Dict) : List Nat :=
  (entries.zipIdx.filter fun e => !e.1.isModeled).map Prod.snd

def checkRoots (entries : List Dict) : List CheckMessage :=
  if rootRanks entries ≠ [] ∧ rootRanks entries ≠ [0] then
    [.error "SCOPED_ACCESS: at most one root level (no model), and it must be first."
      "scoped_access.E002"]
  else []

def asString : Value → Py String
  | .str s => .ok s
  | v => throwing .attributeError s!"'{v.typeName}' object has no attribute 'split'"

def checkParent (sc : Schema) (e : Dict) (m : Model) : Py (List CheckMessage) :=
  if !e.hasParent then .ok []
  else do
    let parent ← asString (e.get "parent")
    let label := e.get "model"
    return match (walkRelationPath sc m (Accessor.ofString parent).parts).1 with
      | none => []
      | some badPart => [.error
        (s!"SCOPED_ACCESS: parent accessor '{parent}' on model '{label.text}' " ++
          s!"is invalid at segment '{badPart}'.")
        "scoped_access.E007"]

def checkLevel (apps : Apps) (sc : Schema) (i : Nat) (e : Dict) : Py (List CheckMessage) := do
  let label ← asString (e.get "model")
  let name := e.get "level"
  match apps.getModel label with
  | none => return [.error
    s!"SCOPED_ACCESS: model '{label}' for level '{name.text}' could not be loaded."
    "scoped_access.E006"]
  | some m =>
    let parent ← checkParent sc e m
    return (if i > 0 && !e.hasParent then [.error
      (s!"SCOPED_ACCESS: level '{name.text}' needs a 'parent' accessor " ++
        "(every modeled level except the first must reach its parent).")
      "scoped_access.E003"]
    else []) ++ parent

def checkLevels (apps : Apps) (sc : Schema) (modeled : List Dict) : Py (List CheckMessage) := do
  return (← modeled.zipIdx.mapM fun e => checkLevel apps sc e.2 e.1).flatten

def Dict.name (e : Dict) : Py Value :=
  match e.get? "level" with
  | none => throwing .keyError "'level'"
  | some name => .ok name

def unsearchable : Value → Option String
  | .set _ => none
  | v => v.unhashable

def checkOwnerLevel (modeledNames : List Value) (ownerLevel : Value) : Py (List CheckMessage) :=
  match unsearchable ownerLevel with
  | some typeName => throwing .typeError s!"unhashable type: '{typeName}'"
  | none => .ok <|
    if modeledNames.any (·.eq ownerLevel) then []
    else [.error
      s!"SCOPED_ACCESS: ROLE_OWNER_LEVELS entry '{ownerLevel.text}' is not a modeled level."
      "scoped_access.E004"]

def checkOwnerLevels (modeledNames : List Value) (raw : Settings) : Py (List CheckMessage) := do
  let ownerLevels ← raw.roleOwnerLevels.elements
  return (← ownerLevels.mapM (checkOwnerLevel modeledNames)).flatten

def checkGrantable : Value → List CheckMessage
  | .list _ | .tuple _ | .set _ | .callable .. => []
  | .str s => if s = "self" ∨ s = "any" then [] else [message]
  | _ => [message]
where
  message := .error
    "SCOPED_ACCESS: GRANTABLE_PERMISSIONS must be 'self', 'any', an explicit list or a callable."
    "scoped_access.E005"

def checkStrictRegistration : Value → List CheckMessage
  | .bool _ => []
  | _ => [.error "SCOPED_ACCESS: STRICT_REGISTRATION must be a boolean." "scoped_access.E011"]

/-- The zeros of the decimal digits, each followed by the nine others. -/
def decimalZeros : List Nat :=
  [0x30, 0x660, 0x6F0, 0x7C0, 0x966, 0x9E6, 0xA66, 0xAE6, 0xB66, 0xBE6, 0xC66, 0xCE6, 0xD66, 0xDE6,
    0xE50, 0xED0, 0xF20, 0x1040, 0x1090, 0x17E0, 0x1810, 0x1946, 0x19D0, 0x1A80, 0x1A90, 0x1B50,
    0x1BB0, 0x1C40, 0x1C50, 0xA620, 0xA8D0, 0xA900, 0xA9D0, 0xA9F0, 0xAA50, 0xABF0, 0xFF10, 0x104A0,
    0x10D30, 0x11066, 0x110F0, 0x11136, 0x111D0, 0x112F0, 0x11450, 0x114D0, 0x11650, 0x116C0,
    0x11730, 0x118E0, 0x11950, 0x11C50, 0x11D50, 0x11DA0, 0x11F50, 0x16A60, 0x16AC0, 0x16B50,
    0x1D7CE, 0x1D7D8, 0x1D7E2, 0x1D7EC, 0x1D7F6, 0x1E140, 0x1E2F0, 0x1E4F0, 0x1E950, 0x1FBF0]

def isDecimal (c : Char) : Bool :=
  decimalZeros.any fun first => first ≤ c.toNat && c.toNat < first + 10

/-- `re.fullmatch(r"[1-9]\d*/[smhd][A-Za-z]*", rate)` -/
def isRate (rate : String) : Bool :=
  match rate.toList with
  | [] => false
  | c :: cs =>
    "123456789".toList.contains c && match cs.dropWhile isDecimal with
      | '/' :: unit :: letters => "smhd".toList.contains unit && letters.all Char.isAlpha
      | _ => false

def checkEnabled : Value → List CheckMessage
  | .bool _ => []
  | _ => [.error "SCOPED_ACCESS: REAUTH.ENABLED must be a boolean." "scoped_access.E009"]

def checkTtl : Value → List CheckMessage
  | .int n => if n ≤ 0 then [message] else []
  | _ => [message]
where
  message := .error "SCOPED_ACCESS: REAUTH.TTL must be a positive integer." "scoped_access.E010"

def checkRate (rate : Value) : List CheckMessage :=
  if rate.str?.any isRate then []
  else [.error "SCOPED_ACCESS: REAUTH.RATE must be a DRF rate string such as '5/minute'."
    "scoped_access.E013"]

def checkMode (mode : Value) : List CheckMessage :=
  if mode.str?.any fun s => s = "single_use" || s = "window" then []
  else [.error "SCOPED_ACCESS: REAUTH.MODE must be 'single_use' or 'window'." "scoped_access.E014"]

def unsafeBackends : List String :=
  ["django.core.cache.backends.locmem.LocMemCache", "django.core.cache.backends.dummy.DummyCache"]

def checkBackend (enabled : Value) (backend : String) : List CheckMessage :=
  if enabled.truthy && backend ∈ unsafeBackends then [{
    level := .warning
    text := "SCOPED_ACCESS: REAUTH is enabled but the default Django cache is not shared. " ++
      "Use Redis or Memcached in multi-worker/container deployments."
    id := "scoped_access.W001" }]
  else []

def checkReauth (backend : String) : Value → List CheckMessage
  | .dict items =>
    let reauth : Dict := items
    let enabled := reauth.getOr "ENABLED" (.bool false)
    checkEnabled enabled ++ checkTtl (reauth.getOr "TTL" (.int 300)) ++
      checkRate (reauth.getOr "RATE" (.str "5/minute")) ++
      checkMode (reauth.getOr "MODE" (.str "single_use")) ++ checkBackend enabled backend
  | _ => [.error "SCOPED_ACCESS: REAUTH must be a dictionary." "scoped_access.E009"]

def checkAnchor (sc : Schema) (m : Model) (anchor : Accessor) : List CheckMessage :=
  match (walkRelationPath sc m anchor.parts).1 with
  | none => []
  | some badPart => [.error
    s!"SCOPED_ACCESS: anchor '{anchor.text}' for model '{m}' is invalid at segment '{badPart}'."
    "scoped_access.E008"]

def checkAnchors (sc : Schema) (resources : ResourceRegistry) : List CheckMessage :=
  resources.anchors.flatMap fun a => checkAnchor sc a.1 a.2

namespace ResourceRegistry

def models (reg : ResourceRegistry) : List Model := reg.anchors.map Prod.fst ++ reg.globals

def isRegistered (reg : ResourceRegistry) (m : Model) : Bool :=
  (reg.anchorFor m).isSome || reg.isGlobal m

end ResourceRegistry

def hierarchyModels (apps : Apps) (modeled : List Dict) : List Model :=
  modeled.filterMap fun e => (e.get "model").str?.bind apps.getModel

def checkRegistration (apps : Apps) (resources : ResourceRegistry) (modeled : List Dict) :
    List CheckMessage :=
  let hierarchyModels := hierarchyModels apps modeled
  let hostAppLabels := ((resources.models ++ hierarchyModels).map apps.appLabel).dedup
  (hostAppLabels.insertionSort (· ≤ ·)).flatMap fun appLabel =>
    (apps.models appLabel).flatMap fun m =>
      if apps.autoCreated m || m ∈ hierarchyModels || resources.isRegistered m then []
      else [{
        level := .error
        text := s!"SCOPED_ACCESS: model '{m}' is neither a hierarchy node, " ++
          "an anchored resource, nor explicitly global."
        hint := some "Register it with register(...), or declare it with register_global(...)."
        obj := some m
        id := "scoped_access.E012" }]

def checkScopedAccessConfig (apps : Apps) (sc : Schema) (resources : ResourceRegistry)
    (raw : Settings) : Py (List CheckMessage) := do
  let names ← checkNames raw.entries
  let levels ← checkLevels apps sc raw.modeled
  let modeledNames ← raw.modeled.mapM Dict.name
  let ownerLevels ← checkOwnerLevels modeledNames raw
  return names ++ checkRoots raw.entries ++ levels ++ ownerLevels ++
    checkGrantable raw.grantablePermissions ++
    checkStrictRegistration raw.strictRegistration ++
    checkReauth raw.cacheBackend raw.reauth ++ checkAnchors sc resources ++
    match raw.strictRegistration with
    | .bool true => checkRegistration apps resources raw.modeled
    | _ => []

end ScopedAccess
