import ScopedAccess.Engine.DecisionLaws
import ScopedAccess.Helpdesk

namespace ScopedAccess

open Lib.Walk (Reaches)
open Lib.Loop

namespace World

variable {w : World}

def fetched (w : World) (u : User) (t : Time) : List AssignmentRow :=
  w.tables.assignments.filter fun a => a.user = u.pk && a.isEffective t

theorem mem_fetched {u : User} {t : Time} {y : AssignmentRow} :
    y ∈ w.fetched u t ↔ y ∈ w.tables.assignments ∧ y.user = u.pk ∧ y.isEffective t := by
  simp [fetched]

theorem prefetch_row {row : AssignmentRow} (hrow : row ∈ w.tables.assignments)
    {found : Option Assignment} (h : w.prefetch row = .ok found) :
    ∃ a, found = some a ∧ a.row = row := by
  obtain ⟨r, hr⟩ := w.tables.exists_role hrow
  obtain ⟨scope, -, hfound⟩ := bind_eq_ok.mp h
  rw [hr] at hfound
  exact ⟨_, (pure_eq_ok.mp hfound).symm, rfl⟩

theorem loadAssignment_of_prefetch {row : AssignmentRow} {a : Assignment}
    (h : w.prefetch row = .ok (some a)) : w.loadAssignment row = some a := by
  obtain ⟨scope, r, hscope, hr, rfl⟩ := prefetch_some.mp h
  simp [loadAssignment, hr, hscope]

section Effective

variable {u : Nat} {t : Time} {a : Assignment} (ha : w.Effective u t a)
include ha

theorem Effective.scope : ∃ s, a.scope = .ok s := by
  obtain ⟨row, -, -, -, hfetch⟩ := ha
  obtain ⟨scope, _, -, -, rfl⟩ := prefetch_some.mp hfetch
  exact ⟨scope, rfl⟩

theorem Effective.generic {s : Option Row} (hs : a.scope = .ok s) :
    w.db.generic a.row.scopeCt a.row.scopeId = .ok s := by
  obtain ⟨row, -, -, -, hfetch⟩ := ha
  obtain ⟨scope, _, hscope, -, rfl⟩ := prefetch_some.mp hfetch
  exact hscope.trans hs

theorem Effective.row_mem : a.row ∈ w.tables.assignments := by
  obtain ⟨row, hrow, -, -, hfetch⟩ := ha
  obtain ⟨scope, _, -, -, rfl⟩ := prefetch_some.mp hfetch
  exact hrow

end Effective

structure Stands (w : World) (a : Assignment) : Prop where
  row_mem : a.row ∈ w.tables.assignments
  generic : ∀ {s : Option Row}, a.scope = .ok s →
    w.db.generic a.row.scopeCt a.row.scopeId = .ok s

theorem Effective.stands {u : Nat} {t : Time} {a : Assignment} (ha : w.Effective u t a) :
    w.Stands a := ⟨ha.row_mem, ha.generic⟩

theorem fetchEffective_pairs {u : User} {t : Time} {as : List Assignment} :
    w.fetchEffective u t = .ok as ↔
      List.Forall₂ (fun y a => w.prefetch y = .ok (some a)) (w.fetched u t) as := by
  have hrows : ∀ y ∈ w.fetched u t, ∃ r, w.tables.role y.role = some r :=
    fun y hy => w.tables.exists_role (mem_fetched.mp hy).1
  have hfetch : w.fetchEffective u t = .ok as ↔
      ∃ found, (w.fetched u t).mapM w.prefetch = .ok found ∧ found.reduceOption = as := by
    simp only [fetchEffective, fetched, bind_eq_ok, pure_eq_ok]
  rw [hfetch]
  clear hfetch
  simp only [mapM_eq_ok]
  constructor
  · rintro ⟨found, hfound, rfl⟩
    generalize w.fetched u t = rows at hrows hfound
    induction hfound with
    | nil => exact .nil
    | cons hf _ ih =>
      obtain ⟨r, hr⟩ := hrows _ List.mem_cons_self
      obtain ⟨scope, -, hsome⟩ := bind_eq_ok.mp hf
      rw [hr, pure_eq_ok] at hsome
      subst hsome
      rw [Option.map_some, List.reduceOption_cons_of_some]
      exact .cons hf (ih fun y hy => hrows y (List.mem_cons_of_mem _ hy))
  · intro h
    refine ⟨as.map some, List.forall₂_map_right_iff.mpr h, ?_⟩
    simp [List.reduceOption]

theorem fetchEffective_rows {u : User} {t : Time} {as : List Assignment}
    (h : w.fetchEffective u t = .ok as) : as.map (·.row) = w.fetched u t := by
  have hpairs := fetchEffective_pairs.mp h
  have hmem : ∀ y ∈ w.fetched u t, y ∈ w.tables.assignments := fun y hy => (mem_fetched.mp hy).1
  generalize w.fetched u t = rows at hpairs hmem
  clear h
  induction hpairs with
  | nil => rfl
  | cons hy _ ih =>
    obtain ⟨a, ha, hrow⟩ := prefetch_row (hmem _ List.mem_cons_self) hy
    obtain rfl := Option.some.inj ha
    rw [List.map_cons, hrow, ih fun y hy => hmem y (List.mem_cons_of_mem _ hy)]

theorem fetchEffective_reads {u : User} {t : Time} : (∃ as, w.fetchEffective u t = .ok as) ↔
    ∀ y ∈ w.fetched u t, ∃ s, w.db.generic y.scopeCt y.scopeId = .ok s := by
  constructor
  · rintro ⟨as, has⟩ y hy
    obtain ⟨found, hfound, -⟩ := bind_eq_ok.mp has
    obtain ⟨f, -, hf⟩ := ok_of_mapM hfound hy
    obtain ⟨scope, hscope, -⟩ := bind_eq_ok.mp hf
    exact ⟨scope, hscope⟩
  · intro h
    exact fetchEffective_ok fun y hy huser ht => h y (mem_fetched.mpr ⟨hy, huser, ht⟩)

theorem fetchEffective_until {u : User} {t : Time} {as : List Assignment}
    (h : w.fetchEffective u t = .ok as) {stop good : Assignment → Prop} :
    Until stop good as ↔ Until (fun y => ∃ a, w.loadAssignment y = some a ∧ stop a)
      (fun y => ∃ a, w.loadAssignment y = some a ∧ good a) (w.fetched u t) := by
  have hload (p : Assignment → Prop) (y : AssignmentRow) (a : Assignment)
      (hy : w.prefetch y = .ok (some a)) : (∃ a', w.loadAssignment y = some a' ∧ p a') ↔ p a := by
    simp [loadAssignment_of_prefetch hy]
  exact (until_forall₂ (fetchEffective_pairs.mp h) (hload stop) (hload good)).symm

theorem anyAncestor_ok {x : Attr} {p : Row → Bool} :
    (∃ b, w.anyAncestor x p = .ok b) ↔ w.Walks x ∨ ∃ r, w.Ancestor x r ∧ p r := by
  constructor
  · rintro ⟨b, hb⟩
    cases b with
    | true => exact .inr (anyAncestor_true.mp hb)
    | false => exact .inl (anyAncestor_false.mp hb).1
  · rintro (hwalk | hex)
    · obtain ⟨b, hb, -⟩ := anyAncestor_total (p := p) hwalk
      exact ⟨b, hb⟩
    · exact ⟨true, anyAncestor_true.mpr hex⟩

/-- Everything the validity of the row is read from can be read: the scope, and,
once the shape fits, the owner of a custom role and the walk up to it. -/
def Settles (w : World) (x : AssignmentRow) : Prop :=
  ∃ scope, w.db.generic x.scopeCt x.scopeId = .ok scope ∧
    ((w.RootShape x ∨ ∃ s ∈ scope, w.NodeShape x s) →
      ∀ r, w.tables.role x.role = some r → r.ownerId ≠ none →
        ∃ owner, (w.loadRole r).ownerOrNone = .ok owner ∧
          (owner ≠ none → ∀ s ∈ scope, w.Walks (.stored s) ∨
            ∃ X, Reaches w.parent s X ∧ w.isRow r.ownerCt r.ownerId X))

section Custom

variable {a : Assignment} (hcustom : a.role.ownerId ≠ none)
include hcustom

theorem assignmentIsValid_custom (hshape : w.assignmentScopeIsValid a = .ok true)
    {scope : Option Row} (hscope : a.scope = .ok scope) :
    w.assignmentIsValid a = a.role.ownerOrNone >>= fun owner =>
      if owner.isNone then .ok false
      else w.roleAssignable a.role a.row.level (scope.map Obj.stored) := by
  simp [assignmentIsValid, hshape, hcustom, Assignment.scopeOrNone, hscope]

theorem roleAssignable_custom {owner : Obj} (howner : a.role.ownerOrNone = .ok (some owner))
    {s : Row} (hshape : w.NodeShape a.row s) :
    w.roleAssignable a.role a.row.level (some (.stored s)) =
      w.anyAncestor (.stored s) (w.isRow a.role.ownerCt a.role.ownerId) := by
  obtain ⟨-, -, name, hname, l, hl, hsel⟩ := hshape
  have hmodel : l.model = some (Obj.stored s).model := Level.selects_model hsel
  have hsel : l.selects w.db (Obj.stored s).row = true := hsel
  simp [roleAssignable, hcustom, howner, Option.mem_def.mp hname, Option.mem_def.mp hl, hsel,
    hmodel, Level.not_isRoot_of_selects hsel]

theorem roleAssignable_nowhere {owner : Obj} (howner : a.role.ownerOrNone = .ok (some owner))
    (level : Option String) : w.roleAssignable a.role level none = .ok false := by
  simp [roleAssignable, hcustom, howner]

end Custom

theorem settles_iff {x : AssignmentRow} {r : RoleRow} (hr : w.tables.role x.role = some r) :
    w.Settles x ↔ ∃ scope b, w.db.generic x.scopeCt x.scopeId = .ok scope ∧
      w.assignmentIsValid ⟨x, w.loadRole r, .ok scope⟩ = .ok b := by
  refine exists_congr fun scope => ?_
  rw [exists_and_left]
  refine and_congr_right fun hscope => ?_
  generalize ha : (⟨x, w.loadRole r, .ok scope⟩ : Assignment) = a
  have hrow : a.row = x := ha ▸ rfl
  have hrole : a.role = w.loadRole r := ha ▸ rfl
  have hread : a.scope = .ok scope := ha ▸ rfl
  obtain ⟨shape, hshape⟩ := assignmentScopeIsValid_total (w := w) (a := a)
    ⟨scope, by rw [Assignment.scopeOrNone, hread, orNone_ok]⟩
  have hfits : shape = true ↔ w.RootShape x ∨ ∃ s ∈ scope, w.NodeShape x s := by
    have htrue := assignmentScopeIsValid_true (w := w) (a := a)
    simpa [hshape, Assignment.scopeOrNone, hread, hrow] using htrue
  rw [← hfits]
  simp only [hr, Option.some.injEq, forall_eq']
  cases shape with
  | false =>
    refine iff_of_true (by simp) ⟨false, ?_⟩
    rw [assignmentIsValid, hshape]
    rfl
  | true =>
    have hfits := hfits.mp rfl
    by_cases hid : r.ownerId = none
    · have hsystem : a.role.ownerId = none := by rw [hrole]; exact hid
      refine iff_of_true (fun _ hcustom => absurd hid hcustom) ⟨true, ?_⟩
      simp [assignmentIsValid, hshape, hsystem]
    · have hcustom : a.role.ownerId ≠ none := by rw [hrole]; exact hid
      rw [assignmentIsValid_custom hcustom hshape hread, ← hrole]
      simp only [forall_const, ne_eq, hid, not_false_eq_true]
      cases howner : a.role.ownerOrNone with
      | error e => simp
      | ok owner =>
        cases owner with
        | none => simp
        | some owner =>
          cases scope with
          | none => simp [roleAssignable_nowhere hcustom howner]
          | some s =>
            have hnode : w.NodeShape a.row s := by
              rcases hfits with ⟨-, hct, -⟩ | ⟨s', hs', hnode⟩
              · simp [hct, Database.generic] at hscope
              · obtain rfl := Option.some.inj hs'
                exact hrow ▸ hnode
            have hwalk := anyAncestor_ok (w := w) (x := .stored s)
              (p := w.isRow r.ownerCt r.ownerId)
            simp only [ancestor_stored] at hwalk
            have hct : a.role.ownerCt = r.ownerCt := hrole ▸ rfl
            have hoid : a.role.ownerId = r.ownerId := hrole ▸ rfl
            simp [roleAssignable_custom hcustom howner hnode, hct, hoid, hwalk]

theorem settles_load {x : AssignmentRow} (hx : x ∈ w.tables.assignments)
    {scope : Option Row} (hscope : w.db.generic x.scopeCt x.scopeId = .ok scope) :
    w.Settles x ↔ ∃ a, w.loadAssignment x = some a ∧ ∃ b, w.assignmentIsValid a = .ok b := by
  obtain ⟨r, hr⟩ := w.tables.exists_role hx
  rw [settles_iff hr]
  simp [loadAssignment, hr, hscope]

/-- The walk from the object's node, which a valid assignment starts, ends or meets the scope. -/
def Meets (w : World) (anchor : Anchor) (a : Assignment) : Prop :=
  ∀ n, anchor = .node n → w.Valid a →
    a.row.isRootScope ∨ w.Walks n ∨ ∃ r, w.Ancestor n r ∧ w.sameNode a r

theorem meets_everywhere (a : Assignment) : w.Meets .everywhere a := fun _ hn => by cases hn

theorem validReach_ok {anchor : Anchor} {a : Assignment} :
    (∃ b, w.validReach anchor a = .ok b) ↔
      (∃ b, w.assignmentIsValid a = .ok b) ∧ w.Meets anchor a := by
  cases hvalid : w.assignmentIsValid a with
  | error e => simp [validReach, hvalid]
  | ok valid =>
    have hok : (∃ b, (Except.ok valid : Py Bool) = .ok b) := ⟨valid, rfl⟩
    rw [validReach, hvalid, ok_bind, and_iff_right hok]
    cases valid with
    | false =>
      have hnot : ¬ w.Valid a := by simp [Valid, hvalid]
      exact iff_of_true ⟨false, rfl⟩ fun n _ h => absurd h hnot
    | true =>
      have hvalid : w.Valid a := hvalid
      cases anchor with
      | everywhere | denied | unregistered =>
        exact iff_of_true ⟨_, rfl⟩ fun n hn => by cases hn
      | node n =>
        cases hroot : a.row.isRootScope with
        | true => simp [reach, Meets, hroot]
        | false =>
          have hwalk := anyAncestor_ok (w := w) (x := n) (p := w.sameNode a)
          simp [reach, Meets, hroot, hvalid, hwalk]

theorem contribution_ok {anchor : Anchor} {a : Assignment} :
    (∃ P, w.contribution anchor a = .ok P) ↔ ∃ b, w.validReach anchor a = .ok b := by
  rw [contribution, validReach]
  cases w.assignmentIsValid a with
  | error e => simp
  | ok valid =>
    cases valid with
    | false => simp
    | true => cases w.reach anchor a <;> simp

/-- What a decision about the object reads of the row can be read. -/
def Tells (w : World) (anchor : Anchor) (y : AssignmentRow) : Prop :=
  w.Settles y ∧ ∀ a, w.loadAssignment y = some a → w.Meets anchor a

theorem tells_everywhere {y : AssignmentRow} : w.Tells .everywhere y ↔ w.Settles y :=
  and_iff_left fun a _ => meets_everywhere a

theorem tells_load {anchor : Anchor} {y : AssignmentRow} (hy : y ∈ w.tables.assignments)
    {scope : Option Row} (hscope : w.db.generic y.scopeCt y.scopeId = .ok scope) :
    w.Tells anchor y ↔
      ∃ a, w.loadAssignment y = some a ∧ ∃ b, w.validReach anchor a = .ok b := by
  rw [Tells, settles_load hy hscope]
  simp only [validReach_ok]
  constructor
  · rintro ⟨⟨a, ha, hvalid⟩, hmeets⟩
    exact ⟨a, ha, hvalid, hmeets a ha⟩
  · rintro ⟨a, ha, hvalid, hmeets⟩
    refine ⟨⟨a, ha, hvalid⟩, fun a' ha' => ?_⟩
    obtain rfl := Option.some.inj (ha.symm.trans ha')
    exact hmeets

theorem Settles.reads {y : AssignmentRow} (h : w.Settles y) :
    ∃ s, w.db.generic y.scopeCt y.scopeId = .ok s := by
  obtain ⟨scope, hscope, -⟩ := h
  exact ⟨scope, hscope⟩

variable {u : User} {t : Time}

/-- All rows of the principal are read, in a loop that stops at some of them or at none. -/
def Answers (w : World) (u : User) (t : Time) (anchor : Anchor) (stop : Assignment → Prop) :
    Prop :=
  (∀ y ∈ w.fetched u t, ∃ s, w.db.generic y.scopeCt y.scopeId = .ok s) ∧
    Until (fun y => ∃ a, w.loadAssignment y = some a ∧ stop a) (w.Tells anchor) (w.fetched u t)

theorem answers_iff {anchor : Anchor} {stop : Assignment → Prop} : w.Answers u t anchor stop ↔
    ∃ as, w.fetchEffective u t = .ok as ∧
      Until stop (fun a => ∃ b, w.validReach anchor a = .ok b) as := by
  have htells (hreads : ∀ y ∈ w.fetched u t, ∃ s, w.db.generic y.scopeCt y.scopeId = .ok s) :
      ∀ y ∈ w.fetched u t, (w.Tells anchor y ↔
        ∃ a, w.loadAssignment y = some a ∧ ∃ b, w.validReach anchor a = .ok b) := by
    intro y hy
    obtain ⟨scope, hscope⟩ := hreads y hy
    exact tells_load (mem_fetched.mp hy).1 hscope
  constructor
  · rintro ⟨hreads, huntil⟩
    obtain ⟨as, has⟩ := fetchEffective_reads.mpr hreads
    refine ⟨as, has, (fetchEffective_until has).mpr ?_⟩
    exact (until_congr (fun _ _ => Iff.rfl) (htells hreads)).mp huntil
  · rintro ⟨as, has, huntil⟩
    have hreads := fetchEffective_reads.mp ⟨as, has⟩
    refine ⟨hreads, (until_congr (fun _ _ => Iff.rfl) (htells hreads)).mpr ?_⟩
    exact (fetchEffective_until has).mp huntil

theorem answers_never {anchor : Anchor} :
    w.Answers u t anchor (fun _ => False) ↔ ∀ y ∈ w.fetched u t, w.Tells anchor y := by
  simp only [Answers, and_false, exists_false, until_never, and_iff_right_iff_imp]
  exact fun h y hy => (h y hy).1.reads

theorem userPermissions_ok {o : Option Obj} {at_ : Option Time} (hactive : u.isActive)
    (hregistered : w.anchorOf o ≠ .unregistered) :
    (∃ P, (userPermissions u o at_).run w = .ok P) ↔
      ∀ y ∈ w.fetched u (at_.getD w.now), w.Tells (w.anchorOf o) y := by
  have hrun : (userPermissions u o at_).run w =
      w.fetchEffective u (at_.getD w.now) >>= fun as =>
        gather (w.contribution (w.anchorOf o)) as ∅ := by
    rw [run_userPermissions, hactive]
    cases hanchor : w.anchorOf o with
    | unregistered => exact absurd hanchor hregistered
    | everywhere | denied | node n => rfl
  rw [hrun, ← answers_never, answers_iff]
  simp only [bind_eq_ok, until_never]
  rw [exists_comm]
  refine exists_congr fun as => ?_
  rw [exists_and_left]
  refine and_congr_right fun _ => ⟨?_, ?_⟩
  · rintro ⟨P, hP⟩ a ha
    exact contribution_ok.mp (gather_body hP a ha)
  · exact fun h => gather_total fun a ha => contribution_ok.mpr (h a ha)

theorem hasPerm_ok {p : String} {o : Option Obj} {at_ : Option Time} (hactive : u.isActive)
    (hsuper : u.isSuperuser = false) : (∃ b, (hasPerm u p o at_).run w = .ok b) ↔
      ∃ P, (userPermissions u o at_).run w = .ok P := by
  rw [run_hasPerm, hactive, hsuper]
  cases (userPermissions u o at_).run w <;> simp

theorem userCovers_ok {o : Obj} (hactive : u.isActive) (hsuper : u.isSuperuser = false)
    (hnode : w.resolveAnchor o ≠ .everywhere) (hregistered : w.resolveAnchor o ≠ .unregistered) :
    (∃ b, (userCovers u o (some t)).run w = .ok b) ↔
      w.Answers u t (w.resolveAnchor o) fun a => w.Valid a ∧ w.Reach (w.resolveAnchor o) a := by
  have hrun : (userCovers u o (some t)).run w =
      w.fetchEffective u t >>= fun as => as.anyM (w.validReach (w.resolveAnchor o)) := by
    rw [run_userCovers, hactive, hsuper]
    cases hanchor : w.resolveAnchor o with
    | everywhere => exact absurd hanchor hnode
    | unregistered => exact absurd hanchor hregistered
    | denied | node n => rfl
  rw [hrun, answers_iff]
  simp only [bind_eq_ok, ← validReach_true, ← anyM_ok]
  rw [exists_comm]
  simp only [exists_and_left]

theorem Acyclic.meets (hac : w.Acyclic) {o : Option Obj} (ho : w.anchorOf o ≠ .node .plain)
    (a : Assignment) : w.Meets (w.anchorOf o) a :=
  fun _ hn _ => .inr (.inl (hac.walks ho hn))

theorem Readable.settles (hw : w.Readable) (hends : w.NodesEnd) {y : AssignmentRow}
    (hy : y ∈ w.tables.assignments) : w.Settles y := by
  obtain ⟨r, hr⟩ := w.tables.exists_role hy
  obtain ⟨scope, hscope⟩ := hw.scopes y hy
  obtain ⟨b, hb⟩ := assignmentIsValid_total (w := w) (a := ⟨y, w.loadRole r, .ok scope⟩) hends
    ⟨scope, orNone_ok scope⟩ (hw.owners r (w.tables.role_eq_some.mp hr).1)
  exact (settles_iff hr).mpr ⟨scope, b, hscope, hb⟩

theorem Readable.tells (hw : w.Readable) (hac : w.Acyclic) {o : Option Obj}
    (ho : w.anchorOf o ≠ .node .plain) {y : AssignmentRow} (hy : y ∈ w.fetched u t) :
    w.Tells (w.anchorOf o) y :=
  ⟨hw.settles (nodesEnd_of_acyclic hac) (mem_fetched.mp hy).1, fun a _ => hac.meets ho a⟩

end World

namespace Depot

def wing : Model := "depot.Wing"
def crate : Model := "depot.Crate"

def toPk (m : Model) (s : String) : Except Exn Pk :=
  if m = crate then Helpdesk.toPk m s
  else if s ∈ ["t", "True", "1"] then .ok "True"
  else if s ∈ ["f", "False", "0"] then .ok "False"
  else .error ⟨.validationError, "“" ++ s ++ "” value must be either True or False."⟩

def schema : Schema where
  relatedModel m f := if m = crate ∧ f = "wing" then some wing else none
  column m f := if m = crate ∧ f = "wing_id" then some "wing" else none
  contentType m := m
  modelClass ct := some ct
  toPk := toPk
  modelClass_eq_some := @Schema.modelClass_self

def hierarchy : Hierarchy where
  levels := [{ name := "WING", model := some wing }]

def site : Site where
  schema := schema
  hierarchy := hierarchy
  resources := ResourceRegistry.register {} crate { first := "wing" }
  roleOwnerLevels := ["WING"]

def east : Row := ⟨wing, "True"⟩
def west : Row := ⟨wing, "False"⟩
def pallet : Row := ⟨crate, "1"⟩

def db : Database schema := Database.ofLinks schema [east, west, pallet]
  [((pallet, "wing"), east)] [] (by decide) (by decide) (by decide)

def viewCrate : Permission := ⟨1, "depot", "view_crate"⟩
def manageAssignments : Permission := ⟨2, "scoped_access", "manage_assignments"⟩

def ida : User := { pk := 1 }
def jon : User := { pk := 2 }
def kim : User := { pk := 3 }

def porter : RoleRow :=
  { id := 2, name := "porter", ownerLevel := some "WING", ownerCt := some wing,
    ownerId := some "zz" }

def portering : AssignmentRow :=
  { id := 2, user := 1, role := 2, level := some "WING", scopeCt := some wing,
    scopeId := some "True" }

def tables : Tables where
  users := [1, 2, 3]
  contentTypes := [wing]
  roles := [{ id := 1, name := "keeper" }, porter, { id := 3, name := "warden" }]
  rolePermissions := [⟨1, viewCrate⟩, ⟨1, manageAssignments⟩, ⟨3, manageAssignments⟩]
  assignments := [
    { id := 1, user := 1, role := 1 },
    portering,
    { id := 3, user := 2, role := 3, level := some "WING", scopeCt := some wing,
      scopeId := some "True" }]
  valid := by decide

def kept : World where
  site := site
  db := db
  now := 10
  tables := tables

theorem parentAccessor_none (m : Model) : kept.hierarchy.parentAccessorForModel m = none := by
  change hierarchy.parentAccessorForModel m = none
  by_cases hm : m = wing
  · rw [hm]
    decide
  · have hlevels : hierarchy.levelsForModel m = [] := by
      simp [Hierarchy.levelsForModel, hierarchy, Ne.symm hm]
    simp [Hierarchy.parentAccessorForModel, hlevels]

theorem parent_none (r : Row) : kept.parent r = none := by
  simp [World.parent, parentAccessor_none]

theorem parentAttr_none (x : Attr) : kept.parentAttr x = none := by
  cases x with
  | plain => rfl
  | object o => simp [World.parentAttr, parentAccessor_none]

theorem acyclic : kept.Acyclic where
  relations m _ h := by cases (parentAccessor_none m).symm.trans h
  parents r s h := by simp [parent_none] at h

theorem stored : kept.StoredAsPk := by
  have h : ∀ a ∈ tables.assignments, ∀ i ∈ a.scopeId.toList, toPk wing i = .ok i := by decide
  intro a ha m i hct hi
  have hm : ∀ a ∈ tables.assignments, ∀ ct ∈ a.scopeCt.toList, ct = wing := by decide
  obtain rfl : m = wing := hm a ha m (by rw [hct]; exact List.mem_singleton.mpr rfl)
  exact h a ha i (by simp [hi])

end Depot

end ScopedAccess
