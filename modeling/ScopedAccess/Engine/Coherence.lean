import ScopedAccess.Engine.Inert
import ScopedAccess.Engine.RolesLaws

namespace ScopedAccess

open Lib.Walk (Ends Reaches nth)
open Lib.Loop

namespace World

variable {w : World} {u : User} {at_ : Option Time} {row : RoleRow}

/-- Going up from a node one comes to nodes, and never back. -/
structure Forested (w : World) : Prop where
  acyclic : Lib.Walk.Acyclic w.parent
  parent : ∀ r x, w.hierarchy.isNodeModel r.model → w.parentAttr (.stored r) = some x →
    ∃ s : Row, x = .stored s ∧ w.hierarchy.isNodeModel s.model

theorem Forested.nth (hf : w.Forested) {k : Nat} {r : Row} {x : Attr}
    (hr : w.hierarchy.isNodeModel r.model) (h : nth w.parentAttr k (.stored r) = some x) :
    ∃ s : Row, x = .stored s ∧ w.hierarchy.isNodeModel s.model := by
  induction k generalizing r with
  | zero => exact ⟨r, (Option.some.inj h).symm, hr⟩
  | succ k ih =>
    obtain ⟨y, hy, h⟩ := Option.bind_eq_some_iff.mp h
    obtain ⟨s, rfl, hs⟩ := hf.parent r y hr hy
    exact ih hs h

theorem Forested.reaches (hf : w.Forested) {r s : Row} (h : Reaches w.parent r s)
    (hr : w.hierarchy.isNodeModel r.model) : w.hierarchy.isNodeModel s.model := by
  obtain ⟨k, hk⟩ := h
  obtain ⟨s', hs', hnode⟩ := hf.nth hr (nth_parentAttr hk)
  obtain rfl : s = s' := Attr.stored_injective hs'
  exact hnode

theorem Forested.walks (hf : w.Forested) {r : Row} (hr : w.hierarchy.isNodeModel r.model) :
    w.Walks (.stored r) := by
  refine ⟨ends_attr hf.acyclic _, fun ⟨k, hk⟩ => ?_⟩
  obtain ⟨s, hs, -⟩ := hf.nth hr hk
  cases hs

/-- Where a role belongs: a custom one in the subtree of its owner, a system role anywhere. -/
inductive Destination (w : World) (row : RoleRow) : Option String → Option Obj → Prop
  | below {name : String} {l : Level} {n X : Row} (hcustom : row.ownerId ≠ none)
    (hl : w.hierarchy.level name = some l) (hsel : l.selects w.db n)
    (howner : w.db.generic row.ownerCt row.ownerId = .ok (some X))
    (hreach : Reaches w.parent n X) : w.Destination row (some name) (some (.stored n))
  | node {name : String} {l : Level} {n : Row} (hsystem : row.ownerId = none)
    (hl : w.hierarchy.level name = some l) (hsel : l.selects w.db n) :
    w.Destination row (some name) (some (.stored n))
  | root {level : Option String} (hsystem : row.ownerId = none)
    (hlevel : level.all w.hierarchy.isRoot) : w.Destination row level none

/-- The role's owner id is written as the key of the row it refers to. -/
def OwnerAsPk (w : World) (row : RoleRow) : Prop :=
  ∀ X, row.ownerId ≠ none → w.db.generic row.ownerCt row.ownerId = .ok (some X) →
    row.ownerId = some X.pk

theorem heldAtRoot_ok :
    (∃ H, (heldAtRoot u at_).run w = .ok H) ↔
      ∀ y ∈ w.fetched u (at_.getD w.now), w.Settles y := by
  simp only [← tells_everywhere, ← answers_never, answers_iff, until_never, heldAtRoot,
    Read.run_bind, Read.run_effectiveAssignments, Read.run_gather, Read.run_isValid, validReach_ok]
  constructor
  · rintro ⟨H, hH⟩
    obtain ⟨as, has, hH⟩ := bind_eq_ok.mp hH
    refine ⟨as, has, fun a ha => ?_⟩
    obtain ⟨τ, hτ⟩ := gather_body hH a ha
    obtain ⟨b, hb, -⟩ := bind_eq_ok.mp hτ
    exact ⟨⟨b, hb⟩, meets_everywhere a⟩
  · rintro ⟨as, has, hvalid⟩
    rw [has, ok_bind]
    refine gather_total fun a ha => ?_
    obtain ⟨⟨b, hb⟩, -⟩ := hvalid a ha
    rw [hb, ok_bind]
    cases b <;> exact ⟨_, rfl⟩

theorem tells_node (hf : w.Forested) {r : Row} (hr : w.hierarchy.isNodeModel r.model)
    {y : AssignmentRow} : w.Tells (.node (.stored r)) y ↔ w.Settles y := by
  refine and_iff_left fun a _ n hn _ => .inr (.inl ?_)
  cases hn
  exact hf.walks hr

section Rules

variable (hactive : u.isActive) (hsuper : u.isSuperuser = false)
include hactive hsuper

theorem run_canGrantPermission {role : Role} {p : String} {owner : Option Obj}
    (howner : ownerUnlessSystem role = .ok owner) (hsome : role.ownerId.isSome → owner.isSome) :
    (canGrantPermission u role p at_).run w = match w.site.grantablePermissions with
      | .any => .ok true
      | .explicit labels => .ok (decide (p ∈ labels))
      | .callable policy => .ok (policy u role p at_)
      | .self => (if role.ownerId.isNone then (heldAtRoot u at_).run w
          else (userPermissions u owner at_).run w) >>= fun held => .ok (decide (p ∈ held)) := by
  have hread : (role.ownerId.isSome && owner.isNone) = false := by
    cases hid : role.ownerId with
    | none => rfl
    | some id =>
      obtain ⟨o, rfl⟩ := Option.isSome_iff_exists.mp (hsome (by simp [hid]))
      rfl
  simp only [canGrantPermission, hactive, hsuper, Bool.not_true, Bool.false_eq_true, if_false,
    Read.run_bind, Read.run_liftPy, Read.run_ite, Read.run_ask, howner, ok_bind, hread]
  cases w.site.grantablePermissions with
  | any | explicit labels | callable policy => rfl
  | self =>
    cases role.ownerId with
    | none | some id => exact Read.run_bind _ _ _

theorem run_canAssignRole (hrow : w.tables.role row.id = some row) {level : Option String}
    {node : Option Obj} (hfits : w.roleAssignable (w.loadRole row) level node = .ok true)
    (hvisible : (roleVisible u (w.loadRole row) at_).run w = .ok true) :
    (canAssignRole (some u) (w.loadRole row) level node at_).run w =
      match w.site.grantablePermissions with
      | .any => .ok true
      | .explicit labels => .ok (decide (w.tables.roleLabels row.id ⊆ labels.toFinset))
      | .callable policy => .ok (decide (∀ p ∈ w.tables.roleLabels row.id,
          policy u (w.loadRole row) p at_))
      | .self => (if node.isNone then (heldAtRoot u at_).run w
          else (userPermissions u node at_).run w) >>= fun held =>
            .ok (decide (w.tables.roleLabels row.id ⊆ held)) := by
  have hpk : (w.loadRole row).pk = some row.id := rfl
  simp only [canAssignRole, hactive, hsuper, Bool.not_true, Bool.false_eq_true, if_false, hpk,
    Read.run_bind, Read.run_liftPy, Read.run_ite, Read.run_ask, ok_bind, hrow, hfits, hvisible]
  cases w.site.grantablePermissions with
  | any | explicit labels | callable policy => rfl
  | self =>
    cases node with
    | none | some n => exact Read.run_bind _ _ _

theorem canAssignRole_fits (hrow : w.tables.role row.id = some row) {level : Option String}
    {node : Option Obj}
    (h : (canAssignRole (some u) (w.loadRole row) level node at_).run w = .ok true) :
    w.roleAssignable (w.loadRole row) level node = .ok true := by
  have hpk : (w.loadRole row).pk = some row.id := rfl
  simp only [canAssignRole, hactive, hsuper, Bool.not_true, Bool.false_eq_true, if_false, hpk,
    Read.run_bind, Read.run_liftPy, Read.run_ite, Read.run_ask, ok_bind, hrow] at h
  obtain ⟨fits, hfits, h⟩ := bind_eq_ok.mp h
  cases fits with
  | true => exact hfits
  | false => simp at h

end Rules

theorem resolveAnchor_isNodeModel {o : Obj} (h : w.hierarchy.isNodeModel o.model) :
    w.resolveAnchor o = .node o := by
  rw [resolveAnchor, if_pos h]

theorem Reach.below {n X : Row} {a : Assignment} (hreach : Reaches w.parent n X)
    (h : w.Reach (.node (.stored X)) a) : w.Reach (.node (.stored n)) a := by
  rcases h with hroot | ⟨r, hr, hsame⟩
  · exact .inl hroot
  · exact .inr ⟨r, ancestor_stored.mpr (hreach.trans (ancestor_stored.mp hr)), hsame⟩

theorem Destination.fits {level : Option String} {node : Option Obj}
    (h : w.Destination row level node) :
    w.roleAssignable (w.loadRole row) level node = .ok true ↔ w.OwnerAsPk row := by
  rw [roleAssignable_true]
  cases h with
  | node hsystem | root hsystem =>
    exact iff_of_true (.inl hsystem) fun _ hcustom => absurd hsystem hcustom
  | @below name l n X hcustom hl hsel howner hreach =>
    obtain ⟨hX, hct, -⟩ := w.db.generic_some howner
    constructor
    · rintro (hsystem | ⟨_, m, _, _, -, hm, -, -, -, r, hr, hrow⟩)
      · exact absurd hsystem hcustom
      · obtain rfl := Option.some.inj hm
        have hmem := reaches_mem (Level.selects_mem hsel) (ancestor_stored.mp hr)
        obtain rfl : X = r := Option.some.inj
          (Except.ok.inj (howner.symm.trans (isRow_generic hmem hrow)))
        intro X' _ hX'
        obtain rfl : X = X' := Option.some.inj (Except.ok.inj (howner.symm.trans hX'))
        exact (isRow_iff.mp hrow).1
    · intro hpk
      have hread : (w.loadRole row).ownerOrNone = .ok (some (.stored X)) := by
        rw [Role.ownerOrNone, loadRole, genericObj_stored.mpr howner, orNone_ok]
      exact .inr ⟨.stored X, .stored n, name, l, hread, rfl, rfl, hl, hsel, X,
        ancestor_stored.mpr hreach, isRow_iff.mpr ⟨hpk X hcustom howner, hct⟩⟩

theorem Destination.owner_read {level : Option String} {node : Option Obj}
    (h : w.Destination row level node) : ∃ owner, ownerUnlessSystem (w.loadRole row) = .ok owner ∧
      ((w.loadRole row).ownerId.isSome → owner.isSome) := by
  have hid : (w.loadRole row).ownerId = row.ownerId := rfl
  cases h with
  | node hsystem | root hsystem =>
    exact ⟨none, by simp [ownerUnlessSystem, hid, hsystem], by simp [hid, hsystem]⟩
  | @below name l n X hcustom hl hsel howner hreach =>
    refine ⟨some (.stored X), ?_, fun _ => rfl⟩
    rw [ownerUnlessSystem, if_neg (by simpa [hid] using hcustom), Role.ownerOrNone, loadRole,
      genericObj_stored.mpr howner, orNone_ok]

section Self

variable (hactive : u.isActive) (hsuper : u.isSuperuser = false)
  (hself : w.site.grantablePermissions = .self) {p : String}
  (hgrant : (canGrantPermission u (w.loadRole row) p at_).run w = .ok true)
include hactive hsuper hself hgrant

theorem settles_of_granted : ∀ y ∈ w.fetched u (at_.getD w.now), w.Settles y := by
  rcases canGrantPermission_ok hactive hsuper hself hgrant with
    ⟨hsystem, hroot⟩ | ⟨hcustom, owner, P, howner, hP, hp⟩
  · have hread : ownerUnlessSystem (w.loadRole row) = .ok none := by
      simp [ownerUnlessSystem, hsystem]
    rw [run_canGrantPermission hactive hsuper hread (by simp [hsystem]), hself] at hgrant
    simp only [hsystem, Option.isNone_none, if_true] at hgrant
    obtain ⟨H, hH, -⟩ := bind_eq_ok.mp hgrant
    exact heldAtRoot_ok.mp ⟨H, hH⟩
  · refine fun y hy => ((userPermissions_ok hactive fun hanchor => ?_).mp ⟨P, hP⟩ y hy).1
    obtain ⟨a, -, -, hreach, -⟩ := (mem_userPermissions hP hactive).mp hp
    rw [hanchor] at hreach
    exact hreach

theorem Destination.held (hf : w.Forested) {level : Option String} {node : Option Obj}
    (h : w.Destination row level node) {H : Finset String}
    (hH : (if node.isNone then (heldAtRoot u at_).run w
      else (userPermissions u node at_).run w) = .ok H) : p ∈ H := by
  have hgranted := canGrantPermission_ok hactive hsuper hself hgrant
  cases h with
  | root hsystem =>
    obtain ⟨-, hroot⟩ | ⟨hcustom, -⟩ := hgranted
    · exact (run_heldAtRoot (by simpa using hH)).mpr hroot
    · exact absurd hsystem hcustom
  | @node name l n hsystem hl hsel =>
    obtain ⟨-, a, ha, hvalid, hroot, hp⟩ | ⟨hcustom, -⟩ := hgranted
    · have hnode := w.hierarchy.level_isNodeModel hl (Level.selects_model hsel)
      refine (mem_userPermissions (o := some (.stored n)) (by simpa using hH) hactive).mpr
        ⟨a, ha, hvalid, ?_, hp⟩
      rw [anchorOf, resolveAnchor_isNodeModel hnode]
      exact .inl hroot
    · exact absurd hsystem hcustom
  | @below name l n X hcustom hl hsel howner hreach =>
    obtain ⟨hsystem, -⟩ | ⟨-, owner, P, hread, hP, hp⟩ := hgranted
    · exact absurd hsystem hcustom
    · have hn := w.hierarchy.level_isNodeModel hl (Level.selects_model hsel)
      have hX := hf.reaches hreach hn
      obtain rfl : owner = .stored X := by
        have hX : (w.loadRole row).ownerOrNone = .ok (some (.stored X)) := by
          rw [Role.ownerOrNone, loadRole, genericObj_stored.mpr howner, orNone_ok]
        exact Option.some.inj (Except.ok.inj (hread.symm.trans hX))
      obtain ⟨a, ha, hvalid, hcovers, hp⟩ := (mem_userPermissions hP hactive).mp hp
      rw [anchorOf, resolveAnchor_isNodeModel hX] at hcovers
      refine (mem_userPermissions (o := some (.stored n)) (by simpa using hH) hactive).mpr
        ⟨a, ha, hvalid, ?_, hp⟩
      rw [anchorOf, resolveAnchor_isNodeModel hn]
      exact hcovers.below hreach

end Self

/-- What may be put into a role at its owner may be given away wherever the role belongs,
unless the owner id is written otherwise than the owner's key, or the role carries nothing
that would have been asked for and the actor's own assignments cannot be read. -/
theorem granted_assignable_iff (hf : w.Forested)
    (hpolicy : ∀ policy, w.site.grantablePermissions ≠ .callable policy) (hactive : u.isActive)
    (hsuper : u.isSuperuser = false) (hrow : w.tables.role row.id = some row)
    (hvisible : (roleVisible u (w.loadRole row) at_).run w = .ok true)
    (hgrant : ∀ p ∈ w.tables.roleLabels row.id,
      (canGrantPermission u (w.loadRole row) p at_).run w = .ok true)
    {level : Option String} {node : Option Obj} (htarget : w.Destination row level node) :
    (canAssignRole (some u) (w.loadRole row) level node at_).run w = .ok true ↔
      w.OwnerAsPk row ∧
        (w.site.grantablePermissions = .self → w.tables.roleLabels row.id = ∅ →
          ∀ y ∈ w.tables.assignments, y.user = u.pk → y.isEffective (at_.getD w.now) →
            w.Settles y) := by
  have hheld : (∃ H, (if node.isNone then (heldAtRoot u at_).run w
      else (userPermissions u node at_).run w) = .ok H) ↔
        ∀ y ∈ w.fetched u (at_.getD w.now), w.Settles y := by
    cases htarget with
    | root hsystem => exact heldAtRoot_ok
    | @node name l n _ hl hsel | @below name l n _ _ hl hsel =>
      have hnode := w.hierarchy.level_isNodeModel hl (Level.selects_model hsel)
      have hanchor : w.anchorOf (some (.stored n)) = .node (.stored n) :=
        resolveAnchor_isNodeModel hnode
      refine (userPermissions_ok hactive (by simp [hanchor])).trans ?_
      simp only [hanchor, tells_node hf hnode]
  constructor
  · intro h
    have hfits := canAssignRole_fits hactive hsuper hrow h
    refine ⟨htarget.fits.mp hfits, fun hself _ => ?_⟩
    rw [run_canAssignRole hactive hsuper hrow hfits hvisible, hself] at h
    obtain ⟨H, hH, -⟩ := bind_eq_ok.mp h
    intro y hy huser ht
    exact hheld.mp ⟨H, hH⟩ y (mem_fetched.mpr ⟨hy, huser, ht⟩)
  · rintro ⟨hpk, hset⟩
    rw [run_canAssignRole hactive hsuper hrow (htarget.fits.mpr hpk) hvisible]
    cases hgrantable : w.site.grantablePermissions with
    | any => rfl
    | callable policy => exact absurd hgrantable (hpolicy policy)
    | explicit labels =>
      obtain ⟨owner, hread, hsome⟩ := htarget.owner_read
      refine congrArg Except.ok (decide_eq_true fun p hp => ?_)
      have hlisted := hgrant p hp
      rw [run_canGrantPermission hactive hsuper hread hsome, hgrantable] at hlisted
      simpa using hlisted
    | self =>
      have hsettles : ∀ y ∈ w.fetched u (at_.getD w.now), w.Settles y := by
        rcases (w.tables.roleLabels row.id).eq_empty_or_nonempty with hempty | ⟨p, hp⟩
        · intro y hy
          obtain ⟨hmem, huser, ht⟩ := mem_fetched.mp hy
          exact hset hgrantable hempty y hmem huser ht
        · exact settles_of_granted hactive hsuper hgrantable (hgrant p hp)
      obtain ⟨H, hH⟩ := hheld.mpr hsettles
      refine bind_eq_ok.mpr ⟨H, hH, congrArg Except.ok (decide_eq_true fun p hp => ?_)⟩
      exact Destination.held hactive hsuper hgrantable (hgrant p hp) hf htarget hH

end World

namespace Helpdesk

theorem forested (now : Time) (tables : Tables) : (world db now tables).Forested where
  acyclic := acyclic_parents db now tables
  parent r x _ hx := by
    rcases World.parentAttr_stored (w := world db now tables) r with h | ⟨-, h⟩
    · obtain ⟨s, hs, rfl⟩ := Option.map_eq_some_iff.mp (h.symm.trans hx)
      have hs : s.model = organization := (parent_models hs).2
      refine ⟨s, rfl, ?_⟩
      change hierarchy.isNodeModel s.model
      rw [hs]
      decide
    · exact absurd h (World.parentAttr_ne_plain (grounded db now tables).relations (.stored r))

def triageAgent : RoleRow :=
  { id := 3, name := "triage-agent", ownerLevel := some "ORGANIZATION",
    ownerCt := some organization, ownerId := some "1" }

theorem alice_assigns_triage :
    (canAssignRole (some alice) (seeded.loadRole triageAgent) (some "TEAM")
      (some (.stored frontend)) (some 10)).run seeded = .ok true := by
  have hread : seeded.db.generic (some organization) (some "1") = .ok (some acme) := by decide
  have htarget : seeded.Destination triageAgent (some "TEAM") (some (.stored frontend)) :=
    .below (l := hierarchy.levels[1]) (by decide) (by decide) (by decide) hread (.step (by decide))
  refine (World.granted_assignable_iff (forested 10 tables) (fun policy h => nomatch h) rfl rfl
    (by decide) (by decide) (by decide) htarget).mpr ⟨fun X _ hX => ?_, fun _ hempty => ?_⟩
  · exact congrArg (some ·.pk) (Option.some.inj (Except.ok.inj (hread.symm.trans hX)))
  · exact absurd hempty (by decide)

def paddedAgent : RoleRow := { triageAgent with ownerId := some "01" }

def padded : World := world db 10
  { toTableRows := { tables.toTableRows with
      roles := [
        { id := 1, name := "viewer" },
        { id := 2, name := "agent" },
        paddedAgent,
        { id := 4, name := "newcomer" }]
      assignments := [
        { id := 1, user := 1, role := 2, level := some "ORGANIZATION",
          scopeCt := some organization, scopeId := some "1" },
        { id := 2, user := 2, role := 1, level := some "TEAM", scopeCt := some team,
          scopeId := some "not-a-number" }] }
    valid := by decide }

theorem padded_incoherent :
    padded.Forested ∧
    ((roleVisible alice (padded.loadRole paddedAgent) none).run padded = .ok true ∧
      (∀ p ∈ padded.tables.roleLabels 3,
        (canGrantPermission alice (padded.loadRole paddedAgent) p none).run padded = .ok true) ∧
      padded.Destination paddedAgent (some "TEAM") (some (.stored frontend)) ∧
      (canAssignRole (some alice) (padded.loadRole paddedAgent) (some "TEAM")
        (some (.stored frontend)) none).run padded = .ok false) ∧
    (roleVisible bob (padded.loadRole { id := 4, name := "newcomer" }) none).run padded = .ok true ∧
      padded.tables.roleLabels 4 = ∅ ∧
      padded.Destination { id := 4, name := "newcomer" } none none ∧
      ((canAssignRole (some bob) (padded.loadRole { id := 4, name := "newcomer" }) none none
        none).run padded).isOk = false := by
  refine ⟨forested 10 _, ⟨by decide, by decide, ?_, by decide⟩, by decide, by decide,
    .root rfl rfl, by decide⟩
  exact .below (X := acme) (l := hierarchy.levels[1]) (by decide) (by decide) (by decide)
    (by decide) (.step (by decide))

end Helpdesk

end ScopedAccess
