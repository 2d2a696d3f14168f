import ScopedAccess.Admin
import ScopedAccess.Tenancy

namespace ScopedAccess

open Lib.Walk (Reaches)
open Lib.Loop

namespace World

variable {w : World}

/-- The object is anchored at a node of the tenant's subtree. -/
def Belongs (w : World) (X : Row) (o : Obj) : Prop :=
  ∃ n, w.resolveAnchor o = .node (.stored n) ∧ Reaches w.parent n X

def Held (w : World) (u : User) (perms : List String) (x : Anchor) : Prop :=
  (∃ a L, w.InForce w.now x a L ∧ a.user = u.pk) ∧
    ∀ p ∈ perms, ∃ a L, w.InForce w.now x a L ∧ a.user = u.pk ∧ p ∈ L

/-- Nothing beyond the tenant is the user allowed for these permissions. -/
structure Inside (w : World) (X : Row) (u : User) (perms : List String) : Prop where
  ordinary : u.isSuperuser = false
  held : ∀ x, w.Beyond X x → ¬ w.Held u perms x

def Foreign (w : World) (X r : Row) : Prop := r ∈ w.db.rows ∧ ¬ w.Belongs X (.stored r)

def SameForeign (X : Row) (w w' : World) : Prop :=
  ∀ r, (w'.Foreign X r ↔ w.Foreign X r) ∧
    (w.Foreign X r → ∀ f, w'.db.related r f = w.db.related r f)

variable {X : Row}

theorem SameForeign.refl (X : Row) (w : World) : SameForeign X w w :=
  fun _ => ⟨Iff.rfl, fun _ _ => rfl⟩

theorem SameForeign.trans {w' w'' : World} (h : SameForeign X w w') (h' : SameForeign X w' w'') :
    SameForeign X w w'' := fun r =>
  ⟨(h' r).1.trans (h r).1, fun hr f =>
    ((h' r).2 ((h r).1.mpr hr) f).trans ((h r).2 hr f)⟩

theorem sameForeign_changed {m : Model} {S : List Row} {db' : Database w.site.schema}
    (hc : Database.Changed S w.db db') (hS : ∀ r ∈ S, r.model = m)
    (hleaf : w.site.schema.Leaf m) (hm : w.hierarchy.isNodeModel m = false)
    (hold : ∀ r ∈ S, r ∈ w.db.rows → w.Belongs X (.stored r))
    (hnew : ∀ r ∈ S, r ∈ db'.rows → ({ w with db := db' } : World).Belongs X (.stored r)) :
    SameForeign X w { w with db := db' } := by
  intro r
  by_cases hr : r ∈ S
  · have hforeign : ¬ w.Foreign X r := fun h => h.2 (hold r hr h.1)
    exact ⟨iff_of_false (fun h => h.2 (hnew r hr h.1)) hforeign, fun h => absurd h hforeign⟩
  · refine ⟨and_congr (hc.rows r hr) (not_congr ?_), fun _ => hc.related r hr⟩
    rw [Belongs, resolveAnchor_changed hc hS hleaf hr, parent_changed hc hS hm hleaf]
    rfl

end World

namespace Drf

theorem belongs_of_allowed {w : World} {X : Row} {user : User} {perms : List String} {o : Obj}
    (hw : w.WellFormed) (hac : w.Grounded) (hinside : w.Inside X user perms)
    (hallowed : (allowed user perms o).run w = .ok true) (found : Option Row)
    (hanchor : w.resolveAnchor o = anchorAt (found.map .stored))
    (hfound : ∀ n ∈ found, n ∈ w.db.rows) :
    w.Belongs X o := by
  obtain ⟨hperms, hcovers⟩ := (ViewSet.allowed_served hw hac).mp hallowed
  have hactive : user.isActive := by
    by_contra hactive
    rw [World.run_userCovers, if_pos (by simpa using hactive)] at hcovers
    cases hcovers
  have hheld : w.resolveAnchor o ≠ .everywhere → w.Held user perms (w.resolveAnchor o) := by
    intro hne
    constructor
    · obtain ⟨a, heffective, hvalid, hreach⟩ :=
        ((World.userCovers_iff hactive hinside.ordinary hcovers).mp rfl).resolve_left hne
      obtain ⟨row, L, hforce, huser, -⟩ := (World.exists_inForce (Q := fun _ _ => True)).mp
        ⟨a, heffective, hvalid, hreach, trivial⟩
      exact ⟨row, L, hforce, huser⟩
    · intro p hp
      exact (World.exists_inForce (Q := fun _ L => p ∈ L)).mp
        ((World.hasPerm_iff hactive hinside.ordinary (hperms p hp)).mp rfl)
  cases found with
  | none =>
    refine absurd (hheld (by rw [hanchor]; exact fun h => by cases h)) ?_
    rw [hanchor]
    exact hinside.held .denied trivial
  | some n =>
    refine ⟨n, hanchor, ?_⟩
    by_contra hX
    refine absurd (hheld (by rw [hanchor]; exact fun h => by cases h)) ?_
    rw [hanchor]
    exact hinside.held _ (World.beyond_stored (hfound n rfl) hX)

namespace Resource

variable {V γ : Type} {R : Resource V γ} {w w' : World} {X : Row} {user : User}
  {perms : List String}

section Inside

variable (h : R.Hosted w) (hinside : w.Inside X user perms)
include h hinside

theorem AllowsRow.belongs {r : Row} (hallows : R.AllowsRow w user perms r) :
    w.Belongs X (.stored r) := by
  obtain ⟨hr, hallowed⟩ := hallows
  obtain ⟨path, m, hpath, -⟩ := h.anchorFor
  refine belongs_of_allowed h.wellFormed h.grounded hinside hallowed (w.db.follow r path.parts) ?_
    fun n hn => w.db.follow_mem (by simp [Accessor.parts]) hn
  rw [World.resolveAnchor_anchored (hr ▸ h.notNode) (hr ▸ hpath) (h.grounded.anchors _ _ (hr ▸ hpath))]
  cases w.db.follow r path.parts <;> rfl

theorem stored_belongs {k : Key w (R.cls w).label} {y : Instance V w (R.cls w).label}
    (hallowed : (allowed user perms (y.obj (R.cls w))).run w = .ok true) :
    (ModelClass.stored k y).Belongs X (.stored (ModelClass.row k)) := by
  obtain ⟨an, -, hpath⟩ := h.anchored
  have hanchor : w.site.resources.anchorFor (R.cls w).label = some an.path := R.cls_label w ▸ hpath
  have hlead := an.lead_follow (h.grounded.anchors _ _ hanchor) y
  have hresolve : w.resolveAnchor (y.obj (R.cls w)) = anchorAt (an.lead w y) :=
    an.resolveAnchor_obj w.db h.notNode_cls hanchor y
  have hmem : ∀ n ∈ (y.related an.field.name).val.bind (w.db.follow · an.path.rest),
      n ∈ w.db.rows := by
    intro n hn
    obtain ⟨s, hs, hn⟩ := Option.bind_eq_some_iff.mp hn
    have hmem := ((y.related an.field.name).property s hs).2
    cases hrest : an.path.rest with
    | nil =>
      rw [hrest] at hn
      exact Option.some.inj hn ▸ hmem
    | cons f rest => exact w.db.follow_mem (by simp [hrest]) hn
  obtain ⟨n, hn, hX⟩ := belongs_of_allowed h.wellFormed h.grounded hinside hallowed _
    (hresolve.trans (congrArg anchorAt hlead)) hmem
  refine ⟨n, ?_, ?_⟩
  · have hstored : (ModelClass.stored k y).resolveAnchor (y.obj (R.cls w)) =
        anchorAt (an.lead (ModelClass.stored k y) y) :=
      an.resolveAnchor_obj (ModelClass.put k y) h.notNode_cls hanchor y
    have hapart := an.lead_apart (fun before f after _ hback => by
      rw [R.cls_label] at hback
      exact h.leaf.relatedPath _ _ _ hback) k y y
    rw [an.resolveAnchor_put h.notNode_cls hanchor, hstored, hapart, ← hresolve]
    exact hn
  · have hlabel : ∀ r ∈ [ModelClass.row k], r.model = R.model := fun r hr =>
      (congrArg Row.model (List.mem_singleton.mp hr)).trans (R.cls_label w)
    have hparent : (ModelClass.stored k y).parent = w.parent :=
      World.parent_changed (ModelClass.changed_put k y) hlabel h.notNode h.leaf
    rw [hparent]
    exact hX

theorem Outcome.inside {rows : List Row} (houtcome : R.Outcome w user perms rows w') :
    R.Hosted w' ∧ World.SameForeign X w w' ∧ ∀ r ∈ rows, w'.Belongs X (.stored r) := by
  cases houtcome with
  | shown hrows => exact ⟨h, .refl X w, fun r hr => (hrows r hr).belongs h hinside⟩
  | @deleted gone hgone =>
    have hS : ∀ r ∈ gone, r.model = R.model := fun r hr => (hgone r hr).1
    have hc : Database.Changed gone w.db (w.db.drop gone) := Database.changed_drop h.leaf hS
    refine ⟨h.changed hc hS, ?_, fun r hr => absurd hr List.not_mem_nil⟩
    refine World.sameForeign_changed hc hS h.leaf h.notNode
      (fun r hr _ => (hgone r hr).belongs h hinside) fun r hr hmem => ?_
    simp [Database.drop, hr] at hmem
  | @stored k y hold hnew =>
    have hbelongs := stored_belongs h hinside (k := k) hnew
    have hS : ∀ r ∈ [ModelClass.row k], r.model = R.model := fun r hr =>
      (congrArg Row.model (List.mem_singleton.mp hr)).trans (R.cls_label w)
    have hc := ModelClass.changed_put k y
    refine ⟨h.changed hc hS, ?_, fun r hr => List.mem_singleton.mp hr ▸ hbelongs⟩
    refine World.sameForeign_changed hc hS h.leaf h.notNode (fun r hr hmem => ?_)
      fun r hr _ => List.mem_singleton.mp hr ▸ hbelongs
    obtain rfl := List.mem_singleton.mp hr
    exact (hold hmem).belongs h hinside

end Inside

inductive ClientCall (V : Type)
  | http (call : HttpCall V) (content : String)
  | admin (call : AdminCall V)

def Asks (R : Resource V γ) : ClientCall V → List String → Prop
  | .http call _, perms => R.viewSet.required call.method = .ok perms
  | .admin call, perms => perms = [R.admin.perm call.action]

def respond (R : Resource V γ) (w : World) (user : User) (new : (R.cls w).NewKey)
    (call : ClientCall V) : List Row × World :=
  match (match call with
    | .http call content => R.serve w user content new call
    | .admin call => R.serveAdmin w user new call) with
  | .ok out => out
  | .error _ => ([], w)

theorem respond_outcome (h : R.Hosted w) (user : User) (new : (R.cls w).NewKey)
    (call : ClientCall V) :
    ((R.respond w user new call).1 = [] ∧ (R.respond w user new call).2 = w) ∨
      ∃ perms, R.Asks call perms ∧
        R.Outcome w user perms (R.respond w user new call).1 (R.respond w user new call).2 := by
  unfold respond
  cases call with
  | http call content =>
    dsimp only
    cases hserve : R.serve w user content new call with
    | ok out => exact serve_outcome h hserve
    | error e => exact .inl ⟨rfl, rfl⟩
  | admin call =>
    dsimp only
    cases hserve : R.serveAdmin w user new call with
    | ok out => exact .inr ⟨_, rfl, admin_outcome h hserve⟩
    | error e => exact .inl ⟨rfl, rfl⟩

structure Visit (V : Type) where
  user : User
  call : ClientCall V
  before : World
  shown : List Row
  after : World

inductive Run (R : Resource V γ) : World → List (Visit V) → World → Prop
  | start (w : World) : Run R w [] w
  | call {w w' : World} {visits : List (Visit V)} (user : User) (new : (R.cls w).NewKey)
      (call : ClientCall V) (rest : Run R (R.respond w user new call).2 visits w') :
      Run R w (⟨user, call, w, (R.respond w user new call).1,
        (R.respond w user new call).2⟩ :: visits) w'
  | event {w w' : World} {visits : List (Visit V)} {e : SiteEvent} (he : e.Internal)
      (rest : Run R (w.step e) visits w') : Run R w visits w'

def Visit.Inside (R : Resource V γ) (X : Row) (v : Visit V) : Prop :=
  ∀ perms, R.Asks v.call perms → v.before.Inside X v.user perms

theorem sameForeign_step (X : Row) (w : World) {e : SiteEvent} (he : e.Internal) :
    World.SameForeign X w (w.step e) := by
  have hevents : ∀ e' ∈ [e], e'.Internal := by simpa using he
  obtain ⟨now, t, hframe⟩ := World.history_frame hevents w
  rw [World.history_cons, World.history_nil] at hframe
  rw [hframe]
  exact fun r => ⟨Iff.rfl, fun _ _ => rfl⟩

/-- Whatever is called in whatever order, and whatever is administered meanwhile: as long as those
who call are allowed nothing beyond the tenant, they are shown rows of the tenant and no others,
and the rows of others stay, related to the same, and theirs. -/
theorem tenant_data_isolated {visits : List (Visit V)} (h : R.Hosted w)
    (hrun : R.Run w visits w') (hinside : ∀ v ∈ visits, v.Inside R X) :
    (∀ v ∈ visits, ∀ r ∈ v.shown, v.after.Belongs X (.stored r)) ∧
      World.SameForeign X w w' := by
  induction hrun with
  | start w => exact ⟨fun v hv => absurd hv List.not_mem_nil, .refl X w⟩
  | event he rest ih =>
    obtain ⟨hshown, hsame⟩ := ih (h.step he) hinside
    exact ⟨hshown, (sameForeign_step X _ he).trans hsame⟩
  | @call w w' visits user new call rest ih =>
    obtain ⟨hcall, hrest⟩ := List.forall_mem_cons.mp hinside
    have hstep : R.Hosted (R.respond w user new call).2 ∧
        World.SameForeign X w (R.respond w user new call).2 ∧
        ∀ r ∈ (R.respond w user new call).1,
          (R.respond w user new call).2.Belongs X (.stored r) := by
      rcases respond_outcome h user new call with ⟨hrows, hworld⟩ | ⟨perms, hasks, houtcome⟩
      · rw [hrows, hworld]
        exact ⟨h, .refl X w, fun r hr => absurd hr List.not_mem_nil⟩
      · exact houtcome.inside h (hcall perms hasks)
    obtain ⟨h', hsame, hshown⟩ := hstep
    obtain ⟨hshown', hsame'⟩ := ih h' hrest
    exact ⟨List.forall_mem_cons.mpr ⟨hshown, hshown'⟩, hsame.trans hsame'⟩

end Resource

namespace Queue

open Helpdesk

theorem bob_inside (perms : List String) : seeded.Inside acme bob perms where
  ordinary := rfl
  held x hx hheld := by
    obtain ⟨⟨a, L, ⟨ha, -, r, -, hfits, hreach, -⟩, huser⟩, -⟩ := hheld
    have hscope : ∀ a ∈ tables.assignments, a.user = bob.pk →
        db.generic a.scopeCt a.scopeId = .ok (some frontend) ∧ a.isRootScope = false := by decide
    obtain ⟨hs, hroot⟩ := hscope a ha huser
    have hacme : Reaches seeded.parent frontend acme := .step (by decide)
    exact absurd hreach (World.away_of_scope hs hroot hacme x hx r hfits)

def body (n : Pointer seeded ticket "team") (name : String) : Option (Written String) :=
  if name = "title" then some (.plain "Printer") else if name = "team" then some (.object n.val)
  else none

def filed (n : Pointer seeded ticket "team") : Resource.ClientCall String :=
  .http (.create (body n)) ""

example : (resource.respond seeded bob newTicket (filed ⟨some frontend, by decide⟩)).1 =
      [⟨ticket, "5"⟩] ∧
    (resource.respond seeded bob newTicket (filed ⟨some support, by decide⟩)).1 = [] := by
  decide +kernel

theorem bob_files :
    (∀ r ∈ (resource.respond seeded bob newTicket (filed ⟨some frontend, by decide⟩)).1,
      (resource.respond seeded bob newTicket (filed ⟨some frontend, by decide⟩)).2.Belongs acme
        (.stored r)) ∧
    World.SameForeign acme seeded
      (resource.respond seeded bob newTicket (filed ⟨some frontend, by decide⟩)).2 := by
  obtain ⟨hshown, hsame⟩ := Resource.tenant_data_isolated (X := acme) hosted
    (.call bob newTicket (filed ⟨some frontend, by decide⟩) (.start _)) fun v hv perms _ => by
      obtain rfl := List.mem_singleton.mp hv
      exact bob_inside perms
  exact ⟨hshown _ List.mem_cons_self, hsame⟩

end Queue

end Drf

end ScopedAccess
