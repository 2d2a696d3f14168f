import ScopedAccess.Drf.Requests
import ScopedAccess.Integrity

namespace ScopedAccess

open Lib.Walk (Reaches)
open Lib.Loop

structure Database.Changed {sc : Schema} (S : List Row) (db db' : Database sc) : Prop where
  rows : ∀ r ∉ S, (r ∈ db'.rows ↔ r ∈ db.rows)
  related : ∀ r ∉ S, ∀ f, db'.related r f = db.related r f
  plain : db'.plain = db.plain
  shown : db'.shown = db.shown
  satisfies : db'.satisfies = db.satisfies

def Schema.Leaf (sc : Schema) (m : Model) : Prop := ∀ m' f, sc.relatedModel m' f ≠ some m

theorem Schema.Leaf.relatedPath {sc : Schema} {m : Model} (h : sc.Leaf m) (m' : Model) (f : String)
    (rest : List String) : sc.relatedPath m' (f :: rest) ≠ some m := by
  induction rest generalizing m' f with
  | nil =>
    intro hpath
    obtain ⟨t, ht, hm⟩ := Option.bind_eq_some_iff.mp hpath
    obtain rfl := Option.some.inj hm
    exact h m' f ht
  | cons g rest ih =>
    intro hpath
    obtain ⟨t, -, hpath⟩ := Option.bind_eq_some_iff.mp hpath
    exact ih t g hpath

theorem Database.changed_drop {sc : Schema} {db : Database sc} {m : Model} (hleaf : sc.Leaf m)
    {gone : List Row} (hgone : ∀ r ∈ gone, r.model = m) : Changed gone db (db.drop gone) where
  rows r hr := by simp [drop, hr]
  related r hr f := by
    change (if r ∈ gone then none else (db.related r f).filter (· ∉ gone)) = _
    rw [if_neg hr]
    cases hs : db.related r f with
    | none => rfl
    | some s =>
      have hmodel := db.related_model hs
      exact Option.filter_some_pos (decide_eq_true fun h => hleaf _ _ (hgone s h ▸ hmodel))
  plain := rfl
  shown := rfl
  satisfies := rfl

theorem Drf.ModelClass.changed_put {V : Type} {w : World} {cls : ModelClass V w}
    (k : Key w cls.label) (x : Instance V w cls.label) :
    Database.Changed [row k] w.db (put k x) where
  rows r hr := by
    rw [List.mem_singleton] at hr
    change r ∈ (if row k ∈ w.db.rows then w.db.rows else w.db.rows ++ [row k]) ↔ _
    split <;> simp [hr]
  related r hr f := if_neg fun h => hr (List.mem_singleton.mpr h.1)
  plain := rfl
  shown := rfl
  satisfies := rfl

namespace World

variable {w : World}

section Changed

variable {m : Model} {S : List Row} {db' : Database w.site.schema}
  (hc : Database.Changed S w.db db') (hS : ∀ r ∈ S, r.model = m) (hleaf : w.site.schema.Leaf m)
  (hm : w.hierarchy.isNodeModel m = false)
include hc hS

section Leaf

include hleaf

theorem follow_changed {r : Row} (hr : r ∉ S) (path : List String) :
    db'.follow r path = w.db.follow r path := by
  induction path generalizing r with
  | nil => rfl
  | cons f path ih =>
    rw [Database.follow, Database.follow, hc.related r hr f]
    cases hs : w.db.related r f with
    | none => rfl
    | some s =>
      have hmodel := w.db.related_model hs
      exact ih fun h => hleaf _ _ (hS s h ▸ hmodel)

theorem followAttr_changed {r : Row} (hr : r ∉ S) (path : List String) :
    ({ w with db := db' } : World).followAttr (.stored r) path = w.followAttr (.stored r) path := by
  induction path generalizing r with
  | nil => rfl
  | cons f path ih =>
    rw [followAttr_cons, followAttr_cons, getattr_congr (hc.related r hr) hc.plain]
    rcases getattr_stored (w := w) r f with hget | ⟨-, hget⟩
    · rw [hget]
      cases hs : w.db.related r f with
      | none => rfl
      | some s =>
        have hmodel := w.db.related_model hs
        exact ih fun h => hleaf _ _ (hS s h ▸ hmodel)
    · rw [hget]
      cases path <;> rfl

theorem resolveAnchor_changed {r : Row} (hr : r ∉ S) :
    ({ w with db := db' } : World).resolveAnchor (.stored r) = w.resolveAnchor (.stored r) := by
  have hfollow (path : Accessor) : ({ w with db := db' } : World).followAttr (.stored r) path.parts =
      w.followAttr (.stored r) path.parts := followAttr_changed hc hS hleaf hr path.parts
  have hfollow (path : Accessor) :
      ({ w with db := db' } : World).followAttr (.object (.stored r)) path.parts =
        w.followAttr (.object (.stored r)) path.parts := hfollow path
  unfold resolveAnchor
  simp only [hfollow]
  rfl

end Leaf

include hm

omit hc hS in
theorem accessor_none : w.hierarchy.parentAccessorForModel m = none := by
  simp only [Hierarchy.isNodeModel, Bool.not_eq_false', List.isEmpty_iff] at hm
  rw [Hierarchy.parentAccessorForModel, hm]
  rfl

theorem parent_changed (hleaf : w.site.schema.Leaf m) :
    ({ w with db := db' } : World).parent = w.parent := by
  funext r
  change (w.hierarchy.parentAccessorForModel r.model).bind (db'.follow r ·.parts) =
    (w.hierarchy.parentAccessorForModel r.model).bind (w.db.follow r ·.parts)
  by_cases hr : r ∈ S
  · rw [hS r hr, accessor_none hm]
    rfl
  · congr 1
    funext path
    exact follow_changed hc hS hleaf hr path.parts

theorem parentAttr_changed (hleaf : w.site.schema.Leaf m) (r : Row) :
    ({ w with db := db' } : World).parentAttr (.stored r) = w.parentAttr (.stored r) := by
  change (w.hierarchy.parentAccessorForModel r.model).bind
      (({ w with db := db' } : World).followAttr (.stored r) ·.parts) =
    (w.hierarchy.parentAccessorForModel r.model).bind (w.followAttr (.stored r) ·.parts)
  by_cases hr : r ∈ S
  · rw [hS r hr, accessor_none hm]
    rfl
  · congr 1
    funext path
    exact followAttr_changed hc hS hleaf hr path.parts

theorem selects_changed {l : Level} (hl : l ∈ w.hierarchy.levels) (r : Row) :
    l.selects db' r = l.selects w.db r := by
  have hlevel : l.model ≠ some m := by
    intro heq
    rw [w.hierarchy.isNodeModel_iff.mpr ⟨l, hl, heq⟩] at hm
    cases hm
  by_cases hr : r ∈ S
  · simp [Level.selects, hS r hr, hlevel]
  · simp only [Level.selects, hc.rows r hr, hc.shown, hc.satisfies]

theorem nodeAt_changed {k : Nat} {r : Row} :
    ({ w with db := db' } : World).NodeAt k r ↔ w.NodeAt k r := by
  refine exists_congr fun l => and_congr_right fun hl => ?_
  rw [selects_changed hc hS hm (List.mem_of_getElem? hl)]

theorem Forest.changed (hleaf : w.site.schema.Leaf m) (hf : w.Forest) :
    ({ w with db := db' } : World).Forest where
  level hj hk := hf.level ((nodeAt_changed hc hS hm).mp hj) ((nodeAt_changed hc hS hm).mp hk)
  parent hr hs := by
    rw [parentAttr_changed hc hS hm hleaf] at hs
    obtain ⟨j, hj, s, rfl, hnode⟩ := hf.parent ((nodeAt_changed hc hS hm).mp hr) hs
    exact ⟨j, hj, s, rfl, (nodeAt_changed hc hS hm).mpr hnode⟩

end Changed

theorem resolveAnchor_congr {o o' : Obj} (hmodel : o'.model = o.model)
    (hm : w.hierarchy.isNodeModel o.model = false)
    (hfollow : ∀ path, w.site.resources.anchorFor o.model = some path →
      w.followAttr o path.parts = w.followAttr o' path.parts) :
    w.resolveAnchor o = w.resolveAnchor o' := by
  unfold resolveAnchor
  rw [hmodel, hm]
  cases hpath : w.site.resources.anchorFor o.model with
  | none => rfl
  | some path =>
    simp only [hfollow path hpath]
    rfl

end World

namespace Drf

section Stored

variable {V : Type} {w : World} {cls : ModelClass V w}

theorem ModelClass.load_some {r : Row} {x : Instance V w cls.label} (h : cls.load r = some x) :
    ∃ k ∈ x.pk, ModelClass.row k = r := by
  unfold ModelClass.load at h
  split at h
  · rename_i hr
    obtain rfl := Option.some.inj h
    refine ⟨_, rfl, ?_⟩
    obtain ⟨m, pk⟩ := r
    obtain rfl : m = cls.label := hr.2
    rfl
  · cases h

theorem foldlM_assign_pk {items : Data V} (h : ∀ item ∈ items, ∃ f, cls.getField item.1 = some f ∧
      f.kind ≠ .primaryKey) {x y : Instance V w cls.label}
    (hy : items.foldlM cls.assign x = .ok y) : y.pk = x.pk := by
  induction items generalizing x with
  | nil =>
    obtain rfl : x = y := by simpa using hy
    rfl
  | cons item items ih =>
    rw [List.foldlM_cons] at hy
    obtain ⟨x', hx', hy⟩ := bind_eq_ok.mp hy
    rw [ih (fun i hi => h i (List.mem_cons_of_mem _ hi)) hy]
    obtain ⟨f, hf, hkind⟩ := h item List.mem_cons_self
    simp only [ModelClass.assign, ModelClass.setattr, hf] at hx'
    exact setField_pk hkind hx'

theorem Serializer.save_row {s : Serializer cls} {new : cls.NewKey} {y : Instance V w cls.label}
    {w' : World} (hfields : ∀ item ∈ s.validatedData, ∃ f, cls.getField item.1 = some f ∧
      f.kind ≠ .primaryKey) (h : s.save new = .ok (y, w')) :
    match s.instance_ with
    | some i => y.pk = some ((s.heap.get i).pk.getD new.key)
    | none => ModelClass.row (y.pk.getD new.key) ∉ w.db.rows := by
  obtain ⟨x, hx, hsaved⟩ := bind_eq_ok.mp h
  unfold Serializer.build at hx
  cases hinstance : s.instance_ with
  | some i =>
    simp only [hinstance] at hx hsaved
    obtain ⟨rfl, -⟩ := Prod.mk.inj (Except.ok.inj hsaved)
    have hkey := foldlM_assign_pk (fun item hitem => hfields item (List.mem_filter.mp hitem).1) hx
    exact congrArg (fun key => some (key.getD new.key)) hkey
  | none =>
    simp only [hinstance, Option.isNone_none, Bool.true_and] at hsaved
    split at hsaved
    · cases hsaved
    · rename_i hnew
      obtain ⟨rfl, -⟩ := Prod.mk.inj (Except.ok.inj hsaved)
      simpa using hnew

theorem Anchored.resolveAnchor_put (an : Anchored cls)
    (hnode : w.hierarchy.isNodeModel cls.label = false)
    (hanchor : w.site.resources.anchorFor cls.label = some an.path) (k : Key w cls.label)
    (y : Instance V w cls.label) :
    (ModelClass.stored k y).resolveAnchor (.stored (ModelClass.row k)) =
      (ModelClass.stored k y).resolveAnchor (y.obj cls) := by
  have hstores : cls.stores an.field.name := by
    rw [ModelClass.stores, List.any_eq_true]
    exact ⟨an.field, an.mem, by simp [an.kind]⟩
  obtain ⟨m, hm⟩ := Option.isSome_iff_exists.mp an.related
  have hrelated : (ModelClass.stored k y).db.related (ModelClass.row k) an.field.name =
      (y.related an.field.name).val := if_pos ⟨rfl, hstores⟩
  have hfollow : (ModelClass.stored k y).followAttr (.stored (ModelClass.row k)) an.path.parts =
      (ModelClass.stored k y).followAttr (y.obj cls) an.path.parts := by
    refine Eq.trans ?_ (an.followAttr_obj (ModelClass.put k y) y).symm
    rw [Accessor.parts, World.followAttr_cons, ← an.name, World.getattr_relation hm, hrelated,
      Anchored.lead]
    cases (y.related an.field.name).val <;> rfl
  refine World.resolveAnchor_congr rfl hnode fun path hpath => ?_
  obtain rfl : an.path = path := Option.some.inj (hanchor.symm.trans hpath)
  exact hfollow

end Stored

namespace Resource

variable {V γ : Type} {R : Resource V γ} {w : World} {X : Row}

/-- The site decides about the resource: its rows are anchored, by the relation the resource
names, at nodes of a hierarchy that is in order. -/
structure Hosted (R : Resource V γ) (w : World) : Prop where
  documented : w.hierarchy.Documented w.site.schema
  forest : w.Forest
  wellFormed : w.WellFormed
  grounded : w.Grounded
  notNode : w.hierarchy.isNodeModel R.model = false
  leaf : w.site.schema.Leaf R.model
  anchorFor : ∃ path m, w.site.resources.anchorFor R.model = some path ∧
    R.anchor.name = path.first ∧ w.site.schema.relatedPath R.model path.parts = some m ∧
    ∀ n ∈ w.db.rows, n.model = m → ∃ k, w.NodeAt k n

theorem Hosted.resources (h : R.Hosted w) : w.Resources R.model := by
  obtain ⟨path, m, hpath, -, hrelated, hnodes⟩ := h.anchorFor
  refine ⟨h.notNode, fun r path' n hr hpath' hn => ?_⟩
  obtain rfl := Option.some.inj (hpath.symm.trans hpath')
  have hmodel := w.db.follow_model hn
  rw [hr, hrelated] at hmodel
  exact hnodes n (w.db.follow_mem (by simp [Accessor.parts]) hn) (Option.some.inj hmodel).symm

theorem Hosted.changed (h : R.Hosted w) {S : List Row} {db' : Database w.site.schema}
    (hc : Database.Changed S w.db db') (hS : ∀ r ∈ S, r.model = R.model) :
    R.Hosted { w with db := db' } := by
  have hm := h.notNode
  have hnodeAt {k : Nat} {r : Row} := World.nodeAt_changed (k := k) (r := r) hc hS hm
  refine ⟨h.documented, h.forest.changed hc hS hm h.leaf, ?_, ?_, hm, h.leaf, ?_⟩
  · exact h.wellFormed.of_selects fun l hl r _ hsel =>
      (World.selects_changed hc hS hm hl r).symm ▸ hsel
  · refine ⟨⟨h.grounded.relations, ?_⟩, h.grounded.anchors⟩
    rw [World.parent_changed hc hS hm h.leaf]
    exact h.grounded.parents
  · obtain ⟨path, m, hpath, hname, hrelated, hnodes⟩ := h.anchorFor
    refine ⟨path, m, hpath, hname, hrelated, fun n hn hnm => ?_⟩
    have hne : n ∉ S := by
      intro hn
      refine h.leaf.relatedPath R.model path.first path.rest (hrelated.trans ?_)
      rw [← hnm, hS n hn]
    obtain ⟨k, hk⟩ := hnodes n ((hc.rows n hne).mp hn) hnm
    exact ⟨k, hnodeAt.mpr hk⟩

theorem Hosted.frame (h : R.Hosted w) (now : Time) (t : Tables)
    (hw : ({ w with now := now, tables := t } : World).WellFormed) :
    R.Hosted { w with now := now, tables := t } :=
  ⟨h.documented, ⟨h.forest.level, h.forest.parent⟩, hw, h.grounded.frame now t, h.notNode, h.leaf,
    h.anchorFor⟩

theorem Hosted.step (h : R.Hosted w) {e : SiteEvent} (he : e.Internal) : R.Hosted (w.step e) := by
  have hevents : ∀ e' ∈ [e], e'.Internal := by simpa using he
  refine World.history_keeps (P := R.Hosted) (fun {w actor call t rc} _ h hwrite => ?_)
    (fun {w} elapsed h => ?_) (fun _ hhost _ => hhost.elim) (fun {w} change _ h => ?_) hevents h
  · exact h.frame _ t (h.wellFormed.write h.documented.names hwrite)
  · exact h.frame _ w.tables (h.wellFormed.tick elapsed)
  · exact h.frame _ _ (h.wellFormed.users change)

theorem Hosted.anchored (h : R.Hosted w) : ∃ an : Anchored (R.cls w), an.field = R.anchor ∧
    w.site.resources.anchorFor R.model = some an.path := by
  obtain ⟨path, m, hpath, hname, hrelated, -⟩ := h.anchorFor
  obtain ⟨m', hm', -⟩ := Option.bind_eq_some_iff.mp hrelated
  exact ⟨{
    path := path
    field := R.anchor
    mem := R.cls_fields w ▸ R.anchor_mem
    kind := R.anchor_kind
    name := hname
    related := by rw [R.cls_label, hname]; exact Option.isSome_of_eq_some hm' }, rfl, hpath⟩

theorem Hosted.notNode_cls (h : R.Hosted w) : w.hierarchy.isNodeModel (R.cls w).label = false :=
  (R.cls_label w).symm ▸ h.notNode

theorem getField_writable {n : String} (hn : n ∈ R.writable) :
    ∃ f, (R.cls w).getField n = some f ∧ f.kind ≠ .primaryKey := by
  obtain ⟨f, hf, hnames, hkind⟩ := R.writable_field n hn
  exact ⟨f, ModelClass.getField_of_mem (R.cls_fields w ▸ hf) hnames, hkind⟩

theorem Hosted.judges (h : R.Hosted w) {s : Serializer (R.cls w)} {new : (R.cls w).NewKey}
    {y : Instance V w (R.cls w).label} {w' : World}
    (hnames : (s.validatedData.map Prod.fst).Sublist R.writable)
    (hsave : s.save new = .ok (y, w')) : Judges s y w' := by
  obtain ⟨an, hfield, hpath⟩ := h.anchored
  have hlabel := R.cls_label w
  let pl : Placing (R.cls w) := {
    relation := some an
    anchorFor := fun _ => hlabel ▸ hpath
    accessor := fun htrue => absurd (h.notNode_cls.symm.trans htrue) (by simp) }
  refine pl.judges_of_foreseen hsave (pl.foreseen_of_fields h.notNode_cls (fun item hitem => ?_)
    (fun an' han' => ?_) fun an' han' before f after _ hback => ?_)
  · obtain ⟨f, hf, -⟩ := getField_writable (w := w) (hnames.subset (List.mem_map_of_mem hitem))
    rw [hf]
    rfl
  · obtain rfl := Option.some.inj han'
    rw [hfield]
    exact fun hsub => R.writable_order (hsub.trans hnames)
  · rw [hlabel] at hback
    exact h.leaf.relatedPath _ _ _ hback

def AllowsRow (R : Resource V γ) (w : World) (user : User) (perms : List String) (r : Row) :
    Prop :=
  r.model = R.model ∧ (allowed user perms (.stored r)).run w = .ok true

/-- What may come of a call: rows that the user is allowed are shown; such rows are deleted; or
one is stored that the user is allowed as it is then, and if it was there, as it was. -/
inductive Outcome (R : Resource V γ) (w : World) (user : User) (perms : List String) :
    List Row → World → Prop
  | shown {rows : List Row} (h : ∀ r ∈ rows, R.AllowsRow w user perms r) :
      Outcome R w user perms rows w
  | stored {k : Key w (R.cls w).label} {y : Instance V w (R.cls w).label}
      (hold : ModelClass.row k ∈ w.db.rows → R.AllowsRow w user perms (ModelClass.row k))
      (hnew : (allowed user perms (y.obj (R.cls w))).run w = .ok true) :
      Outcome R w user perms [ModelClass.row k] (ModelClass.stored k y)
  | deleted {gone : List Row} (h : ∀ r ∈ gone, R.AllowsRow w user perms r) :
      Outcome R w user perms [] { w with db := w.db.drop gone }

theorem Outcome.nothing (user : User) (perms : List String) : R.Outcome w user perms [] w :=
  .shown fun _ hr => absurd hr List.not_mem_nil

section Outcome

variable {user : User} {method content : String}

theorem allowsRow_of_getObject (h : R.Hosted w) {actions : String → Option String} {pk : Pk}
    {r : Row} (hget : ((R.viewSet.asView actions).plainly w ⟨method, user, content⟩).getObject R.host w
      R.viewSet.optsOf ⟨method, user, content⟩ pk = .ok (some r)) :
    ∃ perms, R.viewSet.required method = .ok perms ∧ R.AllowsRow w user perms r := by
  obtain ⟨⟨qs, hqs, hr, -⟩, ⟨perms, hperms, hheld⟩, hcovers, -⟩ := ViewSet.getObject_some hget
  exact ⟨perms, hperms, (QuerySet.model_of_mem hr).trans (ViewSet.shown_model hqs),
    (ViewSet.allowed_served h.wellFormed h.grounded).mpr ⟨hheld, hcovers⟩⟩

theorem outcome_of_save (h : R.Hosted w) {actions : String → Option String}
    {s : Serializer (R.cls w)} {new : (R.cls w).NewKey} {stored : Row × World}
    (hnames : (s.validatedData.map Prod.fst).Sublist R.writable)
    (hold : ∀ i, s.instance_ = some i → ∃ r, (R.cls w).load r = some (s.heap.get i) ∧
      ∃ perms, R.viewSet.required method = .ok perms ∧ R.AllowsRow w user perms r)
    (hperform : ((R.viewSet.asView actions).plainly w ⟨method, user, content⟩).performSave ⟨method, user, content⟩
      s new = .ok stored) :
    ∃ perms, R.viewSet.required method = .ok perms ∧
      R.Outcome w user perms [stored.1] stored.2 := by
  obtain ⟨⟨candidate, heap⟩, hpayload, hperform⟩ := bind_eq_ok.mp hperform
  obtain ⟨perms, hperms, hperform⟩ := bind_eq_ok.mp hperform
  obtain ⟨⟨⟩, hguard, hperform⟩ := bind_eq_ok.mp hperform
  obtain ⟨⟨y, w'⟩, hsave, hstored⟩ := bind_eq_ok.mp hperform
  obtain rfl := pure_eq_ok.mp hstored
  have hasked : (R.viewSet.asView actions).asked (some ⟨method, user, content⟩) (actions method)
      (R.cls w).label = .ok perms := hperms
  rw [ViewSet.asked_asView, R.cls_label] at hasked
  obtain ⟨required, hrequired, rfl⟩ := map_eq_ok.mp hasked
  obtain ⟨x, -, hy, rfl⟩ := Serializer.save_ok hsave
  have hkey : y.pk.getD new.key = x.pk.getD new.key := by rw [hy, Option.getD_some]
  rw [hkey]
  refine ⟨required, hrequired, .stored (fun hmem => ?_) ?_⟩
  · have hrow := s.save_row (fun item hitem =>
      getField_writable (hnames.subset (List.mem_map_of_mem hitem))) hsave
    cases hinstance : s.instance_ with
    | none =>
      simp only [hinstance, hkey] at hrow
      exact absurd hmem hrow
    | some i =>
      simp only [hinstance] at hrow
      obtain ⟨r, hload, perms, hperms, hr⟩ := hold i hinstance
      obtain rfl : required = perms := Except.ok.inj (hrequired.symm.trans hperms)
      obtain ⟨k, hk, rfl⟩ := ModelClass.load_some hload
      rw [← hkey, hrow, Option.getD_some, hk, Option.getD_some]
      exact hr
  · obtain ⟨candidate', heap', c, hpayload', hc, -, -, hjudges⟩ := (h.judges hnames hsave).judged
    obtain ⟨rfl, rfl⟩ := Prod.mk.inj (Except.ok.inj (hpayload.symm.trans hpayload'))
    rw [hc, Option.getD_some] at hguard
    have hallowed := (hjudges user required.eraseDups).mp hguard
    rw [ViewSet.allowed_served h.wellFormed h.grounded] at hallowed ⊢
    simpa using hallowed

theorem serve_outcome (h : R.Hosted w) {new : (R.cls w).NewKey} {call : HttpCall V}
    {rows : List Row} {w' : World} (hserve : R.serve w user content new call = .ok (rows, w')) :
    (rows = [] ∧ w' = w) ∨ ∃ perms, R.viewSet.required call.method = .ok perms ∧
      R.Outcome w user perms rows w' := by
  cases call with
  | list =>
    obtain ⟨L, hL, hserve⟩ := bind_eq_ok.mp hserve
    obtain ⟨rfl, rfl⟩ := Prod.mk.inj (pure_eq_ok.mp hserve)
    have hL := respond_list.symm.trans hL
    have hrow {r : Row} (hr : r ∈ L) := (ViewSet.list_iff h.documented h.forest h.wellFormed
      h.grounded h.resources rfl).mp ⟨L, hL, hr⟩
    cases L with
    | nil => exact .inl ⟨rfl, rfl⟩
    | cons r₀ L =>
      obtain ⟨-, perms, hperms, -, -⟩ := hrow List.mem_cons_self
      refine .inr ⟨perms, hperms, .shown fun r hr => ?_⟩
      obtain ⟨hbase, perms', hperms', hallowed, -⟩ := hrow hr
      obtain rfl := Except.ok.inj (hperms.symm.trans hperms')
      exact ⟨QuerySet.model_of_mem hbase, hallowed⟩
  | retrieve pk =>
    obtain ⟨found, hfound, hserve⟩ := bind_eq_ok.mp hserve
    obtain ⟨rfl, rfl⟩ := Prod.mk.inj (pure_eq_ok.mp hserve)
    have hfound := (respond_retrieve pk).symm.trans hfound
    obtain ⟨-, -, hfound⟩ := bind_eq_ok.mp hfound
    cases found with
    | none => exact .inl ⟨rfl, rfl⟩
    | some r =>
      obtain ⟨perms, hperms, hr⟩ := allowsRow_of_getObject h hfound
      exact .inr ⟨perms, hperms, .shown fun r' hr' => List.mem_singleton.mp hr' ▸ hr⟩
  | create body =>
    obtain ⟨stored, hstored, hserve⟩ := bind_eq_ok.mp hserve
    obtain ⟨rfl, rfl⟩ := Prod.mk.inj (pure_eq_ok.mp hserve)
    rw [respond_eq (Endpoints.create_gives onView_gives.1 onView_gives.2.1 onView_gives.2.2 _ _ _)]
      at hstored
    obtain ⟨-, -, hstored⟩ := bind_eq_ok.mp hstored
    exact .inr (outcome_of_save h (R.validatedData_names body) (fun i hi => by cases hi) hstored)
  | update pk body | partialUpdate pk body =>
    obtain ⟨stored, hstored, hserve⟩ := bind_eq_ok.mp hserve
    rw [respond_eq (Endpoints.update_gives onView_gives.1 onView_gives.2.1 onView_gives.2.2 _ _ _
      pk)] at hstored
    obtain ⟨-, -, hstored⟩ := bind_eq_ok.mp hstored
    obtain ⟨found, hfound, hstored⟩ := bind_eq_ok.mp hstored
    cases hload : found.bind (R.cls w).load with
    | none =>
      simp only [hload] at hstored
      obtain rfl := pure_eq_ok.mp hstored
      obtain ⟨rfl, rfl⟩ := Prod.mk.inj (pure_eq_ok.mp hserve)
      exact .inl ⟨rfl, rfl⟩
    | some x =>
      simp only [hload] at hstored
      obtain ⟨saved, hsaved, hstored⟩ := bind_eq_ok.mp hstored
      obtain rfl := pure_eq_ok.mp hstored
      obtain ⟨rfl, rfl⟩ := Prod.mk.inj (pure_eq_ok.mp hserve)
      obtain ⟨r, rfl, hr⟩ := Option.bind_eq_some_iff.mp hload
      refine .inr (outcome_of_save h (R.validatedData_names body) (fun i hi => ?_) hsaved)
      obtain rfl : 0 = i := Option.some.inj hi
      exact ⟨r, hr, allowsRow_of_getObject h hfound⟩
  | destroy pk =>
    obtain ⟨deleted, hdeleted, hserve⟩ := bind_eq_ok.mp hserve
    obtain ⟨rfl, rfl⟩ := Prod.mk.inj (pure_eq_ok.mp hserve)
    rw [respond_eq (Endpoints.destroy_gives onView_gives.1 onView_gives.2.1 pk)] at hdeleted
    obtain ⟨-, -, hdeleted⟩ := bind_eq_ok.mp hdeleted
    obtain ⟨found, hfound, hdeleted⟩ := bind_eq_ok.mp hdeleted
    cases found with
    | none =>
      obtain rfl := pure_eq_ok.mp hdeleted
      exact .inl ⟨rfl, rfl⟩
    | some r =>
      obtain rfl := pure_eq_ok.mp hdeleted
      obtain ⟨perms, hperms, hr⟩ := allowsRow_of_getObject h hfound
      exact .inr ⟨perms, hperms, .deleted fun r' hr' => List.mem_singleton.mp hr' ▸ hr⟩

end Outcome

end Resource

namespace Queue

open Helpdesk

def teamField : Field := ⟨.foreignKey, "team", "team_id"⟩

def ticketFields : List Field := [⟨.primaryKey, "id", "id"⟩, ⟨.concrete, "title", "title"⟩, teamField]

def ticketClass (w : World) : ModelClass String w where
  label := ticket
  fields := ticketFields
  descriptor _ := none
  blank := { related _ := ⟨none, nofun⟩ }
  fields_apart := by decide
  attname_ne := by decide
  blank_new := nofun

def resource : Resource String Unit where
  viewSet := tickets
  host := plainHost
  cls := ticketClass
  fields := ticketFields
  writable := ["title", "team"]
  anchor := teamField
  cls_label _ := rfl
  cls_fields _ := rfl
  writable_nodup := by decide
  writable_field := by decide
  writable_order := by decide
  anchor_mem := by decide
  anchor_kind := rfl

theorem team_nodes : ∀ n ∈ db.rows, n.model = team → ∃ k, seeded.NodeAt k n := by
  intro n hn hteam
  have hshown : db.shown n = true := rfl
  exact ⟨1, _, rfl, by simp [Level.selects, hteam, hn, hshown, seeded, world]⟩

theorem hosted : resource.Hosted seeded where
  documented := documented
  forest := Helpdesk.forest
  wellFormed := wellFormed tables (by decide) (by decide) (by decide)
  grounded := grounded db 10 tables
  notNode := by decide
  leaf m f hm := by
    have h : schema.relatedModel m f = some ticket := hm
    simp only [schema] at h
    split at h
    · exact absurd h (by decide)
    · split at h
      · exact absurd h (by decide)
      · cases h
  anchorFor := ⟨{ first := "team" }, team, rfl, rfl, by decide, team_nodes⟩

def newTicket : (resource.cls seeded).NewKey := ⟨⟨"5", by decide⟩, by decide⟩

end Queue

end Drf

end ScopedAccess
