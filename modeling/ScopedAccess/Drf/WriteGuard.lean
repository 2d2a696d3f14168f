import ScopedAccess.Drf.Saving
import ScopedAccess.Engine.Settling

namespace ScopedAccess.Drf

open Lib.Walk (nth)
open Lib.Loop

variable {V : Type} {w : World}

/-- The instances in memory, by their address. -/
abbrev Heap (cls : ModelClass V w) : Type := List (Instance V w cls.label)

def Heap.setattr {cls : ModelClass V w} (heap : Heap cls) (at_ : Nat) (item : String × Written V) :
    Py (Heap cls) :=
  match heap[at_]? with
  | none => .ok heap
  | some x => do return heap.set at_ (← cls.assign x item)

structure Serializer (cls : ModelClass V w) where
  heap : Heap cls
  instance_ : Option (Fin heap.length)
  validatedData : Data V
  keys : (validatedData.map Prod.fst).Nodup

namespace Serializer

variable {cls : ModelClass V w} (s : Serializer cls)

def start : Instance V w cls.label := (s.instance_.map s.heap.get).getD cls.blank

def build : Py (Instance V w cls.label) :=
  match s.instance_ with
  | some i => cls.update (s.heap.get i) s.validatedData
  | none => cls.construct (s.validatedData.filter (!cls.toMany ·))

def save (new : cls.NewKey) : Py (Instance V w cls.label × World) := do
  let x ← s.build
  let key := x.pk.getD new.key
  -- `create` inserts: a key that is there already is refused
  if s.instance_.isNone && ModelClass.row key ∈ w.db.rows then
    throwing .integrityError "UNIQUE constraint failed"
  else return ({ x with pk := some key }, ModelClass.stored key { x with pk := some key })

end Serializer

variable {cls : ModelClass V w}

/-- `_apply_payload`: the address of the candidate, and the heap with it. -/
def applyPayload (s : Serializer cls) : Py (Nat × Heap cls) := do
  let candidate := s.heap.length
  let heap ← s.validatedData.foldlM (fun heap item =>
    match cls.getField item.1 with
    | none => pure heap
    | some field =>
      if field.kind = .manyToMany || field.kind = .oneToMany then pure heap
      else Heap.setattr heap candidate item) (s.heap ++ [s.start])
  return (candidate, heap)

/-- The row the engine takes for an instance: without a key it is `str(None)`. -/
def ModelClass.rowOf (cls : ModelClass V w) (key : Option (Key w cls.label)) : Row :=
  ⟨cls.label, (key.map Subtype.val).getD "None"⟩

def Instance.obj (cls : ModelClass V w) (x : Instance V w cls.label) : Obj where
  row := cls.rowOf x.pk
  edits := (cls.fields.filter (·.kind = .foreignKey)).map fun f =>
    ({ first := f.name }, (x.related f.name).val)

def allowed (user : User) (permissions : List String) (o : Obj) : Read Bool :=
  if permissions.isEmpty then userCovers user o none
  else permissions.allM fun permission => hasPerm user permission (some o) none

def assertTargetScope (user : User) (permissions : List String) (candidate : Obj) : Read Unit := do
  if ← allowed user permissions candidate then return ()
  else (throwing .permissionDenied "Target scope is outside your scope." : Py Unit)

/-- A path that begins with a foreign key of the model. -/
structure Anchored (cls : ModelClass V w) where
  path : Accessor
  field : Field
  mem : field ∈ cls.fields
  kind : field.kind = .foreignKey
  name : field.name = path.first
  related : (w.site.schema.relatedModel cls.label field.name).isSome

/-- How the engine comes to a node from an instance: by the anchor path of the model, or,
from a node to the one above, by the parent accessor, if there is any. -/
structure Placing (cls : ModelClass V w) where
  relation : Option (Anchored cls)
  anchorFor : w.hierarchy.isNodeModel cls.label = false →
    w.site.resources.anchorFor cls.label = relation.map Anchored.path
  accessor : w.hierarchy.isNodeModel cls.label →
    w.hierarchy.parentAccessorForModel cls.label = relation.map Anchored.path

def Known (w : World) (r : Row) : Prop :=
  ∃ k, w.site.schema.toPk r.model r.pk = .ok k ∧ ⟨r.model, k⟩ ∈ w.db.rows

/-- For the engine the rows are one, or neither is there. -/
def SameRow (w : World) (r r' : Row) : Prop := r = r' ∨ ¬ Known w r ∧ ¬ Known w r'

/-- The anchors are the same.  A node is its own: both are below the same nodes. -/
def SameAnchor (w w' : World) (o o' : Obj) : Prop :=
  if w.hierarchy.isNodeModel o.model then
    SameRow w o.row o'.row ∧ ∀ j, nth w.parentAttr (j + 1) o = nth w'.parentAttr (j + 1) o'
  else w.resolveAnchor o = w'.resolveAnchor o'

/-- The guard judges the object that is saved: it finds its anchor, admits the write just if
the caller is allowed the object, and leaves the instance alone. -/
structure Judges (s : Serializer cls) (y : Instance V w cls.label) (w' : World) : Prop where
  judged : ∃ candidate heap c, applyPayload s = .ok (candidate, heap) ∧
    heap[candidate]? = some c ∧ (∀ i, i < s.heap.length → heap[i]? = s.heap[i]?) ∧
    SameAnchor w w' (c.obj cls) (y.obj cls) ∧
    ∀ user permissions, (assertTargetScope user permissions (c.obj cls)).run w = .ok () ↔
      (allowed user permissions (y.obj cls)).run w = .ok true

def Anchored.lead (an : Anchored cls) (w' : World) (x : Instance V w cls.label) : Option Attr :=
  (x.related an.field.name).val.bind fun r => w'.followAttr (.stored r) an.path.rest

def ModelClass.single (cls : ModelClass V w) (item : String × Written V) : Bool :=
  (cls.getField item.1).any (!·.toMany)

theorem foldlM_candidate (older : Heap cls) (x : Instance V w cls.label) (items : Data V) :
    items.foldlM (fun heap item =>
      match cls.getField item.1 with
      | none => pure heap
      | some field =>
        if field.kind = .manyToMany || field.kind = .oneToMany then pure heap
        else Heap.setattr heap older.length item) (older ++ [x]) =
      ((items.filter cls.single).foldlM cls.assign x).map fun c => older ++ [c] := by
  induction items generalizing x with
  | nil => rfl
  | cons item items ih =>
    rw [List.foldlM_cons]
    cases hfield : cls.getField item.1 with
    | none =>
      rw [List.filter_cons_of_neg (by simp [ModelClass.single, hfield])]
      exact ih x
    | some field =>
      cases hmany : field.toMany with
      | true =>
        rw [List.filter_cons_of_neg (by simp [ModelClass.single, hfield, hmany])]
        have hskip : (field.kind = .manyToMany || field.kind = .oneToMany) = true := hmany
        simp only [hskip, if_true, pure_py, ok_bind]
        exact ih x
      | false =>
        rw [List.filter_cons_of_pos (by simp [ModelClass.single, hfield, hmany]),
          List.foldlM_cons]
        have hkeep : (field.kind = .manyToMany || field.kind = .oneToMany) = false := hmany
        have hat : (older ++ [x])[older.length]? = some x := by simp
        simp only [hkeep, Bool.false_eq_true, if_false, Heap.setattr, hat]
        cases hx : cls.assign x item with
        | error e => rfl
        | ok x' =>
          simp only [ok_bind, pure_py, List.set_append_right _ _ (Nat.le_refl _), Nat.sub_self,
            List.set_cons_zero]
          exact ih x'

theorem run_applyPayload (s : Serializer cls) :
    applyPayload s = ((s.validatedData.filter cls.single).foldlM cls.assign s.start).map
      fun c => (s.heap.length, s.heap ++ [c]) := by
  rw [applyPayload]
  simp only [foldlM_candidate]
  cases (s.validatedData.filter cls.single).foldlM cls.assign s.start <;> rfl

theorem mem_of_foldlM {α β : Type} {f : β → α → Py β} {as : List α} {b b' : β}
    (h : as.foldlM f b = .ok b') {a : α} (ha : a ∈ as) : ∃ c c', f c a = .ok c' := by
  induction as generalizing b with
  | nil => cases ha
  | cons a' as ih =>
    rw [List.foldlM_cons] at h
    obtain ⟨c, hc, h⟩ := bind_eq_ok.mp h
    rcases List.mem_cons.mp ha with rfl | ha
    · exact ⟨b, c, hc⟩
    · exact ih h ha

theorem foldlM_single (items : Data V)
    (h : ∀ item ∈ items, cls.single item ∧ ∃ x y, cls.assign x item = .ok y)
    (x : Instance V w cls.label) : ∃ c, items.foldlM cls.assign x = .ok c := by
  induction items generalizing x with
  | nil => exact ⟨x, rfl⟩
  | cons item items ih =>
    obtain ⟨hsingle, x₀, y₀, hy₀⟩ := h item List.mem_cons_self
    obtain ⟨f, hf⟩ : ∃ f, cls.getField item.1 = some f := by
      cases hfield : cls.getField item.1 with
      | none => simp [ModelClass.single, hfield] at hsingle
      | some f => exact ⟨f, rfl⟩
    simp only [ModelClass.assign, ModelClass.setattr, hf] at hy₀
    obtain ⟨y, hy⟩ := ModelClass.setField_total hy₀ x
    obtain ⟨c, hc⟩ := ih (fun i hi => h i (List.mem_cons_of_mem _ hi)) y
    have hstep : cls.assign x item = .ok y := by
      simp only [ModelClass.assign, ModelClass.setattr, hf]
      exact hy
    exact ⟨c, by rw [List.foldlM_cons, hstep]; exact hc⟩

theorem lookup_map_names {β : Type} (g : String → β) {fs : List Field} {f : Field} (hf : f ∈ fs) :
    (fs.map fun f => (({ first := f.name } : Accessor), g f.name)).lookup { first := f.name } =
      some (g f.name) := by
  induction fs with
  | nil => cases hf
  | cons f' fs ih =>
    rw [List.map_cons, List.lookup_cons]
    by_cases heq : f.name = f'.name
    · rw [heq]
      simp
    · have hne : ({ first := f.name } : Accessor) ≠ { first := f'.name } := by simpa using heq
      rw [beq_eq_false_iff_ne.mpr hne]
      exact ih ((List.mem_cons.mp hf).resolve_left fun h => heq (congrArg Field.name h))

theorem under_obj (x : Instance V w cls.label) (name : String) : (x.obj cls).under name = [] := by
  refine List.filterMap_eq_nil_iff.mpr fun e he => ?_
  obtain ⟨f, -, rfl⟩ := List.mem_map.mp he
  rfl

theorem Anchored.followAttr_obj (an : Anchored cls) (db : Database w.site.schema)
    (x : Instance V w cls.label) :
    ({ w with db := db } : World).followAttr (x.obj cls) an.path.parts =
      an.lead { w with db := db } x := by
  obtain ⟨m, hm⟩ := Option.isSome_iff_exists.mp an.related
  have hfirst : (x.obj cls).edits.lookup { first := an.path.first } =
      some (x.related an.field.name).val := by
    rw [← an.name]
    exact lookup_map_names (fun n => (x.related n).val)
      (List.mem_filter.mpr ⟨an.mem, by simp [an.kind]⟩)
  have hgetattr : ({ w with db := db } : World).getattr an.path.first (x.obj cls) =
      (x.related an.field.name).val.map .stored := by
    have hmodel : w.site.schema.relatedModel (x.obj cls).model an.path.first = some m :=
      an.name ▸ hm
    simp only [World.getattr, hmodel, World.relatedObj, hfirst, Option.getD_some, under_obj]
    cases htarget : (x.related an.field.name).val with
    | none => rfl
    | some r =>
      have hr : r.model = m :=
        (Option.some.inj (hm.symm.trans ((x.related an.field.name).property r htarget).1)).symm
      have hfilter : (some ({ row := r } : Obj)).filter (fun o => decide (o.model = m)) =
          some { row := r } := Option.filter_some_pos (decide_eq_true hr)
      simp only [Option.map_some, hfilter]
      rfl
  rw [Accessor.parts, World.followAttr_cons, hgetattr, lead]
  cases (x.related an.field.name).val <;> rfl

theorem Anchored.lead_follow (an : Anchored cls)
    (h : (w.site.schema.relatedPath cls.label an.path.parts).isSome) (x : Instance V w cls.label) :
    an.lead w x =
      ((x.related an.field.name).val.bind (w.db.follow · an.path.rest)).map .stored := by
  unfold lead
  cases hs : (x.related an.field.name).val with
  | none => rfl
  | some s =>
    obtain ⟨m, hm⟩ := Option.isSome_iff_exists.mp h
    obtain ⟨m', hm', hrest⟩ := Option.bind_eq_some_iff.mp hm
    have hmodel := ((x.related an.field.name).property s hs).1
    rw [an.name, hm'] at hmodel
    obtain rfl := Option.some.inj hmodel
    exact World.followAttr_follow hrest

def anchorAt (found : Option Attr) : Anchor := found.elim .denied .node

theorem anchorAt_injective {a b : Option Attr} (h : anchorAt a = anchorAt b) : a = b := by
  cases a <;> cases b <;> cases h <;> rfl

theorem Anchored.resolveAnchor_obj (an : Anchored cls) (db : Database w.site.schema)
    (hnode : w.hierarchy.isNodeModel cls.label = false)
    (hanchor : w.site.resources.anchorFor cls.label = some an.path) (x : Instance V w cls.label) :
    ({ w with db := db } : World).resolveAnchor (x.obj cls) =
      anchorAt (an.lead { w with db := db } x) := by
  have hglobal := w.site.resources.isGlobal_of_anchorFor hanchor
  have hfollow := an.followAttr_obj db x
  unfold World.resolveAnchor
  rw [if_neg (show ¬ _ = true from Bool.not_eq_true _ ▸ hnode),
    if_neg (show ¬ _ = true from Bool.not_eq_true _ ▸ hglobal),
    show ({ w with db := db } : World).site.resources.anchorFor (x.obj cls).model = _ from hanchor]
  simp only [hfollow]
  cases an.lead { w with db := db } x <;> rfl

theorem allowed_congr {o o' : Obj} (h : w.resolveAnchor o = w.resolveAnchor o' ∨
      ∃ n n', w.resolveAnchor o = .node n ∧ w.resolveAnchor o' = .node n' ∧
        ∀ u t a, w.Effective u t a → w.validReach (.node n) a = w.validReach (.node n') a)
    (user : User) (permissions : List String) :
    (allowed user permissions o).run w = (allowed user permissions o').run w := by
  suffices hsame : (∀ permission, (hasPerm user permission (some o) none).run w =
      (hasPerm user permission (some o') none).run w) ∧
      (userCovers user o none).run w = (userCovers user o' none).run w by
    simp only [allowed, Read.run_ite, Read.run_allM, hsame.1, hsame.2]
  rcases h with h | ⟨n, n', hn, hn', hreach⟩
  · refine ⟨fun permission => ?_, ?_⟩
    · rw [World.run_hasPerm, World.run_hasPerm, World.run_userPermissions,
        World.run_userPermissions, World.anchorOf, World.anchorOf, h]
    · rw [World.run_userCovers, World.run_userCovers, h]
  · have hcontribution {as : List Assignment} (has : w.fetchEffective user w.now = .ok as) :
        gather (w.contribution (.node n)) as ∅ = gather (w.contribution (.node n')) as ∅ :=
      gather_congr fun a ha => by
        rw [World.contribution_eq, World.contribution_eq,
          hreach _ _ a ((World.mem_fetchEffective has).mp ha)]
    have hany {as : List Assignment} (has : w.fetchEffective user w.now = .ok as) :
        as.anyM (w.validReach (.node n)) = as.anyM (w.validReach (.node n')) :=
      anyM_congr fun a ha => hreach _ _ a ((World.mem_fetchEffective has).mp ha)
    refine ⟨fun permission => ?_, ?_⟩
    · rw [World.run_hasPerm, World.run_hasPerm, World.run_userPermissions,
        World.run_userPermissions, World.anchorOf, World.anchorOf, hn, hn']
      simp only [Option.getD_none]
      cases has : w.fetchEffective user w.now with
      | error e => rfl
      | ok as => simp only [ok_bind, hcontribution has]
    · rw [World.run_userCovers, World.run_userCovers, hn, hn']
      simp only [Option.getD_none]
      cases has : w.fetchEffective user w.now with
      | error e => rfl
      | ok as => simp only [ok_bind, hany has]

theorem sameNode_congr {u : Nat} {t : Time} {a : Assignment} (ha : w.Effective u t a)
    (hvalid : w.Valid a) (hroot : a.row.isRootScope = false) {r r' : Row} (h : SameRow w r r') :
    w.sameNode a r = w.sameNode a r' := by
  rcases h with rfl | ⟨hr, hr'⟩
  · rfl
  obtain ⟨s, hs, -⟩ := hvalid.node hroot
  obtain ⟨hmem, hct, i, hi, hkey⟩ := w.db.generic_some (ha.generic (orNone_some hs))
  have hknown {r : Row} (hsame : w.sameNode a r = true) : Known w r := by
    obtain ⟨hid, hct'⟩ := World.isRow_iff.mp hsame
    obtain rfl : i = r.pk := Option.some.inj (hi.symm.trans hid)
    have hmodel : s.model = r.model :=
      w.site.schema.contentType_injective (Option.some.inj (hct.symm.trans hct'))
    exact ⟨s.pk, hmodel ▸ hkey, hmodel ▸ hmem⟩
  rw [Bool.eq_iff_iff]
  exact iff_of_false (fun h => hr (hknown h)) fun h => hr' (hknown h)

theorem validReach_congr {u : Nat} {t : Time} {a : Assignment} (ha : w.Effective u t a) {o o' : Obj}
    (hrow : SameRow w o.row o'.row) (hdepth : o.depth = o'.depth)
    (hparent : w.parentAttr o = w.parentAttr o') :
    w.validReach (.node o) a = w.validReach (.node o') a := by
  unfold World.validReach
  cases hvalid : w.assignmentIsValid a with
  | error e => rfl
  | ok valid =>
    cases valid with
    | false => rfl
    | true =>
      cases hroot : a.row.isRootScope with
      | true => simp [World.reach, hroot]
      | false =>
        have hsame := sameNode_congr ha hvalid hroot hrow
        have hfuel : w.walkFuel (.object o) = w.walkFuel (.object o') := by
          simp [World.walkFuel, hdepth]
        have hsucc : ∃ fuel, w.walkFuel (.object o') = fuel + 1 :=
          ⟨o'.depth + Lib.Walk.enough w.db.rows, by rw [World.walkFuel]; omega⟩
        obtain ⟨fuel, hsucc⟩ := hsucc
        simp only [ok_bind, World.reach, hroot, World.anyAncestor, hfuel, hsucc,
          World.anyAncestorFrom, hsame, hparent]

theorem run_assertTargetScope {o : Obj} {user : User} {permissions : List String} :
    (assertTargetScope user permissions o).run w = .ok () ↔
      (allowed user permissions o).run w = .ok true := by
  rw [assertTargetScope, Read.run_bind, bind_eq_ok]
  constructor
  · rintro ⟨b, hb, h⟩
    cases b with
    | true => exact hb
    | false => cases h
  · exact fun h => ⟨true, h, rfl⟩

end ScopedAccess.Drf
