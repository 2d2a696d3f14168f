import ScopedAccess.Drf.Leads
import ScopedAccess.Testapp

namespace ScopedAccess.Drf

open Lib.Walk (nth)
open Lib.Loop

variable {V : Type} {w : World} {cls : ModelClass V w}

def ModelClass.keyAfter (cls : ModelClass V w) (key : Option (Key w cls.label))
    (item : String × Written V) : Option (Key w cls.label) :=
  match (cls.getField item.1).filter (·.kind = .primaryKey) with
  | some f => (f.toKey w cls.label item.2).toOption.getD key
  | none => key

namespace Serializer

variable (s : Serializer cls)

def assigned : Data V :=
  match s.instance_ with
  | some _ => s.validatedData.filter (!cls.toMany ·)
  | none => Anchored.ordered cls (s.validatedData.filter (!cls.toMany ·))

def keyed : Option (Key w cls.label) := s.validatedData.foldl cls.keyAfter s.start.pk

/-- A node is saved under the key that its fields give, or it is new by either. -/
def SameKey (new : cls.NewKey) : Prop :=
  w.hierarchy.isNodeModel cls.label → ∀ y w', s.save new = .ok (y, w') →
    SameRow w (cls.rowOf s.keyed) (cls.rowOf y.pk)

end Serializer

namespace Anchored

variable (an : Anchored cls) (s : Serializer cls)

/-- What is set after the last item of the relation leaves it where it was. -/
def Unmoved : Prop :=
  ∀ x₀ x, (s.assigned.rdropWhile (!an.assigns ·)).foldlM cls.assign s.start = .ok x₀ →
    (s.assigned.rtakeWhile (!an.assigns ·)).foldlM cls.assign x₀ = .ok x →
    an.lead w x = an.lead w x₀

/-- The constructor's order of the items is as good as the payload's. -/
def Ordered : Prop := s.instance_ = none → an.OrderFree s.validatedData

/-- To store the instance changes nothing on the way from its relation on. -/
def Straight (new : cls.NewKey) : Prop :=
  ∀ y w', s.save new = .ok (y, w') → an.lead w' y = an.lead w y ∧
    (w.hierarchy.isNodeModel cls.label →
      ∀ x ∈ an.lead w y, ∀ j, nth w'.parentAttr j x = nth w.parentAttr j x)

end Anchored

/-- The candidate shows where the object will be. -/
structure Placing.Foreseen (pl : Placing cls) (s : Serializer cls) (new : cls.NewKey) : Prop where
  attributes : ∀ an ∈ pl.relation, an.Unmoved s
  order : ∀ an ∈ pl.relation, an.Ordered s
  straight : ∀ an ∈ pl.relation, an.Straight s new
  key : s.SameKey new

namespace Anchored

variable {an : Anchored cls} {s : Serializer cls} {new : cls.NewKey}
  {x y : Instance V w cls.label} {w' : World}

theorem single_of_assigns {item : String × Written V} (h : an.assigns item) : cls.single item := by
  simp [ModelClass.single, getField_of_assigns h, Field.toMany, an.kind]

theorem assigns_of_single {item : String × Written V} (h : cls.single item = false) :
    an.assigns item = false := by
  rw [Bool.eq_false_iff]
  intro hassigns
  rw [single_of_assigns hassigns] at h
  cases h

end Anchored

theorem toMany_of_single {item : String × Written V} (h : cls.single item) :
    cls.toMany item = false := by
  unfold ModelClass.single at h
  unfold ModelClass.toMany
  cases hfield : cls.getField item.1 with
  | none => rfl
  | some f => simpa [hfield] using h

namespace Serializer

variable {s : Serializer cls} {new : cls.NewKey} {x y : Instance V w cls.label} {w' : World}

theorem save_ok (h : s.save new = .ok (y, w')) : ∃ x, s.build = .ok x ∧
    y = { x with pk := some (x.pk.getD new.key) } ∧
    w' = ModelClass.stored (x.pk.getD new.key) y := by
  obtain ⟨x, hx, h⟩ := bind_eq_ok.mp h
  dsimp only at h
  split at h
  · cases h
  · obtain ⟨rfl, rfl⟩ := Prod.mk.inj (Except.ok.inj h)
    exact ⟨x, hx, rfl, rfl⟩

theorem keys_filter : ((s.validatedData.filter (!cls.toMany ·)).map Prod.fst).Nodup :=
  s.keys.sublist (List.filter_sublist.map _)

theorem build_assigned (h : s.build = .ok x) :
    s.assigned.foldlM cls.assign s.start = .ok x := by
  unfold build at h
  cases hinstance : s.instance_ with
  | some i =>
    simp only [hinstance] at h
    rw [assigned, start, hinstance]
    exact h
  | none =>
    simp only [hinstance] at h
    rw [assigned, start, hinstance]
    exact Anchored.construct_ok h

theorem mem_assigned {item : String × Written V} (hitem : item ∈ s.validatedData)
    (hsingle : cls.single item) : item ∈ s.assigned := by
  have hmem : item ∈ s.validatedData.filter (!cls.toMany ·) :=
    List.mem_filter.mpr ⟨hitem, by simp [toMany_of_single hsingle]⟩
  unfold assigned
  cases s.instance_ with
  | some i => exact hmem
  | none => exact Anchored.mem_ordered_of_key keys_filter hmem

end Serializer

theorem setField_pk {f : Field} (hkind : f.kind ≠ .primaryKey) {x y : Instance V w cls.label}
    {n : String} {v : Written V} (h : f.setField x n v = .ok y) : y.pk = x.pk := by
  cases hf : f.kind with
  | primaryKey => exact absurd hf hkind
  | foreignKey =>
    obtain ⟨target, -, rfl⟩ := ModelClass.setField_foreignKey hf h
    rfl
  | concrete =>
    simp only [Field.setField, hf] at h
    obtain rfl := Except.ok.inj h
    rfl
  | manyToMany | oneToMany => simp [Field.setField, hf, throwing] at h

theorem keyAfter_key {item : String × Written V} {f : Field} (hfield : cls.getField item.1 = some f)
    (hkind : f.kind = .primaryKey) (key : Option (Key w cls.label)) :
    cls.keyAfter key item = (f.toKey w cls.label item.2).toOption.getD key := by
  rw [ModelClass.keyAfter, hfield, Option.filter_some_pos (by simpa using hkind)]

theorem keyAfter_other {item : String × Written V}
    (h : ∀ f, cls.getField item.1 = some f → f.kind ≠ .primaryKey) (key : Option (Key w cls.label)) :
    cls.keyAfter key item = key := by
  unfold ModelClass.keyAfter
  cases hfield : cls.getField item.1 with
  | none => rfl
  | some f => rw [Option.filter_some_neg (by simpa using h f hfield)]

theorem pk_assign {item : String × Written V} {x y : Instance V w cls.label}
    (hsingle : cls.single item) (h : cls.assign x item = .ok y) :
    y.pk = cls.keyAfter x.pk item := by
  cases hfield : cls.getField item.1 with
  | none => simp [ModelClass.single, hfield] at hsingle
  | some f =>
    simp only [ModelClass.assign, ModelClass.setattr, hfield] at h
    by_cases hkind : f.kind = .primaryKey
    · simp only [Field.setField, hkind] at h
      obtain ⟨k, hk, rfl⟩ := map_eq_ok.mp h
      rw [keyAfter_key hfield hkind, hk]
      rfl
    · have hother : ∀ g, cls.getField item.1 = some g → g.kind ≠ .primaryKey :=
        fun g hg => Option.some.inj (hfield.symm.trans hg) ▸ hkind
      rw [keyAfter_other hother, setField_pk hkind h]

theorem keyAfter_of_single {item : String × Written V} (h : cls.single item = false)
    (key : Option (Key w cls.label)) : cls.keyAfter key item = key := by
  refine keyAfter_other (fun f hfield hkind => ?_) key
  simp [ModelClass.single, hfield, Field.toMany, hkind] at h

theorem pk_of_single {items : Data V} {x c : Instance V w cls.label}
    (h : (items.filter cls.single).foldlM cls.assign x = .ok c) :
    c.pk = items.foldl cls.keyAfter x.pk := by
  induction items generalizing x with
  | nil =>
    obtain rfl : x = c := by simpa using h
    rfl
  | cons item items ih =>
    rw [List.foldl_cons]
    cases hsingle : cls.single item with
    | false =>
      rw [List.filter_cons_of_neg (by simp [hsingle])] at h
      rw [keyAfter_of_single hsingle]
      exact ih h
    | true =>
      rw [List.filter_cons_of_pos hsingle, List.foldlM_cons] at h
      obtain ⟨x', hx', h⟩ := bind_eq_ok.mp h
      rw [← pk_assign hsingle hx']
      exact ih h

theorem Serializer.exists_candidate {s : Serializer cls} {x : Instance V w cls.label}
    (h : s.build = .ok x) : ∃ c, (s.validatedData.filter cls.single).foldlM cls.assign s.start =
      .ok c ∧ c.pk = s.keyed ∧
      ∀ an : Anchored cls, an.lead w c = an.lastLead s.validatedData (an.lead w s.start) := by
  obtain ⟨c, hc⟩ := foldlM_single (s.validatedData.filter cls.single)
    (fun item hitem => by
      obtain ⟨hitem, hsingle⟩ := List.mem_filter.mp hitem
      exact ⟨hsingle, mem_of_foldlM (s.build_assigned h) (s.mem_assigned hitem hsingle)⟩) s.start
  refine ⟨c, hc, pk_of_single hc, fun an => ?_⟩
  rw [Anchored.lead_foldlM (fun item hitem => ?_) hc,
    Anchored.lastLead_filter fun item _ => Anchored.assigns_of_single]
  have hsingle := (List.mem_filter.mp hitem).2
  unfold ModelClass.single at hsingle
  cases hfield : cls.getField item.1 with
  | none => simp [hfield] at hsingle
  | some f => rfl

theorem judges_iff {s : Serializer cls} {y c : Instance V w cls.label} {w' : World}
    (hc : (s.validatedData.filter cls.single).foldlM cls.assign s.start = .ok c) :
    Judges s y w' ↔ SameAnchor w w' (c.obj cls) (y.obj cls) ∧ ∀ user permissions,
      (allowed user permissions (c.obj cls)).run w = .ok true ↔
        (allowed user permissions (y.obj cls)).run w = .ok true := by
  have hrun : applyPayload s = .ok (s.heap.length, s.heap ++ [c]) := by
    rw [run_applyPayload, hc]
    rfl
  constructor
  · rintro ⟨candidate, heap, c', hpayload, hc', -, hanchor, hguard⟩
    obtain ⟨rfl, rfl⟩ := Prod.mk.inj (Except.ok.inj (hrun.symm.trans hpayload))
    obtain rfl : c = c' := by simpa using hc'
    exact ⟨hanchor, fun user permissions => run_assertTargetScope.symm.trans (hguard _ _)⟩
  · rintro ⟨hanchor, hguard⟩
    refine ⟨s.heap.length, s.heap ++ [c], c, hrun, by simp,
      fun i hi => List.getElem?_append_left hi, hanchor, fun user permissions => ?_⟩
    exact run_assertTargetScope.trans (hguard _ _)

namespace Anchored

variable {an : Anchored cls} {s : Serializer cls} {new : cls.NewKey}
  {x y : Instance V w cls.label} {w' : World}

theorem unmoved_iff (h : s.build = .ok x) : an.Unmoved s ↔
    an.lead w x = an.lastLead s.assigned (an.lead w s.start) := by
  have hsplit : s.assigned = s.assigned.rdropWhile (!an.assigns ·) ++
      s.assigned.rtakeWhile (!an.assigns ·) := List.rdropWhile_append_rtakeWhile.symm
  have hfold := s.build_assigned h
  rw [hsplit, List.foldlM_append] at hfold
  obtain ⟨x₁, hx₁, hx⟩ := bind_eq_ok.mp hfold
  rw [← lead_upto hx₁]
  constructor
  · exact fun hunmoved => hunmoved x₁ x hx₁ hx
  · intro hlead x₀' x' hx₀' hx'
    obtain rfl := Except.ok.inj (hx₁.symm.trans hx₀')
    obtain rfl := Except.ok.inj (hx.symm.trans hx')
    exact hlead

theorem ordered_iff {start : Option Attr} : an.Ordered s ↔
    an.lastLead s.assigned start = an.lastLead s.validatedData start := by
  have hfilter (start : Option Attr) : an.lastLead (s.validatedData.filter (!cls.toMany ·)) start =
      an.lastLead s.validatedData start := by
    refine lastLead_filter (fun item _ hkeep => ?_) start
    rw [Bool.eq_false_iff]
    intro hassigns
    simp [toMany_of_single (single_of_assigns hassigns)] at hkeep
  unfold Ordered Serializer.assigned
  cases s.instance_ with
  | some i => exact iff_of_true (fun h => by cases h) (hfilter start)
  | none =>
    rw [← hfilter start]
    have hsub : (s.validatedData.filter (!cls.toMany ·)).Sublist s.validatedData :=
      List.filter_sublist
    have hkeeps {item : String × Written V} (h : an.assigns item) : (!cls.toMany item) = true := by
      simp [toMany_of_single (single_of_assigns h)]
    refine ⟨fun h => lastLead_ordered Serializer.keys_filter
      (fun q p hqp => h rfl q p (hqp.trans hsub)) start, fun h _ q p hqp hq hp => ?_⟩
    refine orderFree_of_lastLead Serializer.keys_filter h q p ?_ hq hp
    have hboth : [q, p].filter (!cls.toMany ·) = [q, p] :=
      List.filter_eq_self.mpr fun item hitem => by
        rcases List.mem_cons.mp hitem with rfl | hitem
        · exact hkeeps (assigns_iff.mpr (.inr hq))
        · exact hkeeps (assigns_iff.mpr (.inl (List.mem_singleton.mp hitem ▸ hp)))
    exact hboth ▸ hqp.filter _

end Anchored

theorem Anchored.lead_saved (an : Anchored cls) {x y : Instance V w cls.label}
    {key : Option (Key w cls.label)} (hy : y = { x with pk := key }) :
    an.lead w y = an.lead w x := by
  rw [hy]
  rfl

namespace Placing

variable (pl : Placing cls) {s : Serializer cls} {new : cls.NewKey}
  {x y c : Instance V w cls.label} {w' : World}

theorem parentAttr_obj (hnode : w.hierarchy.isNodeModel cls.label) (db : Database w.site.schema)
    (x : Instance V w cls.label) : ({ w with db := db } : World).parentAttr (x.obj cls) =
      pl.relation.bind fun an => an.lead { w with db := db } x := by
  change (w.hierarchy.parentAccessorForModel cls.label).bind
    (fun path => ({ w with db := db } : World).followAttr (x.obj cls) path.parts) = _
  rw [pl.accessor hnode]
  cases pl.relation with
  | none => rfl
  | some an => exact an.followAttr_obj db x

theorem nth_obj (hnode : w.hierarchy.isNodeModel cls.label) (db : Database w.site.schema)
    (x : Instance V w cls.label) (j : Nat) :
    nth ({ w with db := db } : World).parentAttr (j + 1) (x.obj cls) =
      (pl.relation.bind fun an => an.lead { w with db := db } x).bind
        (nth ({ w with db := db } : World).parentAttr j) := by
  rw [Lib.Walk.nth_succ, pl.parentAttr_obj hnode db x]

theorem resolveAnchor_node (hnode : w.hierarchy.isNodeModel cls.label)
    (x : Instance V w cls.label) : w.resolveAnchor (x.obj cls) = .node (x.obj cls) := by
  rw [World.resolveAnchor, if_pos]
  exact hnode

theorem resolveAnchor_unanchored (hnode : w.hierarchy.isNodeModel cls.label = false)
    (hnone : pl.relation = none) (db : Database w.site.schema) (x y : Instance V w cls.label) :
    w.resolveAnchor (x.obj cls) = ({ w with db := db } : World).resolveAnchor (y.obj cls) := by
  have hanchor : w.site.resources.anchorFor cls.label = none := by
    rw [pl.anchorFor hnode, hnone]
    rfl
  have hunanchored (db : Database w.site.schema) (x : Instance V w cls.label) :
      ({ w with db := db } : World).resolveAnchor (x.obj cls) =
        if w.site.resources.isGlobal cls.label then .everywhere
        else if w.site.strictRegistration then .unregistered else .everywhere := by
    unfold World.resolveAnchor
    rw [if_neg (show ¬ _ = true from Bool.not_eq_true _ ▸ hnode),
      show ({ w with db := db } : World).site.resources.anchorFor (x.obj cls).model = _ from
        hanchor]
    rfl
  exact (hunanchored w.db x).trans (hunanchored db y).symm

theorem sameAnchor_of_lead (hkey : w.hierarchy.isNodeModel cls.label →
      SameRow w (cls.rowOf c.pk) (cls.rowOf y.pk)) (db : Database w.site.schema)
    (hlead : ∀ an ∈ pl.relation, an.lead w c = an.lead { w with db := db } y ∧
      (w.hierarchy.isNodeModel cls.label → ∀ x ∈ an.lead w c, ∀ j,
        nth w.parentAttr j x = nth ({ w with db := db } : World).parentAttr j x)) :
    SameAnchor w { w with db := db } (c.obj cls) (y.obj cls) := by
  unfold SameAnchor
  cases hnode : w.hierarchy.isNodeModel (c.obj cls).model with
  | true =>
    rw [if_pos rfl]
    refine ⟨hkey hnode, fun j => ?_⟩
    rw [show nth w.parentAttr (j + 1) (.object (c.obj cls)) = _ from pl.nth_obj hnode w.db c j,
      pl.nth_obj hnode db y j]
    cases hrelation : pl.relation with
    | none => rfl
    | some an =>
      obtain ⟨hsame, hwalk⟩ := hlead an hrelation
      simp only [Option.bind_some]
      rw [← hsame]
      exact Option.bind_congr fun x hx => hwalk hnode x hx j
  | false =>
    rw [if_neg (by simp)]
    cases hrelation : pl.relation with
    | none => exact pl.resolveAnchor_unanchored hnode hrelation db c y
    | some an =>
      have hanchor := (pl.anchorFor hnode).trans (congrArg _ hrelation)
      rw [show w.resolveAnchor (c.obj cls) = _ from an.resolveAnchor_obj w.db hnode hanchor c,
        an.resolveAnchor_obj db hnode hanchor y]
      exact congrArg anchorAt (hlead an hrelation).1

theorem lead_of_sameAnchor {db : Database w.site.schema}
    (h : SameAnchor w { w with db := db } (c.obj cls) (y.obj cls)) :
    (w.hierarchy.isNodeModel cls.label → SameRow w (cls.rowOf c.pk) (cls.rowOf y.pk)) ∧
      ∀ an ∈ pl.relation, an.lead w c = an.lead { w with db := db } y ∧
        (w.hierarchy.isNodeModel cls.label → ∀ x ∈ an.lead w c, ∀ j,
          nth w.parentAttr j x = nth ({ w with db := db } : World).parentAttr j x) := by
  unfold SameAnchor at h
  cases hnode : w.hierarchy.isNodeModel (c.obj cls).model with
  | true =>
    rw [if_pos hnode] at h
    obtain ⟨hrow, habove⟩ := h
    refine ⟨fun _ => hrow, fun an hrelation => ?_⟩
    have hstep (j : Nat) : (an.lead w c).bind (nth w.parentAttr j) =
        (an.lead { w with db := db } y).bind (nth ({ w with db := db } : World).parentAttr j) := by
      have hj := habove j
      rw [show nth w.parentAttr (j + 1) (.object (c.obj cls)) = _ from pl.nth_obj hnode w.db c j,
        pl.nth_obj hnode db y j, show pl.relation = some an from hrelation] at hj
      exact hj
    have hlead : an.lead w c = an.lead { w with db := db } y := by
      have hzero := hstep 0
      rwa [show nth w.parentAttr 0 = some from rfl,
        show nth ({ w with db := db } : World).parentAttr 0 = some from rfl,
        Option.bind_fun_some, Option.bind_fun_some] at hzero
    refine ⟨hlead, fun _ x hx j => ?_⟩
    have hj := hstep j
    rw [← hlead, Option.mem_def.mp hx] at hj
    exact hj
  | false =>
    rw [if_neg (by simp [hnode])] at h
    refine ⟨fun htrue => absurd (hnode.symm.trans htrue) (by simp), fun an hrelation =>
      ⟨?_, fun htrue => absurd (hnode.symm.trans htrue) (by simp)⟩⟩
    have hanchor := (pl.anchorFor hnode).trans (congrArg _ (Option.mem_def.mp hrelation))
    rw [show w.resolveAnchor (c.obj cls) = _ from an.resolveAnchor_obj w.db hnode hanchor c,
      an.resolveAnchor_obj db hnode hanchor y] at h
    exact anchorAt_injective h

theorem allowed_of_lead (hkey : w.hierarchy.isNodeModel cls.label →
      SameRow w (cls.rowOf c.pk) (cls.rowOf y.pk))
    (hlead : ∀ an ∈ pl.relation, an.lead w c = an.lead w y) (user : User)
    (permissions : List String) :
    (allowed user permissions (c.obj cls)).run w = (allowed user permissions (y.obj cls)).run w := by
  refine allowed_congr ?_ user permissions
  cases hnode : w.hierarchy.isNodeModel cls.label with
  | true =>
    refine .inr ⟨_, _, resolveAnchor_node hnode c, resolveAnchor_node hnode y, fun u t a ha => ?_⟩
    refine validReach_congr ha (hkey hnode) ?_ ?_
    · simp only [Obj.depth, Instance.obj, List.map_map]
      rfl
    · rw [show w.parentAttr (.object (c.obj cls)) = _ from pl.parentAttr_obj hnode w.db c,
        show w.parentAttr (.object (y.obj cls)) = _ from pl.parentAttr_obj hnode w.db y]
      exact Option.bind_congr hlead
  | false =>
    refine .inl ?_
    cases hrelation : pl.relation with
    | none => exact pl.resolveAnchor_unanchored hnode hrelation w.db c y
    | some an =>
      have hanchor := (pl.anchorFor hnode).trans (congrArg _ hrelation)
      rw [show w.resolveAnchor (c.obj cls) = _ from an.resolveAnchor_obj w.db hnode hanchor c,
        show w.resolveAnchor (y.obj cls) = _ from an.resolveAnchor_obj w.db hnode hanchor y]
      exact congrArg anchorAt (hlead an hrelation)

theorem judges_of_foreseen (hsave : s.save new = .ok (y, w')) (h : pl.Foreseen s new) :
    Judges s y w' := by
  obtain ⟨x, hx, hy, rfl⟩ := Serializer.save_ok hsave
  obtain ⟨c, hc, hpk, hcandidate⟩ := s.exists_candidate hx
  have hkey (hnode : w.hierarchy.isNodeModel cls.label) :
      SameRow w (cls.rowOf c.pk) (cls.rowOf y.pk) := hpk ▸ h.key hnode y _ hsave
  have hlead : ∀ an ∈ pl.relation, an.lead w c = an.lead w y := by
    intro an han
    rw [hcandidate, an.lead_saved hy, (Anchored.unmoved_iff hx).mp (h.attributes an han),
      Anchored.ordered_iff.mp (h.order an han)]
  refine (judges_iff hc).mpr ⟨pl.sameAnchor_of_lead hkey _ fun an han => ?_,
    fun user permissions => ?_⟩
  · obtain ⟨hstored, hwalk⟩ := h.straight an han y _ hsave
    refine ⟨(hlead an han).trans hstored.symm, fun hnode a ha j => ?_⟩
    exact (hwalk hnode a (hlead an han ▸ ha) j).symm
  · rw [pl.allowed_of_lead hkey hlead]

/-- The guard judges the object that is saved if the candidate shows where it will be, and it
judges none of which the candidate fails to show this in one respect only. -/
theorem guard_judges_foreseen (hsave : s.save new = .ok (y, w')) :
    (pl.Foreseen s new → Judges s y w') ∧ (Judges s y w' → s.SameKey new ∧ ∀ an ∈ pl.relation,
      (an.Ordered s → an.Straight s new → an.Unmoved s) ∧
      (an.Unmoved s → an.Straight s new → an.Ordered s) ∧
      (an.Unmoved s → an.Ordered s → an.Straight s new)) := by
  refine ⟨pl.judges_of_foreseen hsave, fun hjudges => ?_⟩
  obtain ⟨x, hx, hy, rfl⟩ := Serializer.save_ok hsave
  obtain ⟨c, hc, hpk, hcandidate⟩ := s.exists_candidate hx
  obtain ⟨hanchor, -⟩ := (judges_iff hc).mp hjudges
  obtain ⟨hkey, hlead⟩ := pl.lead_of_sameAnchor hanchor
  have hsaved (an : Anchored cls) := an.lead_saved hy
  refine ⟨fun hnode y' w'' hsave' => ?_, fun an han => ⟨fun horder hstraight => ?_,
    fun hunmoved hstraight => ?_, fun hunmoved horder y' w'' hsave' => ?_⟩⟩
  · obtain ⟨rfl, -⟩ := Prod.mk.inj (Except.ok.inj (hsave.symm.trans hsave'))
    exact hpk ▸ hkey hnode
  · rw [Anchored.unmoved_iff hx, ← hsaved, ← (hstraight y _ hsave).1,
      Anchored.ordered_iff.mp horder, ← hcandidate]
    exact (hlead an han).1.symm
  · rw [Anchored.ordered_iff, ← (Anchored.unmoved_iff hx).mp hunmoved, ← hsaved,
      ← (hstraight y _ hsave).1, ← hcandidate]
    exact (hlead an han).1.symm
  · obtain ⟨rfl, rfl⟩ := Prod.mk.inj (Except.ok.inj (hsave.symm.trans hsave'))
    have hsame : an.lead w c = an.lead w y := by
      rw [hcandidate, hsaved, (Anchored.unmoved_iff hx).mp hunmoved,
        Anchored.ordered_iff.mp horder]
    obtain ⟨hstored, hwalk⟩ := hlead an han
    exact ⟨hstored.symm.trans hsame, fun hnode a ha j => (hwalk hnode a (hsame ▸ ha) j).symm⟩

end Placing

namespace Anchored

theorem followAttr_apart {k : Key w cls.label} {x : Instance V w cls.label} {r : Row}
    {path : List String} (h : ∀ before f after, path = before ++ f :: after →
      w.site.schema.relatedPath r.model before ≠ some cls.label) :
    (ModelClass.stored k x).followAttr (.stored r) path = w.followAttr (.stored r) path := by
  induction path generalizing r with
  | nil => rfl
  | cons f path ih =>
    have hne : r ≠ ModelClass.row k :=
      fun heq => h [] f path rfl (congrArg (fun r : Row => some r.model) heq)
    have hsame : (ModelClass.stored k x).getattr f (.stored r) = w.getattr f (.stored r) :=
      @World.getattr_congr w (ModelClass.put k x) r (fun f => if_neg fun heq => hne heq.1) rfl f
    rw [World.followAttr_cons, World.followAttr_cons, hsame]
    rcases World.getattr_stored (w := w) r f with hget | ⟨-, hget⟩
    · rw [hget]
      cases hs : w.db.related r f with
      | none => rfl
      | some s =>
        refine ih fun before g after hpath hlabel => ?_
        refine h (f :: before) g after (congrArg (f :: ·) hpath) ?_
        rw [Schema.relatedPath, w.db.related_model hs, Option.bind_some, hlabel]
    · rw [hget]
      cases path <;> rfl

theorem lead_apart (an : Anchored cls)
    (h : ∀ before f after, an.path.rest = before ++ f :: after →
      w.site.schema.relatedPath cls.label (an.path.first :: before) ≠ some cls.label)
    (k : Key w cls.label) (x y : Instance V w cls.label) :
    an.lead (ModelClass.stored k x) y = an.lead w y := by
  unfold lead
  cases hs : (y.related an.field.name).val with
  | none => rfl
  | some s =>
    refine followAttr_apart fun before f after hpath hlabel => h before f after hpath ?_
    have hmodel := ((y.related an.field.name).property s hs).1
    rw [an.name] at hmodel
    rw [Schema.relatedPath, hmodel, Option.bind_some, hlabel]

theorem unmoved_of_fields (an : Anchored cls)
    (h : ∀ item ∈ s.validatedData, (cls.getField item.1).isSome) : an.Unmoved s := by
  intro x₀ x _ hx
  have hmem : ∀ item ∈ s.assigned.rtakeWhile (!an.assigns ·), item ∈ s.validatedData := by
    intro item hitem
    have hitem := (List.rtakeWhile_suffix _ _).subset hitem
    unfold Serializer.assigned at hitem
    cases hinstance : s.instance_ with
    | some i =>
      rw [hinstance] at hitem
      exact (List.mem_filter.mp hitem).1
    | none =>
      rw [hinstance] at hitem
      exact (List.mem_filter.mp (mem_ordered hitem)).1
  rw [lead_foldlM (fun item hitem => h item (hmem item hitem)) hx]
  exact lastLead_none (fun item hitem => by simpa using List.mem_rtakeWhile_imp hitem) _

end Anchored

theorem Placing.foreseen_of_fields (pl : Placing cls) {s : Serializer cls} {new : cls.NewKey}
    (hnode : w.hierarchy.isNodeModel cls.label = false)
    (hfields : ∀ item ∈ s.validatedData, (cls.getField item.1).isSome)
    (horder : ∀ an ∈ pl.relation,
      ¬ [an.field.attname, an.field.name].Sublist (s.validatedData.map Prod.fst))
    (hpath : ∀ an ∈ pl.relation, ∀ before f after, an.path.rest = before ++ f :: after →
      w.site.schema.relatedPath cls.label (an.path.first :: before) ≠ some cls.label) :
    pl.Foreseen s new where
  attributes an _ := an.unmoved_of_fields hfields
  order an han _ q p hqp hq hp :=
    absurd (hq ▸ hp ▸ hqp.map Prod.fst) (horder an han)
  straight an han y w' hsave := by
    obtain ⟨x, -, -, rfl⟩ := Serializer.save_ok hsave
    exact ⟨an.lead_apart (hpath an han) _ _ _, fun htrue => absurd (hnode.symm.trans htrue) (by simp)⟩
  key htrue := absurd (hnode.symm.trans htrue) (by simp)

namespace Testapp

open ScopedAccess.Testapp (node resource north clinic nadia)

def south : Row := ⟨node, "3"⟩
def record : Row := ⟨resource, "1"⟩

def db : Database ScopedAccess.Testapp.schema := Database.ofLinks _ [north, clinic, south, record]
  [((clinic, "parent"), north), ((record, "anchor"), clinic)]
  [((north, "level"), "REGIONAL"), ((clinic, "level"), "FACILITY"), ((south, "level"), "REGIONAL")]
  (by decide) (by decide) (by decide)

def regions : World := ScopedAccess.Testapp.world db ScopedAccess.Testapp.tables

def anchor : Field := ⟨.foreignKey, "anchor", "anchor_id"⟩

def at_ (pk : Option (Key regions resource)) (n : Pointer regions resource "anchor") :
    Instance Unit regions resource where
  pk := pk
  related := Function.update (fun _ => ⟨none, nofun⟩) "anchor" n

def records : ModelClass Unit regions where
  label := resource
  fields := [⟨.primaryKey, "id", "id"⟩, ⟨.concrete, "slug", "slug"⟩, anchor]
  descriptor n :=
    if n = "home" then
      some ⟨true, fun x v => do return x.point "anchor" (← anchor.pointer regions resource "anchor" v)⟩
    else none
  blank := at_ none ⟨none, nofun⟩
  fields_apart := by decide
  attname_ne := by decide
  blank_new := nofun

def anchored : Anchored records where
  path := { first := "anchor" }
  field := anchor
  mem := by decide
  kind := rfl
  name := rfl
  related := rfl

def placed : Placing records where
  relation := some anchored
  anchorFor _ := rfl
  accessor h := absurd h (by decide)

def key : records.NewKey := ⟨⟨"2", rfl⟩, by decide⟩

def moving : Serializer records where
  heap := [at_ (some ⟨"1", rfl⟩) ⟨some clinic, by decide⟩]
  instance_ := some 0
  validatedData := [("home", .object (some south))]
  keys := List.nodup_singleton _

def sending : Serializer records where
  heap := moving.heap
  instance_ := moving.instance_
  validatedData := [("slug", .plain ()), ("anchor", .object (some south))]
  keys := by decide

theorem record_judged : ∃ y w', sending.save key = .ok (y, w') ∧ Judges sending y w' := by
  obtain ⟨⟨y, w'⟩, hsave⟩ : ∃ saved, sending.save key = .ok saved := ⟨_, rfl⟩
  refine ⟨y, w', hsave, (placed.guard_judges_foreseen hsave).1 ?_⟩
  refine placed.foreseen_of_fields (by decide) (by decide) (fun an han => ?_) fun an han => ?_
  · obtain rfl := Option.some.inj han
    decide
  · obtain rfl := Option.some.inj han
    simp [anchored]

theorem home_escapes : ∃ y w', moving.save key = .ok (y, w') ∧ ¬ Judges moving y w' := by
  refine ⟨_, _, rfl, fun h => ?_⟩
  obtain ⟨_, _, c, hpayload, hc, -, -, hguard⟩ := h.judged
  obtain ⟨rfl, rfl⟩ := Prod.mk.inj (Except.ok.inj hpayload)
  obtain rfl := Option.some.inj hc
  have hadmits : (assertTargetScope nadia [] (moving.start.obj records)).run regions = .ok () := by
    decide +kernel
  exact absurd ((hguard nadia []).mp hadmits) (by decide +kernel)

end Testapp

end ScopedAccess.Drf
