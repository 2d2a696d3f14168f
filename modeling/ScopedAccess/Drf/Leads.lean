import ScopedAccess.Drf.WriteGuard
import Mathlib.Data.List.DropRight

namespace ScopedAccess.Drf

open Lib.Loop

variable {V : Type} {w : World} {cls : ModelClass V w}

namespace Anchored

variable (an : Anchored cls)

def assigns (item : String × Written V) : Bool := item.1 ∈ an.field.names

def leadOf (item : String × Written V) : Option Attr :=
  match an.field.pointer w cls.label item.1 item.2 with
  | .ok target => target.val.bind fun r => w.followAttr (.stored r) an.path.rest
  | .error _ => none

/-- Where the last item that assigns the relation leads. -/
def lastLead (items : Data V) (start : Option Attr) : Option Attr :=
  items.foldl (fun found item => if an.assigns item then an.leadOf item else found) start

variable {an} {item : String × Written V} {items : Data V} {x y : Instance V w cls.label}

theorem getField_of_assigns (h : an.assigns item) : cls.getField item.1 = some an.field :=
  ModelClass.getField_of_mem an.mem (by simpa [assigns] using h)

theorem lead_of_assigns (hassigns : an.assigns item) (h : cls.assign x item = .ok y) :
    an.lead w y = an.leadOf item := by
  unfold ModelClass.assign ModelClass.setattr at h
  simp only [getField_of_assigns hassigns] at h
  obtain ⟨target, htarget, rfl⟩ := ModelClass.setField_foreignKey an.kind h
  simp [lead, leadOf, htarget]

theorem lead_assign (hfield : (cls.getField item.1).isSome) (h : cls.assign x item = .ok y) :
    an.lead w y = if an.assigns item then an.leadOf item else an.lead w x := by
  cases hassigns : an.assigns item with
  | true => rw [if_pos rfl, lead_of_assigns hassigns h]
  | false =>
    obtain ⟨f, hfield⟩ := Option.isSome_iff_exists.mp hfield
    unfold ModelClass.assign ModelClass.setattr at h
    simp only [hfield] at h
    obtain ⟨hf, hn⟩ := ModelClass.getField_some hfield
    have hother : an.field.name ≠ f.name := by
      intro heq
      have hsame := cls.fields_apart _ an.mem _ hf an.field.name (by simp [Field.names])
        (by simp [Field.names, heq])
      rw [assigns, hsame] at hassigns
      simp [hn] at hassigns
    rw [if_neg (by simp), lead, lead, ModelClass.setField_related h fun _ => hother]

theorem lead_foldlM (hfields : ∀ item ∈ items, (cls.getField item.1).isSome)
    (h : items.foldlM cls.assign x = .ok y) :
    an.lead w y = an.lastLead items (an.lead w x) := by
  induction items generalizing x with
  | nil =>
    obtain rfl : x = y := by simpa using h
    rfl
  | cons item items ih =>
    rw [List.foldlM_cons] at h
    obtain ⟨x', hx', h⟩ := bind_eq_ok.mp h
    rw [ih (fun i hi => hfields i (List.mem_cons_of_mem _ hi)) h,
      lead_assign (hfields item List.mem_cons_self) hx']
    rfl

theorem lastLead_append (items items' : Data V) (start : Option Attr) :
    an.lastLead (items ++ items') start = an.lastLead items' (an.lastLead items start) :=
  List.foldl_append

theorem lastLead_none (h : ∀ item ∈ items, an.assigns item = false) (start : Option Attr) :
    an.lastLead items start = start := by
  induction items with
  | nil => rfl
  | cons item items ih =>
    have hitem := h item List.mem_cons_self
    simp only [lastLead, List.foldl_cons, hitem, Bool.false_eq_true, if_false]
    exact ih fun i hi => h i (List.mem_cons_of_mem _ hi)

theorem lastLead_cons (h : an.assigns item) (hitems : ∀ i ∈ items, an.assigns i = false)
    (start : Option Attr) : an.lastLead (item :: items) start = an.leadOf item := by
  simp only [lastLead, List.foldl_cons, h, if_true]
  exact lastLead_none hitems _

theorem lead_upto (h : (items.rdropWhile (!an.assigns ·)).foldlM cls.assign x = .ok y) :
    an.lead w y = an.lastLead items (an.lead w x) := by
  induction items using List.reverseRecOn generalizing y with
  | nil =>
    obtain rfl : x = y := by simpa using h
    rfl
  | append_singleton items item ih =>
    rw [List.rdropWhile_concat] at h
    cases hassigns : an.assigns item with
    | true =>
      rw [hassigns, if_neg (by simp), List.foldlM_append] at h
      obtain ⟨x', -, h⟩ := bind_eq_ok.mp h
      rw [List.foldlM_cons] at h
      obtain ⟨y', hy', h⟩ := bind_eq_ok.mp h
      obtain rfl : y' = y := by simpa using h
      rw [lastLead_append, lastLead_cons hassigns (by simp), lead_of_assigns hassigns hy']
    | false =>
      rw [hassigns, if_pos (by simp)] at h
      rw [lastLead_append, lastLead_none (by simpa using hassigns), ih h]

theorem lastLead_filter {keep : String × Written V → Bool}
    (h : ∀ item ∈ items, keep item = false → an.assigns item = false) (start : Option Attr) :
    an.lastLead (items.filter keep) start = an.lastLead items start := by
  induction items generalizing start with
  | nil => rfl
  | cons item items ih =>
    have ih := fun start => ih (fun i hi => h i (List.mem_cons_of_mem _ hi)) start
    cases hkeep : keep item with
    | true =>
      rw [List.filter_cons_of_pos hkeep]
      exact ih _
    | false =>
      rw [List.filter_cons_of_neg (by simp [hkeep]), ih]
      simp only [lastLead, List.foldl_cons, h item List.mem_cons_self hkeep, Bool.false_eq_true,
        if_false]

end Anchored

namespace Anchored

variable {an : Anchored cls} {data items : Data V} {item : String × Written V}
  {x y : Instance V w cls.label}

theorem assigns_iff : an.assigns item ↔ item.1 = an.field.name ∨ item.1 = an.field.attname := by
  simp [assigns, Field.names]

theorem keyword_mem {f : Field} (h : f.keyword data = some item) :
    item ∈ data ∧ item.1 ∈ f.names := by
  unfold Field.keyword at h
  cases hkind : f.kind with
  | foreignKey =>
    simp only [hkind] at h
    rcases Option.or_eq_some_iff.mp h with h | ⟨-, h⟩
    · exact ⟨List.mem_of_find?_eq_some h,
        List.mem_cons.mpr (.inl (by simpa using List.find?_some h))⟩
    · exact ⟨List.mem_of_find?_eq_some h,
        List.mem_cons_of_mem _ (List.mem_singleton.mpr (by simpa using List.find?_some h))⟩
  | concrete | primaryKey =>
    simp only [hkind] at h
    exact ⟨List.mem_of_find?_eq_some h,
      List.mem_cons_of_mem _ (List.mem_singleton.mpr (by simpa using List.find?_some h))⟩
  | manyToMany | oneToMany => simp [hkind] at h

theorem keyword_of_assigns {f : Field} (hf : f ∈ cls.fields) (h : f.keyword data = some item)
    (hassigns : an.assigns item) : f = an.field :=
  cls.fields_apart f hf an.field an.mem item.1 (keyword_mem h).2 (by simpa [assigns] using hassigns)

theorem lastLead_self {found : Option Attr}
    (hconst : ∀ i ∈ items, an.assigns i → an.leadOf i = found) :
    an.lastLead items found = found := by
  induction items with
  | nil => rfl
  | cons i items ih =>
    have hhead : (if an.assigns i then an.leadOf i else found) = found := by
      split
      · exact hconst i List.mem_cons_self ‹_›
      · rfl
    simp only [lastLead, List.foldl_cons, hhead]
    exact ih fun j hj => hconst j (List.mem_cons_of_mem _ hj)

theorem lastLead_const {found : Option Attr} (hmem : item ∈ items) (hassigns : an.assigns item)
    (hconst : ∀ i ∈ items, an.assigns i → an.leadOf i = found) (start : Option Attr) :
    an.lastLead items start = found := by
  induction items generalizing start with
  | nil => cases hmem
  | cons i items ih =>
    have hrest := fun j hj => hconst j (List.mem_cons_of_mem i hj)
    cases hi : an.assigns i with
    | true =>
      simp only [lastLead, List.foldl_cons, hi, if_true, hconst i List.mem_cons_self hi]
      exact lastLead_self hrest
    | false =>
      have hne : item ≠ i := fun heq => by simp [heq, hi] at hassigns
      exact ih ((List.mem_cons.mp hmem).resolve_left hne) hrest _

/-- The keywords the fields take, in the order of the fields. -/
def taken (cls : ModelClass V w) (data : Data V) : Data V :=
  cls.fields.filterMap (Field.keyword · data)

theorem mem_taken : item ∈ taken cls data ↔ ∃ f ∈ cls.fields, f.keyword data = some item := by
  simp [taken]

theorem lastLead_taken (start : Option Attr) : an.lastLead (taken cls data) start =
    (an.field.keyword data).elim start an.leadOf := by
  cases hkeyword : an.field.keyword data with
  | none =>
    refine lastLead_none (fun item hitem => ?_) start
    obtain ⟨f, hf, hitem⟩ := mem_taken.mp hitem
    rw [Bool.eq_false_iff]
    intro hassigns
    obtain rfl := keyword_of_assigns hf hitem hassigns
    simp [hkeyword] at hitem
  | some item =>
    have hassigns : an.assigns item := by
      simpa [assigns] using (keyword_mem hkeyword).2
    refine lastLead_const (mem_taken.mpr ⟨_, an.mem, hkeyword⟩) hassigns (fun i hi hi' => ?_) start
    obtain ⟨f, hf, hi⟩ := mem_taken.mp hi
    obtain rfl := keyword_of_assigns hf hi hi'
    exact congrArg an.leadOf (Option.some.inj (hi.symm.trans hkeyword))

theorem assign_of_assignLeft (h : cls.assignLeft x item = .ok y) : cls.assign x item = .ok y := by
  unfold ModelClass.assignLeft at h
  split at h
  · exact h
  · cases h

theorem foldlM_assignLeft (h : items.foldlM cls.assignLeft x = .ok y) :
    items.foldlM cls.assign x = .ok y := by
  induction items generalizing x with
  | nil => exact h
  | cons item items ih =>
    rw [List.foldlM_cons] at h ⊢
    obtain ⟨x', hx', h⟩ := bind_eq_ok.mp h
    rw [assign_of_assignLeft hx']
    exact ih h

/-- What the constructor assigns after the fields have taken theirs. -/
def left (cls : ModelClass V w) (data : Data V) : Data V :=
  data.filter fun item => item.1 ∉ (taken cls data).map Prod.fst

theorem mem_left : item ∈ left cls data ↔
    item ∈ data ∧ item.1 ∉ (taken cls data).map Prod.fst := by
  simp [left]

def ordered (cls : ModelClass V w) (data : Data V) : Data V := taken cls data ++ left cls data

theorem construct_ok (h : cls.construct data = .ok y) :
    (ordered cls data).foldlM cls.assign cls.blank = .ok y := by
  obtain ⟨x, hx, h⟩ := bind_eq_ok.mp h
  rw [ordered, List.foldlM_append]
  exact bind_eq_ok.mpr ⟨x, hx, foldlM_assignLeft h⟩

theorem mem_ordered : item ∈ ordered cls data → item ∈ data := by
  intro h
  rcases List.mem_append.mp h with h | h
  · obtain ⟨f, -, hitem⟩ := mem_taken.mp h
    exact (keyword_mem hitem).1
  · exact (List.mem_filter.mp h).1

theorem keyword_taken (h : an.field.keyword data = some item) :
    item.1 ∈ (taken cls data).map Prod.fst :=
  List.mem_map_of_mem (mem_taken.mpr ⟨_, an.mem, h⟩)

theorem find_key_none {n : String} (h : ∀ i ∈ data, i.1 ≠ n) :
    data.find? (·.1 = n) = none :=
  List.find?_eq_none.mpr fun i hi => by simpa using h i hi

/-- Given by its column and then by its name, the relation leads to the same. -/
def OrderFree (an : Anchored cls) (data : Data V) : Prop :=
  ∀ q p, [q, p].Sublist data → q.1 = an.field.attname → p.1 = an.field.name →
    an.leadOf p = an.leadOf q

theorem lastLead_ordered_one (item : String × Written V)
    (hkeyword : an.field.keyword data = some item) (honly : ∀ i ∈ data, an.assigns i → i = item)
    (start : Option Attr) :
    an.lastLead (ordered cls data) start = an.lastLead data start := by
  have hitem := keyword_mem hkeyword
  rw [ordered, lastLead_append, lastLead_taken, hkeyword, Option.elim_some,
    lastLead_const hitem.1 (by simpa [assigns] using hitem.2)
      fun i hi hassigns => congrArg an.leadOf (honly i hi hassigns)]
  refine lastLead_none (fun i hi => ?_) _
  obtain ⟨hi, hileft⟩ := mem_left.mp hi
  rw [Bool.eq_false_iff]
  intro hassigns
  exact hileft (honly i hi hassigns ▸ keyword_taken hkeyword)

section Keys

variable (hkeys : (data.map Prod.fst).Nodup)
include hkeys

theorem eq_of_key {i j : String × Written V} (hi : i ∈ data) (hj : j ∈ data) (h : i.1 = j.1) :
    i = j :=
  List.inj_on_of_nodup_map hkeys hi hj h

theorem find_key {n : String} {i : String × Written V} (hi : i ∈ data) (h : i.1 = n) :
    data.find? (·.1 = n) = some i :=
  (Lib.Rows.find_eq_some hkeys).mpr ⟨hi, h⟩

theorem mem_ordered_of_key (h : item ∈ data) : item ∈ ordered cls data := by
  by_cases htaken : item.1 ∈ (taken cls data).map Prod.fst
  · obtain ⟨i, hi, hkey⟩ := List.mem_map.mp htaken
    obtain ⟨f, hf, hkeyword⟩ := mem_taken.mp hi
    rw [eq_of_key hkeys h (keyword_mem hkeyword).1 hkey.symm]
    exact List.mem_append_left _ hi
  · exact List.mem_append_right _ (mem_left.mpr ⟨h, htaken⟩)

section Both

variable {p q : String × Written V} (hp : p ∈ data) (hpname : p.1 = an.field.name)
  (hq : q ∈ data) (hqname : q.1 = an.field.attname)
include hp hpname hq hqname

theorem lastLead_ordered_both (start : Option Attr) :
    an.lastLead (ordered cls data) start = an.leadOf q := by
  have hkeyword : an.field.keyword data = some p := by
    simp only [Field.keyword, an.kind, find_key hkeys hp hpname, Option.some_or]
  have hqleft : q.1 ∉ (taken cls data).map Prod.fst := by
    intro hmem
    obtain ⟨i, hi, hiq⟩ := List.mem_map.mp hmem
    obtain ⟨f, hf, hkey⟩ := mem_taken.mp hi
    obtain rfl := keyword_of_assigns hf hkey (assigns_iff.mpr (.inr (hiq.trans hqname)))
    obtain rfl := Option.some.inj (hkey.symm.trans hkeyword)
    exact cls.attname_ne _ an.mem an.kind (hqname.symm.trans (hiq.symm.trans hpname))
  rw [ordered, lastLead_append]
  refine lastLead_const (mem_left.mpr ⟨hq, hqleft⟩) (assigns_iff.mpr (.inr hqname))
    (fun i hi hassigns => ?_) _
  obtain ⟨hi, hileft⟩ := mem_left.mp hi
  rcases assigns_iff.mp hassigns with h | h
  · rw [h, ← hpname] at hileft
    exact absurd (keyword_taken hkeyword) hileft
  · rw [eq_of_key hkeys hi hq (h.trans hqname.symm)]

theorem lastLead_both (horder : an.OrderFree data) (start : Option Attr) :
    an.lastLead data start = an.leadOf q := by
  have hqassigns : an.assigns q := assigns_iff.mpr (.inr hqname)
  have honly : ∀ i ∈ data, an.assigns i → i = p ∨ i = q := fun i hi hassigns =>
    (assigns_iff.mp hassigns).imp (fun h => eq_of_key hkeys hi hp (h.trans hpname.symm))
      fun h => eq_of_key hkeys hi hq (h.trans hqname.symm)
  obtain ⟨before, after, rfl⟩ := List.append_of_mem hq
  rw [List.map_append, List.map_cons, List.nodup_append] at hkeys
  rcases List.mem_append.mp hp with hp | hp
  · rw [lastLead_append]
    refine lastLead_cons hqassigns (fun i hi => ?_) _
    rw [Bool.eq_false_iff]
    intro hassigns
    rcases assigns_iff.mp hassigns with h | h
    · exact hkeys.2.2 p.1 (List.mem_map_of_mem hp) i.1
        (List.mem_cons_of_mem _ (List.mem_map_of_mem hi)) (hpname.trans h.symm)
    · exact (List.nodup_cons.mp hkeys.2.1).1 (hqname.trans h.symm ▸ List.mem_map_of_mem hi)
  · have hp : p ∈ after := (List.mem_cons.mp hp).resolve_left fun heq =>
      cls.attname_ne _ an.mem an.kind (hqname.symm.trans (heq ▸ hpname))
    have hsame : an.leadOf p = an.leadOf q := by
      refine horder q p ?_ hqname hpname
      exact ((List.singleton_sublist.mpr hp).cons_cons _).trans (List.sublist_append_right _ _)
    refine lastLead_const (List.mem_append_right _ List.mem_cons_self) hqassigns
      (fun i hi hassigns => ?_) start
    rcases honly i hi hassigns with rfl | rfl
    · exact hsame
    · rfl

end Both

theorem lastLead_ordered (horder : an.OrderFree data) (start : Option Attr) :
    an.lastLead (ordered cls data) start = an.lastLead data start := by
  by_cases hname : ∃ p ∈ data, p.1 = an.field.name
  · obtain ⟨p, hp, hpname⟩ := hname
    by_cases hcolumn : ∃ q ∈ data, q.1 = an.field.attname
    · obtain ⟨q, hq, hqname⟩ := hcolumn
      rw [lastLead_ordered_both hkeys hp hpname hq hqname,
        lastLead_both hkeys hp hpname hq hqname horder]
    · refine lastLead_ordered_one p ?_ (fun i hi hassigns => ?_) start
      · simp only [Field.keyword, an.kind, find_key hkeys hp hpname, Option.some_or]
      · rcases assigns_iff.mp hassigns with h | h
        · exact eq_of_key hkeys hi hp (h.trans hpname.symm)
        · exact absurd ⟨i, hi, h⟩ hcolumn
  · have hname : ∀ i ∈ data, i.1 ≠ an.field.name := fun i hi h => hname ⟨i, hi, h⟩
    have hkeyword : an.field.keyword data = data.find? (·.1 = an.field.attname) := by
      simp only [Field.keyword, an.kind, find_key_none hname, Option.none_or]
    cases hcolumn : data.find? (·.1 = an.field.attname) with
    | none =>
      have hnone : ∀ i ∈ data, an.assigns i = false := by
        intro i hi
        rw [Bool.eq_false_iff]
        intro hassigns
        exact (assigns_iff.mp hassigns).elim (hname i hi)
          (by simpa using List.find?_eq_none.mp hcolumn i hi)
      rw [lastLead_none hnone, lastLead_none fun i hi => hnone i (mem_ordered hi)]
    | some q =>
      obtain ⟨hq, hqname⟩ := (Lib.Rows.find_eq_some hkeys).mp hcolumn
      refine lastLead_ordered_one q (hkeyword.trans hcolumn) (fun i hi hassigns => ?_) start
      rcases assigns_iff.mp hassigns with h | h
      · exact absurd h (hname i hi)
      · exact eq_of_key hkeys hi hq (h.trans hqname.symm)

theorem orderFree_of_lastLead {start : Option Attr}
    (h : an.lastLead (ordered cls data) start = an.lastLead data start) : an.OrderFree data := by
  intro q p hsub hqname hpname
  have hq : q ∈ data := hsub.subset List.mem_cons_self
  have hp : p ∈ data := hsub.subset (by simp)
  rw [lastLead_ordered_both hkeys hp hpname hq hqname] at h
  rw [h]
  have hlast : ∃ before after, data = before ++ p :: after ∧ q ∉ after := by
    obtain ⟨before, after, rfl, hqbefore, hpafter⟩ := List.cons_sublist_iff.mp hsub
    obtain ⟨mid, after', rfl⟩ := List.append_of_mem (List.singleton_sublist.mp hpafter)
    refine ⟨before ++ mid, after', by simp, fun hmem => ?_⟩
    have hnodup := hkeys.of_map
    rw [List.nodup_append] at hnodup
    exact hnodup.2.2 q hqbefore q (by simp [hmem]) rfl
  obtain ⟨before, after, rfl, hqafter⟩ := hlast
  rw [lastLead_append]
  refine (lastLead_cons (assigns_iff.mpr (.inl hpname)) (fun i hi => ?_) _).symm
  rw [Bool.eq_false_iff]
  intro hassigns
  have hmem : i ∈ before ++ p :: after := List.mem_append_right _ (List.mem_cons_of_mem _ hi)
  rcases assigns_iff.mp hassigns with hname | hname
  · have hip := eq_of_key hkeys hmem hp (hname.trans hpname.symm)
    have hnodup := hkeys.of_map
    rw [List.nodup_append] at hnodup
    exact (List.nodup_cons.mp hnodup.2.1).1 (hip ▸ hi)
  · exact hqafter (eq_of_key hkeys hmem hq (hname.trans hqname.symm) ▸ hi)

end Keys

end Anchored

end ScopedAccess.Drf
