import ScopedAccess.Engine.Scope
import ScopedAccess.Lib.Loop

namespace ScopedAccess

open Lib.Walk
open Lib.Loop (bind_eq_ok ok_bind)

namespace World

variable (w : World)

theorem parent_within : Within w.parent w.db.rows := by
  intro r s h
  obtain ⟨accessor, -, hs⟩ := Option.bind_eq_some_iff.mp h
  exact w.db.follow_mem (by simp [Accessor.parts]) hs

section Attributes

variable {w}

theorem getattr_stored (r : Row) (name : String) :
    w.getattr name (.stored r) = (w.db.related r name).map .stored ∨
      w.db.related r name = none ∧ w.getattr name (.stored r) = some .plain := by
  have hrelated : w.relatedObj (.stored r) name = (w.db.related r name).map Obj.stored := rfl
  cases h : w.db.related r name with
  | some s =>
    have hmodel := w.db.related_model h
    refine .inl ?_
    simp [getattr, Obj.model, Obj.stored, hmodel, h, relatedObj, Obj.under]
  | none =>
    simp only [getattr, hrelated, h]
    split
    · simp
    · split <;> simp

theorem getattr_relation {r : Row} {name : String} {m : Model}
    (h : w.site.schema.relatedModel r.model name = some m) :
    w.getattr name (.stored r) = (w.db.related r name).map .stored := by
  rcases getattr_stored (w := w) r name with hget | ⟨hnone, -⟩
  · exact hget
  · have hmodel : w.site.schema.relatedModel (Obj.stored r).model name = some m := h
    have hobj : w.relatedObj (.stored r) name = none := congrArg (Option.map _) hnone
    simp only [getattr, hmodel, hobj, hnone]
    rfl

theorem getattr_congr {db : Database w.site.schema} {r : Row}
    (hrelated : ∀ f, db.related r f = w.db.related r f) (hplain : db.plain = w.db.plain)
    (name : String) :
    ({ w with db := db } : World).getattr name (.stored r) = w.getattr name (.stored r) := by
  have hobj (f : String) : ({ w with db := db } : World).relatedObj (.stored r) f =
      w.relatedObj (.stored r) f := congrArg (Option.map _) (hrelated f)
  simp only [World.getattr, World.holds, hobj]
  rw [hplain]
  rfl

@[simp] theorem followAttr_nil (x : Attr) : w.followAttr x [] = some x := rfl

theorem followAttr_cons (x : Attr) (f : String) (path : List String) :
    w.followAttr x (f :: path) = (w.getattr f x).bind (w.followAttr · path) := rfl

theorem followAttr_stored (r : Row) (path : List String) :
    w.followAttr (.stored r) path = (w.db.follow r path).map .stored ∨
      w.db.follow r path = none ∧ w.followAttr (.stored r) path = some .plain := by
  induction path generalizing r with
  | nil => exact .inl rfl
  | cons f path ih =>
    have hplain : w.followAttr .plain path = none ∨ w.followAttr .plain path = some .plain := by
      cases path with
      | nil => exact .inr rfl
      | cons g path => exact .inl rfl
    rcases getattr_stored (w := w) r f with h | ⟨hnone, h⟩
    · simp only [followAttr_cons, h, Database.follow]
      cases w.db.related r f with
      | none => exact .inl rfl
      | some s => exact ih s
    · simp only [followAttr_cons, h, Database.follow, hnone]
      simpa using hplain

theorem followAttr_eq_stored {r s : Row} {path : List String} :
    w.followAttr (.stored r) path = some (.stored s) ↔ w.db.follow r path = some s := by
  rcases followAttr_stored (w := w) r path with h | ⟨hnone, h⟩
  · rw [h]
    cases w.db.follow r path <;> simp [Obj.stored]
  · rw [h]
    simp [hnone]

theorem followAttr_relational {m m' : Model} {path : List String}
    (hpath : w.site.schema.relatedPath m path = some m') {o : Obj} (ho : o.model = m) :
    w.followAttr o path = none ∨ ∃ o' : Obj, w.followAttr o path = some (.object o') := by
  induction path generalizing m o with
  | nil => exact .inr ⟨o, rfl⟩
  | cons f path ih =>
    obtain ⟨m₁, hm₁, hpath⟩ := Option.bind_eq_some_iff.mp hpath
    have hrelated : w.site.schema.relatedModel o.model f = some m₁ := ho ▸ hm₁
    simp only [followAttr_cons, getattr, hrelated]
    cases hx : (w.relatedObj o f).filter (·.model = m₁) with
    | none => exact .inl rfl
    | some x =>
      have hmodel : x.model = m₁ := by simpa using (Option.filter_eq_some_iff.mp hx).2
      exact ih hpath hmodel

theorem followAttr_follow {m' : Model} {r : Row} {path : List String}
    (h : w.site.schema.relatedPath r.model path = some m') :
    w.followAttr (.stored r) path = (w.db.follow r path).map .stored := by
  rcases followAttr_stored (w := w) r path with hfollow | ⟨-, hplain⟩
  · exact hfollow
  · rcases followAttr_relational h (o := .stored r) rfl with hnone | ⟨o', ho'⟩
    · exact absurd (hplain.symm.trans hnone) (by simp)
    · exact absurd (hplain.symm.trans ho') (by simp)

end Attributes

def Ancestor (x : Attr) (r : Row) : Prop :=
  ∃ o : Obj, Reaches w.parentAttr x o ∧ o.row = r

/-- The loop of `iter_ancestors` ends, and what it yields are instances. -/
def Walks (x : Attr) : Prop := Ends w.parentAttr x ∧ ¬ Reaches w.parentAttr x .plain

def AccessorsRelate (site : Site) : Prop :=
  ∀ m accessor, site.hierarchy.parentAccessorForModel m = some accessor →
    (site.schema.relatedPath m accessor.parts).isSome

/-- The accessors are paths of relations, and no node is above itself. -/
structure Acyclic : Prop where
  relations : AccessorsRelate w.site
  parents : Lib.Walk.Acyclic w.parent

variable {w}

theorem parentAttr_stored (r : Row) :
    w.parentAttr (.stored r) = (w.parent r).map .stored ∨
      w.parent r = none ∧ w.parentAttr (.stored r) = some .plain := by
  cases h : w.hierarchy.parentAccessorForModel r.model with
  | none => simp [parentAttr, parent, Obj.model, Obj.stored, h]
  | some accessor =>
    have hparent : w.parent r = w.db.follow r accessor.parts := by simp [parent, h]
    have hattr : w.parentAttr (.stored r) = w.followAttr (.stored r) accessor.parts := by
      change (w.hierarchy.parentAccessorForModel r.model).bind _ = _
      rw [h]
      rfl
    rw [hparent, hattr]
    exact followAttr_stored r accessor.parts

theorem parentAttr_of_parent {r s : Row} (h : w.parent r = some s) :
    w.parentAttr (.stored r) = some (.stored s) := by
  rcases parentAttr_stored (w := w) r with hattr | ⟨hnone, -⟩
  · simp [hattr, h]
  · simp [h] at hnone

theorem nth_stored {k : Nat} {r : Row} {x : Attr} (h : nth w.parentAttr k (.stored r) = some x) :
    (∃ s, x = .stored s ∧ nth w.parent k r = some s) ∨ x = .plain := by
  induction k generalizing r with
  | zero => exact .inl ⟨r, (Option.some.inj h).symm, rfl⟩
  | succ k ih =>
    obtain ⟨y, hy, h⟩ := Option.bind_eq_some_iff.mp h
    rcases parentAttr_stored (w := w) r with hattr | ⟨-, hattr⟩
    · rw [hattr] at hy
      obtain ⟨s, hs, rfl⟩ := Option.map_eq_some_iff.mp hy
      refine (ih h).imp_left fun ⟨t, ht, hnth⟩ => ⟨t, ht, ?_⟩
      rw [nth_succ, hs]
      exact hnth
    · obtain rfl : .plain = y := Option.some.inj (hattr.symm.trans hy)
      cases k with
      | zero => exact .inr (Option.some.inj h).symm
      | succ k => cases h

theorem nth_parentAttr {k : Nat} {r s : Row} (h : nth w.parent k r = some s) :
    nth w.parentAttr k (.stored r) = some (.stored s) := by
  induction k generalizing r with
  | zero => exact congrArg (Option.some ∘ Attr.stored) (Option.some.inj h)
  | succ k ih =>
    obtain ⟨t, ht, h⟩ := Option.bind_eq_some_iff.mp h
    rw [nth_succ, parentAttr_of_parent ht]
    exact ih h

theorem ancestor_stored {r s : Row} : w.Ancestor (.stored r) s ↔ Reaches w.parent r s := by
  constructor
  · rintro ⟨o, ⟨k, hk⟩, rfl⟩
    rcases nth_stored hk with ⟨t, ht, hnth⟩ | hplain
    · cases ht
      exact ⟨k, hnth⟩
    · cases hplain
  · rintro ⟨k, hk⟩
    exact ⟨.stored s, ⟨k, nth_parentAttr hk⟩, rfl⟩

theorem ends_stored {r : Row} : Ends w.parentAttr (.stored r) ↔ Ends w.parent r := by
  constructor
  · rintro ⟨k, hk⟩
    refine ⟨k, ?_⟩
    by_contra hne
    obtain ⟨s, hs⟩ := Option.ne_none_iff_exists'.mp hne
    simp [nth_parentAttr hs] at hk
  · rintro ⟨k, hk⟩
    refine ⟨k + 1, ?_⟩
    rw [nth_succ']
    cases hx : nth w.parentAttr k (.stored r) with
    | none => rfl
    | some x =>
      rcases nth_stored hx with ⟨s, -, hs⟩ | rfl
      · simp [hk] at hs
      · rfl

theorem reaches_plain {r : Row} : Reaches w.parentAttr (.stored r) .plain ↔
    ∃ s, Reaches w.parent r s ∧ w.parentAttr (.stored s) = some .plain := by
  constructor
  · rintro ⟨k, hk⟩
    cases k with
    | zero => cases hk
    | succ k =>
      rw [nth_succ'] at hk
      obtain ⟨x, hx, hplain⟩ := Option.bind_eq_some_iff.mp hk
      rcases nth_stored hx with ⟨s, rfl, hs⟩ | rfl
      · exact ⟨s, ⟨k, hs⟩, hplain⟩
      · cases hplain
  · rintro ⟨s, ⟨k, hk⟩, hs⟩
    exact Reaches.trans ⟨k, nth_parentAttr hk⟩ (.step hs)

theorem not_ancestor_plain {r : Row} : ¬ w.Ancestor .plain r := by
  rintro ⟨o, hreach, -⟩
  rcases reaches_iff.mp hreach with heq | ⟨x, hx, -⟩
  · cases heq
  · cases hx

theorem walks_stored {r : Row} : w.Walks (.stored r) ↔ Ends w.parent r ∧
    ∀ s, Reaches w.parent r s → w.parentAttr (.stored s) ≠ some .plain := by
  simp [Walks, ends_stored, reaches_plain]

theorem followAttr_nearer {o o' : Obj} {path : List String} (hne : path ≠ [])
    (h : w.followAttr o path = some (.object o')) : Obj.Nearer 1 o o' := by
  induction path generalizing o with
  | nil => exact absurd rfl hne
  | cons f path ih =>
    obtain ⟨x, hx, h⟩ := Option.bind_eq_some_iff.mp h
    cases x with
    | plain => cases path <;> cases h
    | object o₁ =>
      have hfirst : Obj.Nearer 1 o o₁ := by
        simp only [getattr] at hx
        split at hx
        · obtain ⟨o₂, ho₂, heq⟩ := Option.map_eq_some_iff.mp hx
          cases heq
          obtain ⟨r, -, rfl⟩ := Option.map_eq_some_iff.mp (Option.filter_eq_some_iff.mp ho₂).1
          exact (o.under_depth f).imp_right fun hle => hle r
        · split at hx <;> cases hx
      cases path with
      | nil =>
        cases h
        exact hfirst
      | cons g path => exact (hfirst.step (ih (by simp) h)).one

theorem parentAttr_nearer {o o' : Obj} (h : w.parentAttr o = some (.object o')) :
    Obj.Nearer 1 o o' := by
  obtain ⟨accessor, -, h⟩ := Option.bind_eq_some_iff.mp h
  exact followAttr_nearer (by simp [Accessor.parts]) h

theorem nth_nearer {k : Nat} {o o' : Obj}
    (h : nth w.parentAttr (k + 1) (.object o) = some (.object o')) : Obj.Nearer (k + 1) o o' := by
  induction k generalizing o' with
  | zero =>
    obtain ⟨x, hx, h⟩ := Option.bind_eq_some_iff.mp h
    cases h
    exact parentAttr_nearer hx
  | succ k ih =>
    rw [nth_succ'] at h
    obtain ⟨x, hx, h⟩ := Option.bind_eq_some_iff.mp h
    cases x with
    | plain => cases h
    | object o₁ => exact (ih hx).step (parentAttr_nearer h)

theorem nth_depth {o : Obj} {x : Attr} (h : nth w.parentAttr (o.depth + 1) (.object o) = some x) :
    (∃ r, x = .stored r) ∨ x = .plain := by
  cases x with
  | plain => exact .inr rfl
  | object o' =>
    rcases nth_nearer h with hnil | hle
    · obtain ⟨r, edits⟩ := o'
      obtain rfl : edits = [] := hnil
      exact .inl ⟨r, rfl⟩
    · omega

variable {x : Attr} {p : Row → Bool}

theorem anyAncestorFrom_true {fuel : Nat} (h : anyAncestorFrom w.parentAttr p fuel x = .ok true) :
    ∃ r, w.Ancestor x r ∧ p r := by
  induction fuel generalizing x with
  | zero => cases h
  | succ fuel ih =>
    cases x with
    | plain => cases h
    | object o =>
      rw [anyAncestorFrom] at h
      split at h
      · exact ⟨o.row, ⟨o, .refl _, rfl⟩, ‹_›⟩
      · cases hy : w.parentAttr o with
        | none => simp [hy] at h
        | some y =>
          obtain ⟨r, ⟨o', hreach, ho'⟩, hr⟩ := ih (x := y) (by simpa [hy] using h)
          exact ⟨r, ⟨o', hreach.head hy, ho'⟩, hr⟩

theorem anyAncestorFrom_false {fuel : Nat} (h : anyAncestorFrom w.parentAttr p fuel x = .ok false) :
    w.Walks x ∧ ∀ r, w.Ancestor x r → p r = false := by
  induction fuel generalizing x with
  | zero => cases h
  | succ fuel ih =>
    cases x with
    | plain => cases h
    | object o =>
      rw [anyAncestorFrom] at h
      split at h
      · cases h
      · rename_i hp
        cases hy : w.parentAttr o with
        | none =>
          refine ⟨⟨⟨1, by simp [nth_succ, hy]⟩, fun hreach => ?_⟩, ?_⟩
          · rcases reaches_iff.mp hreach with heq | ⟨y, hy', -⟩
            · cases heq
            · simp [hy] at hy'
          · rintro r ⟨o', hreach, rfl⟩
            rcases reaches_iff.mp hreach with heq | ⟨y, hy', -⟩
            · cases heq
              simpa using hp
            · simp [hy] at hy'
        | some y =>
          obtain ⟨⟨hends, hplain⟩, hall⟩ := ih (x := y) (by simpa [hy] using h)
          refine ⟨⟨(Reaches.step hy).ends_iff.mpr hends, fun hreach => ?_⟩, ?_⟩
          · rcases reaches_iff.mp hreach with heq | ⟨z, hz, hreach⟩
            · cases heq
            · obtain rfl := Option.some.inj (hy.symm.trans hz)
              exact hplain hreach
          · rintro r ⟨o', hreach, rfl⟩
            rcases reaches_iff.mp hreach with heq | ⟨z, hz, hreach⟩
            · cases heq
              simpa using hp
            · obtain rfl := Option.some.inj (hy.symm.trans hz)
              exact hall _ ⟨o', hreach, rfl⟩

theorem anyAncestorFrom_raised {fuel : Nat} {e : Exn}
    (h : anyAncestorFrom w.parentAttr p fuel x = .error (.raised e)) :
    e.cls = .attributeError ∧ Reaches w.parentAttr x .plain ∧ ∀ r, w.Ancestor x r → p r = false := by
  induction fuel generalizing x with
  | zero => cases h
  | succ fuel ih =>
    cases x with
    | plain =>
      refine ⟨by cases h; rfl, .refl _, ?_⟩
      rintro r ⟨o', hreach, -⟩
      rcases reaches_iff.mp hreach with heq | ⟨y, hy, -⟩
      · cases heq
      · cases hy
    | object o =>
      rw [anyAncestorFrom] at h
      split at h
      · cases h
      · rename_i hp
        cases hy : w.parentAttr o with
        | none => simp [hy] at h
        | some y =>
          obtain ⟨he, hplain, hall⟩ := ih (x := y) (by simpa [hy] using h)
          refine ⟨he, hplain.head hy, ?_⟩
          rintro r ⟨o', hreach, rfl⟩
          rcases reaches_iff.mp hreach with heq | ⟨z, hz, hreach⟩
          · cases heq
            simpa using hp
          · obtain rfl := Option.some.inj (hy.symm.trans hz)
            exact hall _ ⟨o', hreach, rfl⟩

theorem anyAncestorFrom_diverges {fuel : Nat}
    (h : anyAncestorFrom w.parentAttr p fuel x = .error .diverges) :
    ∀ k < fuel, ∃ o : Obj, nth w.parentAttr k x = some (.object o) ∧ p o.row = false := by
  induction fuel generalizing x with
  | zero => simp
  | succ fuel ih =>
    cases x with
    | plain => cases h
    | object o =>
      rw [anyAncestorFrom] at h
      split at h
      · cases h
      · rename_i hp
        cases hy : w.parentAttr o with
        | none => simp [hy] at h
        | some y =>
          intro k hk
          cases k with
          | zero => exact ⟨o, rfl, by simpa using hp⟩
          | succ k => simpa [nth_succ, hy] using ih (x := y) (by simpa [hy] using h) k (by omega)

theorem anyAncestor_diverges (h : w.anyAncestor x p = .error .diverges) :
    ¬ Ends w.parentAttr x ∧ ∀ r, w.Ancestor x r → p r = false := by
  have hsteps := anyAncestorFrom_diverges h
  cases x with
  | plain =>
    obtain ⟨o, ho, -⟩ := hsteps 0 Nat.one_pos
    cases ho
  | object o =>
    have hfuel : w.walkFuel (.object o) = o.depth + 1 + enough w.db.rows := rfl
    rw [hfuel] at hsteps
    obtain ⟨o', ho', -⟩ := hsteps (o.depth + 1) (by simp [enough])
    obtain ⟨r, hr⟩ : ∃ r, Attr.object o' = .stored r :=
      (nth_depth ho').resolve_right fun hplain => by cases hplain
    rw [hr] at ho'
    have hrows : ∀ k < enough w.db.rows, ∃ s, nth w.parent k r = some s ∧ p s = false := by
      intro k hk
      obtain ⟨o'', ho'', hp⟩ := hsteps (o.depth + 1 + k) (by omega)
      rw [nth_add, ho'] at ho''
      rcases nth_stored ho'' with ⟨s, hs, hnth⟩ | hplain
      · cases hs
        exact ⟨s, hnth, hp⟩
      · cases hplain
    obtain ⟨hends, hall⟩ := repeats_of_steps w.parent_within hrows
    refine ⟨fun hends' => hends ?_, ?_⟩
    · exact ends_stored.mp ((Reaches.ends_iff ⟨_, ho'⟩).mp hends')
    · rintro s ⟨o₁, ⟨k, hk⟩, rfl⟩
      by_cases hlt : k < o.depth + 1
      · obtain ⟨o₂, ho₂, hp⟩ := hsteps k (by omega)
        cases ho₂.symm.trans hk
        exact hp
      · obtain ⟨j, rfl⟩ := Nat.exists_eq_add_of_le (Nat.le_of_not_lt hlt)
        rw [nth_add, ho'] at hk
        rcases nth_stored hk with ⟨s, hs, hnth⟩ | hplain
        · cases hs
          exact hall s ⟨j, hnth⟩
        · cases hplain

theorem anyAncestor_error {e : Abort} (h : w.anyAncestor x p = .error e) :
    ¬ w.Walks x ∧ ∀ r, w.Ancestor x r → p r = false := by
  cases e with
  | raised e =>
    obtain ⟨-, hplain, hall⟩ := anyAncestorFrom_raised h
    exact ⟨fun hw => hw.2 hplain, hall⟩
  | diverges =>
    obtain ⟨hends, hall⟩ := anyAncestor_diverges h
    exact ⟨fun hw => hends hw.1, hall⟩

theorem anyAncestor_true : w.anyAncestor x p = .ok true ↔ ∃ r, w.Ancestor x r ∧ p r := by
  refine ⟨anyAncestorFrom_true, ?_⟩
  rintro ⟨r, hr, hp⟩
  cases h : w.anyAncestor x p with
  | error e => simp [(anyAncestor_error h).2 r hr] at hp
  | ok b =>
    cases b with
    | true => rfl
    | false => simp [(anyAncestorFrom_false h).2 r hr] at hp

theorem anyAncestor_total (hw : w.Walks x) :
    ∃ b, w.anyAncestor x p = .ok b ∧ (b = true ↔ ∃ r, w.Ancestor x r ∧ p r) := by
  cases h : w.anyAncestor x p with
  | error e => exact absurd hw (anyAncestor_error h).1
  | ok b =>
    refine ⟨b, rfl, ?_⟩
    rw [← anyAncestor_true, h, Except.ok.injEq]

theorem anyAncestor_false :
    w.anyAncestor x p = .ok false ↔ w.Walks x ∧ ∀ r, w.Ancestor x r → p r = false := by
  refine ⟨anyAncestorFrom_false, ?_⟩
  rintro ⟨hw, hall⟩
  obtain ⟨b, hb, hiff⟩ := anyAncestor_total (p := p) hw
  cases b with
  | false => exact hb
  | true =>
    obtain ⟨r, hr, hp⟩ := hiff.mp rfl
    simp [hall r hr] at hp

theorem parentAttr_ne_plain (hrel : AccessorsRelate w.site) (o : Obj) :
    w.parentAttr o ≠ some .plain := by
  intro h
  obtain ⟨accessor, haccessor, h⟩ := Option.bind_eq_some_iff.mp h
  obtain ⟨m, hm⟩ := Option.isSome_iff_exists.mp (hrel _ _ haccessor)
  rcases followAttr_relational hm rfl with hnone | ⟨o', ho'⟩
  · simp [hnone] at h
  · simp [ho'] at h

theorem ends_attr (hac : Lib.Walk.Acyclic w.parent) (x : Attr) : Ends w.parentAttr x := by
  cases x with
  | plain => exact ⟨1, rfl⟩
  | object o =>
    cases h : nth w.parentAttr (o.depth + 1) (.object o) with
    | none => exact ⟨_, h⟩
    | some y =>
      refine (Reaches.ends_iff ⟨_, h⟩).mpr ?_
      rcases nth_depth h with ⟨r, rfl⟩ | rfl
      · exact ends_stored.mpr (ends_of_acyclic w.parent_within hac r)
      · exact ⟨1, rfl⟩

theorem walks_of_acyclic (hac : w.Acyclic) (o : Obj) : w.Walks o := by
  refine ⟨ends_attr hac.parents o, ?_⟩
  rintro ⟨k, hk⟩
  cases k with
  | zero => cases hk
  | succ k =>
    rw [nth_succ'] at hk
    obtain ⟨x, -, hx⟩ := Option.bind_eq_some_iff.mp hk
    cases x with
    | plain => cases hx
    | object o' => exact parentAttr_ne_plain hac.relations o' hx

def NodesEnd (w : World) : Prop :=
  ∀ l ∈ w.hierarchy.levels, ∀ r, l.selects w.db r → w.Walks (.stored r)

theorem nodesEnd_of_acyclic (hac : w.Acyclic) : w.NodesEnd :=
  fun _ _ r _ => walks_of_acyclic hac (.stored r)

theorem reaches_mem {r s : Row} (hr : r ∈ w.db.rows) (h : Reaches w.parent r s) :
    s ∈ w.db.rows := by
  obtain ⟨k, hk⟩ := h
  cases k with
  | zero =>
    obtain rfl : r = s := by simpa using hk
    exact hr
  | succ k => exact nth_mem w.parent_within hk

variable {o : Obj}

theorem resolveAnchor_node {n : Attr} (h : w.resolveAnchor o = .node n) :
    (w.hierarchy.isNodeModel o.model ∧ n = o) ∨
      (w.hierarchy.isNodeModel o.model = false ∧ w.site.resources.isGlobal o.model = false ∧
        ∃ path, w.site.resources.anchorFor o.model = some path ∧
          w.followAttr o path.parts = some n) := by
  unfold resolveAnchor at h
  cases hnode : w.hierarchy.isNodeModel o.model with
  | true => exact .inl ⟨rfl, by simpa [hnode, eq_comm] using h⟩
  | false =>
    cases hglobal : w.site.resources.isGlobal o.model with
    | true => simp [hnode, hglobal] at h
    | false =>
      cases hpath : w.site.resources.anchorFor o.model with
      | none => cases hstrict : w.site.strictRegistration <;> simp [hnode, hglobal, hpath, hstrict] at h
      | some path =>
        cases hs : w.followAttr o path.parts with
        | none => simp [hnode, hglobal, hpath, hs] at h
        | some x =>
          exact .inr ⟨rfl, rfl, path, rfl, by simpa [hnode, hglobal, hpath, hs] using h⟩

theorem resolveAnchor_stored {r : Row} {n : Attr} (h : w.resolveAnchor (.stored r) = .node n) :
    (w.hierarchy.isNodeModel r.model ∧ n = .stored r) ∨
      (w.hierarchy.isNodeModel r.model = false ∧ w.site.resources.isGlobal r.model = false ∧
        ∃ path, w.site.resources.anchorFor r.model = some path ∧
          (n = .plain ∨ ∃ s, w.db.follow r path.parts = some s ∧ n = .stored s)) := by
  rcases resolveAnchor_node h with hself | ⟨hm, hglobal, path, hpath, hn⟩
  · exact .inl hself
  · refine .inr ⟨hm, hglobal, path, hpath, ?_⟩
    rcases followAttr_stored (w := w) r path.parts with hfollow | ⟨-, hfollow⟩
    · obtain ⟨s, hs, rfl⟩ := Option.map_eq_some_iff.mp (hfollow.symm.trans hn)
      exact .inr ⟨s, hs, rfl⟩
    · exact .inl (Option.some.inj (hn.symm.trans hfollow))

theorem resolveAnchor_anchored {r : Row} {path : Accessor}
    (hm : w.hierarchy.isNodeModel r.model = false)
    (hpath : w.site.resources.anchorFor r.model = some path)
    (hrelated : (w.site.schema.relatedPath r.model path.parts).isSome) :
    w.resolveAnchor (.stored r) = match w.db.follow r path.parts with
      | some n => .node (.stored n)
      | none => .denied := by
  have hglobal := w.site.resources.isGlobal_of_anchorFor hpath
  obtain ⟨m, hrelated⟩ := Option.isSome_iff_exists.mp hrelated
  have hfollow : w.followAttr (Obj.stored r) path.parts =
      (w.db.follow r path.parts).map .stored := followAttr_follow hrelated
  simp only [resolveAnchor, Obj.model, Obj.stored] at hfollow ⊢
  simp only [hm, hglobal, hpath, Bool.false_eq_true, if_false, hfollow]
  cases w.db.follow r path.parts <;> rfl

def AnchorsRelate (site : Site) : Prop :=
  ∀ m path, site.resources.anchorFor m = some path → (site.schema.relatedPath m path.parts).isSome

theorem resolveAnchor_ne_plain (hpath : ∀ path, w.site.resources.anchorFor o.model = some path →
    (w.site.schema.relatedPath o.model path.parts).isSome) : w.resolveAnchor o ≠ .node .plain := by
  intro h
  rcases resolveAnchor_node h with ⟨-, hself⟩ | ⟨-, -, path, hanchor, hfollow⟩
  · cases hself
  · obtain ⟨m, hm⟩ := Option.isSome_iff_exists.mp (hpath path hanchor)
    rcases followAttr_relational hm rfl with hnone | ⟨o', ho'⟩
    · exact absurd (hnone.symm.trans hfollow) (by simp)
    · exact absurd (ho'.symm.trans hfollow) (by simp)

/-- No walk of a decision goes round or leaves the instances. -/
structure Grounded (w : World) : Prop extends w.Acyclic where
  anchors : AnchorsRelate w.site

theorem Grounded.frame (hac : w.Grounded) (now : Time) (t : Tables) :
    ({ w with now := now, tables := t } : World).Grounded :=
  ⟨⟨hac.relations, hac.parents⟩, hac.anchors⟩

theorem Acyclic.walks (hac : w.Acyclic) {o : Option Obj} (ho : w.anchorOf o ≠ .node .plain)
    {n : Attr} (hn : w.anchorOf o = .node n) : w.Walks n := by
  cases n with
  | object n => exact walks_of_acyclic hac n
  | plain => exact absurd hn ho

theorem Grounded.walks (hw : w.Grounded) (o : Option Obj) (n : Attr)
    (hn : w.anchorOf o = .node n) : w.Walks n := by
  refine hw.toAcyclic.walks (fun hplain => ?_) hn
  cases o with
  | none => cases hplain
  | some o => exact resolveAnchor_ne_plain (hw.anchors o.model) hplain

theorem isRow_iff {ct : Option Ct} {id : Option String} {r : Row} :
    w.isRow ct id r ↔ id = some r.pk ∧ ct = some (w.site.schema.contentType r.model) := by
  simp [isRow]

theorem isRow_unique {ct : Option Ct} {id : Option String} {r s : Row} (hr : w.isRow ct id r)
    (hs : w.isRow ct id s) : r = s := by
  obtain ⟨hid, hct⟩ := isRow_iff.mp hr
  obtain ⟨hid', hct'⟩ := isRow_iff.mp hs
  have hpk : r.pk = s.pk := Option.some.inj (hid.symm.trans hid')
  have hmodel := w.site.schema.contentType_injective (Option.some.inj (hct.symm.trans hct'))
  cases r
  cases s
  simp_all

theorem isRow_generic {ct : Option Ct} {id : Option String} {r : Row} (hr : r ∈ w.db.rows)
    (h : w.isRow ct id r) : w.db.generic ct id = .ok (some r) := by
  obtain ⟨rfl, rfl⟩ := isRow_iff.mp h
  simp [Database.generic, w.site.schema.modelClass_eq_some.mpr rfl, w.db.toPk_pk hr, hr]

theorem genericObj_stored {ct : Option Ct} {id : Option String} {r : Row} :
    w.genericObj ct id = .ok (some (.stored r)) ↔ w.db.generic ct id = .ok (some r) := by
  unfold genericObj
  cases w.db.generic ct id with
  | error e => simp
  | ok found =>
    cases found with
    | none => simp
    | some s => simp [Obj.stored]

theorem generic_isRow {ct : Option Ct} {id : Option String} {s : Row}
    (h : w.db.generic ct id = .ok (some s))
    (hid : ∀ m i, ct = some (w.site.schema.contentType m) → id = some i →
      w.site.schema.toPk m i = .ok i) : w.isRow ct id s := by
  obtain ⟨-, rfl, i, rfl, hi⟩ := w.db.generic_some h
  have hpk := (hid s.model i rfl rfl).symm.trans hi
  rw [isRow_iff, Except.ok.inj hpk]
  exact ⟨rfl, rfl⟩

variable {a : Assignment}

def RootShape (w : World) (a : AssignmentRow) : Prop :=
  a.scopeId = none ∧ a.scopeCt = none ∧ a.level.all w.hierarchy.isRoot

def NodeShape (w : World) (a : AssignmentRow) (s : Row) : Prop :=
  a.scopeId ≠ none ∧ a.scopeCt ≠ none ∧
    ∃ name ∈ a.level, ∃ l ∈ w.hierarchy.level name, l.selects w.db s

theorem assignmentScopeIsValid_true :
    w.assignmentScopeIsValid a = .ok true ↔
      w.RootShape a.row ∨ ∃ s, a.scopeOrNone = .ok (some s) ∧ w.NodeShape a.row s := by
  unfold assignmentScopeIsValid
  by_cases hroot : a.row.isRootScope
  · have hid : a.row.scopeId = none := by simpa using hroot
    rw [if_pos hroot]
    cases hct : a.row.scopeCt <;> simp [RootShape, NodeShape, hct, hid]
  · have hid : a.row.scopeId ≠ none := by simpa using hroot
    rw [if_neg hroot]
    cases hct : a.row.scopeCt with
    | none =>
      simp only [NodeShape, RootShape, hct, hid]
      cases a.row.level.bind w.hierarchy.level <;> simp
    | some ct =>
      simp only [RootShape, NodeShape, hct, hid, Option.isSome_some, if_true, bind_eq_ok,
        Level.selects_guard]
      cases hl : a.row.level.bind w.hierarchy.level with
      | none =>
        have hlevel : ∀ name ∈ a.row.level, w.hierarchy.level name = none := by
          simpa [Option.bind_eq_none_iff] using hl
        simp_all
      | some l =>
        obtain ⟨name, hname, hlevel⟩ := Option.bind_eq_some_iff.mp hl
        constructor
        · rintro ⟨scope, hscope, hsel⟩
          cases scope with
          | none => cases hsel
          | some s => simp_all
        · simp_all

theorem roleAssignable_true {role : Role} {level : Option String} {node : Option Obj} :
    w.roleAssignable role level node = .ok true ↔
      role.ownerId = none ∨ ∃ owner n name l, role.ownerOrNone = .ok (some owner) ∧
        node = some n ∧ level = some name ∧ w.hierarchy.level name = some l ∧
        l.selects w.db n.row ∧ ∃ r, w.Ancestor n r ∧ w.isRow role.ownerCt role.ownerId r := by
  unfold roleAssignable
  by_cases hid : role.ownerId.isNone
  · simp [Option.isNone_iff_eq_none.mp hid]
  · have hid' : role.ownerId ≠ none := by simpa using hid
    rw [if_neg hid]
    simp only [bind_eq_ok, hid', false_or, ← anyAncestor_true]
    constructor
    · rintro ⟨owner, howner, h⟩
      cases owner with
      | none => cases h
      | some owner =>
        cases node with
        | none => cases h
        | some n =>
          cases level with
          | none => cases h
          | some name =>
            dsimp only at h
            cases hl : w.hierarchy.level name with
            | none => simp [hl] at h
            | some l =>
              cases hsel : l.selects w.db n.row with
              | false => simp [hl, hsel] at h
              | true =>
                have hmodel : l.model = some n.model := Level.selects_model hsel
                simp only [hl, hsel, Level.not_isRoot_of_selects hsel, hmodel] at h
                exact ⟨owner, n, name, l, howner, rfl, rfl, hl, hsel, by simpa using h⟩
    · rintro ⟨owner, n, name, l, howner, rfl, rfl, hl, hsel, h⟩
      refine ⟨some owner, howner, ?_⟩
      have hmodel : l.model = some n.model := Level.selects_model hsel
      simp [hl, hsel, h, Level.not_isRoot_of_selects hsel, hmodel]

def Valid (w : World) (a : Assignment) : Prop := w.assignmentIsValid a = .ok true

theorem valid_iff : w.Valid a ↔ w.assignmentScopeIsValid a = .ok true ∧
    (a.role.ownerId = none ∨ ∃ s, a.scopeOrNone = .ok (some s) ∧
      w.roleAssignable a.role a.row.level (some (.stored s)) = .ok true) := by
  rw [Valid, assignmentIsValid, bind_eq_ok]
  cases hid : a.role.ownerId with
  | none =>
    constructor
    · rintro ⟨shape, hshape, h⟩
      cases shape with
      | false => cases h
      | true => exact ⟨hshape, .inl rfl⟩
    · rintro ⟨hshape, -⟩
      exact ⟨true, hshape, rfl⟩
  | some id =>
    constructor
    · rintro ⟨shape, hshape, h⟩
      cases shape with
      | false => cases h
      | true =>
        obtain ⟨owner, howner, h⟩ := bind_eq_ok.mp h
        cases owner with
        | none => cases h
        | some owner =>
          obtain ⟨scope, hscope, h⟩ := bind_eq_ok.mp h
          cases scope with
          | some s => exact ⟨hshape, .inr ⟨s, hscope, h⟩⟩
          | none =>
            obtain hnone | ⟨_, _, _, _, _, hnode, _⟩ := roleAssignable_true.mp h
            · simp [hid] at hnone
            · cases hnode
    · rintro ⟨hshape, hnone | ⟨s, hscope, h⟩⟩
      · cases hnone
      · obtain hnone | ⟨owner, _, _, _, howner, _⟩ := roleAssignable_true.mp h
        · simp [hid] at hnone
        · refine ⟨true, hshape, ?_⟩
          simp [howner, hscope, h]

theorem Valid.custom (h : w.Valid a) (hid : a.role.ownerId ≠ none) :
    a.row.isRootScope = false ∧ ∃ s owner r, a.scopeOrNone = .ok (some s) ∧
      w.NodeShape a.row s ∧ a.role.ownerOrNone = .ok (some owner) ∧
      Reaches w.parent s r ∧ w.isRow a.role.ownerCt a.role.ownerId r := by
  obtain ⟨hshape, hnone | ⟨s, hscope, hassign⟩⟩ := valid_iff.mp h
  · exact absurd hnone hid
  obtain hnone | ⟨owner, n, name, l, howner, hn, hlevel, hl, hsel, r, hr, hrow⟩ :=
    roleAssignable_true.mp hassign
  · exact absurd hnone hid
  obtain rfl := Option.some.inj hn
  rcases assignmentScopeIsValid_true.mp hshape with ⟨-, -, hroot⟩ | ⟨s', hs', hnode⟩
  · have hisRoot : l.isRoot := by simpa [hlevel, Hierarchy.isRoot, hl] using hroot
    rw [Level.not_isRoot_of_selects hsel] at hisRoot
    cases hisRoot
  · obtain rfl : s = s' := by simpa [hscope] using hs'
    exact ⟨AssignmentRow.isRootScope_eq_false.mpr hnode.1, s, owner, r, hscope, hnode,
      howner, ancestor_stored.mp hr, hrow⟩

theorem Valid.node (h : w.Valid a) (hroot : a.row.isRootScope = false) :
    ∃ s, a.scopeOrNone = .ok (some s) ∧ w.NodeShape a.row s := by
  rcases assignmentScopeIsValid_true.mp (valid_iff.mp h).1 with ⟨hid, -⟩ | hnode
  · exact absurd hid (AssignmentRow.isRootScope_eq_false.mp hroot)
  · exact hnode

theorem assignmentScopeIsValid_total (hs : ∃ s, a.scopeOrNone = .ok s) :
    ∃ b, w.assignmentScopeIsValid a = .ok b := by
  obtain ⟨s, hs⟩ := hs
  unfold assignmentScopeIsValid
  split
  · split <;> exact ⟨_, rfl⟩
  · split
    · rw [hs, ok_bind]
      dsimp only
      split <;> exact ⟨_, rfl⟩
    · exact ⟨_, rfl⟩

theorem roleAssignable_total {role : Role}
    (ho : role.ownerId ≠ none → ∃ o, role.ownerOrNone = .ok o) {level : Option String}
    {node : Option Obj} (hn : ∀ n ∈ node, ∀ name ∈ level, ∀ l ∈ w.hierarchy.level name,
      l.selects w.db n.row → w.Walks n) :
    ∃ b, w.roleAssignable role level node = .ok b := by
  unfold roleAssignable
  split
  · exact ⟨_, rfl⟩
  · obtain ⟨owner, howner⟩ := ho (by simpa using ‹¬role.ownerId.isNone›)
    rw [howner, ok_bind]
    split
    · exact ⟨_, rfl⟩
    · cases node with
      | none => exact ⟨_, rfl⟩
      | some n =>
        cases level with
        | none => exact ⟨_, rfl⟩
        | some name =>
          dsimp only
          cases hl : w.hierarchy.level name with
          | none => exact ⟨_, rfl⟩
          | some l =>
            cases hsel : l.selects w.db n.row with
            | false => exact ⟨false, by simp [hsel]⟩
            | true =>
              obtain ⟨b, hb, -⟩ := anyAncestor_total
                (p := w.isRow role.ownerCt role.ownerId) (hn n rfl name rfl l hl hsel)
              dsimp only
              split
              · exact ⟨_, rfl⟩
              · exact ⟨b, hb⟩

theorem assignmentIsValid_total (hends : w.NodesEnd) (hs : ∃ s, a.scopeOrNone = .ok s)
    (ho : a.role.ownerId ≠ none → ∃ o, a.role.ownerOrNone = .ok o) :
    ∃ b, w.assignmentIsValid a = .ok b := by
  obtain ⟨shape, hshape⟩ := assignmentScopeIsValid_total (w := w) hs
  rw [assignmentIsValid, hshape, ok_bind]
  split
  · exact ⟨_, rfl⟩
  · split
    · exact ⟨_, rfl⟩
    · obtain ⟨owner, howner⟩ := ho (by simpa using ‹¬a.role.ownerId.isNone›)
      obtain ⟨s, hs⟩ := hs
      rw [howner, ok_bind, hs, ok_bind]
      split
      · exact ⟨_, rfl⟩
      · refine roleAssignable_total ho fun n hn name _ l hl hsel => ?_
        cases s with
        | none => cases hn
        | some s =>
          obtain rfl : Obj.stored s = n := by simpa using hn
          exact hends l (w.hierarchy.level_mem hl).1 s hsel

end World
end ScopedAccess
