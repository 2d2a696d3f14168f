import ScopedAccess.Exceptions
import ScopedAccess.Lib.Walk

/-! The part of Django the engine stands on: the host's model classes with
their relations and content types, the stored rows, and in-memory instances. -/

namespace ScopedAccess

abbrev Model := String

/-- A row of `ContentType`, by its natural key. -/
abbrev Ct := String

/-- A primary key, written as Python's `str(pk)`. -/
abbrev Pk := String

abbrev Time := Nat

/-- What `path.split("__")` gives; it is never empty. -/
structure Accessor where
  first : String
  rest : List String := []
  deriving DecidableEq

def Accessor.parts (p : Accessor) : List String := p.first :: p.rest

def Accessor.truthy (p : Accessor) : Bool := p.parts ≠ [""]

structure Row where
  model : Model
  pk : Pk
  deriving DecidableEq

structure Schema where
  relatedModel : Model → String → Option Model
  /-- The relation a foreign key's column belongs to, by its `attname`. -/
  column : Model → String → Option String := fun _ _ => none
  contentType : Model → Ct
  modelClass : Ct → Option Model
  toPk : Model → String → Except Exn Pk
  modelClass_eq_some : ∀ {ct m}, modelClass ct = some m ↔ contentType m = ct

theorem Schema.modelClass_self {ct m : String} : some ct = some m ↔ m = ct := by simp [eq_comm]

theorem Schema.contentType_injective (sc : Schema) : Function.Injective sc.contentType := by
  intro m m' h
  have hm := sc.modelClass_eq_some.mpr h
  have hm' := sc.modelClass_eq_some.mpr (rfl : sc.contentType m' = _)
  exact Option.some.inj (hm.symm.trans hm')

/-- `model._meta.get_field(name)`: a foreign key is found by its column, too. -/
def Schema.getField (sc : Schema) (m : Model) (name : String) : Option String :=
  if (sc.relatedModel m name).isSome then some name
  else (sc.column m name).filter fun f => (sc.relatedModel m f).isSome

def Schema.relatedPath (sc : Schema) (m : Model) : List String → Option Model
  | [] => some m
  | f :: rest => (sc.relatedModel m f).bind fun m' => sc.relatedPath m' rest

theorem Schema.relatedPath_append (sc : Schema) (m : Model) (p q : List String) :
    sc.relatedPath m (p ++ q) = (sc.relatedPath m p).bind (sc.relatedPath · q) := by
  induction p generalizing m with
  | nil => rfl
  | cons f p ih =>
    simp only [List.cons_append, relatedPath, Option.bind_assoc]
    congr 1
    funext m'
    exact ih m'

def Schema.lookupPath (sc : Schema) (m : Model) : List String → Option Model
  | [] => some m
  | name :: rest =>
    ((sc.getField m name).bind (sc.relatedModel m)).bind fun m' => sc.lookupPath m' rest

theorem Schema.lookupPath_append (sc : Schema) (m : Model) (p q : List String) :
    sc.lookupPath m (p ++ q) = (sc.lookupPath m p).bind (sc.lookupPath · q) := by
  induction p generalizing m with
  | nil => rfl
  | cons f p ih =>
    simp only [List.cons_append, lookupPath]
    cases (sc.getField m f).bind (sc.relatedModel m) with
    | none => rfl
    | some m' => exact ih m'

theorem Schema.getField_related {sc : Schema} {m m' : Model} {f : String}
    (h : sc.relatedModel m f = some m') : sc.getField m f = some f := by
  simp [getField, h]

theorem Schema.lookupPath_related {sc : Schema} {m m' : Model} {p : List String}
    (h : sc.relatedPath m p = some m') : sc.lookupPath m p = some m' := by
  induction p generalizing m with
  | nil => exact h
  | cons f p ih =>
    obtain ⟨m₁, hm₁, h⟩ := Option.bind_eq_some_iff.mp h
    simp [lookupPath, getField_related hm₁, hm₁, ih h]

/-- The host's tables.  Foreign keys are typed and refer to stored rows. -/
structure Database (sc : Schema) where
  rows : List Row
  /-- The single-valued relations of a row. -/
  related : Row → String → Option Row
  /-- The attributes that hold no instance and not `None`. -/
  plain : Row → String → Bool := fun _ _ => false
  shown : Row → Bool
  /-- `filter(**{key: value})` -/
  satisfies : Row → String × String → Bool
  related_model : ∀ {r f s}, related r f = some s → sc.relatedModel r.model f = some s.model
  related_mem : ∀ {r f s}, related r f = some s → s ∈ rows
  toPk_pk : ∀ {r}, r ∈ rows → sc.toPk r.model r.pk = .ok r.pk

namespace Database

variable {sc : Schema} (db : Database sc)

def follow (r : Row) : List String → Option Row
  | [] => some r
  | f :: rest => (db.related r f).bind fun s => follow s rest

theorem follow_append (r : Row) (p q : List String) :
    db.follow r (p ++ q) = (db.follow r p).bind (db.follow · q) := by
  induction p generalizing r with
  | nil => rfl
  | cons f p ih =>
    simp only [List.cons_append, follow, Option.bind_assoc]
    congr 1
    funext s
    exact ih s

theorem follow_model {r s : Row} {p : List String} (h : db.follow r p = some s) :
    sc.relatedPath r.model p = some s.model := by
  induction p generalizing r with
  | nil =>
    obtain rfl : r = s := by simpa [follow] using h
    rfl
  | cons f p ih =>
    obtain ⟨t, ht, hs⟩ := Option.bind_eq_some_iff.mp h
    simp [Schema.relatedPath, db.related_model ht, ih hs]

theorem follow_mem {r s : Row} {p : List String} (hp : p ≠ []) (h : db.follow r p = some s) :
    s ∈ db.rows := by
  induction p generalizing r with
  | nil => exact absurd rfl hp
  | cons f p ih =>
    obtain ⟨t, ht, hs⟩ := Option.bind_eq_some_iff.mp h
    cases p with
    | nil =>
      obtain rfl : t = s := by simpa [follow] using hs
      exact db.related_mem ht
    | cons g p => exact ih (by simp) hs

def lookup (r : Row) : List String → Option Row
  | [] => some r
  | name :: rest =>
    ((sc.getField r.model name).bind (db.related r)).bind fun s => lookup s rest

theorem lookup_append (r : Row) (p q : List String) :
    db.lookup r (p ++ q) = (db.lookup r p).bind (db.lookup · q) := by
  induction p generalizing r with
  | nil => rfl
  | cons f p ih =>
    simp only [List.cons_append, lookup]
    cases (sc.getField r.model f).bind (db.related r) with
    | none => rfl
    | some s => exact ih s

theorem lookup_related {r : Row} {m : Model} {p : List String}
    (h : sc.relatedPath r.model p = some m) : db.lookup r p = db.follow r p := by
  induction p generalizing r with
  | nil => rfl
  | cons f p ih =>
    obtain ⟨m₁, hm₁, h⟩ := Option.bind_eq_some_iff.mp h
    simp only [lookup, follow, Schema.getField_related hm₁, Option.bind_some]
    cases hs : db.related r f with
    | none => rfl
    | some s =>
      obtain rfl : m₁ = s.model := Option.some.inj (hm₁.symm.trans (db.related_model hs))
      exact ih h

theorem lookup_model {r s : Row} {p : List String} (h : db.lookup r p = some s) :
    sc.lookupPath r.model p = some s.model := by
  induction p generalizing r with
  | nil =>
    obtain rfl : r = s := by simpa [lookup] using h
    rfl
  | cons f p ih =>
    obtain ⟨t, ht, hs⟩ := Option.bind_eq_some_iff.mp h
    obtain ⟨g, hg, ht⟩ := Option.bind_eq_some_iff.mp ht
    simp [Schema.lookupPath, hg, db.related_model ht, ih hs]

def ofLinks (sc : Schema) (rows : List Row) (links : List ((Row × String) × Row))
    (columns : List ((Row × String) × String))
    (hmodel : ∀ e ∈ links, sc.relatedModel e.1.1.model e.1.2 = some e.2.model)
    (hmem : ∀ e ∈ links, e.2 ∈ rows) (hpk : ∀ r ∈ rows, sc.toPk r.model r.pk = .ok r.pk) :
    Database sc where
  rows := rows
  related r f := links.lookup (r, f)
  shown _ := true
  satisfies r filter := columns.lookup (r, filter.1) = some filter.2
  related_model {r f s} h := by
    obtain ⟨before, after, hlinks, -⟩ := List.lookup_eq_some_iff.mp h
    exact hmodel ((r, f), s) (by simp [hlinks])
  related_mem {r f s} h := by
    obtain ⟨before, after, hlinks, -⟩ := List.lookup_eq_some_iff.mp h
    exact hmem ((r, f), s) (by simp [hlinks])
  toPk_pk h := hpk _ h

/-- Reading a `GenericForeignKey`, one by one or through `prefetch_related`.  A
content type without a model class has no manager to ask. -/
def generic (ct : Option Ct) (id : Option String) : Py (Option Row) :=
  match ct with
  | none => .ok none
  | some ct =>
    match sc.modelClass ct with
    | none => throwing .attributeError "'NoneType' object has no attribute '_base_manager'"
    | some m =>
      match id with
      | none => .ok none
      | some id =>
        match sc.toPk m id with
        | .error e => .error (.raised e)
        | .ok k => .ok (if ⟨m, k⟩ ∈ db.rows then some ⟨m, k⟩ else none)

theorem generic_some {ct : Option Ct} {id : Option String} {s : Row}
    (h : db.generic ct id = .ok (some s)) :
    s ∈ db.rows ∧ ct = some (sc.contentType s.model) ∧
      ∃ i, id = some i ∧ sc.toPk s.model i = .ok s.pk := by
  unfold generic at h
  cases ct with
  | none => cases h
  | some ct =>
    cases hm : sc.modelClass ct with
    | none => simp [hm, throwing] at h
    | some m =>
      cases id with
      | none => simp [hm] at h
      | some i =>
        cases hk : sc.toPk m i with
        | error e => simp [hm, hk] at h
        | ok k =>
          obtain ⟨hmem, rfl⟩ : ⟨m, k⟩ ∈ db.rows ∧ (⟨m, k⟩ : Row) = s := by
            simpa [hm, hk] using h
          exact ⟨hmem, by rw [sc.modelClass_eq_some.mp hm], i, rfl, hk⟩

end Database

/-- An in-memory model instance: the row it stands for, and what the program has assigned
without saving, to a relation of its own or of an instance its relations lead to. -/
structure Obj where
  row : Row
  edits : List (Accessor × Option Row) := []

namespace Obj

def stored (r : Row) : Obj := ⟨r, []⟩

def model (o : Obj) : Model := o.row.model

def under (o : Obj) (name : String) : List (Accessor × Option Row) :=
  o.edits.filterMap fun e =>
    match e.1.rest with
    | [] => none
    | f :: rest => if e.1.first = name then some (⟨f, rest⟩, e.2) else none

def depth (o : Obj) : Nat := (o.edits.map (·.1.parts.length)).foldr max 0

theorem under_depth (o : Obj) (name : String) :
    o.under name = [] ∨ ∀ r : Row, (mk r (o.under name)).depth + 1 ≤ o.depth := by
  have hmem {l : List Nat} {n : Nat} (h : n ∈ l) : n ≤ l.foldr max 0 := by
    induction l with
    | nil => cases h
    | cons m l ih =>
      rcases List.mem_cons.mp h with rfl | h
      · exact le_max_left _ _
      · exact (ih h).trans (le_max_right _ _)
  have hle {l : List Nat} {n : Nat} (h : ∀ m ∈ l, m ≤ n) : l.foldr max 0 ≤ n := by
    induction l with
    | nil => exact Nat.zero_le n
    | cons m l ih =>
      exact max_le (h m List.mem_cons_self) (ih fun m hm => h m (List.mem_cons_of_mem _ hm))
  have hunder : ∀ e ∈ o.under name, e.1.parts.length + 1 ≤ o.depth := by
    intro e he
    obtain ⟨e', he', heq⟩ := List.mem_filterMap.mp he
    have hdepth := hmem (List.mem_map_of_mem (f := fun e => e.1.parts.length) he')
    split at heq
    · cases heq
    · rename_i f rest hrest
      split at heq
      · obtain rfl := Option.some.inj heq
        simpa [depth, Accessor.parts, hrest] using hdepth
      · cases heq
  by_cases hnil : o.under name = []
  · exact .inl hnil
  · obtain ⟨e, he⟩ := List.exists_mem_of_ne_nil _ hnil
    refine .inr fun r => ?_
    have hlt := hunder e he
    have hbound : (mk r (o.under name)).depth ≤ o.depth - 1 := by
      refine hle fun m hm => ?_
      obtain ⟨e', he', rfl⟩ := List.mem_map.mp hm
      have := hunder e' he'
      omega
    omega

/-- Nothing unsaved is left, or less of it by so many relations. -/
def Nearer (k : Nat) (o o' : Obj) : Prop := o'.edits = [] ∨ o'.depth + k ≤ o.depth

theorem Nearer.step {k : Nat} {o o' o'' : Obj} (h : Nearer k o o') (h' : Nearer 1 o' o'') :
    Nearer (k + 1) o o'' := by
  rcases h' with hnil | hle
  · exact .inl hnil
  · rcases h with hnil | hle'
    · simp [depth, hnil] at hle
    · exact .inr (by omega)

theorem Nearer.one {k : Nat} {o o' : Obj} (h : Nearer (k + 1) o o') : Nearer 1 o o' :=
  h.imp_right fun hle => by omega

end Obj

/-- What an attribute holds: an instance, or a value that is none. -/
inductive Attr
  | object (o : Obj)
  | plain

instance : Coe Obj Attr := ⟨.object⟩

namespace Attr

abbrev stored (r : Row) : Attr := .object (.stored r)

theorem stored_injective : Function.Injective stored := by
  intro r s h
  cases h
  rfl

end Attr

end ScopedAccess
