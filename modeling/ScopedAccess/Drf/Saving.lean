import ScopedAccess.Engine.Decision
import Mathlib.Logic.Function.Basic

namespace ScopedAccess.Drf

open Lib.Loop

inductive FieldKind
  | concrete
  | primaryKey
  | foreignKey
  | manyToMany
  | oneToMany
  deriving DecidableEq

structure Field where
  kind : FieldKind
  name : String
  attname : String
  deriving DecidableEq

namespace Field

def names (f : Field) : List String := [f.name, f.attname]

def toMany (f : Field) : Bool := f.kind = .manyToMany || f.kind = .oneToMany

end Field

/-- A value of `validated_data`. -/
inductive Written (V : Type)
  | plain (v : V)
  | key (k : Option Pk)
  | object (o : Option Row)
  | objects (os : List Row)

abbrev Data (V : Type) : Type := List (String × Written V)

variable {V : Type}

/-- The item a constructor takes for the field: a related object before its key. -/
def Field.keyword (f : Field) (data : Data V) : Option (String × Written V) :=
  match f.kind with
  | .foreignKey => (data.find? (·.1 = f.name)).or (data.find? (·.1 = f.attname))
  | .concrete | .primaryKey => data.find? (·.1 = f.attname)
  | .manyToMany | .oneToMany => none

section Instances

variable (V) (w : World) (m : Model)

abbrev Key : Type := {k : Pk // w.site.schema.toPk m k = .ok k}

/-- What a relation of the model can refer to. -/
abbrev Pointer (f : String) : Type :=
  {target : Option Row // ∀ s ∈ target, w.site.schema.relatedModel m f = some s.model ∧ s ∈ w.db.rows}

structure Instance where
  pk : Option (Key w m) := none
  related : (f : String) → Pointer w m f
  attrs : String → Option (Written V) := fun _ => none

structure Descriptor where
  isProperty : Bool
  set : Instance V w m → Written V → Py (Instance V w m)

end Instances

structure ModelClass (V : Type) (w : World) where
  label : Model
  fields : List Field
  descriptor : String → Option (Descriptor V w label)
  blank : Instance V w label
  fields_apart : ∀ f ∈ fields, ∀ g ∈ fields, ∀ n ∈ f.names, n ∈ g.names → f = g
  attname_ne : ∀ f ∈ fields, f.kind = .foreignKey → f.attname ≠ f.name
  blank_new : ∀ k ∈ blank.pk, ⟨label, k.val⟩ ∉ w.db.rows

variable {w : World} {m : Model}

namespace Instance

def point (x : Instance V w m) (f : String) (target : Pointer w m f) : Instance V w m :=
  { x with related := Function.update x.related f target }

@[simp] theorem point_related (x : Instance V w m) (f : String) (target : Pointer w m f) :
    (x.point f target).related f = target := Function.update_self ..

theorem point_related_ne (x : Instance V w m) {f g : String} (h : g ≠ f) (target : Pointer w m f) :
    (x.point f target).related g = x.related g := Function.update_of_ne h ..

end Instance

/-- The row a foreign key is assigned: by its name an instance, by its column a key. -/
def Field.pointer (f : Field) (w : World) (m : Model) (name : String) :
    Written V → Py (Pointer w m f.name)
  | .object o =>
    if h : name = f.name ∧
        ∀ s ∈ o, w.site.schema.relatedModel m f.name = some s.model ∧ s ∈ w.db.rows then
      .ok ⟨o, h.2⟩
    else throwing .valueError ("Cannot assign to '" ++ f.name ++ "'.")
  | .key none =>
    if name = f.attname then .ok ⟨none, nofun⟩
    else throwing .valueError ("Cannot assign to '" ++ f.name ++ "'.")
  | .key (some k) =>
    match w.site.schema.relatedModel m f.name with
    | none => throwing .valueError ("Cannot assign to '" ++ f.name ++ "'.")
    | some m' =>
      if h : name = f.attname ∧
          w.site.schema.relatedModel m f.name = some m' ∧ ⟨m', k⟩ ∈ w.db.rows then
        .ok ⟨some ⟨m', k⟩, fun _ hs => Option.some.inj hs ▸ h.2⟩
      -- the key refers to no row: the database will not store it
      else throwing .integrityError "FOREIGN KEY constraint failed"
  | _ => throwing .valueError ("Cannot assign to '" ++ f.name ++ "'.")

def Field.toKey (f : Field) (w : World) (m : Model) : Written V → Py (Option (Key w m))
  | .key none => .ok none
  | .key (some k) =>
    if h : w.site.schema.toPk m k = .ok k then .ok (some ⟨k, h⟩)
    else throwing .valueError ("Cannot assign to '" ++ f.name ++ "'.")
  | _ => throwing .valueError ("Cannot assign to '" ++ f.name ++ "'.")

def Field.setField (f : Field) (x : Instance V w m) (name : String) (v : Written V) :
    Py (Instance V w m) :=
  match f.kind with
  | .foreignKey => do return x.point f.name (← f.pointer w m name v)
  | .primaryKey => do return { x with pk := ← f.toKey w m v }
  | .concrete => .ok { x with attrs := Function.update x.attrs f.attname (some v) }
  | .manyToMany | .oneToMany =>
    throwing .typeError ("Direct assignment to '" ++ f.name ++ "' is prohibited.")

namespace ModelClass

variable (cls : ModelClass V w)

def getField (name : String) : Option Field := cls.fields.find? (name ∈ ·.names)

def setattr (x : Instance V w cls.label) (name : String) (v : Written V) :
    Py (Instance V w cls.label) :=
  match cls.getField name with
  | some f => f.setField x name v
  | none =>
    match cls.descriptor name with
    | some a => a.set x v
    | none => .ok { x with attrs := Function.update x.attrs name (some v) }

def assign (x : Instance V w cls.label) (item : String × Written V) :
    Py (Instance V w cls.label) := cls.setattr x item.1 item.2

def toMany (item : String × Written V) : Bool := (cls.getField item.1).any Field.toMany

def update (x : Instance V w cls.label) (data : Data V) : Py (Instance V w cls.label) :=
  (data.filter (!cls.toMany ·)).foldlM cls.assign x

def assignLeft (x : Instance V w cls.label) (item : String × Written V) :
    Py (Instance V w cls.label) :=
  if (cls.getField item.1).isSome || (cls.descriptor item.1).any Descriptor.isProperty then
    cls.assign x item
  else throwing .typeError ("unexpected keyword argument '" ++ item.1 ++ "'")

/-- `Model(**kwargs)`: field by field, then what is left of the keywords. -/
def construct (data : Data V) : Py (Instance V w cls.label) := do
  let taken := cls.fields.filterMap (Field.keyword · data)
  let x ← taken.foldlM cls.assign cls.blank
  (data.filter fun item => item.1 ∉ taken.map Prod.fst).foldlM cls.assignLeft x

end ModelClass

section Fields

variable {cls : ModelClass V w}

namespace ModelClass

theorem getField_some {n : String} {f : Field} (h : cls.getField n = some f) :
    f ∈ cls.fields ∧ n ∈ f.names :=
  ⟨List.mem_of_find?_eq_some h, by simpa using List.find?_some h⟩

theorem getField_of_mem {n : String} {f : Field} (hf : f ∈ cls.fields) (hn : n ∈ f.names) :
    cls.getField n = some f := by
  cases h : cls.getField n with
  | none => exact absurd hn (by simpa using List.find?_eq_none.mp h f hf)
  | some g =>
    obtain ⟨hg, hng⟩ := getField_some h
    rw [cls.fields_apart g hg f hf n hng hn]

theorem setField_total {f : Field} {x y : Instance V w cls.label} {n : String} {v : Written V}
    (h : f.setField x n v = .ok y) (x' : Instance V w cls.label) :
    ∃ y', f.setField x' n v = .ok y' := by
  unfold Field.setField at h ⊢
  cases hkind : f.kind with
  | foreignKey =>
    simp only [hkind] at h ⊢
    obtain ⟨target, htarget, -⟩ := bind_eq_ok.mp h
    exact ⟨x'.point f.name target, by rw [htarget]; rfl⟩
  | primaryKey =>
    simp only [hkind] at h ⊢
    obtain ⟨k, hk, -⟩ := bind_eq_ok.mp h
    exact ⟨{ x' with pk := k }, by rw [hk]; rfl⟩
  | concrete => exact ⟨_, rfl⟩
  | manyToMany | oneToMany => simp [hkind, throwing] at h

theorem setField_foreignKey {f : Field} {x y : Instance V w cls.label} {n : String}
    {v : Written V} (hkind : f.kind = .foreignKey) (h : f.setField x n v = .ok y) :
    ∃ target, f.pointer w cls.label n v = .ok target ∧ y = x.point f.name target := by
  simp only [Field.setField, hkind] at h
  obtain ⟨target, htarget, rfl⟩ := map_eq_ok.mp h
  exact ⟨target, htarget, rfl⟩

theorem setField_related {f : Field} {x y : Instance V w cls.label} {n : String} {v : Written V}
    (h : f.setField x n v = .ok y) {g : String} (hg : f.kind = .foreignKey → g ≠ f.name) :
    y.related g = x.related g := by
  cases hkind : f.kind with
  | foreignKey =>
    obtain ⟨target, -, rfl⟩ := setField_foreignKey hkind h
    exact x.point_related_ne (hg hkind) target
  | primaryKey =>
    simp only [Field.setField, hkind] at h
    obtain ⟨k, -, rfl⟩ := map_eq_ok.mp h
    rfl
  | concrete =>
    simp only [Field.setField, hkind] at h
    obtain rfl := Except.ok.inj h
    rfl
  | manyToMany | oneToMany => simp [Field.setField, hkind, throwing] at h

end ModelClass

end Fields

namespace ModelClass

variable (cls : ModelClass V w)

def stores (f : String) : Bool := cls.fields.any fun g => g.kind = .foreignKey && g.name = f

structure NewKey where
  key : Key w cls.label
  new : ⟨cls.label, key.val⟩ ∉ w.db.rows

variable {cls}

def row (k : Key w cls.label) : Row := ⟨cls.label, k.val⟩

def put (k : Key w cls.label) (x : Instance V w cls.label) : Database w.site.schema where
  rows := if row k ∈ w.db.rows then w.db.rows else w.db.rows ++ [row k]
  related r f := if r = row k ∧ cls.stores f then (x.related f).val else w.db.related r f
  plain := w.db.plain
  shown := w.db.shown
  satisfies := w.db.satisfies
  related_model {r f s} h := by
    split at h
    · rename_i heq
      exact heq.1 ▸ ((x.related f).property s h).1
    · exact w.db.related_model h
  related_mem {r f s} h := by
    have hs : s ∈ w.db.rows := by
      split at h
      · exact ((x.related f).property s h).2
      · exact w.db.related_mem h
    split
    · exact hs
    · exact List.mem_append_left _ hs
  toPk_pk {r} h := by
    split at h
    · exact w.db.toPk_pk h
    · rcases List.mem_append.mp h with h | h
      · exact w.db.toPk_pk h
      · obtain rfl := List.mem_singleton.mp h
        exact k.property

def stored (k : Key w cls.label) (x : Instance V w cls.label) : World :=
  { w with db := put k x }

end ModelClass

end ScopedAccess.Drf
