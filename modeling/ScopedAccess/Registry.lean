import ScopedAccess.Django

/-! Hierarchy levels and resource anchors (`registry.py`). -/

namespace ScopedAccess

structure Level where
  name : String
  model : Option Model := none
  parent : Option Accessor := none
  discriminator : List (String × String) := []
  deriving DecidableEq

def Level.isRoot (l : Level) : Bool := l.model.isNone

/-- `level.queryset().filter(pk=row.pk).exists()` for a row of the level's model. -/
def Level.selects {sc : Schema} (l : Level) (db : Database sc) (r : Row) : Bool :=
  l.model = some r.model && r ∈ db.rows && db.shown r && l.discriminator.all (db.satisfies r)

theorem Level.selects_model {sc : Schema} {l : Level} {db : Database sc} {r : Row}
    (h : l.selects db r) : l.model = some r.model := by
  simp only [Level.selects, Bool.and_eq_true, decide_eq_true_eq] at h
  exact h.1.1.1

theorem Level.selects_mem {sc : Schema} {l : Level} {db : Database sc} {r : Row}
    (h : l.selects db r) : r ∈ db.rows := by
  simp only [Level.selects, Bool.and_eq_true, decide_eq_true_eq] at h
  exact h.1.1.2

theorem Level.selects_shown {sc : Schema} {l : Level} {db : Database sc} {r : Row}
    (h : l.selects db r) : db.shown r := by
  simp only [Level.selects, Bool.and_eq_true, decide_eq_true_eq] at h
  exact h.1.2

theorem Level.not_isRoot_of_selects {sc : Schema} {l : Level} {db : Database sc} {r : Row}
    (h : l.selects db r) : l.isRoot = false := by
  simp [Level.isRoot, Level.selects_model h]

theorem Level.selects_guard {sc : Schema} (l : Level) (db : Database sc) (r : Row) :
    (!l.isRoot && decide (l.model = some r.model) && l.selects db r) = l.selects db r := by
  cases h : l.selects db r with
  | false => simp
  | true => simp [not_isRoot_of_selects h, selects_model h]

structure Hierarchy where
  levels : List Level

namespace Hierarchy

variable (h : Hierarchy)

/-- `self._by_name`: of two levels of one name the later one stays. -/
def level (name : String) : Option Level := h.levels.reverse.find? (·.name = name)

def rank (name : String) : Option Nat := (h.level name).map h.levels.idxOf

def isRoot (name : String) : Bool := ((h.level name).map Level.isRoot).getD false

def levelsForModel (m : Model) : List Level :=
  h.levels.filter fun l => !l.isRoot && l.model = some m

def isNodeModel (m : Model) : Bool := !(h.levelsForModel m).isEmpty

def parentAccessorForModel (m : Model) : Option Accessor :=
  (h.levelsForModel m).findSome? fun l => l.parent.filter Accessor.truthy

theorem level_mem {name : String} {l : Level} (hl : h.level name = some l) :
    l ∈ h.levels ∧ l.name = name :=
  ⟨by simpa using List.mem_of_find?_eq_some hl, by simpa using List.find?_some hl⟩

theorem mem_levelsForModel {m : Model} {l : Level} :
    l ∈ h.levelsForModel m ↔ l ∈ h.levels ∧ l.model = some m := by
  simp only [levelsForModel, List.mem_filter, Bool.and_eq_true, decide_eq_true_eq, Level.isRoot]
  constructor
  · rintro ⟨hl, -, hm⟩
    exact ⟨hl, hm⟩
  · rintro ⟨hl, hm⟩
    exact ⟨hl, by simp [hm], hm⟩

theorem isNodeModel_iff {m : Model} :
    h.isNodeModel m ↔ ∃ l ∈ h.levels, l.model = some m := by
  simp only [isNodeModel, Bool.not_eq_true', List.isEmpty_eq_false_iff_exists_mem,
    mem_levelsForModel]

theorem level_isNodeModel {name : String} {l : Level} {m : Model} (hl : h.level name = some l)
    (hm : l.model = some m) : h.isNodeModel m :=
  h.isNodeModel_iff.mpr ⟨l, (h.level_mem hl).1, hm⟩

end Hierarchy

theorem lookup_nil : ∀ m ∈ ([] : List Model), ([] : List (Model × Accessor)).lookup m = none := by
  simp

/-- Host models with their anchor path, or declared global; never both. -/
structure ResourceRegistry where
  anchors : List (Model × Accessor) := []
  globals : List Model := []
  exclusive : ∀ m ∈ globals, anchors.lookup m = none := by first | exact lookup_nil | simp

namespace ResourceRegistry

variable (reg : ResourceRegistry)

def anchorFor (m : Model) : Option Accessor := reg.anchors.lookup m

def isGlobal (m : Model) : Bool := m ∈ reg.globals

theorem anchorFor_of_isGlobal {m : Model} (h : reg.isGlobal m) : reg.anchorFor m = none :=
  reg.exclusive m (by simpa [isGlobal] using h)

theorem isGlobal_of_anchorFor {m : Model} {path : Accessor} (h : reg.anchorFor m = some path) :
    reg.isGlobal m = false := by
  by_contra hglobal
  simp [reg.anchorFor_of_isGlobal (by simpa using hglobal)] at h

theorem lookup_cons_ne {m m' : Model} (h : m' ≠ m) (p : Accessor)
    (l : List (Model × Accessor)) : ((m, p) :: l).lookup m' = l.lookup m' := by
  rw [List.lookup_cons, beq_eq_false_iff_ne.mpr h]

theorem lookup_filter_ne (m m' : Model) (l : List (Model × Accessor)) :
    (l.filter (·.1 ≠ m)).lookup m' = if m' = m then none else l.lookup m' := by
  induction l with
  | nil => simp
  | cons e l ih =>
    obtain ⟨k, p⟩ := e
    by_cases hk : k = m
    · subst hk
      rw [List.filter_cons_of_neg (by simp), ih]
      split
      · rfl
      · rw [lookup_cons_ne ‹_›]
    · rw [List.filter_cons_of_pos (by simpa using hk)]
      by_cases hm : m' = k
      · subst hm
        simp [hk]
      · rw [lookup_cons_ne hm, lookup_cons_ne hm, ih]

def register (m : Model) (anchor : Accessor) : ResourceRegistry where
  anchors := (m, anchor) :: reg.anchors.filter (·.1 ≠ m)
  globals := reg.globals.filter (· ≠ m)
  exclusive := by
    intro m' hm'
    obtain ⟨hglobal, hne⟩ := List.mem_filter.mp hm'
    have hne : m' ≠ m := by simpa using hne
    rw [lookup_cons_ne hne, lookup_filter_ne, reg.exclusive m' hglobal, ite_self]

theorem anchorFor_register (m m' : Model) (anchor : Accessor) :
    (reg.register m anchor).anchorFor m' =
      if m' = m then some anchor else reg.anchorFor m' := by
  rw [anchorFor, register]
  by_cases h : m' = m
  · simp [h]
  · rw [lookup_cons_ne h, lookup_filter_ne, if_neg h, if_neg h, anchorFor]

end ResourceRegistry

end ScopedAccess
