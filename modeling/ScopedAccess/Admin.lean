import ScopedAccess.Drf.Outcomes
import ScopedAccess.Engine.Nodes

/-! The admin glue (`admin.py`): scoped change lists, object checks, the write guard of a form, the
bulk delete, and the choices a form offers. -/

namespace ScopedAccess

open Lib.Loop
open Read (ask)
open Drf (Host Options codename ModelClass)

def Database.managed {sc : Schema} (db : Database sc) (m : Model) : List Row :=
  db.rows.filter fun r => r.model = m && db.shown r

structure ScopedModelAdmin (γ : Type) where
  host : Host γ
  model : Model
  optsOf : Model → Options

namespace ScopedModelAdmin

variable {γ : Type} (A : ScopedModelAdmin γ)

def perm (action : String) : String := codename action (A.optsOf A.model)

def filtered (u : User) (action : String) : Read (List Row) := do
  let q ← scopeFilterQ u A.model none (some (A.perm action))
  let w ← ask
  q.compile w.site.schema A.model
  return (w.db.managed A.model).filter (q.holds w.db)

def getQueryset (u : User) : Read (List Row) := do
  let allowed ← A.filtered u "view"
  let w ← ask
  return (w.db.managed A.model).filter fun r => r.pk ∈ allowed.map Row.pk

def hasViewPermission (u : User) : Option Obj → Read Bool
  | none => do
    if ← A.host.hasPerm u (A.perm "view") none then return true
    A.host.hasPerm u (A.perm "change") none
  | some o => A.host.hasPerm u (A.perm "view") (some o)

def hasDeletePermission (u : User) (o : Option Obj) : Read Bool :=
  A.host.hasPerm u (A.perm "delete") o

def require (message : String) (granted : Bool) : Py Unit :=
  if granted then .ok () else throwing .permissionDenied message

section Writes

variable {V : Type} {w : World} {cls : ModelClass V w}

def requireStored (u : User) (x : Drf.Instance V w cls.label) : Bool → Py Unit
  | false => .ok ()
  | true =>
    match x.pk.bind fun k => (w.db.managed A.model).find? (·.pk = k.val) with
    | none => require "This object is outside your scope." false
    | some stored => do
      let granted ← (A.host.hasPerm u (A.perm "change") (some (.stored stored))).run w
      require "This object is outside your scope." granted

def saveModel (u : User) (x : Drf.Instance V w cls.label) (change : Bool) (new : cls.NewKey) :
    Py (Row × World) := do
  let action := if change then "change" else "add"
  let granted ← (A.host.hasPerm u (A.perm action) (some (x.obj cls))).run w
  require "Target scope is outside your scope." granted
  A.requireStored u x change
  let k := x.pk.getD new.key
  return (ModelClass.row k, ModelClass.stored k x)

end Writes

def deleteQueryset (w : World) (u : User) (selected : List Row) : Py World := do
  let deletable ← (A.filtered u "delete").run w
  require "Some selected objects are outside your scope."
    (selected.all fun r => r.pk ∈ deletable.map Row.pk)
  return { w with db := w.db.drop selected }

def choiceQ (u : User) : List (Level × String) → Q → Read Q
  | [], q => return q
  | (level, action) :: rest, q => do
    let nodes ← accessibleNodes u level.name none (some (A.perm action))
    choiceQ u rest (q.or (.inNodes nodes.level nodes.q))

def scopedChoices (u : User) (related : Model) : Read (Option (List Row)) := do
  let w ← ask
  let levels := w.hierarchy.levelsForModel related
  if !levels.isEmpty then
    let q ← A.choiceQ u (levels.flatMap fun l => [(l, "add"), (l, "change")]) .never
    return some ((w.db.managed related).filter (q.holds w.db))
  else if (w.site.resources.anchorFor related).isSome then
    let visible ← visibleResources u related none (some (codename "view" (A.optsOf related)))
    return some (w.db.rows.filter (visible.selects w.db))
  else return none

variable {A} {w : World} {u : User}

theorem run_hasPerm_object (p : String) (o : Obj) :
    (A.host.hasPerm u p (some o)).run w = (hasPerm u p (some o) none).run w := by
  simp only [Host.hasPerm, ScopedPermissionBackend.hasPerm, Read.run_ite, Option.isNone_some,
    Bool.and_false, Bool.false_and, Bool.false_eq_true, if_false]
  split
  · rename_i hspecial
    simp only [Bool.and_eq_true] at hspecial
    rw [World.run_hasPerm, hspecial.1, hspecial.2]
    rfl
  · rfl

theorem mem_managed {m : Model} {r : Row} :
    r ∈ w.db.managed m ↔ r ∈ w.db.rows ∧ r.model = m ∧ w.db.shown r := by
  simp [Database.managed]

theorem pk_mem_map {m : Model} {rows : List Row} (hrows : ∀ s ∈ rows, s.model = m) {r : Row}
    (hr : r.model = m) : r.pk ∈ rows.map Row.pk ↔ r ∈ rows := by
  constructor
  · intro h
    obtain ⟨s, hs, hpk⟩ := List.mem_map.mp h
    have hmodel := (hrows s hs).trans hr.symm
    obtain rfl : s = r := by
      cases s
      cases r
      simp_all
    exact hs
  · exact fun h => List.mem_map_of_mem h

theorem require_ok {message : String} {granted : Bool} :
    require message granted = .ok () ↔ granted = true := by
  cases granted <;> simp [require, throwing]

section Lists

variable (hdoc : w.hierarchy.Documented w.site.schema) (hf : w.Forest) (hw : w.WellFormed)
  (hac : w.Grounded) (hm : w.Resources A.model)
include hdoc hf hw hac hm

variable (u) in
theorem filtered_decides (action : String) : ∃ rows, (A.filtered u action).run w = .ok rows ∧
    ∀ r, r ∈ rows ↔ r ∈ w.db.managed A.model ∧
      (A.host.hasPerm u (A.perm action) (some (.stored r))).run w = .ok true := by
  obtain ⟨q, hq, hcompile, hholds⟩ :=
    World.scopeFilterQ_decides hdoc hf hw hac hm u (some (A.perm action))
  refine ⟨(w.db.managed A.model).filter (q.holds w.db), ?_, fun r => ?_⟩
  · simp only [filtered, Read.run_bind, hq, ok_bind, Read.run_ask, Read.run_liftPy, hcompile]
    rfl
  · rw [List.mem_filter, run_hasPerm_object]
    exact and_congr_right fun hr => hholds r (mem_managed.mp hr).2.1

/-- The change list has the rows that the object check lets the user view; the bulk delete takes
away what is selected if the object check lets the user delete each of it, and else refuses and
takes away nothing. -/
theorem lists_agree_with_objects (u : User) :
    (∃ rows, (A.getQueryset u).run w = .ok rows ∧ ∀ r, r ∈ rows ↔
      r ∈ w.db.managed A.model ∧ (A.hasViewPermission u (some (.stored r))).run w = .ok true) ∧
    ∀ selected : List Row, (∀ r ∈ selected, r.model = A.model) →
      A.deleteQueryset w u selected =
        if ∀ r ∈ selected, r ∈ w.db.managed A.model ∧
          (A.hasDeletePermission u (some (.stored r))).run w = .ok true
        then .ok { w with db := w.db.drop selected }
        else throwing .permissionDenied "Some selected objects are outside your scope." := by
  have hmodel {rows : List Row} {P : Row → Prop} (h : ∀ r, r ∈ rows ↔ r ∈ w.db.managed A.model ∧ P r) :
      ∀ r ∈ rows, r.model = A.model := fun r hr => (mem_managed.mp ((h r).mp hr).1).2.1
  constructor
  · obtain ⟨allowed, hrun, hallowed⟩ := filtered_decides (u := u) hdoc hf hw hac hm "view"
    refine ⟨(w.db.managed A.model).filter fun r => r.pk ∈ allowed.map Row.pk, ?_, fun r => ?_⟩
    · simp only [getQueryset, Read.run_bind, hrun, ok_bind, Read.run_ask]
      rfl
    · rw [List.mem_filter, decide_eq_true_eq]
      constructor
      · rintro ⟨hr, hpk⟩
        exact (hallowed r).mp ((pk_mem_map (hmodel hallowed) (mem_managed.mp hr).2.1).mp hpk)
      · intro h
        have hpk := (pk_mem_map (hmodel hallowed) (mem_managed.mp h.1).2.1).mpr ((hallowed r).mpr h)
        exact ⟨h.1, hpk⟩
  · intro selected hselected
    obtain ⟨deletable, hrun, hdeletable⟩ := filtered_decides (u := u) hdoc hf hw hac hm "delete"
    have hall : (selected.all fun r => r.pk ∈ deletable.map Row.pk) = true ↔
        ∀ r ∈ selected, r ∈ w.db.managed A.model ∧
          (A.hasDeletePermission u (some (.stored r))).run w = .ok true := by
      simp only [List.all_eq_true, decide_eq_true_eq]
      refine forall₂_congr fun r hr => ?_
      rw [pk_mem_map (hmodel hdeletable) (hselected r hr), hdeletable]
      exact Iff.rfl
    rw [deleteQueryset, hrun, ok_bind]
    split
    · rename_i h
      rw [hall.mpr h]
      rfl
    · rename_i h
      rw [Bool.eq_false_iff.mpr fun hall' => h (hall.mp hall')]
      rfl

end Lists

end ScopedModelAdmin

namespace Drf.Queue

open Helpdesk

def ticketAdmin : ScopedModelAdmin Unit where
  host := plainHost
  model := ticket
  optsOf := optsOf

theorem bob_lists : ∃ rows, (ticketAdmin.getQueryset bob).run seeded = .ok rows ∧
    loginButton ∈ rows ∧ customerLogin ∉ rows ∧
    ticketAdmin.deleteQueryset seeded bob [loginButton] =
      throwing .permissionDenied "Some selected objects are outside your scope." := by
  obtain ⟨⟨rows, hrun, hrows⟩, hdelete⟩ := ScopedModelAdmin.lists_agree_with_objects
    (A := ticketAdmin) hosted.documented hosted.forest hosted.wellFormed hosted.grounded
    hosted.resources bob
  refine ⟨rows, hrun, (hrows _).mpr (by decide), fun h => ?_, ?_⟩
  · exact absurd ((hrows _).mp h) (by decide)
  · rw [hdelete [loginButton] (by decide)]
    exact if_neg (by decide)

end Drf.Queue

namespace World

variable {w : World} {u : User}

theorem stepwise_own (hdoc : w.hierarchy.Documented w.site.schema) (hf : w.Forest)
    (hown : ∀ l ∈ w.hierarchy.levels, ∀ l' ∈ w.hierarchy.levels, ∀ m, l.model = some m →
      l'.model = some m → l = l') {k : Nat} {r s : Row} (hr : w.NodeAt k r)
    (h : Lib.Walk.Reaches w.parent r s) : w.Stepwise r s := by
  obtain ⟨n, hn⟩ := h
  induction n generalizing k r with
  | zero =>
    obtain rfl : r = s := by simpa using hn
    exact .refl r
  | succ n ih =>
    obtain ⟨q, hq, hn⟩ := Option.bind_eq_some_iff.mp hn
    obtain ⟨j, hj, rfl⟩ := hdoc.parent_own hf hown hr hq
    exact .step hq hr hj (ih hj hn)

theorem run_accessibleNodes_now (u : User) (name : String) (permission : Option String) :
    (accessibleNodes u name none permission).run w =
      (accessibleNodes u name (some w.now) permission).run w := by
  simp only [run_accessibleNodes, Option.getD_none, Option.getD_some]

section Nodes

variable (hdoc : w.hierarchy.Documented w.site.schema) (hf : w.Forest) (hw : w.WellFormed)
  (hac : w.Grounded) {l : Level} (hl : l ∈ w.hierarchy.levels)
include hdoc hf hw hl

omit hf hw in
theorem accessibleNodes_special (hspecial : ¬ (u.isActive ∧ u.isSuperuser = false)) {m : Model}
    (hm : l.model = some m) (permission : Option String) :
    (accessibleNodes u l.name none permission).run w =
      .ok ⟨l, if u.isActive then .always else .never⟩ := by
  obtain ⟨k, hk⟩ := List.mem_iff_getElem?.mp hl
  rw [run_accessibleNodes, Hierarchy.level_unique hdoc.names hl,
    Hierarchy.rank_of_getElem hdoc.names hk]
  dsimp only
  rw [hm]
  cases hactive : u.isActive with
  | false => rfl
  | true =>
    have hsuper : u.isSuperuser = true := by simpa [hactive] using hspecial
    simp [hsuper]

include hac

theorem accessibleNodes_decides (u : User) (p : String) {m : Model} (hm : l.model = some m) :
    ∃ nodes, (accessibleNodes u l.name none (some p)).run w = .ok nodes ∧ ∀ n,
      (nodes.selects w.db n → l.selects w.db n ∧
        (hasPerm u p (some (.stored n)) none).run w = .ok true) ∧
      ((∀ k s, w.NodeAt k n → Lib.Walk.Reaches w.parent n s → w.Stepwise n s) →
        l.selects w.db n → (hasPerm u p (some (.stored n)) none).run w = .ok true →
          nodes.selects w.db n) := by
  by_cases hordinary : u.isActive ∧ u.isSuperuser = false
  · obtain ⟨hactive, hsuper⟩ := hordinary
    obtain ⟨k, hk⟩ := List.mem_iff_getElem?.mp hl
    obtain ⟨nodes, hnodes⟩ : ∃ nodes, (accessibleNodes u l.name (some w.now) (some p)).run w =
        .ok nodes := returns_accessibleNodes hw.readable hac hdoc u (some w.now) (some p) hl hm
    have hlevel : nodes.level = l := by
      rw [run_accessibleNodes_level hactive hsuper hk hdoc.names hm] at hnodes
      obtain ⟨as, -, h⟩ := bind_eq_ok.mp hnodes
      obtain ⟨q, -, h⟩ := bind_eq_ok.mp h
      obtain ⟨-, -, h⟩ := bind_eq_ok.mp h
      rw [← Except.ok.inj h]
    have hperm {n : Row} (hn : l.selects w.db n) :
        (hasPerm u p (some (.stored n)) none).run w = .ok true ↔ w.Reached u w.now (some p) n := by
      obtain ⟨b, hb⟩ := returns_hasPerm hw.readable hac u p (some (.stored n)) (some w.now)
      rw [run_hasPerm_now, hb, Except.ok.injEq]
      rw [← hw.storedAsPk.reachedByKey_iff]
      exact hasPerm_reached hactive hsuper (NodeAt.isNodeModel ⟨l, hk, hn⟩) (Level.selects_mem hn) hb
    refine ⟨nodes, (run_accessibleNodes_now u l.name (some p)).trans hnodes, fun n => ⟨?_, ?_⟩⟩
    · intro hsel
      have hn : l.selects w.db n := by
        simp only [NodeQuery.selects, Bool.and_eq_true, hlevel] at hsel
        exact hsel.1
      obtain ⟨a, ha, habove⟩ :=
        (accessibleNodes_admits hactive hsuper hk hdoc.toRegular hf hn hnodes).mp hsel
      exact ⟨hn, (hperm hn).mpr ⟨a, ha, habove.above⟩⟩
    · intro hsteps hn hheld
      obtain ⟨a, ha, habove⟩ := (hperm hn).mp hheld
      refine (accessibleNodes_admits hactive hsuper hk hdoc.toRegular hf hn hnodes).mpr ⟨a, ha, ?_⟩
      refine habove.imp_right ?_
      rintro ⟨s, hs, hreach⟩
      exact ⟨s, hs, hsteps k s ⟨l, hk, hn⟩ hreach⟩
  · refine ⟨_, accessibleNodes_special hdoc hl hordinary hm (some p), fun n => ?_⟩
    rw [run_hasPerm]
    cases hactive : u.isActive with
    | false => simp [NodeQuery.selects, Q.holds]
    | true =>
      have hsuper : u.isSuperuser = true := by simpa [hactive] using hordinary
      simp [NodeQuery.selects, Q.holds, hsuper]

end Nodes

end World

namespace ScopedModelAdmin

variable {γ : Type} {A : ScopedModelAdmin γ} {w : World} {u : User}

theorem holds_choiceQ {entries : List (Level × String)} {q q' : Q} {r : Row}
    (h : (A.choiceQ u entries q).run w = .ok q') :
    q'.holds w.db r ↔ q.holds w.db r ∨ ∃ e ∈ entries, ∃ nodes,
      (accessibleNodes u e.1.name none (some (A.perm e.2))).run w = .ok nodes ∧
        nodes.selects w.db r := by
  induction entries generalizing q with
  | nil =>
    obtain rfl : q = q' := by simpa [choiceQ] using h
    simp
  | cons e entries ih =>
    simp only [choiceQ, Read.run_bind] at h
    obtain ⟨nodes, hnodes, h⟩ := bind_eq_ok.mp h
    simp [ih h, hnodes, Q.holds, NodeQuery.selects, or_assoc]

theorem choiceQ_total {entries : List (Level × String)} (h : ∀ e ∈ entries, ∃ nodes,
      (accessibleNodes u e.1.name none (some (A.perm e.2))).run w = .ok nodes) (q : Q) :
    ∃ q', (A.choiceQ u entries q).run w = .ok q' := by
  induction entries generalizing q with
  | nil => exact ⟨q, rfl⟩
  | cons e entries ih =>
    obtain ⟨nodes, hnodes⟩ := h e List.mem_cons_self
    simp only [choiceQ, Read.run_bind, hnodes, ok_bind]
    exact ih (fun e' he' => h e' (List.mem_cons_of_mem _ he')) _

variable (A u) in
/-- The user may add or change something there. -/
def AddsOrChanges (w : World) (o : Obj) : Prop :=
  ∃ action ∈ ["add", "change"], (hasPerm u (A.perm action) (some o) none).run w = .ok true

section Choices

variable (hdoc : w.hierarchy.Documented w.site.schema) (hf : w.Forest) (hw : w.WellFormed)
  (hac : w.Grounded) {related : Model} (hnode : w.hierarchy.isNodeModel related)
include hdoc hf hw hac hnode

theorem offered_decides (A : ScopedModelAdmin γ) (u : User) :
    ∃ rows, (A.scopedChoices u related).run w = .ok (some rows) ∧ ∀ n,
      (n ∈ rows → A.AddsOrChanges u w (.stored n)) ∧
      ((∀ k s, w.NodeAt k n → Lib.Walk.Reaches w.parent n s → w.Stepwise n s) →
        n.model = related → (∃ k, w.NodeAt k n) → A.AddsOrChanges u w (.stored n) → n ∈ rows) := by
  have hlevel {l : Level} : l ∈ w.hierarchy.levelsForModel related ↔
      l ∈ w.hierarchy.levels ∧ l.model = some related := w.hierarchy.mem_levelsForModel
  have hentry {e : Level × String} :
      e ∈ (w.hierarchy.levelsForModel related).flatMap (fun l => [(l, "add"), (l, "change")]) ↔
        e.1 ∈ w.hierarchy.levelsForModel related ∧ e.2 ∈ ["add", "change"] := by
    obtain ⟨l, action⟩ := e
    simp only [List.mem_flatMap, List.mem_cons, Prod.mk.injEq, List.not_mem_nil, or_false]
    constructor
    · rintro ⟨l, hl, ⟨rfl, rfl⟩ | ⟨rfl, rfl⟩⟩
      · exact ⟨hl, .inl rfl⟩
      · exact ⟨hl, .inr rfl⟩
    · rintro ⟨hl, rfl | rfl⟩
      · exact ⟨l, hl, .inl ⟨rfl, rfl⟩⟩
      · exact ⟨l, hl, .inr ⟨rfl, rfl⟩⟩
  have hdecides {l : Level} (hl : l ∈ w.hierarchy.levelsForModel related) (p : String) :=
    World.accessibleNodes_decides hdoc hf hw hac (hlevel.mp hl).1 u p (hlevel.mp hl).2
  obtain ⟨q, hq⟩ := choiceQ_total (A := A) (u := u) (fun e he =>
    (hdecides (hentry.mp he).1 (A.perm e.2)).imp fun _ h => h.1) .never
  refine ⟨(w.db.managed related).filter (q.holds w.db), ?_, fun n => ?_⟩
  · have hsome : (w.hierarchy.levelsForModel related).isEmpty = false := by
      simpa [Hierarchy.isNodeModel] using hnode
    simp only [scopedChoices, Read.run_bind, Read.run_ask, ok_bind, hsome, Bool.not_false, if_true,
      hq]
    rfl
  · rw [List.mem_filter, holds_choiceQ hq]
    simp only [Q.holds, Bool.false_eq_true, false_or]
    constructor
    · rintro ⟨-, e, he, nodes, hnodes, hsel⟩
      obtain ⟨hl, haction⟩ := hentry.mp he
      obtain ⟨nodes', hnodes', hiff⟩ := hdecides hl (A.perm e.2)
      obtain rfl := Except.ok.inj (hnodes.symm.trans hnodes')
      exact ⟨e.2, haction, ((hiff n).1 hsel).2⟩
    · rintro hsteps hmodel ⟨k, hk⟩ ⟨action, haction, hheld⟩
      obtain ⟨l, hl, hsel⟩ := hk
      have hmem : l ∈ w.hierarchy.levelsForModel related :=
        hlevel.mpr ⟨List.mem_of_getElem? hl, hmodel ▸ Level.selects_model hsel⟩
      obtain ⟨nodes, hnodes, hiff⟩ := hdecides hmem (A.perm action)
      refine ⟨mem_managed.mpr ⟨Level.selects_mem hsel, hmodel, Level.selects_shown hsel⟩,
        (l, action), hentry.mpr ⟨hmem, haction⟩, nodes, hnodes, ?_⟩
      exact (hiff n).2 hsteps hsel hheld

end Choices

section Saves

variable {V : Type} {cls : ModelClass V w} {x : Drf.Instance V w cls.label} {new : cls.NewKey}

theorem saveModel_ok {change : Bool} {out : Row × World} :
    A.saveModel u x change new = .ok out ↔
      (hasPerm u (A.perm (if change then "change" else "add")) (some (x.obj cls)) none).run w =
          .ok true ∧ A.requireStored u x change = .ok () ∧
        (ModelClass.row (x.pk.getD new.key), ModelClass.stored (x.pk.getD new.key) x) = out := by
  rw [saveModel, run_hasPerm_object]
  constructor
  · intro h
    obtain ⟨granted, hgranted, h⟩ := bind_eq_ok.mp h
    obtain ⟨⟨⟩, hrequire, h⟩ := bind_eq_ok.mp h
    obtain ⟨⟨⟩, hstored, hout⟩ := bind_eq_ok.mp h
    obtain rfl := require_ok.mp hrequire
    exact ⟨hgranted, hstored, Except.ok.inj hout⟩
  · rintro ⟨hgranted, hstored, rfl⟩
    rw [hgranted, ok_bind, require, if_pos rfl, ok_bind, hstored]
    rfl

theorem requireStored_true (h : A.requireStored u x true = .ok ()) :
    ∃ k ∈ x.pk, ∃ s ∈ w.db.managed A.model, s.pk = k.val ∧
      (hasPerm u (A.perm "change") (some (.stored s)) none).run w = .ok true := by
  unfold requireStored at h
  cases hfind : x.pk.bind fun k => (w.db.managed A.model).find? (·.pk = k.val) with
  | none =>
    simp only [hfind] at h
    cases require_ok.mp h
  | some s =>
    simp only [hfind] at h
    obtain ⟨granted, hgranted, h⟩ := bind_eq_ok.mp h
    obtain ⟨k, hk, hs⟩ := Option.bind_eq_some_iff.mp hfind
    rw [run_hasPerm_object, require_ok.mp h] at hgranted
    exact ⟨k, hk, s, List.mem_of_find?_eq_some hs, by simpa using List.find?_some hs, hgranted⟩

theorem run_hasPerm_at {n : Row} (hm : w.hierarchy.isNodeModel cls.label = false)
    (an : Drf.Anchored cls) (hanchor : w.site.resources.anchorFor cls.label = some an.path)
    (hrest : an.path.rest = []) (hx : (x.related an.field.name).val = some n)
    (hn : w.hierarchy.isNodeModel n.model)
    (p : String) : (hasPerm u p (some (x.obj cls)) none).run w =
      (hasPerm u p (some (.stored n)) none).run w := by
  have hlead : an.lead w x = some (.stored n) := by
    rw [Drf.Anchored.lead, hx, hrest]
    rfl
  have hobject : w.anchorOf (some (x.obj cls)) = .node (.stored n) :=
    (an.resolveAnchor_obj w.db hm hanchor x).trans (congrArg Drf.anchorAt hlead)
  have hnode : w.anchorOf (some (.stored n)) = .node (.stored n) := by
    rw [World.anchorOf, World.resolveAnchor,
      if_pos (show w.hierarchy.isNodeModel (Obj.stored n).model from hn)]
  rw [World.run_hasPerm, World.run_hasPerm, World.run_userPermissions, World.run_userPermissions,
    hobject, hnode]

/-- A form offers the nodes at which its object can be saved: none is missing where the guard
would let it be, and at each that is offered the guard lets it be as a new one, or as an old one
that the user may change. -/
theorem offered_iff_saveable (hdoc : w.hierarchy.Documented w.site.schema) (hf : w.Forest)
    (hw : w.WellFormed) (hac : w.Grounded)
    (hown : ∀ l ∈ w.hierarchy.levels, ∀ l' ∈ w.hierarchy.levels, ∀ m, l.model = some m →
      l'.model = some m → l = l')
    (hm : w.hierarchy.isNodeModel cls.label = false) (an : Drf.Anchored cls)
    (hanchor : w.site.resources.anchorFor cls.label = some an.path) (hrest : an.path.rest = [])
    {related : Model} (hnode : w.hierarchy.isNodeModel related)
    (hrelated : w.site.schema.relatedModel cls.label an.field.name = some related)
    (hnodes : ∀ n ∈ w.db.rows, n.model = related → ∃ k, w.NodeAt k n)
    (A : ScopedModelAdmin γ) (u : User) (new : cls.NewKey) :
    ∃ rows, (A.scopedChoices u related).run w = .ok (some rows) ∧
      ∀ (x : Drf.Instance V w cls.label) (n : Row), (x.related an.field.name).val = some n →
        ((∃ change out, A.saveModel u x change new = .ok out) → n ∈ rows) ∧
        (n ∈ rows → (∃ out, A.saveModel u x false new = .ok out) ∨
          (A.requireStored u x true = .ok () → ∃ out, A.saveModel u x true new = .ok out)) := by
  obtain ⟨rows, hrows, hoffered⟩ := offered_decides hdoc hf hw hac hnode A u
  refine ⟨rows, hrows, fun x n hx => ?_⟩
  obtain ⟨hmodel, hmem⟩ := (x.related an.field.name).property n hx
  obtain rfl : related = n.model := Option.some.inj (hrelated.symm.trans hmodel)
  have hat := run_hasPerm_at (u := u) hm an hanchor hrest hx hnode
  obtain ⟨hsound, hcomplete⟩ := hoffered n
  constructor
  · rintro ⟨change, out, hsave⟩
    refine hcomplete (fun k s hk => World.stepwise_own hdoc hf hown hk) rfl (hnodes n hmem rfl) ?_
    obtain ⟨hgranted, -⟩ := saveModel_ok.mp hsave
    rw [hat] at hgranted
    exact ⟨_, by cases change <;> simp, hgranted⟩
  · intro hn
    obtain ⟨action, haction, hheld⟩ := hsound hn
    rw [← hat] at hheld
    simp only [List.mem_cons, List.not_mem_nil, or_false] at haction
    obtain rfl | rfl := haction
    · exact .inl ⟨_, saveModel_ok.mpr ⟨hheld, rfl, rfl⟩⟩
    · exact .inr fun hstored => ⟨_, saveModel_ok.mpr ⟨hheld, hstored, rfl⟩⟩

end Saves

end ScopedModelAdmin

namespace Drf.Queue

open Helpdesk

def anchored : Anchored (ticketClass seeded) where
  path := { first := "team" }
  field := teamField
  mem := resource.anchor_mem
  kind := resource.anchor_kind
  name := rfl
  related := by decide

def ofFrontend : Instance String seeded ticket :=
  (ticketClass seeded).blank.point "team" ⟨some frontend, by decide⟩

theorem frontend_offered : ∃ rows, (ticketAdmin.scopedChoices bob team).run seeded =
    .ok (some rows) ∧ frontend ∈ rows := by
  have hown : ∀ l ∈ hierarchy.levels, ∀ l' ∈ hierarchy.levels, l.model = l'.model → l = l' := by
    decide
  obtain ⟨rows, hrows, hoffered⟩ := ScopedModelAdmin.offered_iff_saveable hosted.documented
    hosted.forest hosted.wellFormed hosted.grounded
    (fun l hl l' hl' m hm hm' => hown l hl l' hl' (hm.trans hm'.symm)) hosted.notNode
    anchored rfl rfl
    (by decide) (by decide) team_nodes ticketAdmin bob newTicket
  have hsaves : ∃ change out, ticketAdmin.saveModel bob ofFrontend change newTicket = .ok out :=
    ⟨false, _, ScopedModelAdmin.saveModel_ok.mpr ⟨by decide, rfl, rfl⟩⟩
  exact ⟨rows, hrows, (hoffered ofFrontend frontend (by decide)).1 hsaves⟩

end Drf.Queue

namespace Drf.Resource

variable {V γ : Type} (R : Resource V γ)

def admin : ScopedModelAdmin γ where
  host := R.host
  model := R.model
  optsOf := R.viewSet.optsOf

inductive AdminCall (V : Type)
  | changelist
  | add (form : String → Option (Written V))
  | change (pk : Pk) (form : String → Option (Written V))
  | deleteSelected (keys : List Pk)
  | delete (pk : Pk)

def AdminCall.action : AdminCall V → String
  | changelist => "view"
  | add _ => "add"
  | change .. => "change"
  | deleteSelected _ | delete _ => "delete"

/-- `ModelAdmin.get_object` -/
def adminObject (w : World) (user : User) (pk : Pk) : Py (Option Row) := do
  let rows ← (R.admin.getQueryset user).run w
  return rows.find? (·.pk = pk)

/-- `construct_instance(form, instance)` and then `save_model`. -/
def saveForm (w : World) (user : User) (start : Drf.Instance V w (R.cls w).label) (change : Bool)
    (form : String → Option (Written V)) (new : (R.cls w).NewKey) : Py (List Row × World) := do
  let x ← (R.validatedData form).foldlM (R.cls w).assign start
  let saved ← R.admin.saveModel user x change new
  return ([saved.1], saved.2)

def serveAdmin (w : World) (user : User) (new : (R.cls w).NewKey) :
    AdminCall V → Py (List Row × World)
  | .changelist => do
    return (← (R.admin.getQueryset user).run w, w)
  | .add form => R.saveForm w user (R.cls w).blank false form new
  | .change pk form => do
    match (← R.adminObject w user pk).bind (R.cls w).load with
    | none => return ([], w)
    | some x => R.saveForm w user x true form new
  | .deleteSelected keys => do
    let rows ← (R.admin.getQueryset user).run w
    return ([], ← R.admin.deleteQueryset w user (rows.filter (·.pk ∈ keys)))
  | .delete pk => do
    match ← R.adminObject w user pk with
    | none => return ([], w)
    | some r =>
      let granted ← (R.admin.hasDeletePermission user (some (.stored r))).run w
      ScopedModelAdmin.require "" granted
      return ([], { w with db := w.db.drop [r] })

variable {R} {w : World} {user : User}

theorem allowed_single {p : String} {o : Obj}
    (h : (hasPerm user p (some o) none).run w = .ok true) :
    (allowed user [p] o).run w = .ok true := by
  rw [allowed, if_neg (by simp), Read.run_allM, allM_eq_true]
  exact fun p' hp' => List.mem_singleton.mp hp' ▸ h

theorem outcome_of_saveForm {start : Drf.Instance V w (R.cls w).label} (change : Bool)
    {form : String → Option (Written V)} {new : (R.cls w).NewKey} {out : List Row × World}
    (hstart : change = false → start = (R.cls w).blank)
    (hsave : R.saveForm w user start change form new = .ok out) :
    R.Outcome w user [R.admin.perm (if change then "change" else "add")] out.1 out.2 := by
  obtain ⟨x, hx, hsave⟩ := bind_eq_ok.mp hsave
  obtain ⟨saved, hsaved, hout⟩ := bind_eq_ok.mp hsave
  obtain rfl := pure_eq_ok.mp hout
  obtain ⟨hgranted, hstored, rfl⟩ := ScopedModelAdmin.saveModel_ok.mp hsaved
  have hpk : x.pk = start.pk := foldlM_assign_pk (fun item hitem =>
    getField_writable ((R.validatedData_names form).subset (List.mem_map_of_mem hitem))) hx
  refine .stored (fun hmem => ?_) (allowed_single hgranted)
  cases change with
  | false =>
    rw [hpk, hstart rfl] at hmem
    refine absurd hmem ?_
    cases hblank : (R.cls w).blank.pk with
    | none => exact new.new
    | some k => exact (R.cls w).blank_new k hblank
  | true =>
    obtain ⟨k, hk, s, hs, hspk, hheld⟩ := ScopedModelAdmin.requireStored_true hstored
    have hmodel : s.model = R.model := (ScopedModelAdmin.mem_managed.mp hs).2.1
    have hrow : ModelClass.row (x.pk.getD new.key) = s := by
      rw [hk, Option.getD_some]
      obtain ⟨m, pk⟩ := s
      obtain rfl : pk = k.val := hspk
      obtain rfl : m = (R.cls w).label := hmodel.trans (R.cls_label w).symm
      rfl
    rw [hrow]
    exact ⟨hmodel, allowed_single hheld⟩

section Outcome

variable (h : R.Hosted w)
include h

theorem allowsRow_of_filtered {action : String} {rows : List Row}
    (hrows : (R.admin.filtered user action).run w = .ok rows) :
    ∀ r ∈ rows, R.AllowsRow w user [R.admin.perm action] r := by
  obtain ⟨rows', hrun, hiff⟩ := ScopedModelAdmin.filtered_decides (A := R.admin) user h.documented
    h.forest h.wellFormed h.grounded h.resources action
  obtain rfl := Except.ok.inj (hrows.symm.trans hrun)
  intro r hr
  obtain ⟨hmanaged, hheld⟩ := (hiff r).mp hr
  rw [ScopedModelAdmin.run_hasPerm_object] at hheld
  exact ⟨(ScopedModelAdmin.mem_managed.mp hmanaged).2.1, allowed_single hheld⟩

theorem allowsRow_of_getQueryset {rows : List Row}
    (hrows : (R.admin.getQueryset user).run w = .ok rows) :
    ∀ r ∈ rows, R.AllowsRow w user [R.admin.perm "view"] r := by
  simp only [ScopedModelAdmin.getQueryset, Read.run_bind] at hrows
  obtain ⟨allowed, hallowed, hrows⟩ := bind_eq_ok.mp hrows
  have hallows := allowsRow_of_filtered h hallowed
  obtain rfl := Except.ok.inj hrows
  intro r hr
  obtain ⟨hmanaged, hpk⟩ := List.mem_filter.mp hr
  exact hallows r ((ScopedModelAdmin.pk_mem_map (fun s hs => (hallows s hs).1)
    (ScopedModelAdmin.mem_managed.mp hmanaged).2.1).mp (by simpa using hpk))

theorem admin_outcome {new : (R.cls w).NewKey} {call : AdminCall V} {rows : List Row} {w' : World}
    (hserve : R.serveAdmin w user new call = .ok (rows, w')) :
    R.Outcome w user [R.admin.perm call.action] rows w' := by
  cases call with
  | changelist =>
    obtain ⟨L, hL, hserve⟩ := bind_eq_ok.mp hserve
    obtain ⟨rfl, rfl⟩ := Prod.mk.inj (pure_eq_ok.mp hserve)
    exact .shown (allowsRow_of_getQueryset h hL)
  | add form => exact outcome_of_saveForm false (fun _ => rfl) hserve
  | change pk form =>
    obtain ⟨found, -, hserve⟩ := bind_eq_ok.mp hserve
    cases hload : found.bind (R.cls w).load with
    | none =>
      simp only [hload] at hserve
      obtain ⟨rfl, rfl⟩ := Prod.mk.inj (pure_eq_ok.mp hserve)
      exact .nothing user _
    | some x =>
      simp only [hload] at hserve
      exact outcome_of_saveForm true (fun hchange => by cases hchange) hserve
  | deleteSelected keys =>
    obtain ⟨L, hL, hserve⟩ := bind_eq_ok.mp hserve
    obtain ⟨deleted, hdeleted, hserve⟩ := bind_eq_ok.mp hserve
    obtain ⟨rfl, rfl⟩ := Prod.mk.inj (pure_eq_ok.mp hserve)
    obtain ⟨deletable, hdeletable, hdeleted⟩ := bind_eq_ok.mp hdeleted
    obtain ⟨⟨⟩, hrequire, hdeleted⟩ := bind_eq_ok.mp hdeleted
    obtain rfl := pure_eq_ok.mp hdeleted
    have hdeletes := allowsRow_of_filtered h hdeletable
    refine .deleted fun r hr => hdeletes r ?_
    have hpk := List.all_eq_true.mp (ScopedModelAdmin.require_ok.mp hrequire) r hr
    have hmodel := (allowsRow_of_getQueryset h hL r (List.mem_filter.mp hr).1).1
    exact (ScopedModelAdmin.pk_mem_map (fun s hs => (hdeletes s hs).1) hmodel).mp (by simpa using hpk)
  | delete pk =>
    obtain ⟨found, hfound, hserve⟩ := bind_eq_ok.mp hserve
    obtain ⟨L, hL, hfound⟩ := bind_eq_ok.mp hfound
    obtain rfl := pure_eq_ok.mp hfound
    cases hfind : L.find? (·.pk = pk) with
    | none =>
      simp only [hfind] at hserve
      obtain ⟨rfl, rfl⟩ := Prod.mk.inj (pure_eq_ok.mp hserve)
      exact .nothing user _
    | some r =>
      simp only [hfind] at hserve
      obtain ⟨granted, hgranted, hserve⟩ := bind_eq_ok.mp hserve
      obtain ⟨⟨⟩, hrequire, hserve⟩ := bind_eq_ok.mp hserve
      obtain ⟨rfl, rfl⟩ := Prod.mk.inj (pure_eq_ok.mp hserve)
      rw [ScopedModelAdmin.require_ok.mp hrequire] at hgranted
      have hheld := (ScopedModelAdmin.run_hasPerm_object _ _).symm.trans hgranted
      refine .deleted fun r' hr' => List.mem_singleton.mp hr' ▸ ⟨?_, allowed_single hheld⟩
      exact (allowsRow_of_getQueryset h hL r (List.mem_of_find?_eq_some hfind)).1

end Outcome

end Drf.Resource

end ScopedAccess
