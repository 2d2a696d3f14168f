import ScopedAccess.Cache
import ScopedAccess.Engine.Asks

namespace ScopedAccess

open Lib (Memo)
open Lib.Loop

/-- Two states of the tables between which a store cannot tell: the assignments,
their roles and those roles' permissions are the same. -/
structure SameView (t t' : Tables) : Prop where
  assignments : t'.assignments = t.assignments
  role : ∀ a ∈ t.assignments, t'.role a.role = t.role a.role
  labels : ∀ a ∈ t.assignments, t'.roleLabels a.role = t.roleLabels a.role

namespace SameView

variable {t t' t'' : Tables}

theorem refl : SameView t t := ⟨rfl, fun _ _ => rfl, fun _ _ => rfl⟩

theorem symm (h : SameView t t') : SameView t' t where
  assignments := h.assignments.symm
  role a ha := (h.role a (h.assignments ▸ ha)).symm
  labels a ha := (h.labels a (h.assignments ▸ ha)).symm

theorem trans (h : SameView t t') (h' : SameView t' t'') : SameView t t'' where
  assignments := h'.assignments.trans h.assignments
  role a ha := (h'.role a (h.assignments ▸ ha)).trans (h.role a ha)
  labels a ha := (h'.labels a (h.assignments ▸ ha)).trans (h.labels a ha)

end SameView

namespace World

variable {w : World} {t : Tables}

def validById (w : World) (id : Nat) : Py Bool :=
  match w.tables.assignment id with
  | none => .ok false
  | some row =>
    match w.prefetch row with
    | .ok (some a) => w.assignmentIsValid a
    | _ => .ok false

/-- The scope of every ACTIVE row that the principal has outside its window can be read. -/
def DormantRead (w : World) (u : User) : Prop :=
  ∀ row ∈ w.tables.assignments, row.user = u.pk → row.status = .active →
    row.isEffective w.now = false → ∃ s, w.db.generic row.scopeCt row.scopeId = .ok s

theorem Loaded.validById {a : Assignment} (ha : w.Loaded a) :
    w.validById a.row.id = w.assignmentIsValid a := by
  obtain ⟨row, hrow, hfetch⟩ := ha
  obtain ⟨a', ha', rfl⟩ := prefetch_row hrow hfetch
  obtain rfl := Option.some.inj ha'
  rw [World.validById, w.tables.assignment_eq_some.mpr ⟨hrow, rfl⟩]
  simp only [hfetch]

theorem dormantRead_of_active {u : User} {as : List Assignment}
    (h : w.fetchActive u.pk = .ok as) : w.DormantRead u := by
  intro row hrow huser hactive _
  obtain ⟨found, hfound, -⟩ := bind_eq_ok.mp h
  obtain ⟨a, -, ha⟩ := ok_of_mapM hfound (List.mem_filter.mpr ⟨hrow, by simp [huser, hactive]⟩)
  obtain ⟨s, hs, -⟩ := bind_eq_ok.mp ha
  exact ⟨s, hs⟩

theorem fetchEffective_active {u : User} (hdormant : w.DormantRead u) :
    w.fetchEffective u w.now =
      (w.fetchActive u.pk).map (List.filter (·.inWindow w.now)) := by
  have hrows : w.tables.assignments.filter (fun a => a.user = u.pk && a.isEffective w.now) =
      (w.tables.assignments.filter fun a => a.user = u.pk && a.status = .active).filter
        fun row => row.validFrom.all (· ≤ w.now) && row.validUntil.all (w.now < ·) := by
    rw [List.filter_filter]
    congr 1
    funext row
    simp only [AssignmentRow.isEffective, Bool.and_assoc]
    grind
  rw [fetchEffective, fetchActive, hrows]
  refine prefetch_filter (fun row hrow => (List.mem_filter.mp hrow).1) fun row hrow hwindow => ?_
  simp only [List.mem_filter, Bool.and_eq_true, decide_eq_true_eq] at hrow
  refine hdormant row hrow.1 hrow.2.1 hrow.2.2 ?_
  rw [AssignmentRow.isEffective, Bool.and_assoc, hwindow, Bool.and_false]

section View

variable (h : SameView w.tables t)
include h

theorem prefetch_view {row : AssignmentRow} (hrow : row ∈ w.tables.assignments) :
    (w.save t).prefetch row = w.prefetch row := by
  have hrole : (w.save t).tables.role row.role = w.tables.role row.role := h.role row hrow
  have hload : ∀ r, w.tables.role row.role = some r → (w.save t).loadRole r = w.loadRole r := by
    intro r hr
    have hlabels : t.roleLabels r.id = w.tables.roleLabels r.id :=
      (w.tables.role_eq_some.mp hr).2 ▸ h.labels row hrow
    simp only [loadRole, save_tables, hlabels]
    rfl
  rw [prefetch, prefetch, hrole]
  change (w.db.generic row.scopeCt row.scopeId >>= _) = _
  congr 1
  funext scope
  cases hr : w.tables.role row.role with
  | none => rfl
  | some r => rw [Option.map_some, Option.map_some, hload r hr]

theorem mapM_prefetch_view {rows : List AssignmentRow}
    (hrows : ∀ row ∈ rows, row ∈ w.tables.assignments) :
    rows.mapM (w.save t).prefetch = rows.mapM w.prefetch := by
  induction rows with
  | nil => rfl
  | cons row rows ih =>
    rw [List.mapM_cons, List.mapM_cons, prefetch_view h (hrows row List.mem_cons_self),
      ih fun row' hrow' => hrows row' (List.mem_cons_of_mem _ hrow')]

theorem fetchActive_view (u : Nat) : (w.save t).fetchActive u = w.fetchActive u := by
  have hassign : (w.save t).tables.assignments = w.tables.assignments := h.assignments
  rw [fetchActive, fetchActive, hassign,
    mapM_prefetch_view h fun row hrow => (List.mem_filter.mp hrow).1]

theorem validById_view (id : Nat) : (w.save t).validById id = w.validById id := by
  have hassign : (w.save t).tables.assignment id = w.tables.assignment id := by
    rw [Tables.assignment, Tables.assignment, save_tables, h.assignments]
  rw [validById, validById, hassign]
  cases hrow : w.tables.assignment id with
  | none => rfl
  | some row =>
    simp only [prefetch_view h (w.tables.assignment_eq_some.mp hrow).1]
    rfl

end View

end World

structure Store.Fresh (s : Store) (w : World) : Prop where
  assignments : s.assignments.Agrees w.fetchActive
  valid : s.valid.Agrees w.validById

namespace Store.Fresh

variable {s : Store} {w : World}

theorem empty : ({} : Store).Fresh w := ⟨Memo.agrees_empty, Memo.agrees_empty⟩

theorem drop (h : s.Fresh w) (i : Invalidation) : (s.drop i).Fresh w := by
  cases i with
  | user pk => exact ⟨h.assignments.erase pk, h.valid⟩
  | all => exact .empty

theorem view {t : Tables} (h : s.Fresh w) (hview : SameView w.tables t) : s.Fresh (w.save t) :=
  ⟨h.assignments.congr (World.fetchActive_view hview),
    h.valid.congr (World.validById_view hview)⟩

theorem unview {t : Tables} (h : s.Fresh (w.save t)) (hview : SameView w.tables t) : s.Fresh w :=
  ⟨h.assignments.congr fun u => (World.fetchActive_view hview u).symm,
    h.valid.congr fun id => (World.validById_view hview id).symm⟩

theorem advance (h : s.Fresh w) (now : Time) : s.Fresh { w with now } :=
  ⟨h.assignments.congr fun _ => rfl, h.valid.congr fun _ => rfl⟩

end Store.Fresh

namespace Cache

variable {inAtomic : Bool} {w : World} {c c' c'' : Cache}

/-- Unless it is bypassed the store is fresh. -/
def StoreFresh (c : Cache) (w : World) : Prop :=
  c.dirty = false → ∀ s ∈ c.store, s.Fresh w

def Bypassed (inAtomic : Bool) (c : Cache) : Prop := c.dirty = true ∧ inAtomic = true

def InUse (inAtomic : Bool) (c : Cache) : Prop := c.store.isSome ∧ ¬ c.Bypassed inAtomic

theorem storeFresh_iff : c.StoreFresh w ↔ (c.InUse true → ∀ s ∈ c.store, s.Fresh w) := by
  constructor
  · exact fun h huse => h (by simpa [Bypassed] using huse.2)
  · intro h hclean s hs
    exact h ⟨by simp [Option.mem_def.mp hs], fun hb => by cases hclean.symm.trans hb.1⟩ s hs

theorem StoreFresh.view {t : Tables} (h : c.StoreFresh w) (hview : SameView w.tables t) :
    c.StoreFresh (w.save t) := fun hclean s hs => (h hclean s hs).view hview

theorem StoreFresh.unview {t : Tables} (h : c.StoreFresh (w.save t)) (hview : SameView w.tables t) :
    c.StoreFresh w := fun hclean s hs => (h hclean s hs).unview hview

theorem StoreFresh.invalidate (h : c.StoreFresh w) (i : Invalidation) :
    (c.invalidate inAtomic i).StoreFresh w := by
  intro hclean s hs
  obtain ⟨s₀, hs₀, rfl⟩ := Option.map_eq_some_iff.mp hs
  have hclean : c.dirty = false := (Bool.or_eq_false_iff.mp hclean).1
  exact (h hclean s₀ hs₀).drop i

structure Reads (inAtomic : Bool) (w : World) (c c' : Cache) : Prop where
  storeFresh : c'.StoreFresh w
  isSome : c'.store.isSome = c.store.isSome
  bypassed : c.Bypassed inAtomic → c' = c
  clean : c'.dirty = true → c.dirty = true

namespace Reads

theorem refl (h : c.StoreFresh w) : Reads inAtomic w c c := ⟨h, rfl, fun _ => rfl, id⟩

theorem trans (h : Reads inAtomic w c c') (h' : Reads inAtomic w c' c'') :
    Reads inAtomic w c c'' where
  storeFresh := h'.storeFresh
  isSome := h'.isSome.trans h.isSome
  bypassed hb := by
    obtain rfl := h.bypassed hb
    exact h'.bypassed hb
  clean := h.clean ∘ h'.clean

theorem inUse (h : Reads inAtomic w c c') (huse : c'.InUse inAtomic) : c.InUse inAtomic := by
  refine ⟨h.isSome ▸ huse.1, fun hb => huse.2 ?_⟩
  rw [h.bypassed hb]
  exact hb

theorem update {s s' : Store} (h : Reads inAtomic w c c') (huse : c.InUse inAtomic)
    (hs : c'.store = some s) (hclean : c'.dirty = false) (hfresh : s'.Fresh w) :
    Reads inAtomic w c { c' with store := some s' } where
  storeFresh _ x hx := by
    obtain rfl : s' = x := Option.some.inj hx
    exact hfresh
  isSome := by rw [← h.isSome, hs]; rfl
  bypassed hb := absurd hb huse.2
  clean hdirty := by cases hclean.symm.trans hdirty

end Reads

theorem getStore_reads (inAtomic : Bool) (h : c.StoreFresh w) : ∃ c', Reads inAtomic w c c' ∧
    (c.getStore inAtomic = (none, c') ∨ ∃ s, c.getStore inAtomic = (some s, c') ∧
      c.InUse inAtomic ∧ c'.store = some s ∧ c'.dirty = false ∧ s.Fresh w) := by
  unfold getStore
  cases hdirty : c.dirty with
  | false =>
    refine ⟨c, .refl h, ?_⟩
    cases hs : c.store with
    | none => exact .inl rfl
    | some s =>
      have huse : c.InUse inAtomic :=
        ⟨by rw [hs]; rfl, fun hb => by cases hdirty.symm.trans hb.1⟩
      exact .inr ⟨s, rfl, huse, rfl, hdirty, h hdirty s hs⟩
  | true =>
    cases inAtomic with
    | true => exact ⟨c, .refl h, .inl rfl⟩
    | false =>
      have hb : ¬ c.Bypassed false := fun hb => by cases hb.2
      refine ⟨{ store := c.store.map fun _ => {} }, ⟨fun _ s hs => ?_, by simp, ?_, nofun⟩, ?_⟩
      · obtain ⟨_, -, rfl⟩ := Option.map_eq_some_iff.mp hs
        exact .empty
      · exact fun hb' => absurd hb' hb
      · cases hs : c.store with
        | none => exact .inl rfl
        | some s => exact .inr ⟨{}, rfl, ⟨by simp [hs], hb⟩, rfl, rfl, .empty⟩

theorem effectiveAssignments_reads (inAtomic : Bool) (h : c.StoreFresh w) (u : User)
    (at_ : Option Time) :
    ∃ found c', c.effectiveAssignments inAtomic w u at_ = (found, c') ∧ Reads inAtomic w c c' ∧
      (∀ as, found = .ok as → w.fetchEffective u (at_.getD w.now) = .ok as) ∧
      ((c.InUse inAtomic → w.DormantRead u) → found = w.fetchEffective u (at_.getD w.now)) := by
  cases at_ with
  | some t => exact ⟨_, c, rfl, .refl h, fun _ => id, fun _ => rfl⟩
  | none =>
    simp only [effectiveAssignments]
    obtain ⟨c', hreads, hget | ⟨s, hget, huse, hs, hclean, hfresh⟩⟩ :=
      getStore_reads inAtomic h
    · rw [hget]
      exact ⟨_, c', rfl, hreads, fun _ => id, fun _ => rfl⟩
    · have hfresh' : Store.Fresh
          { s with assignments := (s.assignments.read u.pk (w.fetchActive u.pk)).2 } w :=
        ⟨hfresh.assignments.read_snd u.pk, hfresh.valid⟩
      rw [hget]
      refine ⟨_, _, rfl, hreads.update huse hs hclean hfresh', fun as has => ?_, fun hread => ?_⟩
      · rw [hfresh.assignments.read_fst] at has
        obtain ⟨active, hactive, -⟩ := map_eq_ok.mp has
        rw [← has]
        exact World.fetchEffective_active (World.dormantRead_of_active hactive)
      · rw [hfresh.assignments.read_fst]
        exact (World.fetchEffective_active (hread huse)).symm

theorem isValid_reads (inAtomic : Bool) (h : c.StoreFresh w) {a : Assignment}
    (ha : c.InUse inAtomic → w.Loaded a) :
    ∃ c', Reads inAtomic w c c' ∧ c.isValid inAtomic w a = (w.assignmentIsValid a, c') := by
  unfold isValid
  obtain ⟨c', hreads, hget | ⟨s, hget, huse, hs, hclean, hfresh⟩⟩ :=
    getStore_reads inAtomic h
  · exact ⟨c', hreads, by rw [hget]⟩
  · have hfresh' : Store.Fresh
        { s with valid := (s.valid.read a.row.id (w.validById a.row.id)).2 } w :=
      ⟨hfresh.assignments, hfresh.valid.read_snd a.row.id⟩
    refine ⟨_, hreads.update huse hs hclean hfresh', ?_⟩
    rw [hget, ← (ha huse).validById]
    exact Prod.ext (hfresh.valid.read_fst a.row.id) rfl

end Cache

namespace Op

variable {α : Type} {principals : User → Prop}

theorem cached_read (inAtomic : Bool) (rc : Receivers) (p : Read α) (s : Conn)
    (hsound : s.cache.StoreFresh s.world)
    (hasks : p.Asks s.world principals) :
    ∃ cache, s.cache.Reads inAtomic s.world cache ∧
      ((ofRead p).cached inAtomic rc s).2 = { s with cache } ∧
      ((∀ u, principals u → s.cache.InUse inAtomic → s.world.DormantRead u) →
        ((ofRead p).cached inAtomic rc s).1 = p.run s.world) := by
  induction p generalizing s with
  | pure x => exact ⟨s.cache, .refl hsound, rfl, fun _ => rfl⟩
  | abort e => exact ⟨s.cache, .refl hsound, rfl, fun _ => rfl⟩
  | world k ih => exact ih s.world s hsound hasks
  | effective u at_ k ih =>
    obtain ⟨hu, hasks⟩ := hasks
    obtain ⟨found, c, hcached, hreads, hok, hfst⟩ :=
      Cache.effectiveAssignments_reads inAtomic hsound u at_
    simp only [ofRead, cached, Read.run, hcached]
    cases found with
    | error e =>
      refine ⟨c, hreads, rfl, fun hdormant => ?_⟩
      rw [← hfst (hdormant u hu)]
    | ok as =>
      obtain ⟨c', hreads', hsnd, hfst'⟩ := ih as { s with cache := c } hreads.storeFresh
        (hasks as (hok as rfl))
      refine ⟨c', hreads.trans hreads', hsnd, fun hdormant => ?_⟩
      rw [hok as rfl]
      exact hfst' fun u hu huse => hdormant u hu (hreads.inUse huse)
  | valid a k ih =>
    obtain ⟨ha, hasks⟩ := hasks
    obtain ⟨c, hreads, hcached⟩ := Cache.isValid_reads inAtomic hsound fun _ => ha
    simp only [ofRead, cached, Read.run, hcached]
    cases hb : s.world.assignmentIsValid a with
    | error e => exact ⟨c, hreads, rfl, fun _ => rfl⟩
    | ok b =>
      obtain ⟨c', hreads', hsnd, hfst⟩ := ih b { s with cache := c } hreads.storeFresh (hasks b hb)
      exact ⟨c', hreads.trans hreads', hsnd, fun hdormant =>
        hfst fun u hu huse => hdormant u hu (hreads.inUse huse)⟩

end Op

end ScopedAccess
