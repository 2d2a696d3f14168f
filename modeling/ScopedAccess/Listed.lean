import ScopedAccess.Startup
import ScopedAccess.Engine.Nodes
import ScopedAccess.Engine.Settling

namespace ScopedAccess

open Lib.Walk (Acyclic Reaches)
open Lib.Loop

def Schema.joined (sc : Schema) (m : Model) : List String → Option (List String)
  | [] => some []
  | name :: rest => do
    let f ← sc.getField m name
    let m' ← sc.relatedModel m f
    return f :: (← sc.joined m' rest)

/-- The last name of the path is a foreign key's column, the ones before are relations. -/
inductive Schema.EndsAtColumn (sc : Schema) : Model → List String → Prop
  | column {m : Model} {f : String} (hattribute : sc.relatedModel m f = none)
    (hfield : (sc.getField m f).isSome) : EndsAtColumn sc m [f]
  | relation {m m' : Model} {f : String} {path : List String}
    (hrelated : sc.relatedModel m f = some m') (hrest : EndsAtColumn sc m' path) :
    EndsAtColumn sc m (f :: path)

/-- The ways on which `iter_ancestors` comes from the nodes of one model to those of another. -/
inductive Hierarchy.Walked (h : Hierarchy) (sc : Schema) : Model → List String → Model → Prop
  | here {m : Model} : h.Walked sc m [] m
  | step {m m' m'' : Model} {accessor : Accessor} {path : List String}
    (haccessor : h.parentAccessorForModel m = some accessor)
    (hrelated : sc.relatedPath m accessor.parts = some m') (hrest : h.Walked sc m' path m'') :
    h.Walked sc m (accessor.parts ++ path) m''

/-- A list of the model can be asked for the key, at the end of each path up to the rank. -/
def Hierarchy.Usable (h : Hierarchy) (sc : Schema) (rank : Nat) (m : Model) (id : String) : Prop :=
  ∀ k l, h.levels[k]? = some l → l.model = some m → rank ≤ k →
    ∃ path, upPath h k rank = .ok path ∧ (Q.pk path (some id)).compile sc m = .ok ()

/-- Where a list can be asked for the key of a node, what it joins is the walk of the
check up to the node's model, and the key is written as the check compares it. -/
def Hierarchy.Faithful (h : Hierarchy) (sc : Schema) (ids : Model → String → Prop) : Prop :=
  ∀ rank k l₀ l m₀ m id key path, h.levels[rank]? = some l₀ → l₀.model = some m₀ →
    h.levels[k]? = some l → l.model = some m → rank ≤ k → ids m₀ id → sc.toPk m₀ id = .ok key →
    h.Usable sc rank m id → upPath h k rank = .ok path →
    (∃ names, sc.joined m path = some names ∧ h.Walked sc m names m₀) ∧ id = key

structure Site.Faithful (site : Site) (ids : Model → String → Prop) : Prop where
  climbs : site.hierarchy.Faithful site.schema ids
  parents : ∀ m accessor, site.hierarchy.parentAccessorForModel m = some accessor →
    ¬ site.schema.EndsAtColumn m accessor.parts
  anchors : ∀ m anchor, site.hierarchy.isNodeModel m = false →
    site.resources.anchorFor m = some anchor →
    (∀ m', site.schema.lookupPath m anchor.parts = some m' → site.hierarchy.isNodeModel m' →
      (site.schema.relatedPath m anchor.parts).isSome) ∧
    ((∃ m', site.hierarchy.isNodeModel m') → ¬ site.schema.EndsAtColumn m anchor.parts)

def Schema.strPk (sc : Schema) (m : Model) (id : String) : Prop := sc.toPk m id = .ok id

namespace World

variable {w : World} {u : User} {t : Time} {p : String} {r : Row}

def ScopeIds (w : World) (ids : Model → String → Prop) : Prop :=
  ∀ a ∈ w.tables.assignments, ∀ m i, a.scopeCt = some (w.site.schema.contentType m) →
    a.scopeId = some i → ids m i

def Listed (w : World) (u : User) (t : Time) (p : String) (r : Row) : Prop :=
  ∃ q, (scopeFilterQ u r.model (some t) (some p)).run w = .ok q ∧
    q.compile w.site.schema r.model = .ok () ∧ q.holds w.db r

/-- `has_perm` does not deny the row, and it answers unless a role's owner cannot be read. -/
structure Permits (w : World) (u : User) (t : Time) (p : String) (r : Row) : Prop where
  granted : ∀ b, (hasPerm u p (some (.stored r)) (some t)).run w = .ok b → b = true
  answered : w.OwnersRead → ∃ b, (hasPerm u p (some (.stored r)) (some t)).run w = .ok b

end World

theorem upPath_self (h : Hierarchy) (rank : Nat) : upPath h rank rank = .ok [] := by
  cases rank with
  | zero => rfl
  | succ rank => simp [upPath, upPathFrom]

theorem mem_nodePaths {h : Hierarchy} {k rank : Nat} {ps : List (List String)}
    (hps : nodePaths h k rank = .ok ps) {path : List String} :
    path ∈ ps ↔ rank ≤ k ∧ upPath h k rank = .ok path := by
  unfold nodePaths at hps
  split at hps
  · obtain rfl := Except.ok.inj hps
    simp only [List.not_mem_nil, false_iff, not_and]
    omega
  · split at hps
    · obtain rfl := Except.ok.inj hps
      rename_i heq
      subst heq
      simp [upPath_self, eq_comm]
    · obtain ⟨up, hup, hps⟩ := bind_eq_ok.mp hps
      obtain rfl := Except.ok.inj hps
      simp only [List.mem_singleton, hup, Except.ok.injEq]
      constructor
      · rintro rfl
        exact ⟨by omega, rfl⟩
      · rintro ⟨-, rfl⟩
        rfl

theorem nodePaths_up {h : Hierarchy} {k rank : Nat} {ps : List (List String)}
    (hps : nodePaths h k rank = .ok ps) (hle : rank ≤ k) :
    ∃ path ∈ ps, upPath h k rank = .ok path := by
  have hmem := @mem_nodePaths h k rank ps hps
  unfold nodePaths at hps
  rw [if_neg (by omega)] at hps
  split at hps
  · rename_i heq
    subst heq
    exact ⟨[], hmem.mpr ⟨le_rfl, upPath_self h rank⟩, upPath_self h rank⟩
  · obtain ⟨up, hup, -⟩ := bind_eq_ok.mp hps
    exact ⟨up, hmem.mpr ⟨hle, hup⟩, hup⟩

theorem nodePaths_of_up {h : Hierarchy} {k rank : Nat} {path : List String} (hle : rank ≤ k)
    (hup : upPath h k rank = .ok path) : nodePaths h k rank = .ok [path] := by
  rw [nodePaths, if_neg (by omega)]
  split
  · rename_i heq
    subst heq
    obtain rfl := Except.ok.inj ((upPath_self h rank).symm.trans hup)
    rfl
  · rw [hup]
    rfl

theorem Hierarchy.Usable.paths {h : Hierarchy} {sc : Schema} {rank : Nat} {m : Model} {id : String}
    (husable : h.Usable sc rank m id) {k : Nat} {l : Level} (hl : h.levels[k]? = some l)
    (hm : l.model = some m) : ∃ ps, nodePaths h k rank = .ok ps ∧
      ∀ path ∈ ps, (Q.pk path (some id)).compile sc m = .ok () := by
  rcases Nat.lt_or_ge k rank with hlt | hle
  · exact ⟨[], by rw [nodePaths, if_pos hlt], by simp⟩
  · obtain ⟨path, hup, hcompile⟩ := husable k l hl hm hle
    exact ⟨[path], nodePaths_of_up hle hup, by simpa using hcompile⟩

theorem mem_anchorPaths {h : Hierarchy} {anchor : Accessor} {targets : List (Nat × Level)}
    {rank : Nat} {ps : List (List String)} (hps : anchorPaths h anchor targets rank = .ok ps)
    {path : List String} :
    path ∈ ps ↔ ∃ k l up, (k, l) ∈ targets ∧ rank ≤ k ∧ upPath h k rank = .ok up ∧
      path = joinPath anchor up := by
  rw [mem_of_mapM hps]
  constructor
  · rintro ⟨⟨k, l⟩, hmem, h⟩
    obtain ⟨hmem, hle⟩ := List.mem_filter.mp hmem
    obtain ⟨up, hup, h⟩ := bind_eq_ok.mp h
    exact ⟨k, l, up, hmem, by simpa using hle, hup, (Except.ok.inj h).symm⟩
  · rintro ⟨k, l, up, hmem, hle, hup, rfl⟩
    exact ⟨(k, l), List.mem_filter.mpr ⟨hmem, by simpa using hle⟩, by simp [hup]⟩

theorem anchorPaths_up {h : Hierarchy} {anchor : Accessor} {targets : List (Nat × Level)}
    {rank : Nat} {ps : List (List String)} (hps : anchorPaths h anchor targets rank = .ok ps)
    {k : Nat} {l : Level} (hmem : (k, l) ∈ targets) (hle : rank ≤ k) :
    ∃ up, upPath h k rank = .ok up := by
  obtain ⟨_, -, h⟩ := ok_of_mapM hps (List.mem_filter.mpr ⟨hmem, by simpa using hle⟩)
  obtain ⟨up, hup, -⟩ := bind_eq_ok.mp h
  exact ⟨up, hup⟩

theorem Hierarchy.Checked.upPath_ne {h : Hierarchy} {sc : Schema} (hchecked : h.Checked sc)
    {rank k : Nat} {l₀ l : Level} {m₀ m : Model} (hl₀ : h.levels[rank]? = some l₀)
    (hm₀ : l₀.model = some m₀) (hl : h.levels[k]? = some l) (hm : l.model = some m)
    {up : List String} (hup : upPath h k rank = .ok up) : up ≠ [""] := by
  cases k with
  | zero =>
    obtain rfl := Except.ok.inj hup
    simp
  | succ k =>
    rw [upPath, upPathFrom] at hup
    split at hup
    · obtain rfl := Except.ok.inj hup
      simp
    · rename_i hlt
      obtain ⟨l', m', hl', hm'⟩ :=
        Hierarchy.modeled_between hchecked.root_first hl₀ hm₀ hl (by omega)
      obtain ⟨accessor, -, hparent, htruthy, -⟩ := hchecked.parents hl' hl hm' hm
      rw [hl, Option.bind_some, hparent] at hup
      obtain ⟨rest, -, hup⟩ := bind_eq_ok.mp hup
      obtain rfl := Except.ok.inj hup
      intro hempty
      simp only [Accessor.truthy, Accessor.parts, List.cons_append, List.cons.injEq,
        List.append_eq_nil_iff] at htruthy hempty
      simp [hempty.1, hempty.2.1] at htruthy

theorem Schema.joined_related {sc : Schema} {m m' : Model} {path names : List String}
    (h : sc.joined m path = some names) :
    sc.lookupPath m path = some m' ↔ sc.relatedPath m names = some m' := by
  induction path generalizing m names with
  | nil =>
    obtain rfl := Option.some.inj h
    exact Iff.rfl
  | cons name path ih =>
    obtain ⟨f, hf, h⟩ := Option.bind_eq_some_iff.mp h
    obtain ⟨m₁, hm₁, h⟩ := Option.bind_eq_some_iff.mp h
    obtain ⟨rest, hrest, h⟩ := Option.bind_eq_some_iff.mp h
    obtain rfl := Option.some.inj h
    simp only [lookupPath, hf, relatedPath, hm₁, Option.bind_some]
    exact ih hrest

theorem Schema.exists_joined {sc : Schema} {m m' : Model} {path : List String}
    (h : sc.lookupPath m path = some m') : ∃ names, sc.joined m path = some names := by
  induction path generalizing m with
  | nil => exact ⟨[], rfl⟩
  | cons name path ih =>
    obtain ⟨m₁, hm₁, h⟩ := Option.bind_eq_some_iff.mp h
    obtain ⟨f, hf, hm₁⟩ := Option.bind_eq_some_iff.mp hm₁
    obtain ⟨rest, hrest⟩ := ih h
    exact ⟨f :: rest, by simp [joined, hf, hm₁, hrest]⟩

theorem Schema.joined_of_related {sc : Schema} {m m' : Model} {path : List String}
    (h : sc.relatedPath m path = some m') : sc.joined m path = some path := by
  induction path generalizing m with
  | nil => rfl
  | cons f path ih =>
    obtain ⟨m₁, hm₁, h⟩ := Option.bind_eq_some_iff.mp h
    simp [joined, getField_related hm₁, hm₁, ih h]

theorem Database.lookup_joined {sc : Schema} (db : Database sc) {r : Row}
    {path names : List String} (h : sc.joined r.model path = some names) :
    db.lookup r path = db.follow r names := by
  induction path generalizing r names with
  | nil =>
    obtain rfl := Option.some.inj h
    rfl
  | cons name path ih =>
    obtain ⟨f, hf, h⟩ := Option.bind_eq_some_iff.mp h
    obtain ⟨m₁, hm₁, h⟩ := Option.bind_eq_some_iff.mp h
    obtain ⟨rest, hrest, h⟩ := Option.bind_eq_some_iff.mp h
    obtain rfl := Option.some.inj h
    simp only [lookup, follow, hf, Option.bind_some]
    cases hs : db.related r f with
    | none => rfl
    | some s =>
      obtain rfl : m₁ = s.model := Option.some.inj (hm₁.symm.trans (db.related_model hs))
      exact ih hrest

theorem World.endsAtColumn {w : World} {r : Row} {path : List String} {m' : Model}
    (hpath : w.site.schema.lookupPath r.model path = some m')
    (h : w.followAttr (.stored r) path = some .plain) :
    w.site.schema.EndsAtColumn r.model path := by
  induction path generalizing r with
  | nil => cases h
  | cons f path ih =>
    obtain ⟨m₁, hm₁, hpath⟩ := Option.bind_eq_some_iff.mp hpath
    obtain ⟨g, hg, hm₁⟩ := Option.bind_eq_some_iff.mp hm₁
    obtain ⟨x, hx, h⟩ := Option.bind_eq_some_iff.mp h
    cases hrelated : w.site.schema.relatedModel r.model f with
    | none =>
      cases path with
      | nil => exact .column hrelated (by simp [hg])
      | cons f' path =>
        rcases getattr_stored (w := w) r f with hattr | ⟨-, hattr⟩
        · obtain ⟨s, hs, -⟩ := Option.map_eq_some_iff.mp (hattr.symm.trans hx)
          exact absurd (hrelated.symm.trans (w.db.related_model hs)) (by simp)
        · obtain rfl := Option.some.inj (hattr.symm.trans hx)
          cases h
    | some m₂ =>
      obtain rfl : f = g := Option.some.inj ((Schema.getField_related hrelated).symm.trans hg)
      obtain ⟨o, ho, rfl⟩ := Option.map_eq_some_iff.mp (show _ = some x by
        simpa only [getattr, Obj.model, Obj.stored, hrelated] using hx)
      obtain ⟨hrow, -⟩ := Option.filter_eq_some_iff.mp ho
      obtain ⟨s, hs, rfl⟩ := Option.map_eq_some_iff.mp hrow
      have hmodel := w.db.related_model hs
      obtain rfl : m₁ = s.model := Option.some.inj (hm₁.symm.trans hmodel)
      exact .relation hmodel (ih hpath h)

theorem Hierarchy.Walked.related {h : Hierarchy} {sc : Schema} {m m' : Model}
    {path : List String} (hwalked : h.Walked sc m path m') : sc.relatedPath m path = some m' := by
  induction hwalked with
  | here => rfl
  | step _ hrelated _ ih => rw [Schema.relatedPath_append, hrelated, Option.bind_some, ih]

theorem Hierarchy.Walked.reaches {w : World} {m m' : Model} {path : List String} {r s : Row}
    (h : w.hierarchy.Walked w.site.schema m path m') (hr : r.model = m)
    (hs : w.db.follow r path = some s) : Reaches w.parent r s ∧ s.model = m' := by
  induction h generalizing r with
  | here =>
    obtain rfl : r = s := by simpa [Database.follow] using hs
    exact ⟨.refl r, hr⟩
  | @step m m' m'' accessor path haccessor hrelated _ ih =>
    rw [Database.follow_append] at hs
    obtain ⟨x, hx, hs⟩ := Option.bind_eq_some_iff.mp hs
    have hparent : w.parent r = some x := by
      rw [World.parent, hr, haccessor]
      exact hx
    have hmodel := w.db.follow_model hx
    rw [hr, hrelated] at hmodel
    obtain ⟨hreaches, hend⟩ := ih (Option.some.inj hmodel).symm hs
    exact ⟨.head hparent hreaches, hend⟩

section Compiled

variable {w : World} {sc : Schema} {m : Model} {f : Assignment → Read Term} {as : List Assignment}
  {q q' : Q}

theorem Q.compiled_foldl {paths : List (List String)} {id : Option String}
    (h : (paths.foldl (fun q path => q.or (.pk path id)) q).compile sc m = .ok ()) :
    q.compile sc m = .ok () ∧ ∀ path ∈ paths, (Q.pk path id).compile sc m = .ok () := by
  induction paths generalizing q with
  | nil => exact ⟨h, by simp⟩
  | cons path paths ih =>
    obtain ⟨hor, hrest⟩ := ih h
    obtain ⟨_, hq, hpath⟩ := bind_eq_ok.mp hor
    exact ⟨hq, List.forall_mem_cons.mpr ⟨hpath, hrest⟩⟩

theorem Q.compile_pk {path : List String} {id : String}
    (h : (Q.pk path (some id)).compile sc m = .ok ()) :
    ∃ m' key, sc.lookupPath m path = some m' ∧ sc.toPk m' id = .ok key := by
  rw [Q.compile] at h
  cases hm' : sc.lookupPath m path with
  | none => simp [hm', throwing] at h
  | some m' =>
    cases hkey : sc.toPk m' id with
    | error e => simp [hm', hkey] at h
    | ok key => exact ⟨m', key, rfl, hkey⟩

theorem Q.compile_append {m' : Model} {path up : List String} {id : Option String}
    (h : sc.lookupPath m path = some m') :
    (Q.pk (path ++ up) id).compile sc m = (Q.pk up id).compile sc m' := by
  simp only [Q.compile, Schema.lookupPath_append, h, Option.bind_some]

theorem Q.holds_append {db : Database sc} {r : Row} {path up : List String} {id : String} :
    (Q.pk (path ++ up) (some id)).holds db r ↔
      ∃ n, db.lookup r path = some n ∧ (Q.pk up (some id)).holds db n := by
  simp only [Q.holds_pk, Database.lookup_append, Option.bind_eq_some_iff]
  constructor
  · rintro ⟨s, ⟨n, hn, hs⟩, hkey⟩
    exact ⟨n, hn, s, hs, hkey⟩
  · rintro ⟨n, hn, s, hs, hkey⟩
    exact ⟨s, ⟨n, hn, hs⟩, hkey⟩

theorem collect_compiled (h : (collect f as q).run w = .ok q') (hq : q'.compile sc m = .ok ())
    (hall : ∀ a ∈ as, (f a).run w ≠ .ok .everything) :
    q.compile sc m = .ok () ∧ ∀ a ∈ as, ∃ τ, (f a).run w = .ok τ ∧
      ∀ paths, τ = .below paths → ∀ path ∈ paths, (Q.pk path a.row.scopeId).compile sc m = .ok () := by
  induction as generalizing q with
  | nil =>
    obtain rfl : q = q' := by simpa [collect] using h
    exact ⟨hq, by simp⟩
  | cons a as ih =>
    rw [run_collect_cons] at h
    obtain ⟨τ, hτ, h⟩ := bind_eq_ok.mp h
    have hmore := fun a' ha' => hall a' (List.mem_cons_of_mem _ ha')
    cases τ with
    | nothing =>
      obtain ⟨hq, hrest⟩ := ih h hmore
      exact ⟨hq, List.forall_mem_cons.mpr ⟨⟨.nothing, hτ, by simp⟩, hrest⟩⟩
    | everything => exact absurd hτ (hall a (List.mem_cons_self ..))
    | below paths =>
      obtain ⟨hfold, hrest⟩ := ih h hmore
      obtain ⟨hq, hpaths⟩ := Q.compiled_foldl hfold
      refine ⟨hq, List.forall_mem_cons.mpr ⟨⟨.below paths, hτ, fun paths' heq => ?_⟩, hrest⟩⟩
      obtain rfl := Term.below.inj heq
      exact hpaths

theorem run_term_ranked {h : Hierarchy} {permission : Option String}
    {paths : Nat → Py (List (List String))} {a : Assignment} {τ : Term}
    (hτ : (term h permission paths a).run w = .ok τ) (hvalid : w.Valid a)
    (hcarries : carries permission a) (hroot : a.row.isRootScope = false) {rank : Nat}
    (hrank : rankOrNone h a = some rank) : ∃ ps, paths rank = .ok ps ∧ τ = .below ps := by
  rw [run_term, hvalid, ok_bind] at hτ
  simp only [hcarries, hroot, hrank, Bool.not_true, Bool.or_false, Bool.false_eq_true, if_false] at hτ
  obtain ⟨ps, hps, hτ⟩ := bind_eq_ok.mp hτ
  exact ⟨ps, hps, (Except.ok.inj hτ).symm⟩

end Compiled

namespace World

variable {w : World} {u : User} {t : Time} {p : String} {r : Row} {a : Assignment}

def Unrooted (w : World) (u : User) (t : Time) (p : String) : Prop :=
  ∀ a, w.Effective u.pk t a → w.Valid a → carries (some p) a → a.row.isRootScope = false

theorem Unrooted.not_everything (h : w.Unrooted u t p) {as : List Assignment}
    (has : w.fetchEffective u t = .ok as) {hierarchy : Hierarchy}
    {paths : Nat → Py (List (List String))} :
    ∀ a ∈ as, (term hierarchy (some p) paths a).run w ≠ .ok .everything := by
  intro a ha hτ
  obtain ⟨hvalid, hcarries, hroot⟩ := run_term_everything.mp hτ
  rw [h a ((mem_fetchEffective has).mp ha) hvalid hcarries] at hroot
  cases hroot

theorem Unrooted.exists_hit (h : w.Unrooted u t p) {as : List Assignment}
    (has : w.fetchEffective u t = .ok as) {hierarchy : Hierarchy}
    {paths : Nat → Py (List (List String))} {q : Q}
    (hq : (collect (term hierarchy (some p) paths) as .never).run w = .ok q)
    (hholds : q.holds w.db r) :
    ∃ a rank ps path id, w.Effective u.pk t a ∧ w.Valid a ∧ carries (some p) a ∧
      a.row.isRootScope = false ∧ rankOrNone hierarchy a = some rank ∧
      a.row.scopeId = some id ∧ paths rank = .ok ps ∧ path ∈ ps ∧
      (Q.pk path (some id)).holds w.db r := by
  obtain hnever | ⟨a, ha, hterm⟩ := (holds_collect hq).mp hholds
  · cases hnever
  have ha := (mem_fetchEffective has).mp ha
  obtain ⟨hvalid, hcarries, hroot | ⟨hroot, rank, ps, hrank, hps, path, hpath, hhit⟩⟩ :=
    term_holds.mp hterm
  · simp [h a ha hvalid hcarries] at hroot
  obtain ⟨id, hid⟩ := Option.ne_none_iff_exists'.mp (AssignmentRow.isRootScope_eq_false.mp hroot)
  exact ⟨a, rank, ps, path, id, ha, hvalid, hcarries, hroot, hrank, hid, hps, hpath, hid ▸ hhit⟩

section Faithful

variable {ids : Model → String → Prop} (hfaithful : w.hierarchy.Faithful w.site.schema ids)
  (hids : w.ScopeIds ids)
include hfaithful hids

theorem scope_of_hit (ha : w.Effective u.pk t a) (hvalid : w.Valid a)
    (hroot : a.row.isRootScope = false) {rank : Nat} (hrank : rankOrNone w.hierarchy a = some rank)
    {id : String} (hid : a.row.scopeId = some id) {n : Row} {k : Nat} {l : Level}
    (hl : w.hierarchy.levels[k]? = some l) (hm : l.model = some n.model) (hle : rank ≤ k)
    (husable : w.hierarchy.Usable w.site.schema rank n.model id) {path : List String}
    (hpath : upPath w.hierarchy k rank = .ok path) (hhit : (Q.pk path (some id)).holds w.db n) :
    ∃ s, Reaches w.parent n s ∧ w.sameNode a s := by
  obtain ⟨s, rank', l₀, hscope, hs, hrank', hl₀, hsel⟩ := ha.scopeNode hvalid hroot
  obtain rfl : rank = rank' := Option.some.inj (hrank.symm.trans hrank')
  obtain ⟨-, hct, i, hi, hkey⟩ := w.db.generic_some hs
  obtain rfl : id = i := Option.some.inj (hid.symm.trans hi)
  obtain ⟨⟨names, hnames, hwalked⟩, rfl⟩ := hfaithful rank k l₀ l s.model n.model id s.pk path hl₀
    (Level.selects_model hsel) hl hm hle (hids a.row ha.row_mem s.model id hct hid) hkey husable hpath
  obtain ⟨x, hx, hxkey⟩ := Q.holds_pk.mp hhit
  rw [w.db.lookup_joined hnames] at hx
  obtain ⟨hreaches, hmodel⟩ := hwalked.reaches rfl hx
  rw [hmodel, hkey] at hxkey
  have hsame : x = s := by
    cases x
    cases s
    simp_all
  exact ⟨s, hsame ▸ hreaches, isRow_iff.mpr ⟨hid, hct⟩⟩

end Faithful

def Backed (w : World) (u : User) (t : Time) (p : String) (r : Row) : Prop :=
  ∃ a, w.Effective u.pk t a ∧ w.Valid a ∧ w.Reach (w.resolveAnchor (.stored r)) a ∧
    p ∈ rolePerms a.role

theorem Backed.permits (h : w.Backed u t p r) (hactive : u.isActive)
    (hsuper : u.isSuperuser = false) (hends : w.NodesEnd)
    (hregistered : w.resolveAnchor (.stored r) ≠ .unregistered)
    (hmeets : ∀ a, w.Meets (w.resolveAnchor (.stored r)) a)
    (hfetch : ∃ as, w.fetchEffective u t = .ok as) : w.Permits u t p r where
  granted b hb := (hasPerm_iff hactive hsuper hb).mpr h
  answered howners := by
    obtain ⟨as, has⟩ := hfetch
    have hok : (∃ P, (userPermissions u (some (.stored r)) (some t)).run w = .ok P) ↔ _ :=
      userPermissions_ok hactive hregistered
    refine (hasPerm_ok hactive hsuper).mpr (hok.mpr ?_)
    refine answers_never.mp (answers_iff.mpr ⟨as, has, until_never.mpr fun a ha => ?_⟩)
    have hvalid := ((mem_fetchEffective has).mp ha).valid_total howners hends
    exact validReach_ok.mpr ⟨hvalid, hmeets a⟩

theorem reach_root {anchor : Anchor} (hroot : a.row.isRootScope)
    (hanchor : anchor ≠ .unregistered) : w.Reach anchor a := by
  cases anchor with
  | everywhere => trivial
  | denied => exact hroot
  | node n => exact .inl hroot
  | unregistered => exact absurd rfl hanchor

theorem resolveAnchor_registered {anchor : Accessor}
    (hanchor : w.site.resources.anchorFor r.model = some anchor) :
    w.resolveAnchor (.stored r) ≠ .unregistered := by
  have hglobal := w.site.resources.isGlobal_of_anchorFor hanchor
  simp only [resolveAnchor, Obj.model, Obj.stored, hglobal, hanchor]
  split
  · simp
  · cases w.followAttr (.object { row := r }) anchor.parts <;> simp

theorem exists_root (h : ¬ w.Unrooted u t p) : ∃ a, w.Effective u.pk t a ∧ w.Valid a ∧
    p ∈ rolePerms a.role ∧ a.row.isRootScope := by
  simp only [Unrooted, not_forall] at h
  obtain ⟨a, ha, hvalid, hcarries, hroot⟩ := h
  exact ⟨a, ha, hvalid, by simpa [carries] using hcarries, by simpa using hroot⟩

theorem nodeFilterLoop_each {permission : Option String} {at_ : Option Time} {levels : List Level}
    {q q' : Q} (h : (nodeFilterLoop u at_ permission levels q).run w = .ok q') :
    ∀ l ∈ levels, ∃ nodes, (accessibleNodes u l.name at_ permission).run w = .ok nodes := by
  induction levels generalizing q with
  | nil => simp
  | cons l levels ih =>
    simp only [nodeFilterLoop, Read.run_bind] at h
    obtain ⟨nodes, hnodes, h⟩ := bind_eq_ok.mp h
    exact List.forall_mem_cons.mpr ⟨⟨nodes, hnodes⟩, ih h⟩

theorem nodes_built (hactive : u.isActive) (hsuper : u.isSuperuser = false)
    (hnames : (w.hierarchy.levels.map Level.name).Nodup) {k : Nat} {l : Level} {m : Model}
    (hl : w.hierarchy.levels[k]? = some l) (hm : l.model = some m) {nodes : NodeQuery}
    (h : (accessibleNodes u l.name (some t) (some p)).run w = .ok nodes) :
    ∃ as q, w.fetchEffective u t = .ok as ∧
      (collect (term w.hierarchy (some p) (nodePaths w.hierarchy k)) as .never).run w = .ok q ∧
      q.compile w.site.schema m = .ok () ∧ nodes = ⟨l, q⟩ := by
  rw [run_accessibleNodes_level hactive hsuper hl hnames hm] at h
  obtain ⟨as, has, h⟩ := bind_eq_ok.mp h
  obtain ⟨q, hq, h⟩ := bind_eq_ok.mp h
  obtain ⟨_, hcompile, h⟩ := bind_eq_ok.mp h
  exact ⟨as, q, has, hq, hcompile, (Except.ok.inj h).symm⟩

section Node

variable (hactive : u.isActive) (hsuper : u.isSuperuser = false)
  (hnames : (w.hierarchy.levels.map Level.name).Nodup)
include hactive hsuper hnames

theorem usable_of_nodes (hun : w.Unrooted u t p) {m : Model}
    (hall : ∀ l ∈ w.hierarchy.levelsForModel m,
      ∃ nodes, (accessibleNodes u l.name (some t) (some p)).run w = .ok nodes)
    (ha : w.Effective u.pk t a) (hvalid : w.Valid a) (hcarries : carries (some p) a)
    (hroot : a.row.isRootScope = false) {rank : Nat} (hrank : rankOrNone w.hierarchy a = some rank)
    {id : String} (hid : a.row.scopeId = some id) :
    w.hierarchy.Usable w.site.schema rank m id := by
  intro k l hl hm hle
  obtain ⟨nodes, hnodes⟩ :=
    hall l (w.hierarchy.mem_levelsForModel.mpr ⟨List.mem_of_getElem? hl, hm⟩)
  obtain ⟨as, q, has, hq, hcompile, -⟩ := nodes_built hactive hsuper hnames hl hm hnodes
  obtain ⟨-, hterms⟩ := collect_compiled hq hcompile (hun.not_everything has)
  obtain ⟨τ, hτ, hpaths⟩ := hterms a ((mem_fetchEffective has).mpr ha)
  obtain ⟨ps, hps, rfl⟩ := run_term_ranked hτ hvalid hcarries hroot hrank
  obtain ⟨path, hmem, hpath⟩ := nodePaths_up hps hle
  exact ⟨path, hpath, hid ▸ hpaths ps rfl path hmem⟩

theorem listed_node {ids : Model → String → Prop}
    (hfaithful : w.hierarchy.Faithful w.site.schema ids) (hids : w.ScopeIds ids)
    (hnode : w.hierarchy.isNodeModel r.model) (h : w.Listed u t p r) :
    w.Backed u t p r ∧ ∃ as, w.fetchEffective u t = .ok as := by
  obtain ⟨q, hq, -, hholds⟩ := h
  rw [run_scopeFilterQ, hactive, hnode] at hq
  have hloop : (nodeFilterLoop u (some t) (some p) (w.hierarchy.levelsForModel r.model)
      .never).run w = .ok q := by simpa using hq
  have hanchor : w.resolveAnchor (.stored r) = .node (.stored r) := by
    rw [resolveAnchor, if_pos (show w.hierarchy.isNodeModel (Obj.stored r).model from hnode)]
  obtain hnever | ⟨l, hlevel, nodes, hnodes, hselects⟩ := (holds_nodeFilterLoop hloop).mp hholds
  · cases hnever
  obtain ⟨hmem, hm⟩ := w.hierarchy.mem_levelsForModel.mp hlevel
  obtain ⟨k, hl⟩ := List.mem_iff_getElem?.mp hmem
  obtain ⟨as, q', has, hcollect, -, rfl⟩ := nodes_built hactive hsuper hnames hl hm hnodes
  refine ⟨?_, as, has⟩
  by_cases hun : w.Unrooted u t p
  · obtain ⟨-, hq'⟩ := Bool.and_eq_true_iff.mp hselects
    obtain ⟨a, rank, ps, path, id, ha, hvalid, hcarries, hroot, hrank, hid, hps, hpath, hhit⟩ :=
      hun.exists_hit has hcollect hq'
    obtain ⟨hle, hup⟩ := (mem_nodePaths hps).mp hpath
    have husable := usable_of_nodes hactive hsuper hnames hun (nodeFilterLoop_each hloop) ha hvalid
      hcarries hroot hrank hid
    obtain ⟨s, hreaches, hsame⟩ := scope_of_hit hfaithful hids ha hvalid hroot hrank hid hl hm hle
      husable hup hhit
    refine ⟨a, ha, hvalid, ?_, by simpa [carries] using hcarries⟩
    rw [hanchor]
    exact .inr ⟨s, ancestor_stored.mpr hreaches, hsame⟩
  · obtain ⟨a, ha, hvalid, hp, hroot⟩ := exists_root hun
    refine ⟨a, ha, hvalid, ?_, hp⟩
    rw [hanchor]
    exact .inl hroot

end Node

section Anchored

variable (hchecked : w.hierarchy.Checked w.site.schema) {anchor : Accessor} {m' : Model}
  (hm' : w.site.schema.lookupPath r.model anchor.parts = some m') {targets : List (Nat × Level)}
  (htargets : ∀ k l, (k, l) ∈ targets ↔ w.hierarchy.levels[k]? = some l ∧ l.model = some m')
include hchecked hm' htargets

theorem usable_of_targets {as : List Assignment} (has : w.fetchEffective u t = .ok as) {q : Q}
    (hcollect : (collect (term w.hierarchy (some p) (anchorPaths w.hierarchy anchor targets)) as
      .never).run w = .ok q) (hcompile : q.compile w.site.schema r.model = .ok ())
    (hun : w.Unrooted u t p) (ha : w.Effective u.pk t a) (hvalid : w.Valid a)
    (hcarries : carries (some p) a) (hroot : a.row.isRootScope = false) {rank : Nat}
    (hrank : rankOrNone w.hierarchy a = some rank) {l₀ : Level} {m₀ : Model}
    (hl₀ : w.hierarchy.levels[rank]? = some l₀) (hm₀ : l₀.model = some m₀) {id : String}
    (hid : a.row.scopeId = some id) : w.hierarchy.Usable w.site.schema rank m' id := by
  intro k l hl hm hle
  obtain ⟨-, hterms⟩ := collect_compiled hcollect hcompile (hun.not_everything has)
  obtain ⟨τ, hτ, hpaths⟩ := hterms a ((mem_fetchEffective has).mpr ha)
  obtain ⟨ps, hps, rfl⟩ := run_term_ranked hτ hvalid hcarries hroot hrank
  have htarget : (k, l) ∈ targets := (htargets k l).mpr ⟨hl, hm⟩
  obtain ⟨up, hup⟩ := anchorPaths_up hps htarget hle
  have hne := hchecked.upPath_ne hl₀ hm₀ hl hm hup
  have hmem : anchor.parts ++ up ∈ ps :=
    (mem_anchorPaths hps).mpr ⟨k, l, up, htarget, hle, hup, by rw [joinPath, if_neg hne]⟩
  have hbuilt := hpaths ps rfl _ hmem
  rw [Q.compile_append hm', hid] at hbuilt
  exact ⟨up, hup, hbuilt⟩

end Anchored

theorem listed_anchored (hactive : u.isActive) (hsuper : u.isSuperuser = false)
    (hchecked : w.hierarchy.Checked w.site.schema) {ids : Model → String → Prop}
    (hfaithful : w.site.Faithful ids) (hids : w.ScopeIds ids)
    (hnode : w.hierarchy.isNodeModel r.model = false) {anchor : Accessor}
    (hanchor : w.site.resources.anchorFor r.model = some anchor) (h : w.Listed u t p r) :
    w.Backed u t p r ∧ ∃ as, w.fetchEffective u t = .ok as := by
  obtain ⟨q, hq, hcompile, hholds⟩ := h
  have hglobal := w.site.resources.isGlobal_of_anchorFor hanchor
  rw [run_scopeFilterQ, hactive, hnode, hsuper, hglobal, hanchor] at hq
  obtain ⟨targets, htargets, hq⟩ := bind_eq_ok.mp hq
  obtain ⟨as, has, hcollect⟩ := bind_eq_ok.mp hq
  obtain ⟨m', hm', hmem⟩ := anchorTargetLevels_ok hchecked.names htargets
  refine ⟨?_, as, has⟩
  by_cases hun : w.Unrooted u t p
  · obtain ⟨a, rank, ps, path, id, ha, hvalid, hcarries, hroot, hrank, hid, hps, hpath, hhit⟩ :=
      hun.exists_hit has hcollect hholds
    obtain ⟨k, l, up, htarget, hle, hup, rfl⟩ := (mem_anchorPaths hps).mp hpath
    obtain ⟨hl, hm⟩ := (hmem k l).mp htarget
    -- a path that is built at all makes the anchor one of relations
    have hrelated : (w.site.schema.relatedPath r.model anchor.parts).isSome :=
      (hfaithful.anchors r.model anchor hnode hanchor).1 m' hm'
        (w.hierarchy.isNodeModel_iff.mpr ⟨l, List.mem_of_getElem? hl, hm⟩)
    have hresolved := resolveAnchor_anchored hnode hanchor hrelated
    obtain ⟨s, rank', l₀, -, -, hrank', hl₀, hsel⟩ := ha.scopeNode hvalid hroot
    obtain rfl : rank = rank' := Option.some.inj (hrank.symm.trans hrank')
    have hm₀ := Level.selects_model hsel
    have hne := hchecked.upPath_ne hl₀ hm₀ hl hm hup
    rw [joinPath, if_neg hne] at hhit
    obtain ⟨n, hn, hhit⟩ := Q.holds_append.mp hhit
    have hnm : n.model = m' := by simpa [hm', eq_comm] using w.db.lookup_model hn
    have husable := usable_of_targets hchecked hm' hmem has hcollect hcompile hun ha hvalid hcarries
      hroot hrank hl₀ hm₀ hid
    obtain ⟨s, hreaches, hsame⟩ := scope_of_hit hfaithful.climbs hids ha hvalid hroot hrank hid hl
      (hnm ▸ hm) hle (hnm ▸ husable) hup hhit
    refine ⟨a, ha, hvalid, ?_, by simpa [carries] using hcarries⟩
    obtain ⟨m₁, hm₁⟩ := Option.isSome_iff_exists.mp hrelated
    rw [w.db.lookup_related hm₁] at hn
    rw [hresolved, hn]
    exact .inr ⟨s, ancestor_stored.mpr hreaches, hsame⟩
  · obtain ⟨a, ha, hvalid, hp, hroot⟩ := exists_root hun
    exact ⟨a, ha, hvalid, reach_root hroot (resolveAnchor_registered hanchor), hp⟩

section Walks

variable (hchecked : w.hierarchy.Checked w.site.schema) {ids : Model → String → Prop}
  (hfaithful : w.site.Faithful ids) (hac : Lib.Walk.Acyclic w.parent)
include hchecked hfaithful hac

theorem walks_of_faithful (s : Row) : w.Walks (.stored s) := by
  refine walks_stored.mpr ⟨ends_stored.mp (ends_attr hac _), fun x _ hplain => ?_⟩
  obtain ⟨accessor, haccessor, hplain⟩ := Option.bind_eq_some_iff.mp hplain
  obtain ⟨l, hl, hparent⟩ := List.exists_of_findSome?_eq_some haccessor
  obtain ⟨hl, hm⟩ := w.hierarchy.mem_levelsForModel.mp hl
  obtain ⟨hparent, htruthy⟩ := Option.filter_eq_some_iff.mp hparent
  obtain ⟨m', hm'⟩ := Option.isSome_iff_exists.mp (hchecked.climbs hl hm hparent htruthy)
  exact hfaithful.parents x.model accessor haccessor (endsAtColumn hm' hplain)

theorem meets_of_faithful (hregistered : w.hierarchy.isNodeModel r.model ∨
      ∃ anchor, w.site.resources.anchorFor r.model = some anchor ∧
        (w.site.schema.lookupPath r.model anchor.parts).isSome) (a : Assignment) :
    w.Meets (w.resolveAnchor (.stored r)) a := by
  intro n hn hvalid
  rcases resolveAnchor_node hn with ⟨-, rfl⟩ | ⟨hnode, -, anchor, hanchor, hfollow⟩
  · exact .inr (.inl (walks_of_faithful hchecked hfaithful hac r))
  rcases followAttr_stored (w := w) r anchor.parts with hattr | ⟨-, hattr⟩
  · obtain ⟨s, -, rfl⟩ := Option.map_eq_some_iff.mp (hattr.symm.trans hfollow)
    exact .inr (.inl (walks_of_faithful hchecked hfaithful hac s))
  · refine .inl ?_
    by_contra hroot
    obtain ⟨s, -, -, -, name, -, l, hl, hsel⟩ := hvalid.node (by simpa using hroot)
    obtain ⟨anchor', hanchor', hpath⟩ :=
      hregistered.resolve_left (by rw [show r.model = (Obj.stored r).model from rfl, hnode]; simp)
    obtain rfl : anchor = anchor' := Option.some.inj (hanchor.symm.trans hanchor')
    obtain ⟨m', hm'⟩ := Option.isSome_iff_exists.mp hpath
    have hlevel := w.hierarchy.level_isNodeModel hl (Level.selects_model hsel)
    exact (hfaithful.anchors r.model anchor hnode hanchor).2 ⟨_, hlevel⟩ (endsAtColumn hm' hattr)

end Walks

end World

/-- Nothing is listed that an object check would not let through: for every stored data of the
kind, with references that go round nowhere, and every node or anchored row. -/
def Site.Leakless (site : Site) (ids : Model → String → Prop) : Prop :=
  ∀ w : World, w.site = site → Acyclic w.parent → w.ScopeIds ids → ∀ u t p r, u.isActive →
    u.isSuperuser = false →
    (w.hierarchy.isNodeModel r.model ∨ ∃ anchor, w.site.resources.anchorFor r.model = some anchor) →
    w.Listed u t p r → w.Permits u t p r

theorem leakless_of_faithful {site : Site} (hchecked : site.hierarchy.Checked site.schema)
    (hanchors : ∀ m anchor, site.resources.anchorFor m = some anchor →
      (site.schema.lookupPath m anchor.parts).isSome) {ids : Model → String → Prop}
    (h : site.Faithful ids) : site.Leakless ids := by
  rintro w rfl hac hids u t p r hactive hsuper hregistered hlisted
  have hends : w.NodesEnd := fun _ _ s _ => World.walks_of_faithful hchecked h hac s
  have hmeets := World.meets_of_faithful (r := r) hchecked h hac <|
    hregistered.imp_right fun ⟨anchor, hanchor⟩ => ⟨anchor, hanchor, hanchors _ _ hanchor⟩
  suffices hbacked : w.Backed u t p r ∧ ∃ as, w.fetchEffective u t = .ok as by
    refine hbacked.1.permits hactive hsuper hends (fun hnone => ?_) hmeets hbacked.2
    obtain ⟨a, -, -, hreach, -⟩ := hbacked.1
    rw [hnone] at hreach
    exact hreach
  cases hnode : w.hierarchy.isNodeModel r.model with
  | true => exact World.listed_node hactive hsuper hchecked.names h.climbs hids hnode hlisted
  | false =>
    obtain ⟨anchor, hanchor⟩ := hregistered.resolve_left (by simp [hnode])
    exact World.listed_anchored hactive hsuper hchecked h hids hnode hanchor hlisted

end ScopedAccess
