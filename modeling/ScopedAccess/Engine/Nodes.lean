import ScopedAccess.Engine.Collection
import ScopedAccess.Testapp

namespace ScopedAccess

open Lib.Walk (Reaches Ends nth)
open Lib.Loop

namespace World

variable {w : World}

/-- A walk on which no level is skipped. -/
inductive Stepwise (w : World) : Row → Row → Prop
  | refl (r : Row) : Stepwise w r r
  | step {k : Nat} {r s q : Row} : w.parent r = some s → w.NodeAt (k + 1) r → w.NodeAt k s →
      Stepwise w s q → Stepwise w r q

theorem Stepwise.reaches {r s : Row} (h : w.Stepwise r s) : Reaches w.parent r s := by
  induction h with
  | refl r => exact Reaches.refl r
  | step hp _ _ _ ih => exact Reaches.head hp ih

theorem Stepwise.climb (hf : w.Forest) {r s : Row} (h : w.Stepwise r s) {j k : Nat}
    (hr : w.NodeAt k r) (hs : w.NodeAt j s) :
    j ≤ k ∧ Lib.Walk.nth w.parent (k - j) r = some s := by
  induction h generalizing k with
  | refl r =>
    obtain rfl := hf.level hr hs
    exact ⟨le_rfl, by simp⟩
  | @step k' r s' s hp hr' hs' _ ih =>
    obtain rfl := hf.level hr hr'
    obtain ⟨hle, hnth⟩ := ih hs' hs
    refine ⟨by omega, ?_⟩
    rw [show k' + 1 - j = k' - j + 1 by omega, Lib.Walk.nth_succ, hp]
    exact hnth

theorem Forest.stepwise (hf : w.Forest) {steps j : Nat} {r s : Row} (hr : w.NodeAt (j + steps) r)
    (hs : w.NodeAt j s) (h : Lib.Walk.nth w.parent steps r = some s) : w.Stepwise r s := by
  induction steps generalizing r with
  | zero =>
    obtain rfl : r = s := by simpa using h
    exact .refl r
  | succ steps ih =>
    obtain ⟨q, hq, h⟩ := Option.bind_eq_some_iff.mp h
    obtain ⟨i, hi, hqi⟩ := hf.parent_row hr hq
    obtain ⟨j', hj', hle⟩ := hf.nth hqi h
    obtain rfl := hf.level hs hj'
    obtain rfl : i = j + steps := by omega
    exact .step hq hr hqi (ih hqi h)

def Qualifies (w : World) (u : User) (t : Time) (permission : Option String) (a : Assignment) :
    Prop :=
  w.Effective u.pk t a ∧ w.Valid a ∧ carries permission a

def Above (w : World) (a : Assignment) (n : Row) : Prop :=
  a.row.isRootScope ∨ ∃ s, a.scope = .ok (some s) ∧ Reaches w.parent n s

def StepwiseAbove (w : World) (a : Assignment) (n : Row) : Prop :=
  a.row.isRootScope ∨ ∃ s, a.scope = .ok (some s) ∧ w.Stepwise n s

theorem StepwiseAbove.above {a : Assignment} {n : Row} (h : w.StepwiseAbove a n) :
    w.Above a n :=
  h.imp_right fun ⟨s, hs, hstep⟩ => ⟨s, hs, hstep.reaches⟩

variable {u : User} {t : Time} {permission : Option String}

theorem node_term (hreg : w.hierarchy.Regular w.site.schema) (hf : w.Forest) {k : Nat} {n : Row}
    (hn : w.NodeAt k n) {a : Assignment} (ha : w.Effective u.pk t a) :
    (∃ τ, (term w.hierarchy permission (nodePaths w.hierarchy k) a).run w = .ok τ ∧
        τ.holds w.db a.row.scopeId n) ↔
      w.Valid a ∧ carries permission a ∧ w.StepwiseAbove a n := by
  rw [term_holds]
  refine and_congr_right fun hvalid => and_congr_right fun _ => ?_
  cases hroot : a.row.isRootScope with
  | true => simp [StepwiseAbove, hroot]
  | false =>
    obtain ⟨s, rank, l, hscope, hs, hrank, hl, hsel⟩ := ha.scopeNode hvalid hroot
    obtain ⟨l', hl', hsel'⟩ := hn
    have hm := Level.selects_model hsel
    have hm' := Level.selects_model hsel'
    have hn : w.NodeAt k n := ⟨l', hl', hsel'⟩
    have hscopeAt : w.NodeAt rank s := ⟨l, hl, hsel⟩
    have hholds {path : List String} (hpath : Climbs w n.model s.model (k - rank) path) :
        (Q.pk path a.row.scopeId).holds w.db n ↔ nth w.parent (k - rank) n = some s := by
      rw [pk_holds_scope hs hpath.related, hpath.follow n rfl]
    simp only [StepwiseAbove, hroot, hscope, Bool.false_eq_true, false_or, true_and,
      Except.ok.injEq, Option.some.injEq, exists_eq_left']
    constructor
    · rintro ⟨rank', ps', hrank', hps', path, hp, hpath⟩
      obtain rfl : rank = rank' := Option.some.inj (hrank.symm.trans hrank')
      obtain ⟨hle, hclimbs⟩ := hreg.climbs_of_mem hl hm hl' hm' hps' hp
      have hsteps := (hholds hclimbs).mp hpath
      exact hf.stepwise (by rwa [Nat.add_sub_cancel' hle]) hscopeAt hsteps
    · intro hstep
      obtain ⟨hle, hsteps⟩ := hstep.climb hf hn hscopeAt
      obtain ⟨ps, hps, -, hone⟩ := hreg.nodePaths hl hm hl' hm'
      obtain ⟨path, rfl, hclimbs⟩ := hone hle
      exact ⟨rank, _, hrank, hps, path, List.mem_singleton.mpr rfl, (hholds hclimbs).mpr hsteps⟩

theorem node_compile (hreg : w.hierarchy.Regular w.site.schema) {k : Nat} {l : Level} {m : Model}
    (hl : w.hierarchy.levels[k]? = some l) (hm : l.model = some m) {a : Assignment}
    (ha : w.Effective u.pk t a) {ps : List (List String)}
    (hps : (term w.hierarchy permission (nodePaths w.hierarchy k) a).run w = .ok (.below ps)) :
    ∀ path ∈ ps, (Q.pk path a.row.scopeId).compile w.site.schema m = .ok () := by
  obtain ⟨hvalid, hroot, rank, hrank, hpaths⟩ := term_below hps
  obtain ⟨s, rank', l', -, hs, hrank', hl', hsel⟩ := ha.scopeNode hvalid hroot
  obtain rfl : rank = rank' := Option.some.inj (hrank.symm.trans hrank')
  intro path hp
  obtain ⟨-, hclimbs⟩ := hreg.climbs_of_mem hl' (Level.selects_model hsel) hl hm hpaths hp
  exact pk_compile_scope hs hclimbs.related

section AccessibleNodes

variable (hactive : u.isActive) (hsuper : u.isSuperuser = false) {k : Nat} {l : Level}
  (hl : w.hierarchy.levels[k]? = some l)
include hactive hsuper hl

theorem run_accessibleNodes_level (hnames : (w.hierarchy.levels.map Level.name).Nodup) {m : Model}
    (hm : l.model = some m) (at_ : Option Time) :
    (accessibleNodes u l.name at_ permission).run w =
      w.fetchEffective u (at_.getD w.now) >>= fun as =>
        (collect (term w.hierarchy permission (nodePaths w.hierarchy k)) as .never).run w >>=
          fun q => q.compile w.site.schema m >>= fun _ => .ok ⟨l, q⟩ := by
  rw [run_accessibleNodes, Hierarchy.level_unique hnames (List.mem_of_getElem? hl),
    Hierarchy.rank_of_getElem hnames hl]
  dsimp only
  rw [hm, hactive, hsuper]
  rfl

variable (hreg : w.hierarchy.Regular w.site.schema)
include hreg

theorem accessibleNodes_admits (hf : w.Forest) {n : Row} (hn : l.selects w.db n)
    {nodes : NodeQuery} (h : (accessibleNodes u l.name (some t) permission).run w = .ok nodes) :
    nodes.selects w.db n ↔ ∃ a, w.Qualifies u t permission a ∧ w.StepwiseAbove a n := by
  rw [run_accessibleNodes_level hactive hsuper hl hreg.names (Level.selects_model hn)] at h
  obtain ⟨as, has, h⟩ := bind_eq_ok.mp h
  obtain ⟨q, hq, h⟩ := bind_eq_ok.mp h
  obtain ⟨-, -, h⟩ := bind_eq_ok.mp h
  obtain rfl : NodeQuery.mk l q = nodes := Except.ok.inj h
  simp only [NodeQuery.selects, hn, Bool.true_and, holds_collect hq, Q.holds, Bool.false_eq_true,
    false_or]
  refine exists_congr fun a => ?_
  rw [mem_fetchEffective has, Option.getD_some, Qualifies, and_assoc, and_assoc]
  exact and_congr_right fun ha => node_term hreg hf ⟨l, hl, hn⟩ ha

theorem accessibleNodes_ok {m : Model} (hm : l.model = some m) :
    (∃ nodes, (accessibleNodes u l.name (some t) permission).run w = .ok nodes) ↔
      w.Filters u t permission := by
  rw [run_accessibleNodes_level hactive hsuper hl hreg.names hm, Option.getD_some]
  rw [← show (∃ q, (w.fetchEffective u t >>= fun as =>
      (collect (term w.hierarchy permission (nodePaths w.hierarchy k)) as .never).run w) = .ok q) ↔
        w.Filters u t permission from
    fetch_collect_ok fun a ha hvalid hroot rank hrank => ?_]
  constructor
  · rintro ⟨nodes, h⟩
    obtain ⟨as, has, h⟩ := bind_eq_ok.mp h
    obtain ⟨q, hq, -⟩ := bind_eq_ok.mp h
    exact ⟨q, bind_eq_ok.mpr ⟨as, has, hq⟩⟩
  · rintro ⟨q, hq⟩
    obtain ⟨as, has, hq⟩ := bind_eq_ok.mp hq
    have hcompile : q.compile w.site.schema m = .ok () :=
      compile_collect hq rfl fun a ha ps hps =>
        node_compile hreg hl hm ((mem_fetchEffective has).mp ha) hps
    exact ⟨⟨l, q⟩, by rw [has, ok_bind, hq, ok_bind, hcompile, ok_bind]⟩
  · obtain ⟨s, rank', l', -, -, hrank', hl', hsel⟩ := ha.scopeNode hvalid hroot
    obtain rfl : rank = rank' := Option.some.inj (hrank.symm.trans hrank')
    obtain ⟨ps, hps, -⟩ := hreg.nodePaths hl' (Level.selects_model hsel) hl hm
    exact ⟨ps, hps⟩

end AccessibleNodes

theorem holds_nodeFilterLoop {at_ : Option Time} {levels : List Level} {q q' : Q} {r : Row}
    (h : (nodeFilterLoop u at_ permission levels q).run w = .ok q') :
    q'.holds w.db r ↔ q.holds w.db r ∨ ∃ l ∈ levels, ∃ nodes,
      (accessibleNodes u l.name at_ permission).run w = .ok nodes ∧ nodes.selects w.db r := by
  induction levels generalizing q with
  | nil =>
    obtain rfl : q = q' := by simpa [nodeFilterLoop] using h
    simp
  | cons l levels ih =>
    simp only [nodeFilterLoop, Read.run_bind] at h
    obtain ⟨nodes, hnodes, h⟩ := bind_eq_ok.mp h
    simp [ih h, hnodes, Q.holds, NodeQuery.selects, or_assoc]

theorem compile_nodeFilterLoop {sc : Schema} {m : Model} {at_ : Option Time}
    {levels : List Level} {q q' : Q}
    (h : (nodeFilterLoop u at_ permission levels q).run w = .ok q')
    (hq : q.compile sc m = .ok ()) : q'.compile sc m = .ok () := by
  induction levels generalizing q with
  | nil =>
    obtain rfl : q = q' := by simpa [nodeFilterLoop] using h
    exact hq
  | cons l levels ih =>
    simp only [nodeFilterLoop, Read.run_bind] at h
    obtain ⟨nodes, -, h⟩ := bind_eq_ok.mp h
    exact ih h (by simp [Q.compile, hq])

theorem nodeFilterLoop_total {at_ : Option Time} {levels : List Level}
    (h : ∀ l ∈ levels, ∃ nodes, (accessibleNodes u l.name at_ permission).run w = .ok nodes)
    (q : Q) : ∃ q', (nodeFilterLoop u at_ permission levels q).run w = .ok q' := by
  induction levels generalizing q with
  | nil => exact ⟨q, rfl⟩
  | cons l levels ih =>
    obtain ⟨nodes, hnodes⟩ := h l List.mem_cons_self
    simp only [nodeFilterLoop, Read.run_bind, hnodes, ok_bind]
    exact ih (fun l hl => h l (List.mem_cons_of_mem _ hl)) _

def Reached (w : World) (u : User) (t : Time) (permission : Option String) (n : Row) : Prop :=
  ∃ a, w.Qualifies u t permission a ∧ w.Above a n

/-- Some assignment reaches down to the node without skipping a level. -/
def ReachedStepwise (w : World) (u : User) (t : Time) (permission : Option String) (n : Row) :
    Prop :=
  ∃ a, w.Qualifies u t permission a ∧ w.StepwiseAbove a n

theorem ReachedStepwise.reached {n : Row} (h : w.ReachedStepwise u t permission n) :
    w.Reached u t permission n := by
  obtain ⟨a, ha, habove⟩ := h
  exact ⟨a, ha, habove.above⟩

/-- Some assignment reaches down to the node whose scope id is its scope's `str(pk)`. -/
def ReachedByKey (w : World) (u : User) (t : Time) (permission : Option String) (n : Row) : Prop :=
  ∃ a, w.Qualifies u t permission a ∧ (a.row.isRootScope ∨ ∃ s, a.scope = .ok (some s) ∧
    Reaches w.parent n s ∧ a.row.scopeId = some s.pk)

theorem ReachedByKey.reached {n : Row} (h : w.ReachedByKey u t permission n) :
    w.Reached u t permission n := by
  obtain ⟨a, ha, habove⟩ := h
  exact ⟨a, ha, habove.imp_right fun ⟨s, hs, hns, _⟩ => ⟨s, hs, hns⟩⟩

theorem StoredAsPk.reachedByKey_iff (hst : w.StoredAsPk) {n : Row} :
    w.ReachedByKey u t permission n ↔ w.Reached u t permission n := by
  refine ⟨ReachedByKey.reached, fun ⟨a, ha, habove⟩ => ⟨a, ha, habove.imp_right ?_⟩⟩
  rintro ⟨s, hs, hns⟩
  obtain ⟨-, hct, i, hid, hpk⟩ := w.db.generic_some (ha.1.generic hs)
  obtain rfl : s.pk = i := Except.ok.inj (hpk.symm.trans (hst a.row ha.1.row_mem s.model i hct hid))
  exact ⟨s, hs, hns, hid⟩

theorem resolveAnchor_of_node {n : Row} (hn : w.hierarchy.isNodeModel n.model) :
    w.resolveAnchor (.stored n) = .node (.stored n) := by
  rw [resolveAnchor, if_pos (show w.hierarchy.isNodeModel (Obj.stored n).model from hn)]

theorem Effective.sameNode_iff {a : Assignment} (ha : w.Effective u.pk t a) {r : Row}
    (hr : r ∈ w.db.rows) :
    w.sameNode a r ↔ a.scope = .ok (some r) ∧ a.row.scopeId = some r.pk := by
  constructor
  · intro h
    obtain ⟨s, hs⟩ := ha.scope
    have hgeneric := isRow_generic hr h
    rw [ha.generic hs] at hgeneric
    exact ⟨hs.trans hgeneric, (isRow_iff.mp h).1⟩
  · rintro ⟨hs, hid⟩
    obtain ⟨-, hct, -⟩ := w.db.generic_some (ha.generic hs)
    exact isRow_iff.mpr ⟨hid, hct⟩

theorem hasPerm_reached (hactive : u.isActive) (hsuper : u.isSuperuser = false)
    {n : Row} (hn : w.hierarchy.isNodeModel n.model) (hmem : n ∈ w.db.rows) {p : String} {b : Bool}
    (h : (hasPerm u p (some (.stored n)) (some t)).run w = .ok b) :
    b = true ↔ w.ReachedByKey u t (some p) n := by
  rw [hasPerm_iff hactive hsuper h]
  simp only [Option.getD_some, ReachedByKey, Qualifies, and_assoc]
  refine exists_congr fun a => and_congr_right fun ha => and_congr_right fun hvalid => ?_
  have hcarries : p ∈ rolePerms a.role ↔ carries (some p) a := by simp [carries]
  rw [and_comm, hcarries]
  refine and_congr_right fun _ => ?_
  have hanchor : w.anchorOf (some (.stored n)) = .node (.stored n) := resolveAnchor_of_node hn
  rw [hanchor, Reach]
  refine or_congr_right (exists_congr fun r => ?_)
  rw [ancestor_stored]
  constructor
  · rintro ⟨hnr, hr⟩
    obtain ⟨hs, hid⟩ := (ha.sameNode_iff (reaches_mem hmem hnr)).mp hr
    exact ⟨hs, hnr, hid⟩
  · rintro ⟨hs, hnr, hid⟩
    exact ⟨hnr, (ha.sameNode_iff (reaches_mem hmem hnr)).mpr ⟨hs, hid⟩⟩

theorem visibleResources_selects (hreg : w.hierarchy.Regular w.site.schema)
    (hactive : u.isActive) (hsuper : u.isSuperuser = false) {m : Model}
    (hm : w.hierarchy.isNodeModel m) {rs : ResourceQuery}
    (h : (visibleResources u m (some t) permission).run w = .ok rs) (r : Row) :
    rs.selects w.db r ↔ ∃ l ∈ w.hierarchy.levelsForModel m, ∃ nodes,
      (accessibleNodes u l.name (some t) permission).run w = .ok nodes ∧
        nodes.selects w.db r := by
  simp only [visibleResources, Read.run_bind, Read.run_ask, Read.run_liftPy, ok_bind] at h
  obtain ⟨q, hq, h⟩ := bind_eq_ok.mp h
  obtain ⟨-, -, h⟩ := bind_eq_ok.mp h
  obtain rfl : ResourceQuery.mk m q = rs := Except.ok.inj h
  rw [run_scopeFilterQ, hactive, hm] at hq
  have hloop := holds_nodeFilterLoop (r := r) (by simpa using hq)
  simp only [Q.holds, Bool.false_eq_true, false_or] at hloop
  rw [← hloop, ResourceQuery.selects]
  suffices hrow : q.holds w.db r → r.model = m ∧ r ∈ w.db.rows ∧ w.db.shown r by
    simp only [Bool.and_eq_true, decide_eq_true_eq, and_assoc]
    constructor
    · rintro ⟨-, -, -, hholds⟩
      exact hholds
    · intro hholds
      obtain ⟨hmodel, hmem, hshown⟩ := hrow hholds
      exact ⟨hmodel, hmem, hshown, hholds⟩
  intro hholds
  obtain ⟨l, hl, nodes, hnodes, hselects⟩ := hloop.mp hholds
  obtain ⟨hmem, hmodel⟩ := w.hierarchy.mem_levelsForModel.mp hl
  obtain ⟨k, hk⟩ := List.mem_iff_getElem?.mp hmem
  rw [run_accessibleNodes_level hactive hsuper hk hreg.names hmodel] at hnodes
  obtain ⟨as, -, hnodes⟩ := bind_eq_ok.mp hnodes
  obtain ⟨q', -, hnodes⟩ := bind_eq_ok.mp hnodes
  obtain ⟨-, -, hnodes⟩ := bind_eq_ok.mp hnodes
  obtain rfl : NodeQuery.mk l q' = nodes := Except.ok.inj hnodes
  have hsel : l.selects w.db r := by
    simp only [NodeQuery.selects, Bool.and_eq_true] at hselects
    exact hselects.1
  have hrm : m = r.model := Option.some.inj (hmodel.symm.trans (Level.selects_model hsel))
  exact ⟨hrm.symm, Level.selects_mem hsel, Level.selects_shown hsel⟩

theorem visibleResources_ok (hreg : w.hierarchy.Regular w.site.schema)
    (hactive : u.isActive) (hsuper : u.isSuperuser = false) {m : Model}
    (hm : w.hierarchy.isNodeModel m) :
    (∃ rs, (visibleResources u m (some t) permission).run w = .ok rs ∧ ∀ r,
        (rs.selects w.db r ↔ ∃ l ∈ w.hierarchy.levelsForModel m, ∃ nodes,
          (accessibleNodes u l.name (some t) permission).run w = .ok nodes ∧
            nodes.selects w.db r)) ↔
      w.Filters u t permission := by
  have hlevel (l : Level) (hl : l ∈ w.hierarchy.levelsForModel m) :
      (∃ nodes, (accessibleNodes u l.name (some t) permission).run w = .ok nodes) ↔
        w.Filters u t permission := by
    obtain ⟨hmem, hmodel⟩ := w.hierarchy.mem_levelsForModel.mp hl
    obtain ⟨k, hk⟩ := List.mem_iff_getElem?.mp hmem
    exact accessibleNodes_ok hactive hsuper hk hreg hmodel
  have hrun : (scopeFilterQ u m (some t) permission).run w =
      (nodeFilterLoop u (some t) permission (w.hierarchy.levelsForModel m) .never).run w := by
    rw [run_scopeFilterQ, hactive, hm]
    rfl
  constructor
  · rintro ⟨rs, h, -⟩
    simp only [visibleResources, Read.run_bind, hrun] at h
    obtain ⟨q, hq, -⟩ := bind_eq_ok.mp h
    have hsome : w.hierarchy.levelsForModel m ≠ [] := by
      simpa [Hierarchy.isNodeModel] using hm
    obtain ⟨l, levels, hlevels⟩ := List.exists_cons_of_ne_nil hsome
    rw [hlevels, nodeFilterLoop, Read.run_bind] at hq
    obtain ⟨nodes, hnodes, -⟩ := bind_eq_ok.mp hq
    exact (hlevel l (by simp [hlevels])).mp ⟨nodes, hnodes⟩
  · intro hanswers
    obtain ⟨q, hq⟩ := nodeFilterLoop_total (fun l hl => (hlevel l hl).mpr hanswers) .never
    have hcompile : q.compile w.site.schema m = .ok () := compile_nodeFilterLoop hq rfl
    have hlist : (visibleResources u m (some t) permission).run w = .ok ⟨m, q⟩ := by
      simp [visibleResources, hrun, hq, hcompile]
    exact ⟨_, hlist, visibleResources_selects hreg hactive hsuper hm hlist⟩

/-- A node list is the specified one, and agrees with the object check, just where the rows
it reads settle, a node that is reached at all is reached without skipping a level, and,
for the object check, by the key its scope is stored under. -/
theorem node_lists_iff (hreg : w.hierarchy.Regular w.site.schema) (hf : w.Forest)
    (hactive : u.isActive) (hsuper : u.isSuperuser = false) {k : Nat}
    {l : Level} (hl : w.hierarchy.levels[k]? = some l) {n : Row} (hn : l.selects w.db n) :
    (∀ permission,
      (∃ nodes, (accessibleNodes u l.name (some t) permission).run w = .ok nodes ∧
          (nodes.selects w.db n ↔ w.Reached u t permission n)) ↔
        w.Filters u t permission ∧
        (w.Reached u t permission n → w.ReachedStepwise u t permission n)) ∧
    (∀ p,
      (∃ nodes b, (accessibleNodes u l.name (some t) (some p)).run w = .ok nodes ∧
          (hasPerm u p (some (.stored n)) (some t)).run w = .ok b ∧
          (nodes.selects w.db n ↔ w.Reached u t (some p) n) ∧
          (b = true ↔ w.Reached u t (some p) n)) ↔
        (∀ y ∈ w.fetched u t, w.Settles y) ∧
        (w.Reached u t (some p) n → w.ReachedStepwise u t (some p) n) ∧
        (w.Reached u t (some p) n → w.ReachedByKey u t (some p) n)) ∧
    (∀ m permission, w.hierarchy.isNodeModel m →
      ((∃ rs, (visibleResources u m (some t) permission).run w = .ok rs ∧ ∀ r,
          (rs.selects w.db r ↔ ∃ l ∈ w.hierarchy.levelsForModel m, ∃ nodes,
            (accessibleNodes u l.name (some t) permission).run w = .ok nodes ∧
              nodes.selects w.db r)) ↔
        w.Filters u t permission)) := by
  have hnode : w.hierarchy.isNodeModel n.model := NodeAt.isNodeModel ⟨l, hl, hn⟩
  have hselects (permission : Option String) (nodes : NodeQuery)
      (h : (accessibleNodes u l.name (some t) permission).run w = .ok nodes) :
      (nodes.selects w.db n ↔ w.Reached u t permission n) ↔
        (w.Reached u t permission n → w.ReachedStepwise u t permission n) := by
    rw [accessibleNodes_admits hactive hsuper hl hreg hf hn h]
    exact ⟨fun hiff => hiff.mpr, fun himp => ⟨ReachedStepwise.reached, himp⟩⟩
  have hlist (permission : Option String) :
      (∃ nodes, (accessibleNodes u l.name (some t) permission).run w = .ok nodes) ↔
        w.Filters u t permission :=
    accessibleNodes_ok hactive hsuper hl hreg (Level.selects_model hn)
  refine ⟨fun permission => ?_, fun p => ?_, fun m permission hm =>
    visibleResources_ok hreg hactive hsuper hm⟩
  · rw [← hlist permission]
    constructor
    · rintro ⟨nodes, h, hiff⟩
      exact ⟨⟨nodes, h⟩, (hselects permission nodes h).mp hiff⟩
    · rintro ⟨⟨nodes, h⟩, himp⟩
      exact ⟨nodes, h, (hselects permission nodes h).mpr himp⟩
  · have hmem := Level.selects_mem hn
    have hanchor : w.anchorOf (some (.stored n)) = .node (.stored n) := resolveAnchor_of_node hnode
    have hsettled : (∃ b, (hasPerm u p (some (.stored n)) (some t)).run w = .ok b) ↔
        ∀ y ∈ w.fetched u t, w.Settles y := by
      rw [hasPerm_ok hactive hsuper, userPermissions_ok hactive (by simp [hanchor]), hanchor]
      refine forall₂_congr fun y _ => and_iff_left fun a _ x hx _ => ?_
      obtain rfl : Attr.stored n = x := by simpa using hx
      exact .inr (.inl (hf.walks ⟨l, hl, hn⟩))
    have hkey {b : Bool} (hb : (hasPerm u p (some (.stored n)) (some t)).run w = .ok b) :
        (b = true ↔ w.Reached u t (some p) n) ↔
          (w.Reached u t (some p) n → w.ReachedByKey u t (some p) n) := by
      rw [hasPerm_reached hactive hsuper hnode hmem hb]
      exact ⟨fun hiff => hiff.mpr, fun himp => ⟨ReachedByKey.reached, himp⟩⟩
    rw [← hsettled]
    constructor
    · rintro ⟨nodes, b, h, hb, hiff, hiff'⟩
      exact ⟨⟨b, hb⟩, (hselects _ nodes h).mp hiff, (hkey hb).mp hiff'⟩
    · rintro ⟨⟨b, hb⟩, hstep, hbykey⟩
      obtain ⟨nodes, h⟩ := (hlist (some p)).mpr (.of_settles (hsettled.mp ⟨b, hb⟩))
      exact ⟨nodes, b, h, hb, (hselects _ nodes h).mpr hstep, (hkey hb).mpr hbykey⟩

end World

namespace Testapp

theorem nodeAt {k : Nat} {r : Row} (h : sparse.NodeAt k r) :
    k = 1 ∧ r = north ∨ k = 3 ∧ r = clinic := by
  obtain ⟨l, hl, hsel⟩ := h
  have hmem : r ∈ [north, clinic] := Level.selects_mem hsel
  have hlevels : ∀ k < 4, ∀ l ∈ hierarchy.levels[k]?, ∀ r ∈ [north, clinic],
      l.selects db r → k = 1 ∧ r = north ∨ k = 3 ∧ r = clinic := by decide
  exact hlevels k (List.getElem?_eq_some_iff.mp hl).1 l hl r hmem hsel

theorem forest : sparse.Forest := by
  refine World.AccessorsRelate.forest accessorsRelate (fun {j k r} hj hk => ?_)
    fun {k r s} hr hs => ?_
  · obtain ⟨rfl, rfl⟩ | ⟨rfl, rfl⟩ := nodeAt hj <;> obtain ⟨rfl, h⟩ | ⟨rfl, h⟩ := nodeAt hk
    · rfl
    · exact absurd h (by decide)
    · exact absurd h (by decide)
    · rfl
  · obtain ⟨rfl, rfl⟩ | ⟨rfl, rfl⟩ := nodeAt hr
    · have hnone : sparse.parent north = none := by decide
      simp [hnone] at hs
    · have hnorth : sparse.parent clinic = some north := by decide
      obtain rfl : north = s := Option.some.inj (hnorth.symm.trans hs)
      exact ⟨1, by decide, _, rfl, by decide⟩

theorem clinic_not_listed : hierarchy.Regular schema ∧ sparse.Forest ∧
    (∀ l ∈ hierarchy.levels, ∀ m, l.model = some m → m = node) ∧ sparse.StoredAsPk ∧
    nadia.isActive ∧ nadia.isSuperuser = false ∧ sparse.NodeAt 3 clinic ∧
    (hasPerm nadia "patients.view_patient" (some (.stored clinic)) (some 10)).run sparse =
      .ok true ∧
    ((accessibleNodes nadia "FACILITY" (some 10) (some "patients.view_patient")).run sparse).map
      (·.selects db clinic) = .ok false :=
  ⟨regular, forest, by decide, stored, rfl, rfl, ⟨_, rfl, by decide⟩, by decide, by decide⟩

theorem north_listed : ∃ nodes,
    (accessibleNodes nadia "REGIONAL" (some 10) none).run sparse = .ok nodes ∧
      (nodes.selects db north ↔ sparse.Reached nadia 10 none north) := by
  have hlevel : hierarchy.levels[1]? = some (level "REGIONAL" none) := rfl
  refine ((World.node_lists_iff (w := sparse) (u := nadia) (t := 10) regular forest rfl rfl
    hlevel (n := north) (by decide)).1 none).mpr ⟨?_, ?_⟩
  · exact .of_settles fun y hy =>
      readable.settles forest.nodesEnd (World.mem_fetched.mp hy).1
  · rintro ⟨a, ha, habove⟩
    refine ⟨a, ha, habove.imp_right fun ⟨s, hs, hreaches⟩ => ⟨s, hs, ?_⟩⟩
    obtain ⟨_ | k, hk⟩ := hreaches
    · obtain rfl : north = s := by simpa using hk
      exact .refl north
    · have hnone : sparse.parent north = none := by decide
      simp [Lib.Walk.nth_succ, hnone] at hk

end Testapp

end ScopedAccess
