import ScopedAccess.Engine.Settling

namespace ScopedAccess

open Lib.Walk (Reaches nth)
open Lib.Loop

namespace World

variable {w : World}

def without (w : World) (id : Nat) : World := { w with tables := w.tables.dropAssignment id }

theorem without_assignmentIsValid (id : Nat) (a : Assignment) :
    (w.without id).assignmentIsValid a = w.assignmentIsValid a := rfl

theorem reduceOption_filter (p : Assignment → Bool) (found : List (Option Assignment)) :
    (found.filter (·.all p)).reduceOption = found.reduceOption.filter p := by
  induction found with
  | nil => rfl
  | cons f found ih =>
    cases f with
    | none => simpa using ih
    | some a => cases hp : p a <;> simpa [hp] using ih

theorem prefetch_filter {rows : List AssignmentRow} {keep : AssignmentRow → Bool}
    (hrows : ∀ row ∈ rows, row ∈ w.tables.assignments)
    (hread : ∀ row ∈ rows, keep row = false → ∃ s, w.db.generic row.scopeCt row.scopeId = .ok s) :
    ((rows.filter keep).mapM w.prefetch >>= fun found => pure found.reduceOption) =
      (rows.mapM w.prefetch >>= fun found => pure found.reduceOption).map
        (List.filter (keep ·.row)) := by
  have hfilter : (rows.filter keep).mapM w.prefetch =
      (rows.mapM w.prefetch).map (List.filter fun found => found.all (keep ·.row)) := by
    refine mapM_filter (fun row hrow hk => ?_) fun row hrow found hf => ?_
    · obtain ⟨s, hs⟩ := hread row hrow hk
      exact ⟨_, by rw [prefetch, hs, ok_bind]; rfl⟩
    · obtain ⟨a, rfl, rfl⟩ := prefetch_row (hrows row hrow) hf
      rfl
  rw [hfilter]
  cases List.mapM w.prefetch rows with
  | error e => rfl
  | ok found => exact congrArg Except.ok (reduceOption_filter _ found)

theorem fetchEffective_without {id : Nat} {u : User} {t : Time}
    (hread : ∀ row ∈ w.tables.assignments, row.id = id → row.user = u.pk → row.isEffective t →
      ∃ s, w.db.generic row.scopeCt row.scopeId = .ok s) :
    (w.without id).fetchEffective u t =
      (w.fetchEffective u t).map (List.filter (·.row.id ≠ id)) := by
  have hrows : (w.without id).tables.assignments.filter (fun a => a.user = u.pk && a.isEffective t) =
      (w.tables.assignments.filter fun a => a.user = u.pk && a.isEffective t).filter
        fun row => row.id ≠ id := by
    simp only [without, Tables.dropAssignment, List.filter_filter]
    congr 1
    funext row
    exact Bool.and_comm _ _
  rw [fetchEffective, fetchEffective, hrows]
  refine prefetch_filter (w := w) (fun row hrow => (List.mem_filter.mp hrow).1) fun row hrow hid => ?_
  simp only [List.mem_filter, Bool.and_eq_true, decide_eq_true_eq] at hrow
  exact hread row hrow.1 (by simpa using hid) hrow.2.1 hrow.2.2

theorem ScopesRead.fetchEffective_without (hscopes : w.ScopesRead) {u : User} {t : Time}
    {as : List Assignment} (h : w.fetchEffective u t = .ok as) (id : Nat) :
    (w.without id).fetchEffective u t = .ok (as.filter (·.row.id ≠ id)) := by
  rw [World.fetchEffective_without fun row hrow _ _ _ => hscopes row hrow, h]
  rfl

theorem Effective.unique {x : AssignmentRow} (hx : x ∈ w.tables.assignments) {a : Assignment}
    (ha : w.loadAssignment x = some a) {u : Nat} {t : Time} {a' : Assignment}
    (h : w.Effective u t a') (hid : a'.row.id = x.id) : a' = a := by
  obtain ⟨row, hrow, -, -, hfetch⟩ := h
  have ha' := loadAssignment_of_prefetch hfetch
  rw [loaded_row ha'] at hid
  rw [w.tables.assignment_unique hrow hx hid] at ha'
  exact Option.some.inj (ha'.symm.trans ha)

theorem Valid.scope_contained {x : AssignmentRow} {a : Assignment}
    (ha : w.loadAssignment x = some a) (hvalid : w.Valid a) (hcustom : a.role.ownerId ≠ none) :
    ∃ s X, a.row.isRootScope = false ∧
      w.db.generic a.row.scopeCt a.row.scopeId = .ok (some s) ∧ w.NodeShape a.row s ∧
      a.role.owner = .ok (some (.stored X)) ∧ Reaches w.parent s X := by
  obtain ⟨hroot, s, owner, X, hscope, hshape, -, hsX, hX⟩ := hvalid.custom hcustom
  have hgeneric : w.db.generic a.row.scopeCt a.row.scopeId = .ok (some s) := by
    rw [loaded_row ha, ← loaded_scope ha]
    exact orNone_some hscope
  have hmemX : X ∈ w.db.rows := reaches_mem (w.db.generic_some hgeneric).1 hsX
  refine ⟨s, X, hroot, hgeneric, hshape, ?_, hsX⟩
  rw [loaded_owner ha, genericObj, isRow_generic hmemX hX]
  rfl

theorem Valid.contained {x : AssignmentRow} {a : Assignment} (ha : w.loadAssignment x = some a)
    (hvalid : w.Valid a) (hcustom : a.role.ownerId ≠ none) {n : Row} (hn : n ∈ w.db.rows)
    (hreach : w.Reach (.node (.stored n)) a) :
    ∃ X, a.role.owner = .ok (some (.stored X)) ∧ Reaches w.parent n X := by
  obtain ⟨s, X, hroot, hs, -, hX, hsX⟩ := hvalid.scope_contained ha hcustom
  obtain hroot' | ⟨r, hnr, hr⟩ := hreach
  · simp [hroot] at hroot'
  have hnr := ancestor_stored.mp hnr
  have hgeneric := isRow_generic (reaches_mem hn hnr) hr
  obtain rfl : s = r := by simpa [hs] using hgeneric
  exact ⟨X, hX, hnr.trans hsX⟩

/-- The node is not below the owner, if there is one. -/
def Outside (w : World) (owner : Option Obj) (n : Row) : Prop :=
  ∀ X ∈ owner, ¬ Reaches w.parent n X.row

theorem owner_eq {role : Role} {owner : Option Obj} {X : Row}
    (howner : role.ownerOrNone = .ok owner) (hX : role.owner = .ok (some (.stored X))) :
    owner = some (.stored X) := by
  rw [Role.ownerOrNone, hX, orNone_ok] at howner
  exact (Except.ok.inj howner).symm

section Drop

variable (hac : w.Acyclic) (hscopes : w.ScopesRead) {x : AssignmentRow}
  (hx : x ∈ w.tables.assignments) {a : Assignment} (ha : w.loadAssignment x = some a)
  (hcustom : a.role.ownerId ≠ none) {owner : Option Obj} (howner : a.role.ownerOrNone = .ok owner)
include hac hscopes hx ha hcustom howner

omit hcustom in
theorem loaded_valid_total : ∃ b, w.assignmentIsValid a = .ok b := by
  obtain ⟨s, hs⟩ := hscopes x hx
  refine assignmentIsValid_total (nodesEnd_of_acyclic hac) ⟨s, ?_⟩ fun _ => ⟨owner, howner⟩
  rw [Assignment.scopeOrNone, loaded_scope ha, hs, orNone_ok]

theorem outside_validReach {n : Row} (hn : n ∈ w.db.rows) (hout : w.Outside owner n) :
    w.validReach (.node (.stored n)) a = .ok false := by
  obtain ⟨valid, hvalid⟩ := loaded_valid_total hac hscopes hx ha howner
  obtain ⟨b, hb⟩ : ∃ b, w.reach (.node (.stored n)) a = .ok b :=
    reach_total (fun m hm => by cases hm; exact walks_of_acyclic hac _) a
  have hrun : w.validReach (.node (.stored n)) a = .ok (valid && b) := by
    rw [validReach, hvalid, ok_bind]
    cases valid with
    | false => rfl
    | true => exact hb
  rw [hrun]
  cases hvb : valid && b with
  | false => rfl
  | true =>
    rw [hvb] at hrun
    obtain ⟨hvalid, hreach⟩ := validReach_true.mp hrun
    obtain ⟨X, hX, hnX⟩ := hvalid.contained ha hcustom hn hreach
    exact absurd hnX (hout _ (owner_eq howner hX))

theorem drop_userPermissions {o : Obj} {n : Row} (ho : w.resolveAnchor o = .node (.stored n))
    (hn : n ∈ w.db.rows) (hout : w.Outside owner n) (u : User) (at_ : Option Time) :
    (userPermissions u (some o) at_).run (w.without x.id) =
      (userPermissions u (some o) at_).run w := by
  obtain ⟨as, has⟩ := fetchEffective_total hscopes u (at_.getD w.now)
  have has' := hscopes.fetchEffective_without has x.id
  have hanchor : w.anchorOf (some o) = .node (.stored n) := ho
  have hanchor' : (w.without x.id).anchorOf (some o) = .node (.stored n) := ho
  have hnow : (w.without x.id).now = w.now := rfl
  rw [run_userPermissions, run_userPermissions, hanchor, hanchor', has, hnow, has', ok_bind,
    ok_bind]
  congr 1
  refine gather_filter fun a' ha' hid => ?_
  obtain rfl := ((mem_fetchEffective has).mp ha').unique hx ha (by simpa using hid)
  exact contribution_of_not_reach (outside_validReach hac hscopes hx ha hcustom howner hn hout)

theorem drop_hasPerm {o : Obj} {n : Row} (ho : w.resolveAnchor o = .node (.stored n))
    (hn : n ∈ w.db.rows) (hout : w.Outside owner n) (u : User) (p : String)
    (at_ : Option Time) :
    (hasPerm u p (some o) at_).run (w.without x.id) = (hasPerm u p (some o) at_).run w := by
  rw [run_hasPerm, run_hasPerm,
    drop_userPermissions hac hscopes hx ha hcustom howner ho hn hout]

theorem drop_userCovers {o : Obj} {n : Row} (ho : w.resolveAnchor o = .node (.stored n))
    (hn : n ∈ w.db.rows) (hout : w.Outside owner n) (u : User) (at_ : Option Time) :
    (userCovers u o at_).run (w.without x.id) = (userCovers u o at_).run w := by
  obtain ⟨as, has⟩ := fetchEffective_total hscopes u (at_.getD w.now)
  have has' := hscopes.fetchEffective_without has x.id
  have ho' : (w.without x.id).resolveAnchor o = .node (.stored n) := ho
  have hnow : (w.without x.id).now = w.now := rfl
  have hloop : (as.filter (·.row.id ≠ x.id)).anyM
      ((w.without x.id).validReach (.node (.stored n))) =
      as.anyM (w.validReach (.node (.stored n))) := by
    refine anyM_filter fun a' ha' hid => ?_
    obtain rfl := ((mem_fetchEffective has).mp ha').unique hx ha (by simpa using hid)
    exact outside_validReach hac hscopes hx ha hcustom howner hn hout
  rw [run_userCovers, run_userCovers, ho, ho', has, hnow, has', ok_bind, ok_bind, hloop]

def OutsideAlong (w : World) (owner : Option Obj) (m : Model) (path : List String) (r : Row) :
    Prop :=
  r.model = m ∧ ∀ n, w.db.follow r path = some n → w.Outside owner n

omit hcustom in
theorem drop_term (hcustom : a.role.ownerId ≠ none) {m m' : Model} {path : List String}
    (hpath : w.site.schema.relatedPath m path = some m') (permission : Option String)
    {paths : Nat → Py (List (List String))}
    (hpaths : ∀ rank l s, w.hierarchy.levels[rank]? = some l → l.selects w.db s →
      ∃ ps, paths rank = .ok ps ∧ ∀ p ∈ ps, ∃ steps up, p = path ++ up ∧
        Climbs w m' s.model steps up) :
    (term w.hierarchy permission paths a).run w = .ok .nothing ∨
      ∃ ps, (term w.hierarchy permission paths a).run w = .ok (.below ps) ∧
        (∀ p ∈ ps, (Q.pk p a.row.scopeId).compile w.site.schema m = .ok ()) ∧
        ∀ r, w.OutsideAlong owner m path r → ∀ p ∈ ps,
          ¬ (Q.pk p a.row.scopeId).holds w.db r := by
  by_cases hvalid : w.Valid a ∧ carries permission a
  · obtain ⟨s, X, hroot, hs, hshape, hX, hsX⟩ := hvalid.1.scope_contained ha hcustom
    obtain ⟨rank, l, hrank, hl, hsel⟩ := hshape.rank
    obtain ⟨ps, hps, hclimbs⟩ := hpaths rank l s hl hsel
    have hrelated {p up : List String} {steps : Nat} (hp : p = path ++ up)
        (hup : Climbs w m' s.model steps up) :
        w.site.schema.relatedPath m p = some s.model := by
      rw [hp, Schema.relatedPath_append, hpath]
      exact hup.related
    refine .inr ⟨ps, run_term_of_rank hvalid.1 hvalid.2 hroot hrank hps, ?_, ?_⟩
    · intro p hp
      obtain ⟨steps, up, heq, hup⟩ := hclimbs p hp
      exact pk_compile_scope hs (hrelated heq hup)
    · intro r hr p hp hholds
      obtain ⟨steps, up, heq, hup⟩ := hclimbs p hp
      obtain ⟨rfl, hout⟩ := hr
      rw [pk_holds_scope hs (hrelated heq hup), heq, Database.follow_append] at hholds
      obtain ⟨n, hn, hfollow⟩ := Option.bind_eq_some_iff.mp hholds
      have hmodel : n.model = m' := by
        simpa [hpath, eq_comm] using w.db.follow_model hn
      rw [hup.follow n hmodel] at hfollow
      exact hout n hn _ (owner_eq howner hX) (Reaches.trans ⟨steps, hfollow⟩ hsX)
  · exact .inl (run_term_of_not (loaded_valid_total hac hscopes hx ha howner) hvalid)

theorem drop_collect {m m' : Model} {path : List String}
    (hpath : w.site.schema.relatedPath m path = some m') {permission : Option String}
    {paths : Nat → Py (List (List String))}
    (hpaths : ∀ rank l s, w.hierarchy.levels[rank]? = some l → l.selects w.db s →
      ∃ ps, paths rank = .ok ps ∧ ∀ p ∈ ps, ∃ steps up, p = path ++ up ∧
        Climbs w m' s.model steps up)
    (u : User) (t : Time) :
    Both (Q.SameOn w.site.schema m w.db (w.OutsideAlong owner m path))
      (w.fetchEffective u t >>= fun as =>
        (collect (term w.hierarchy permission paths) as .never).run w)
      ((w.without x.id).fetchEffective u t >>= fun as =>
        (collect (term w.hierarchy permission paths) as .never).run (w.without x.id)) := by
  obtain ⟨as, has⟩ := fetchEffective_total hscopes u t
  rw [has, hscopes.fetchEffective_without has x.id, ok_bind, ok_bind,
    run_collect_congr (w := w.without x.id) (v := w) fun a _ => by rw [run_term, run_term]; rfl]
  refine collect_drop (fun a' ha' hid => ?_) ⟨rfl, fun _ _ => rfl⟩
  obtain rfl := ((mem_fetchEffective has).mp ha').unique hx ha (by simpa using hid)
  exact drop_term hac hscopes hx ha howner hcustom hpath permission hpaths

section Filters

variable (hreg : w.hierarchy.Regular w.site.schema)
include hreg

theorem drop_accessibleNodes {r : Row} (hr : w.Outside owner r) (u : User) (name : String)
    (at_ : Option Time) (permission : Option String) :
    Both (fun nodes nodes' => nodes.level = nodes'.level ∧
        nodes.selects w.db r = nodes'.selects w.db r)
      ((accessibleNodes u name at_ permission).run w)
      ((accessibleNodes u name at_ permission).run (w.without x.id)) := by
  have hlevel : (w.without x.id).hierarchy = w.hierarchy := rfl
  have hnow : (w.without x.id).now = w.now := rfl
  have hschema : (w.without x.id).site.schema = w.site.schema := rfl
  rw [run_accessibleNodes, run_accessibleNodes, hlevel, hnow, hschema]
  cases hl : w.hierarchy.level name with
  | none => exact rfl
  | some level =>
    cases hrank : w.hierarchy.rank name with
    | none => exact rfl
    | some target =>
      dsimp only
      cases hm : level.model with
      | none => exact rfl
      | some m =>
        dsimp only
        split
        · exact ⟨rfl, rfl⟩
        split
        · exact ⟨rfl, rfl⟩
        rw [← bind_assoc, ← bind_assoc]
        refine (drop_collect hac hscopes hx ha hcustom howner
          (show w.site.schema.relatedPath m [] = some m from rfl) ?_
          u _).bind fun q q' hq => ?_
        · intro rank l s hget hsel
          obtain ⟨l', hl', hget'⟩ := Hierarchy.rank_getElem hrank
          obtain rfl : level = l' := by simpa [hl] using hl'
          have hmodel := Level.selects_model hsel
          obtain ⟨ps, hps, -⟩ := hreg.nodePaths hget hmodel hget' hm
          refine ⟨ps, hps, fun p hp => ?_⟩
          obtain ⟨-, hclimbs⟩ := hreg.climbs_of_mem hget hmodel hget' hm hps hp
          exact ⟨_, p, rfl, hclimbs⟩
        · rw [hq.1]
          refine (Both.refl (R := fun _ _ => True) (fun _ => trivial) _).bind fun _ _ _ => ?_
          refine ⟨rfl, ?_⟩
          by_cases hmodel : r.model = m
          · have hsame := hq.2 r ⟨hmodel, by rintro _ ⟨⟩; exact hr⟩
            simp [NodeQuery.selects, hsame]
          · have hother : level.selects w.db r = false := by
              cases hsel : level.selects w.db r with
              | false => rfl
              | true => simp_all [Level.selects_model hsel]
            simp [NodeQuery.selects, hother]

theorem drop_nodeFilterLoop {r : Row} (hr : w.Outside owner r) (u : User) (at_ : Option Time)
    (permission : Option String) (m : Model) (levels : List Level) {q q' : Q}
    (hq : Q.SameOn w.site.schema m w.db (· = r) q q') :
    Both (Q.SameOn w.site.schema m w.db (· = r))
      ((nodeFilterLoop u at_ permission levels q).run w)
      ((nodeFilterLoop u at_ permission levels q').run (w.without x.id)) := by
  induction levels generalizing q q' with
  | nil => exact hq
  | cons level levels ih =>
    simp only [nodeFilterLoop, Read.run_bind]
    refine (drop_accessibleNodes hac hscopes hx ha hcustom howner hreg hr u level.name at_
      permission).bind fun nodes nodes' hnodes => ih ⟨?_, ?_⟩
    · simp only [Q.compile, hq.1]
    · rintro _ rfl
      have hsel := hnodes.2
      simp only [NodeQuery.selects] at hsel
      simp only [Q.holds, hq.2 _ rfl, hsel]

theorem drop_scopeFilterQ {r n : Row} (hrn : w.resolveAnchor (.stored r) = .node (.stored n))
    (hn : w.Outside owner n) (u : User) (at_ : Option Time) (permission : Option String) :
    Both (Q.SameOn w.site.schema r.model w.db (· = r))
      ((scopeFilterQ u r.model at_ permission).run w)
      ((scopeFilterQ u r.model at_ permission).run (w.without x.id)) := by
  have hhierarchy : (w.without x.id).hierarchy = w.hierarchy := rfl
  have hsite : (w.without x.id).site = w.site := rfl
  have hnow : (w.without x.id).now = w.now := rfl
  rw [run_scopeFilterQ, run_scopeFilterQ, hhierarchy, hsite, hnow]
  split
  · exact ⟨rfl, fun _ _ => rfl⟩
  rcases resolveAnchor_stored hrn with
    ⟨hnode, hself⟩ | ⟨hnode, hglobal, path, hpath, hplain | ⟨s, hs, hself⟩⟩
  · obtain rfl := Attr.stored_injective hself
    rw [if_pos hnode, if_pos hnode]
    exact drop_nodeFilterLoop hac hscopes hx ha hcustom howner hreg hn u at_ permission _ _
      ⟨rfl, fun _ _ => rfl⟩
  · cases hplain
  · obtain rfl := Attr.stored_injective hself
    have hrelated := w.db.follow_model hs
    rw [hnode, hglobal, hpath]
    simp only [Bool.false_eq_true, if_false]
    split
    · exact ⟨rfl, fun _ _ => rfl⟩
    cases htargets : anchorTargetLevels w.hierarchy w.site.schema r.model path with
    | error e => exact rfl
    | ok targets =>
      obtain ⟨m', hm', hmem⟩ := anchorTargetLevels_ok hreg.names htargets
      rw [ok_bind, ok_bind]
      have hout : w.OutsideAlong owner r.model path.parts r := by
        refine ⟨rfl, fun n' hn' => ?_⟩
        obtain rfl : n = n' := Option.some.inj (hs.symm.trans hn')
        exact hn
      obtain rfl : n.model = m' :=
        Option.some.inj ((Schema.lookupPath_related hrelated).symm.trans hm')
      refine Both.mono (drop_collect hac hscopes hx ha hcustom howner hrelated ?_ u _)
        fun q q' hq => ⟨hq.1, by rintro _ rfl; exact hq.2 _ hout⟩
      intro rank l s hget hsel
      obtain ⟨ps, hps, hclimbs, -⟩ := hreg.anchorPaths path hmem hget (Level.selects_model hsel)
      exact ⟨ps, hps, hclimbs⟩

end Filters

end Drop

end World

end ScopedAccess
