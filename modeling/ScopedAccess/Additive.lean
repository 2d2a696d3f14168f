import ScopedAccess.Tenancy

namespace ScopedAccess

open Lib.Loop

namespace World

variable {w v : World}

/-- Whatever is in force in the first state is in force in the second, for the
same principal and with at least the same permissions. -/
structure Under (w v : World) : Prop where
  frame : ∃ now t, v = { w with now := now, tables := t }
  forces : ∀ at_ x a L, w.InForce at_ x a L →
    ∃ a' L', v.InForce at_ x a' L' ∧ a'.user = a.user ∧ L ⊆ L'

theorem Under.refl (w : World) : w.Under w :=
  ⟨⟨w.now, w.tables, rfl⟩, fun _ _ a L h => ⟨a, L, h, rfl, subset_rfl⟩⟩

theorem Under.trans {z : World} (h : w.Under v) (h' : v.Under z) : w.Under z where
  frame := by
    obtain ⟨now, t, rfl⟩ := h.frame
    obtain ⟨now', t', rfl⟩ := h'.frame
    exact ⟨now', t', rfl⟩
  forces at_ x a L hforce := by
    obtain ⟨a', L', hforce', huser, hsub⟩ := h.forces at_ x a L hforce
    obtain ⟨a'', L'', hforce'', huser', hsub'⟩ := h'.forces at_ x a' L' hforce'
    exact ⟨a'', L'', hforce'', huser'.trans huser, hsub.trans hsub'⟩

theorem Under.of_now (w : World) (now : Time) : w.Under { w with now := now } where
  frame := ⟨now, w.tables, rfl⟩
  forces at_ x a L h := ⟨a, L, by cases x <;> exact h, rfl, subset_rfl⟩

theorem Under.of_tables {t t' : Tables} (h : ∀ a ∈ t.assignments,
      (∀ at_, a.isEffective at_ = false) ∨ a ∈ t'.assignments ∧ ∀ r, t.role a.role = some r →
        t'.role a.role = some r ∧ t.roleLabels r.id ⊆ t'.roleLabels r.id) :
    (w.save t).Under (w.save t') where
  frame := ⟨w.now, t', rfl⟩
  forces := by
    rintro at_ x a _ ⟨ha, heffective, r, hr, hfits, hreach, rfl⟩
    rcases h a ha with hnever | ⟨hmem, hrole⟩
    · simp [hnever at_] at heffective
    · obtain ⟨hr', hsub⟩ := hrole r hr
      exact ⟨a, _, ⟨hmem, heffective, r, hr', hfits, by cases x <;> exact hreach, rfl⟩, rfl, hsub⟩

theorem never_effective {a : AssignmentRow} (h : a.status ≠ .active) (at_ : Time) :
    a.isEffective at_ = false := by
  simp [AssignmentRow.isEffective, h]

end World

/-- Gives something, or nothing to anybody. -/
def ServiceCall.Concedes : ServiceCall → Prop
  | .grant .. | .reactivate .. | .onRole (.grantPermissions ..) => True
  | .onRole (.create _ fields) => fields.pk = none
  | _ => False

def ServiceCall.Withdraws : ServiceCall → Prop
  | .suspend .. | .revoke .. | .onRole (.delete _) | .onRole (.revokePermissions ..) => True
  | _ => False

section Write

variable {w : World} {actor : Option User} {call : ServiceCall} {t t' : Tables}

theorem roleLabels_subset {k : Nat} (h : ∀ rp ∈ t.rolePermissions, rp ∈ t'.rolePermissions) :
    t.roleLabels k ⊆ t'.roleLabels k := by
  intro label hlabel
  obtain ⟨rp, hrp, hrest⟩ := (Tables.mem_roleLabels _).mp hlabel
  exact (Tables.mem_roleLabels _).mpr ⟨rp, h rp hrp, hrest⟩

theorem role_kept (hroles : t'.roles = t.roles)
    (hperms : ∀ rp ∈ t.rolePermissions, rp ∈ t'.rolePermissions) {k : Nat} {r : RoleRow}
    (hr : t.role k = some r) : t'.role k = some r ∧ t.roleLabels r.id ⊆ t'.roleLabels r.id :=
  ⟨(Tables.role_of_roles hroles).trans hr, roleLabels_subset hperms⟩

theorem Write.under (hcall : call.Concedes) (h : Write actor w call t.toTableRows) :
    w.Under (w.save t) := by
  generalize hrows : t.toTableRows = rows at h
  refine World.Under.of_tables (t := w.tables) fun a ha => ?_
  cases h with
  | granted =>
    refine .inr ⟨by rw [hrows]; exact List.mem_append_left _ ha, fun r => role_kept ?_ ?_⟩
    · rw [hrows]
      rfl
    · rw [hrows]
      exact fun rp hrp => hrp
  | @moved _ row row' _ hrow _ _ htransition =>
    by_cases hid : a.id = row.id
    · obtain rfl := w.tables.assignment_unique ha (w.tables.assignment_eq_some.mp hrow).1 hid
      cases htransition with
      | suspend | revoke => exact hcall.elim
      | reactivate hfrom => exact .inl (World.never_effective (by simp [hfrom]))
    · refine .inr ⟨?_, fun r => role_kept ?_ ?_⟩
      · rw [hrows]
        exact Lib.Rows.mem_modify.mpr (.inl ⟨ha, hid⟩)
      · rw [hrows]
        rfl
      · rw [hrows]
        exact fun rp hrp => hrp
  | @created _ fields v pk createdAt _ hv _ hsaved =>
    have hvpk : v.pk = none := (World.validateOwner_pk hv).trans hcall
    cases hsaved with
    | overwrite hpk' => cases hvpk.symm.trans hpk'
    | fresh _ hfresh =>
      refine .inr ⟨by rw [hrows]; exact ha, fun r hr => ⟨?_, roleLabels_subset ?_⟩⟩
      · refine (Tables.role_addRole (r := v.columns pk w.now) hfresh hrows).mpr (.inl ⟨hr, ?_⟩)
        rintro hid
        obtain ⟨hmem, hrid⟩ := w.tables.role_eq_some.mp hr
        exact hfresh (List.mem_map.mpr ⟨r, hmem, hrid.trans hid⟩)
      · rw [hrows]
        exact fun rp hrp => hrp
  | extended =>
    refine .inr ⟨by rw [hrows, TableRows.addPermissions_rest]; exact ha, fun r => role_kept ?_ ?_⟩
    · rw [hrows, TableRows.addPermissions_rest]
    · rw [hrows]
      exact fun rp hrp => TableRows.addPermissions_sub hrp
  | updated | deleted | reduced => exact hcall.elim

theorem Write.over (hcall : call.Withdraws) (h : Write actor w call t.toTableRows) :
    (w.save t).Under w := by
  generalize hrows : t.toTableRows = rows at h
  refine World.Under.of_tables fun a ha => ?_
  cases h with
  | @moved _ row row' _ hrow _ _ htransition =>
    rw [hrows] at ha
    rcases Lib.Rows.mem_modify.mp ha with ⟨hold, -⟩ | ⟨_, -, -, rfl⟩
    · refine .inr ⟨hold, fun r => role_kept ?_ ?_⟩
      · rw [hrows]
        rfl
      · rw [hrows]
        exact fun rp hrp => hrp
    · refine .inl (World.never_effective ?_)
      cases htransition with
      | suspend | revoke => simp
      | reactivate => exact hcall.elim
  | deleted =>
    rw [hrows] at ha
    refine .inr ⟨ha, fun r hr => ⟨?_, roleLabels_subset ?_⟩⟩
    · obtain ⟨hmem, hid⟩ := (Tables.role_eq_some _).mp hr
      rw [hrows] at hmem
      exact w.tables.role_eq_some.mpr ⟨(List.mem_filter.mp hmem).1, hid⟩
    · rw [hrows]
      exact fun rp hrp => (List.mem_filter.mp hrp).1
  | reduced =>
    rw [hrows] at ha
    refine .inr ⟨ha, fun r => role_kept ?_ ?_⟩
    · rw [hrows]
      rfl
    · rw [hrows]
      exact fun rp hrp => (List.mem_filter.mp hrp).1
  | granted | created | updated => exact hcall.elim
  | @extended made _ _ _ hadds =>
    cases made with
    | create | update | grantPermissions => exact hcall.elim
    | delete | revokePermissions => cases hadds

end Write

namespace World

variable {w v : World}

/-- What is decided in favour of somebody in the first state is so in the second. -/
structure Favours (w v : World) : Prop where
  userPermissions : ∀ u o at_ P P', (userPermissions u o (some at_)).run w = .ok P →
    (userPermissions u o (some at_)).run v = .ok P' → P ⊆ P'
  hasPerm : ∀ u p o at_, (hasPerm u p o (some at_)).run w = .ok true →
    (hasPerm u p o (some at_)).run v = .ok true
  userCovers : ∀ u o at_, (userCovers u o (some at_)).run w = .ok true →
    (userCovers u o (some at_)).run v = .ok true
  canManageAssignment : ∀ u n at_, (canManageAssignment u n (some at_)).run w = .ok true →
    (canManageAssignment u n (some at_)).run v = .ok true
  lists : ∀ u at_ r permission q q', w.hierarchy.Documented w.site.schema → w.Forest →
    u.isActive → u.isSuperuser = false → w.hierarchy.isNodeModel r.model = false →
    (∀ path n, w.site.resources.anchorFor r.model = some path →
      w.db.follow r path.parts = some n → ∃ k, w.NodeAt k n) →
    (scopeFilterQ u r.model (some at_) permission).run w = .ok q →
    (scopeFilterQ u r.model (some at_) permission).run v = .ok q' →
      q.holds w.db r → q'.holds w.db r

theorem Under.exists_effective (h : w.Under v) {u : Nat} {t : Time} {x : Anchor}
    {Q : Finset String → Prop} (hQ : ∀ L L', L ⊆ L' → Q L → Q L')
    (hw : ∃ a, w.Effective u t a ∧ w.Valid a ∧ w.Reach x a ∧ Q (rolePerms a.role)) :
    ∃ a, v.Effective u t a ∧ v.Valid a ∧ v.Reach x a ∧ Q (rolePerms a.role) := by
  obtain ⟨a, L, hforce, huser, hL⟩ := (exists_inForce (Q := fun _ => Q)).mp hw
  obtain ⟨a', L', hforce', huser', hsub⟩ := h.forces t x a L hforce
  exact (exists_inForce (Q := fun _ => Q)).mpr ⟨a', L', hforce', huser'.trans huser, hQ L L' hsub hL⟩

section Favours

variable (h : w.Under v)
include h

theorem Under.userPermissions_subset {u : User} {o : Option Obj} {at_ : Time}
    {P P' : Finset String} (hP : (userPermissions u o (some at_)).run w = .ok P)
    (hP' : (userPermissions u o (some at_)).run v = .ok P') : P ⊆ P' := by
  intro p hp
  cases hactive : u.isActive with
  | false =>
    obtain rfl : ∅ = P := by simpa [run_userPermissions, hactive] using hP
    simp at hp
  | true =>
    have hanchor : v.anchorOf o = w.anchorOf o := by
      obtain ⟨now, t, rfl⟩ := h.frame
      rfl
    rw [mem_userPermissions hP' hactive, hanchor]
    exact h.exists_effective (Q := fun L => p ∈ L) (fun _ _ hsub hp => hsub hp)
      ((mem_userPermissions hP hactive).mp hp)

variable (hv : v.Readable) (hac : v.Grounded)
include hv hac

theorem Under.hasPerm_true {u : User} {p : String} {o : Option Obj} {at_ : Time}
    (hyes : (hasPerm u p o (some at_)).run w = .ok true) :
    (hasPerm u p o (some at_)).run v = .ok true := by
  rw [run_hasPerm] at hyes ⊢
  cases hactive : u.isActive with
  | false => simp [hactive] at hyes
  | true =>
    cases hsuper : u.isSuperuser with
    | true => rfl
    | false =>
      rw [hactive, hsuper] at hyes
      obtain ⟨P, hP, hp⟩ := bind_eq_ok.mp hyes
      have hp : p ∈ P := of_decide_eq_true (Except.ok.inj hp)
      obtain ⟨P', hP'⟩ := returns_userPermissions hv hac u o (some at_)
      have hp' : p ∈ P' := h.userPermissions_subset hP hP' hp
      simp [hP', hp']

theorem Under.userCovers_true {u : User} {o : Obj} {at_ : Time}
    (hyes : (userCovers u o (some at_)).run w = .ok true) :
    (userCovers u o (some at_)).run v = .ok true := by
  obtain ⟨b, hb⟩ := returns_userCovers hv hac u o (some at_)
  by_cases hordinary : u.isActive ∧ u.isSuperuser = false
  · obtain ⟨hactive, hsuper⟩ := hordinary
    have hanchor : v.resolveAnchor o = w.resolveAnchor o := by
      obtain ⟨now, t, rfl⟩ := h.frame
      rfl
    have hyes' : b = true := by
      rw [userCovers_iff hactive hsuper hb, hanchor]
      refine ((userCovers_iff hactive hsuper hyes).mp rfl).imp_right fun hw => ?_
      simpa using h.exists_effective (Q := fun _ => True) (fun _ _ _ _ => trivial)
        (by simpa using hw)
    rw [hb, hyes']
  · rw [run_userCovers_special hordinary] at hyes ⊢
    exact hyes

theorem Under.canManageAssignment_true {u : Option User} {n : Option Obj} {at_ : Time}
    (hyes : (canManageAssignment u n (some at_)).run w = .ok true) :
    (canManageAssignment u n (some at_)).run v = .ok true := by
  have hsite : v.site.assignmentApp = w.site.assignmentApp := by
    obtain ⟨now, t, rfl⟩ := h.frame
    rfl
  cases u with
  | none => cases hyes
  | some u =>
    cases n with
    | some n =>
      rw [canManageAssignment_node] at hyes ⊢
      rw [hsite]
      exact h.hasPerm_true hv hac hyes
    | none =>
      obtain ⟨b, hb⟩ := returns_canManageAssignment hv hac (some u) none (some at_)
      cases hactive : u.isActive with
      | false => simp [canManageAssignment, hactive] at hyes
      | true =>
        cases hsuper : u.isSuperuser with
        | true => simp [canManageAssignment, hactive, hsuper]
        | false =>
          have hyes' : b = true := by
            rw [canManageAssignment_root hactive hsuper hb, hsite]
            obtain ⟨a, ha, hvalid, hroot, hp⟩ :=
              (canManageAssignment_root hactive hsuper hyes).mp rfl
            exact h.exists_effective (x := .denied)
              (Q := fun L => w.site.assignmentApp ++ ".manage_assignments" ∈ L)
              (fun _ _ hsub hp => hsub hp) ⟨a, ha, hvalid, hroot, hp⟩
          rw [hb, hyes']

end Favours

theorem Under.holds (h : w.Under v) (hanchors : AnchorsRelate w.site) (hst : w.StoredAsPk)
    (hst' : v.StoredAsPk) {u : User}
    {at_ : Time} {r : Row} {permission : Option String} {q q' : Q}
    (hdoc : w.hierarchy.Documented w.site.schema) (hf : w.Forest) (hactive : u.isActive)
    (hsuper : u.isSuperuser = false) (hm : w.hierarchy.isNodeModel r.model = false)
    (hnode : ∀ path n, w.site.resources.anchorFor r.model = some path →
      w.db.follow r path.parts = some n → ∃ k, w.NodeAt k n)
    (hq : (scopeFilterQ u r.model (some at_) permission).run w = .ok q)
    (hq' : (scopeFilterQ u r.model (some at_) permission).run v = .ok q')
    (hholds : q.holds w.db r) : q'.holds w.db r := by
  have hadmits := (admits_iff_reach hst).mp
    ((scopeFilterQ_admits hdoc hf hactive hsuper hm (hanchors r.model) hnode hq).2.mp hholds)
  have hstep := h.exists_effective (u := u.pk) (t := at_) (x := w.resolveAnchor (.stored r))
    (Q := fun L => permission.all (· ∈ L)) (fun L L' hsub hL => by
      cases permission with
      | none => rfl
      | some p => simpa using hsub (by simpa using hL))
  obtain ⟨now, t, rfl⟩ := h.frame
  have hlist := (scopeFilterQ_admits (w := { w with now := now, tables := t }) hdoc
    ⟨hf.level, hf.parent⟩ hactive hsuper hm (hanchors r.model) hnode hq').2
  exact hlist.mpr ((admits_iff_reach hst').mpr (hadmits.imp_right hstep))

theorem Under.anchors (h : w.Under v) (hac : v.Grounded) : AnchorsRelate w.site := by
  obtain ⟨now, t, rfl⟩ := h.frame
  exact hac.anchors

theorem Under.favours (h : w.Under v) (hw : w.WellFormed) (hv : v.WellFormed)
    (hac : v.Grounded) : w.Favours v where
  userPermissions _ _ _ _ _ hP hP' := h.userPermissions_subset hP hP'
  hasPerm _ _ _ _ hyes := h.hasPerm_true hv.readable hac hyes
  userCovers _ _ _ hyes := h.userCovers_true hv.readable hac hyes
  canManageAssignment _ _ _ hyes := h.canManageAssignment_true hv.readable hac hyes
  lists _ _ _ _ _ _ hdoc hf hactive hsuper hm hnode hq hq' hholds :=
    h.holds (h.anchors hac) hw.storedAsPk hv.storedAsPk hdoc hf hactive hsuper hm hnode hq hq' hholds

end World

def SiteEvent.Concedes : SiteEvent → Prop
  | .call _ made _ => made.Concedes
  | .tick _ => True
  | .host _ | .users _ => False

def SiteEvent.Withdraws : SiteEvent → Prop
  | .call _ made _ => made.Withdraws
  | .tick _ => True
  | .host _ | .users _ => False

namespace World

variable {w : World}

/-- No call that gives takes anything away, no call that takes gives anything,
however many are made, by whomever, and whether they fail. -/
theorem no_deny (hnames : (w.hierarchy.levels.map Level.name).Nodup) (hw : w.WellFormed)
    (hac : w.Grounded) (events : List SiteEvent) :
    ((∀ e ∈ events, e.Concedes) → w.Favours (w.history events)) ∧
      ((∀ e ∈ events, e.Withdraws) → (w.history events).Favours w) := by
  constructor
  · intro hevents
    have hkept := history_keeps (A := SiteEvent.Concedes)
      (P := fun v => (v.hierarchy.levels.map Level.name).Nodup ∧ v.WellFormed ∧ w.Under v)
      (fun hcall h hwrite => ⟨h.1, h.2.1.write h.1 hwrite, h.2.2.trans (hwrite.under hcall)⟩)
      (fun _ h => ⟨h.1, h.2.1.tick _, h.2.2.trans (.of_now _ _)⟩) (fun _ hhost _ => hhost.elim)
      (fun _ husers _ => husers.elim) hevents ⟨hnames, hw, .refl w⟩
    refine hkept.2.2.favours hw hkept.2.1 ?_
    obtain ⟨now, t, hframe⟩ := hkept.2.2.frame
    rw [hframe]
    exact hac.frame now t
  · intro hevents
    have hkept := history_keeps (A := SiteEvent.Withdraws)
      (P := fun v => (v.hierarchy.levels.map Level.name).Nodup ∧ v.WellFormed ∧ v.Under w)
      (fun hcall h hwrite => ⟨h.1, h.2.1.write h.1 hwrite, (hwrite.over hcall).trans h.2.2⟩)
      (fun {v} _ h => ⟨h.1, h.2.1.tick _, (Under.of_now _ v.now).trans h.2.2⟩)
      (fun _ hhost _ => hhost.elim) (fun _ husers _ => husers.elim) hevents ⟨hnames, hw, .refl w⟩
    exact hkept.2.2.favours hkept.2.1 hw hac

end World

namespace Helpdesk

theorem promoted_favours : staffed.Favours (staffed.history [
    .call (some alice) (.grant carol (staffed.loadRole { id := 1, name := "viewer" }) none
      (some (.stored frontend)) none none) quiet, .tick 1]) :=
  (World.no_deny (w := staffed) (by decide) staffed_wellFormed (grounded db 10 staff) _).1
    (by simp [SiteEvent.Concedes, ServiceCall.Concedes])

end Helpdesk

end ScopedAccess
