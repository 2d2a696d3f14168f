import ScopedAccess.Administration

namespace ScopedAccess

open Lib.Walk (Reaches)

namespace World

variable {w : World}

theorem confers_congr {a : AssignmentRow} {r r' : RoleRow} (hct : r.ownerCt = r'.ownerCt)
    (hid : r.ownerId = r'.ownerId) : w.Confers a r ↔ w.Confers a r' := by
  cases r
  cases r'
  subst hct hid
  exact Iff.rfl

def movedRole (w : World) (changes : RoleService.Changes) (r : RoleRow) : RoleRow :=
  (changes.apply w (w.loadRole r)).columns r.id r.createdAt

/-- An assignment the stored role keeps out of force and the moved one lets in. -/
structure Revived (w : World) (r r' : RoleRow) (a : AssignmentRow) : Prop where
  stored : a ∈ w.tables.assignments
  role : a.role = r.id
  dormant : ¬ w.Confers a r
  confers : w.Confers a r'

def ReachedBy (w : World) (x : Anchor) (a : AssignmentRow) : Prop :=
  match x with
  | .everywhere => True
  | .denied => a.isRootScope
  | .node n => a.isRootScope ∨ ∃ r, w.Ancestor n r ∧ w.isRow a.scopeCt a.scopeId r
  | .unregistered => False

def Allowed (w : World) (u : Nat) (p : String) (x : Anchor) : Prop :=
  ∃ a ∈ w.tables.assignments, ∃ r, w.tables.role a.role = some r ∧ a.user = u ∧
    w.Confers a r ∧ w.ReachedBy x a ∧ p ∈ w.tables.roleLabels r.id

theorem mem_userPermissions_allowed {u : User} (hactive : u.isActive) {o : Option Obj}
    {P : Finset String} (hP : (userPermissions u o none).run w = .ok P) {p : String} :
    p ∈ P ↔ w.Allowed u.pk p (w.anchorOf o) := by
  rw [mem_userPermissions hP hactive]
  constructor
  · rintro ⟨a, ⟨row, hrow, huser, heffective, hfetch⟩, hvalid, hreach, hp⟩
    obtain ⟨scope, r, hscope, hr, rfl⟩ := prefetch_some.mp hfetch
    refine ⟨row, hrow, r, hr, huser, ⟨heffective, scope, hscope, hvalid⟩, ?_, hp⟩
    cases hx : w.anchorOf o <;> rw [hx] at hreach <;> exact hreach
  · rintro ⟨row, hrow, r, hr, huser, ⟨heffective, scope, hscope, hvalid⟩, hreach, hp⟩
    refine ⟨_, ⟨row, hrow, huser, heffective, prefetch_some.mpr ⟨scope, r, hscope, hr, rfl⟩⟩,
      hvalid, ?_, hp⟩
    cases hx : w.anchorOf o <;> rw [hx] at hreach <;> exact hreach

def HeldBefore (w : World) (c : Nat) (a : AssignmentRow) (p : String) (x : Anchor) : Prop :=
  w.Allowed a.user p x ∨ w.Allowed c p x

/-- A class of node instances that may be asked about: as persisted, say, or all
of them.  What the walk from one comes to is in it. -/
def UpClosed (w : World) (K : Obj → Prop) : Prop :=
  ∀ n o : Obj, K n → Reaches w.parentAttr n o → K o

def Asked (w : World) (K : Obj → Prop) (o : Option Obj) : Prop :=
  ∀ n : Obj, w.anchorOf o = .node n → K n

/-- Whatever the move revives is held already: at its scope node, or wherever
it reaches if it has none. -/
def MoveBacked (w : World) (K : Obj → Prop) (c : Nat) (r r' : RoleRow) : Prop :=
  ∀ a, w.Revived r r' a → ∀ p ∈ w.tables.roleLabels r.id,
    if a.isRootScope then
      ∀ o, w.Asked K o → w.ReachedBy (w.anchorOf o) a → w.HeldBefore c a p (w.anchorOf o)
    else w.HeldBefore c a p .everywhere ∧
      ∀ n, K n → w.isRow a.scopeCt a.scopeId n.row → w.HeldBefore c a p (.node n)

/-- Nobody gains a permission on an object where the actor did not hold it. -/
def GainsHeld (K : Obj → Prop) (w w' : World) (c : User) : Prop :=
  ∀ u o p P P', w.Asked K o → (userPermissions u o none).run w = .ok P → p ∉ P →
    (userPermissions u o none).run w' = .ok P' → p ∈ P' →
      ∀ Q, (userPermissions c o none).run w = .ok Q → p ∈ Q

variable {K : Obj → Prop}

theorem Allowed.below {u : Nat} {p : String} {n m : Obj} (hnm : Reaches w.parentAttr n m)
    (h : w.Allowed u p (.node m)) : w.Allowed u p (.node n) := by
  obtain ⟨a, ha, r, hr, hu, hconf, hreach, hp⟩ := h
  refine ⟨a, ha, r, hr, hu, hconf, hreach.imp_right ?_, hp⟩
  rintro ⟨q, ⟨m', hm', hq⟩, hrow⟩
  exact ⟨q, ⟨m', hnm.trans hm', hq⟩, hrow⟩

theorem MoveBacked.held {c : Nat} {r r' : RoleRow} (hK : w.UpClosed K)
    (h : w.MoveBacked K c r r') {a : AssignmentRow} (ha : w.Revived r r' a) {p : String}
    (hp : p ∈ w.tables.roleLabels r.id) {o : Option Obj} (ho : w.Asked K o)
    (hreach : w.ReachedBy (w.anchorOf o) a) : w.HeldBefore c a p (w.anchorOf o) := by
  have h := h a ha p hp
  cases hroot : a.isRootScope with
  | true =>
    rw [if_pos hroot] at h
    exact h o ho hreach
  | false =>
    rw [if_neg (by simp [hroot])] at h
    cases hanchor : w.anchorOf o with
    | everywhere => exact h.1
    | denied => simp [hanchor, ReachedBy, hroot] at hreach
    | unregistered => simp [hanchor, ReachedBy] at hreach
    | node x =>
      rw [hanchor] at hreach
      obtain hroot' | ⟨s, hs, hrow⟩ := hreach
      · simp [hroot] at hroot'
      · cases x with
        | plain => exact absurd hs not_ancestor_plain
        | object n =>
          obtain ⟨m, hnm, rfl⟩ := hs
          have hheld := h.2 m (hK n m (ho n hanchor) hnm) hrow
          exact hheld.imp (Allowed.below hnm) (Allowed.below hnm)

section SetRole

variable {r r' : RoleRow} (hr : w.tables.role r.id = some r) {t : Tables}
  (ht : t.toTableRows = w.tables.setRole r.id r') (hid : r'.id = r.id)
include hr ht hid

theorem setRole_allowed {u : Nat} {p : String} {x : Anchor} (h : (w.save t).Allowed u p x) :
    w.Allowed u p x ∨ ∃ a, w.Revived r r' a ∧ a.user = u ∧ p ∈ w.tables.roleLabels r.id ∧
      w.ReachedBy x a := by
  obtain ⟨a, ha, y, hy, hu, hconf, hreach, hp⟩ := h
  have ha : a ∈ w.tables.assignments := by
    rw [save_tables, ht] at ha
    exact ha
  have hp : p ∈ w.tables.roleLabels y.id := by
    simp only [save_tables, Tables.roleLabels, ht] at hp
    exact hp
  have hconf : w.Confers a y := hconf
  have hreach : w.ReachedBy x a := by cases x <;> exact hreach
  rcases (Tables.role_setRole hr hid ht).mp hy with ⟨hy, -⟩ | ⟨harole, rfl⟩
  · exact .inl ⟨a, ha, y, hy, hu, hconf, hreach, hp⟩
  · rw [hid] at hp
    by_cases hold : w.Confers a r
    · exact .inl ⟨a, ha, r, harole ▸ hr, hu, hold, hreach, hp⟩
    · exact .inr ⟨a, ⟨ha, harole, hold, hconf⟩, hu, hp, hreach⟩

theorem revived_allowed {a : AssignmentRow} (ha : w.Revived r r' a) {p : String} {x : Anchor}
    (hp : p ∈ w.tables.roleLabels r.id) (hreach : w.ReachedBy x a) :
    (w.save t).Allowed a.user p x := by
  refine ⟨a, ?_, r', (Tables.role_setRole hr hid ht).mpr (.inr ⟨ha.role, rfl⟩), rfl, ha.confers, ?_, ?_⟩
  · rw [save_tables, ht]
    exact ha.stored
  · cases x <;> exact hreach
  · simp only [save_tables, Tables.roleLabels, ht, hid]
    exact hp

theorem gainsHeld_of_moveBacked (hK : w.UpClosed K) {c : User} (hactive : c.isActive)
    (h : w.MoveBacked K c.pk r r') : GainsHeld K w (w.save t) c := by
  intro u o p P P' ho hP hnew hP' hp Q hQ
  have huser : u.isActive := by
    by_contra hinactive
    obtain rfl : ∅ = P' := by simpa [run_userPermissions, hinactive] using hP'
    simp at hp
  have hnot : ¬ w.Allowed u.pk p (w.anchorOf o) :=
    fun hold => hnew ((mem_userPermissions_allowed huser hP).mpr hold)
  have hafter : (w.save t).Allowed u.pk p (w.anchorOf o) :=
    (mem_userPermissions_allowed huser hP').mp hp
  rcases setRole_allowed hr ht hid hafter with hold | ⟨a, ha, hu, hlabel, hreach⟩
  · exact absurd hold hnot
  · rcases h.held hK ha hlabel ho hreach with hheld | hheld
    · exact absurd (hu ▸ hheld) hnot
    · exact (mem_userPermissions_allowed hactive hQ).mpr hheld

theorem moveBacked_of_gainsHeld {c : User} (hactive : c.isActive)
    (hforest : w.Grounded) (hreads : w.Readable) (hreads' : (w.save t).Readable)
    (h : GainsHeld K w (w.save t) c) : w.MoveBacked K c.pk r r' := by
  have hheld {a : AssignmentRow} (ha : w.Revived r r' a) {p : String}
      (hp : p ∈ w.tables.roleLabels r.id) {o : Option Obj} (ho : w.Asked K o)
      (hreach : w.ReachedBy (w.anchorOf o) a) : w.HeldBefore c.pk a p (w.anchorOf o) := by
    have hends := nodesEnd_of_acyclic hforest.toAcyclic
    have hwalk := hforest.walks o
    obtain ⟨P, hP⟩ := userPermissions_total hreads hends { pk := a.user } none hwalk
    obtain ⟨P', hP'⟩ := userPermissions_total (w := w.save t) hreads' hends
      { pk := a.user } none hwalk
    obtain ⟨Q, hQ⟩ := userPermissions_total hreads hends c none hwalk
    have hafter : p ∈ P' := (mem_userPermissions_allowed (w := w.save t) rfl hP').mpr
      (revived_allowed hr ht hid ha hp hreach)
    by_cases hold : p ∈ P
    · exact .inl ((mem_userPermissions_allowed rfl hP).mp hold)
    · exact .inr ((mem_userPermissions_allowed hactive hQ).mp
        (h _ o p P P' ho hP hold hP' hafter Q hQ))
  intro a ha p hp
  cases hroot : a.isRootScope with
  | true =>
    rw [if_pos rfl]
    exact fun o ho hreach => hheld ha hp ho hreach
  | false =>
    rw [if_neg (by simp)]
    refine ⟨hheld (o := none) ha hp (fun n hn => by cases hn) trivial, fun n hn hrow => ?_⟩
    obtain ⟨q, hq, -, -, name, -, l, hl, hsel⟩ := ha.confers.scope hroot
    have hmodel : q.model = n.row.model := by
      have hct := (w.db.generic_some hq).2.1
      exact w.site.schema.contentType_injective
        (Option.some.inj (hct.symm.trans (isRow_iff.mp hrow).2))
    have hm : w.hierarchy.isNodeModel n.model := by
      rw [Obj.model, ← hmodel]
      exact w.hierarchy.level_isNodeModel hl (Level.selects_model hsel)
    have hanchor : w.anchorOf (some n) = .node n := by rw [anchorOf, resolveAnchor, if_pos hm]
    rw [← hanchor]
    refine hheld ha hp (fun m hm => ?_) ?_
    · cases hanchor.symm.trans hm
      exact hn
    · rw [hanchor]
      exact .inr ⟨n.row, ⟨n, .refl _, rfl⟩, hrow⟩

end SetRole

theorem apply_ownerRead {changes : RoleService.Changes} {r : RoleRow} {v : Role}
    (hv : w.validateOwner (changes.apply w (w.loadRole r)) = .ok v) (hid : v.ownerId ≠ none) :
    ∃ o, orNone (w.genericObj v.ownerCt v.ownerId) = .ok o := by
  obtain ⟨hnone, -, -, rfl⟩ | ⟨owner, level, -, -, howner, hlevel, -, rfl⟩ := validateOwner_ok hv
  · exact absurd hnone hid
  · obtain ⟨l, -, hsel, -⟩ := mem_matchingLevels.mp hlevel
    unfold RoleService.Changes.apply at howner ⊢
    cases hchange : changes.owner with
    | none =>
      simp only [hchange] at howner ⊢
      exact ⟨some owner, (congrArg orNone howner).trans (orNone_ok _)⟩
    | some given =>
      simp only [hchange] at howner ⊢
      cases given with
      | none => cases howner
      | some o =>
        obtain rfl : o = owner := Option.some.inj (Except.ok.inj howner)
        have hread := genericObj_stored.mpr
          (isRow_generic (Level.selects_mem hsel) (isRow_iff.mpr ⟨rfl, rfl⟩))
        exact ⟨some (.stored o.row), (congrArg orNone hread).trans (orNone_ok _)⟩

theorem setRole_readable {r r' : RoleRow} (hreads : w.Readable) {t : Tables}
    (ht : t.toTableRows = w.tables.setRole r.id r')
    (howner : r'.ownerId ≠ none → ∃ o, orNone (w.genericObj r'.ownerCt r'.ownerId) = .ok o) :
    (w.save t).Readable where
  scopes a ha := by
    rw [save_tables, ht] at ha
    exact hreads.scopes a ha
  owners x hx := by
    rw [save_tables, ht, TableRows.setRole] at hx
    obtain ⟨hmem, -⟩ | ⟨_, -, -, rfl⟩ := Lib.Rows.mem_modify.mp hx
    · exact hreads.owners x hmem
    · exact howner

end World

namespace Helpdesk

def rename : Op Role :=
  RoleService.update (staffed.loadRole triage) (some dave) { name := some "triage" }

def moveBack : Op Role :=
  RoleService.update (staffed.loadRole triage) (some dave) { owner := some (some (.stored acme)) }

end Helpdesk

end ScopedAccess
