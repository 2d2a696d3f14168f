import ScopedAccess.Guarded

namespace ScopedAccess

def Query.principal : Query → Option User
  | .userPermissions u _ | .hasPerm u _ _ | .userCovers u _ | .roleVisible u _ => some u
  | .canManageAssignment actor _ => actor
  | .accessibleNodes u _ _ | .scopeFilterQ u _ _ => some u

theorem Query.asks (w : World) (q : Query) : q.program.Asks w (· ∈ q.principal) := by
  cases q with
  | userPermissions u o => exact asks_userPermissions (by rfl) o none
  | hasPerm u perm o => exact asks_hasPerm (by rfl) perm o none
  | userCovers u o => exact asks_userCovers (by rfl) o none
  | roleVisible u role => exact asks_roleVisible (by rfl) role none
  | canManageAssignment actor node => exact asks_canManageAssignment (fun _ hu => hu) node none
  | accessibleNodes u level permission => exact asks_accessibleNodes (by rfl) level none permission
  | scopeFilterQ u m permission => exact asks_scopeFilterQ (by rfl) m none permission

/-- What the atomic blocks opened since the store was made would bring back. -/
def undone : List Frame → List Tables
  | [] => []
  | .atomic tables _ :: frames => tables :: undone frames
  | .cache none :: frames => undone frames
  | .cache (some _) :: _ => []

namespace Session

variable {σ σ' : Session}

structure CacheFresh (σ : Session) : Prop where
  cache : σ.cache.StoreFresh σ.world
  undone : σ.cache.InUse true → ∀ t ∈ undone σ.frames, SameView σ.world.tables t

/-- While a store is in use a read must not meet an unreadable row outside its
window, and a creation must write over no assigned role. -/
def Meets (σ : Session) : Event → Prop
  | .read q => σ.cache.InUse σ.inAtomic → ∀ u ∈ q.principal, σ.world.DormantRead u
  | .call _ mutation _ => σ.cache.InUse true → mutation.Spares σ.world
  | _ => True

def MeetsAll (σ : Session) : List Event → Prop
  | [] => True
  | e :: es => σ.Meets e ∧ ∀ σ', σ.step e = some σ' → σ'.MeetsAll es

theorem CacheFresh.start (hstore : σ.cache.store = none) : σ.CacheFresh where
  cache _ s hs := by simp [hstore] at hs
  undone huse := by simp [Cache.InUse, hstore] at huse

theorem CacheFresh.answer (h : σ.CacheFresh) (q : Query) :
    ∃ cache, σ.cache.Reads σ.inAtomic σ.world cache ∧ (σ.answer q).2 = { σ.toConn with cache } ∧
      (σ.Meets (.read q) → (σ.answer q).1 = q.program.run σ.world) := by
  obtain ⟨cache, hreads, hsnd, hfst⟩ := Op.cached_read σ.inAtomic quiet
    q.program σ.toConn h.cache (q.asks σ.world)
  exact ⟨cache, hreads, hsnd, fun hmeets => hfst fun u hu huse => hmeets huse u hu⟩

theorem undone_of_not_inAtomic (h : σ.inAtomic = false) : undone σ.frames = [] := by
  unfold inAtomic at h
  generalize σ.frames = frames at h
  induction frames with
  | nil => rfl
  | cons f frames ih =>
    obtain ⟨hf, hframes⟩ := Bool.or_eq_false_iff.mp h
    cases f with
    | atomic t hooks => cases hf
    | cache outer =>
      cases outer with
      | none => exact ih hframes
      | some dirty => rfl

theorem CacheFresh.read (h : σ.CacheFresh) (q : Query) :
    { σ with toConn := (σ.answer q).2 }.CacheFresh := by
  obtain ⟨cache, hreads, hsnd, -⟩ := h.answer q
  rw [hsnd]
  refine ⟨hreads.storeFresh, fun huse => ?_⟩
  cases hatomic : σ.inAtomic with
  | true =>
    rw [hatomic] at hreads
    exact h.undone (hreads.inUse huse)
  | false =>
    intro t ht
    rw [undone_of_not_inAtomic hatomic] at ht
    cases ht

theorem CacheFresh.enterCache (h : σ.CacheFresh) (hstep : σ.step .enterCache = some σ') :
    σ'.CacheFresh := by
  simp only [Session.step] at hstep
  cases hs : σ.cache.store with
  | some store =>
    obtain rfl := Option.some.inj (by simpa only [hs] using hstep)
    exact ⟨h.cache, h.undone⟩
  | none =>
    obtain rfl := Option.some.inj (by simpa only [hs] using hstep)
    refine ⟨fun _ s hs' => ?_, fun _ t ht => by cases ht⟩
    obtain rfl : {} = s := Option.some.inj hs'
    exact .empty

theorem CacheFresh.leaveCache (h : σ.CacheFresh) (hstep : σ.step .leaveCache = some σ') :
    σ'.CacheFresh := by
  simp only [Session.step] at hstep
  cases hframes : σ.frames with
  | nil => simp [hframes] at hstep
  | cons f frames =>
    have hundone := h.undone
    rw [hframes] at hundone
    match f with
    | .atomic tables hooks => simp [hframes] at hstep
    | .cache none =>
      obtain rfl := Option.some.inj (by simpa only [hframes] using hstep)
      exact ⟨h.cache, hundone⟩
    | .cache (some dirty) =>
      obtain rfl := Option.some.inj (by simpa only [hframes] using hstep)
      exact .start rfl

theorem CacheFresh.begin (h : σ.CacheFresh) : σ.begin.CacheFresh where
  cache := h.cache
  undone huse t ht := by
    rcases List.mem_cons.mp ht with rfl | ht
    · exact .refl
    · exact h.undone huse t ht

theorem invalidated_inUse {c : Cache} {i : Invalidation}
    (huse : (c.invalidate false i).InUse true) : c.InUse true :=
  ⟨by simpa [Cache.invalidate] using huse.1, by simpa [Cache.invalidate, Cache.Bypassed] using huse.2⟩

theorem CacheFresh.runHooks (h : σ.CacheFresh) : σ.runHooks.CacheFresh := by
  suffices hfold : ∀ (hooks : List Invalidation) (c : Cache), c.StoreFresh σ.world →
      (c.InUse true → σ.cache.InUse true) →
      (hooks.foldl (·.invalidate false ·) c).StoreFresh σ.world ∧
        ((hooks.foldl (·.invalidate false ·) c).InUse true → σ.cache.InUse true) by
    obtain ⟨hsound, huse⟩ := hfold σ.hooks σ.cache h.cache id
    exact ⟨hsound, h.undone ∘ huse⟩
  intro hooks
  induction hooks with
  | nil => exact fun c hsound huse => ⟨hsound, huse⟩
  | cons i hooks ih =>
    exact fun c hsound huse => ih (c.invalidate false i) (hsound.invalidate i)
      (huse ∘ invalidated_inUse)

theorem CacheFresh.commit (h : σ.CacheFresh) (hstep : σ.commit = some σ') : σ'.CacheFresh := by
  unfold Session.commit at hstep
  cases hframes : σ.frames with
  | nil => simp [hframes] at hstep
  | cons f frames =>
    have hundone := h.undone
    rw [hframes] at hundone
    cases f with
    | cache outer => simp [hframes] at hstep
    | atomic tables hooks =>
      have hpopped : { σ with frames }.CacheFresh :=
        ⟨h.cache, fun huse t ht => hundone huse t (List.mem_cons_of_mem _ ht)⟩
      simp only [hframes, Option.some.injEq] at hstep
      subst hstep
      split
      · exact hpopped
      · exact hpopped.runHooks

theorem CacheFresh.rollback (h : σ.CacheFresh) (hstep : σ.rollback = some σ') : σ'.CacheFresh := by
  unfold Session.rollback at hstep
  cases hframes : σ.frames with
  | nil => simp [hframes] at hstep
  | cons f frames =>
    have hundone := h.undone
    rw [hframes] at hundone
    cases f with
    | cache outer => simp [hframes] at hstep
    | atomic tables hooks =>
      simp only [hframes, Option.some.injEq] at hstep
      subst hstep
      have hview (huse : σ.cache.InUse true) : SameView σ.world.tables tables :=
        hundone huse tables List.mem_cons_self
      refine ⟨Cache.storeFresh_iff.mpr fun huse => ?_, fun huse t ht => ?_⟩
      · exact Cache.storeFresh_iff.mp (h.cache.view (hview huse)) huse
      · exact (hview huse).symm.trans (hundone huse t (List.mem_cons_of_mem _ ht))

theorem CacheFresh.call (h : σ.CacheFresh) {actor : Option User} {mutation : Mutation}
    {rc : Receivers}
    (hmeets : σ.Meets (.call actor mutation rc))
    (hstep : σ.call (mutation.by_ actor) rc = some σ') : σ'.CacheFresh := by
  have hkept := Op.cached_kept (mutation.by_ actor) σ.begin.toConn ⟨σ.world.tables, rfl⟩ h.cache
    fun huse => Mutation.guarded rc actor (hmeets huse)
  simp only [Session.call] at hstep
  generalize (mutation.by_ actor).cached true rc σ.begin.toConn = r at hkept hstep
  obtain ⟨t, ht⟩ := hkept.frame
  obtain ⟨result, conn⟩ := r
  have hundone (huse : conn.cache.InUse true) := h.undone (hkept.inUse huse)
  cases result with
  | ok x =>
    have hview (huse : conn.cache.InUse true) : SameView σ.world.tables conn.world.tables :=
      hkept.post huse x rfl
    have hsound : { σ.begin with toConn := conn }.CacheFresh := by
      refine ⟨Cache.storeFresh_iff.mpr fun huse => ?_, fun huse t' ht' => ?_⟩
      · change ∀ s ∈ conn.cache.store, s.Fresh conn.world
        have hview := hview huse
        rw [show conn.world = σ.world.save t from ht] at hview ⊢
        exact Cache.storeFresh_iff.mp (hkept.storeFresh.view hview) huse
      · refine (hview huse).symm.trans ?_
        rcases List.mem_cons.mp ht' with rfl | ht'
        · exact .refl
        · exact hundone huse t' ht'
    exact hsound.commit hstep
  | error e =>
    simp only [Session.rollback, Session.begin, Option.some.injEq] at hstep
    subst hstep
    have hworld : conn.world.save σ.world.tables = σ.world := by
      rw [show conn.world = σ.world.save t from ht]
      rfl
    refine ⟨?_, fun huse t' ht' => ?_⟩
    · change conn.cache.StoreFresh (conn.world.save σ.world.tables)
      rw [hworld]
      exact hkept.storeFresh
    · exact hundone huse t' ht'

theorem CacheFresh.step (h : σ.CacheFresh) {e : Event} (hmeets : σ.Meets e)
    (hstep : σ.step e = some σ') : σ'.CacheFresh := by
  cases e with
  | enterCache => exact h.enterCache hstep
  | leaveCache => exact h.leaveCache hstep
  | begin => exact Option.some.inj hstep ▸ h.begin
  | commit => exact h.commit hstep
  | rollback => exact h.rollback hstep
  | advance now =>
    exact Option.some.inj hstep ▸ ⟨fun hclean s hs => (h.cache hclean s hs).advance now, h.undone⟩
  | read q => exact Option.some.inj hstep ▸ h.read q
  | call actor mutation rc => exact h.call hmeets hstep

theorem CacheFresh.steps (h : σ.CacheFresh) {es : List Event} (hmeets : σ.MeetsAll es)
    (hsteps : σ.steps es = some σ') : σ'.CacheFresh := by
  induction es generalizing σ with
  | nil => exact Option.some.inj hsteps ▸ h
  | cons e es ih =>
    obtain ⟨σ₁, hstep, hrest⟩ := Option.bind_eq_some_iff.mp hsteps
    exact ih (h.step hmeets.1 hstep) (hmeets.2 σ₁ hstep) hrest

/-- The request cache is transparent in every run whose creations write over no
assigned role behind it, for every read that no unreadable dormant row is in the way of. -/
theorem cache_transparent (hstore : σ.cache.store = none) {es : List Event}
    (hmeets : σ.MeetsAll es) (hsteps : σ.steps es = some σ') {q : Query}
    (hq : σ'.Meets (.read q)) : (σ'.answer q).1 = q.program.run σ'.world := by
  have hsound := (CacheFresh.start hstore).steps hmeets hsteps
  obtain ⟨cache, -, -, hanswer⟩ := hsound.answer q
  exact hanswer hq

end Session

namespace Helpdesk

abbrev daveAtAcme : Query := .userPermissions dave (some (.stored acme))

def undoneSuspension : List Event :=
  [.enterCache, .read daveAtAcme, .begin, .call (some alice) (.suspend (some 3) "leave") quiet,
    .rollback]

def start : Session := { world := staffed }

theorem dormantRead_of_effective {w : World} (u : User)
    (h : ∀ row ∈ w.tables.assignments, row.status = .active → row.isEffective w.now) :
    w.DormantRead u := by
  intro row hrow _ hactive hout
  rw [h row hrow hactive] at hout
  cases hout

theorem undoneSuspension_transparent : ∃ σ', start.steps undoneSuspension = some σ' ∧
    (σ'.answer daveAtAcme).1 = daveAtAcme.program.run σ'.world := by
  have hsteps := Option.some_get (x := start.steps undoneSuspension) (by decide)
  refine ⟨_, hsteps.symm, Session.cache_transparent rfl ?_ hsteps.symm ?_⟩
  · refine ⟨trivial, fun σ₁ h₁ => ⟨fun _ u _ => ?_, fun σ₂ h₂ => ⟨trivial, fun σ₃ h₃ =>
      ⟨fun _ => trivial, fun σ₄ h₄ => ⟨trivial, fun σ₅ h₅ => trivial⟩⟩⟩⟩⟩
    obtain rfl := Option.some.inj h₁
    exact dormantRead_of_effective u (by decide)
  · exact fun _ u _ => dormantRead_of_effective u (by decide)

abbrev bobAtBackend : Query := .userPermissions bob (some (.stored backend))

def seizure : List Event :=
  [.enterCache, .read bobAtBackend, .call (some alice) (.roleCall seize) quiet]

theorem seizure_stale : ∃ σ', start.steps seizure = some σ' ∧
    (σ'.answer bobAtBackend).1 = .ok ∅ ∧
    bobAtBackend.program.run σ'.world = .ok {"helpdesk.view_ticket"} := by
  have hsteps := Option.some_get (x := start.steps seizure) (by decide)
  exact ⟨_, hsteps.symm, by decide, by decide⟩

end Helpdesk

end ScopedAccess
