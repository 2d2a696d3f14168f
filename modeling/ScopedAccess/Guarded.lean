import ScopedAccess.CacheLaws

namespace ScopedAccess

open Op (ask raise write invalidateCache)

namespace Op

variable {α β : Type}

/-- Until it first invalidates something, the operation reads in states that look
like `w₀` only, and asks for the validity of loaded assignments only; if it gets
to its end that way the postcondition holds there. -/
def Guarded (receivers : Receivers) (w₀ : World) (post : α → World → Prop) :
    Op α → World → Prop
  | .pure x, w => post x w
  | .abort _, _ => True
  | .world k, w => (k w).Guarded receivers w₀ post w
  | .effective u at_ k, w => SameView w₀.tables w.tables ∧
    ∀ as, w.fetchEffective u (at_.getD w.now) = .ok as → (k as).Guarded receivers w₀ post w
  | .valid a k, w => SameView w₀.tables w.tables ∧ w.Loaded a ∧
    ∀ b, w.assignmentIsValid a = .ok b → (k b).Guarded receivers w₀ post w
  | .save t k, w => k.Guarded receivers w₀ post (w.save t)
  | .invalidate _ _, _ => True
  | .onCommit _ k, w => k.Guarded receivers w₀ post w
  | .send s k, w => receivers s = none → k.Guarded receivers w₀ post w

structure CacheKept (w₀ : World) (post : α → World → Prop) (s : Conn) (r : Py α × Conn) : Prop where
  frame : ∃ t, r.2.world = w₀.save t
  storeFresh : r.2.cache.StoreFresh w₀
  inUse : r.2.cache.InUse true → s.cache.InUse true
  post : r.2.cache.InUse true → ∀ x, r.1 = .ok x → post x r.2.world

section CacheKept

variable {rc : Receivers} {w₀ : World} {post : α → World → Prop} {s : Conn} {c : Cache}
  {r : Py α × Conn}

theorem CacheKept.of_inUse (hc : c.InUse true → s.cache.InUse true)
    (h : CacheKept w₀ post { s with cache := c } r) : CacheKept w₀ post s r :=
  ⟨h.frame, h.storeFresh, hc ∘ h.inUse, h.post⟩

theorem CacheKept.raised {e : Abort} (hframe : ∃ t, s.world = w₀.save t)
    (hsound : s.cache.StoreFresh w₀) :
    CacheKept w₀ post s (.error e, s) :=
  ⟨hframe, hsound, id, nofun⟩

variable (hframe : ∃ t, s.world = w₀.save t)
  (hview : s.cache.InUse true → SameView w₀.tables s.world.tables)
include hframe hview

theorem sound_here (hsound : s.cache.StoreFresh w₀) : s.cache.StoreFresh s.world := by
  obtain ⟨t, ht⟩ := hframe
  refine Cache.storeFresh_iff.mpr fun huse => ?_
  rw [ht] at hview ⊢
  exact Cache.storeFresh_iff.mp (hsound.view (hview huse)) huse

theorem sound_of_reads (hreads : s.cache.Reads true s.world c) : c.StoreFresh w₀ := by
  obtain ⟨t, ht⟩ := hframe
  refine Cache.storeFresh_iff.mpr fun huse => ?_
  have hsound := hreads.storeFresh
  rw [ht] at hview hsound
  exact Cache.storeFresh_iff.mp (hsound.unview (hview (hreads.inUse huse))) huse

end CacheKept

theorem cached_kept {rc : Receivers} {w₀ : World} {post : α → World → Prop} (p : Op α)
    (s : Conn) (hframe : ∃ t, s.world = w₀.save t) (hsound : s.cache.StoreFresh w₀)
    (hguard : s.cache.InUse true → p.Guarded rc w₀ post s.world) :
    CacheKept w₀ post s (p.cached true rc s) := by
  induction p generalizing s with
  | pure x =>
    refine ⟨hframe, hsound, id, fun huse y hy => ?_⟩
    obtain rfl : x = y := Except.ok.inj hy
    exact hguard huse
  | abort e => exact .raised hframe hsound
  | world k ih => exact ih s.world s hframe hsound hguard
  | effective u at_ k ih =>
    have hview (huse : s.cache.InUse true) := (hguard huse).1
    obtain ⟨found, c, hcached, hreads, hok, -⟩ :=
      Cache.effectiveAssignments_reads true (sound_here hframe hview hsound) u at_
    have hsound' := sound_of_reads hframe hview hreads
    refine .of_inUse hreads.inUse ?_
    simp only [cached, hcached]
    cases found with
    | error e => exact .raised hframe hsound'
    | ok as =>
      exact ih as { s with cache := c } hframe hsound' fun huse =>
        (hguard (hreads.inUse huse)).2 as (hok as rfl)
  | valid a k ih =>
    have hview (huse : s.cache.InUse true) := (hguard huse).1
    obtain ⟨c, hreads, hcached⟩ := Cache.isValid_reads true (sound_here hframe hview hsound)
      fun huse => (hguard huse).2.1
    have hsound' := sound_of_reads hframe hview hreads
    refine .of_inUse hreads.inUse ?_
    simp only [cached, hcached]
    cases hb : s.world.assignmentIsValid a with
    | error e => exact .raised hframe hsound'
    | ok b =>
      exact ih b { s with cache := c } hframe hsound' fun huse =>
        (hguard (hreads.inUse huse)).2.2 b hb
  | save t k ih =>
    obtain ⟨t₀, ht₀⟩ := hframe
    have h := ih { s with world := s.world.save t } ⟨t, by rw [ht₀]; rfl⟩ hsound hguard
    exact ⟨h.frame, h.storeFresh, h.inUse, h.post⟩
  | invalidate i k ih =>
    have hidle : ¬ (s.cache.invalidate true i).InUse true :=
      fun huse => huse.2 ⟨Bool.or_true _, rfl⟩
    exact .of_inUse (fun huse => absurd huse hidle)
      (ih { s with cache := s.cache.invalidate true i } hframe (hsound.invalidate i)
        fun huse => absurd huse hidle)
  | onCommit i k ih =>
    have h := ih { s with hooks := s.hooks ++ [i] } hframe hsound hguard
    exact ⟨h.frame, h.storeFresh, h.inUse, h.post⟩
  | send sig k ih =>
    simp only [cached]
    cases hsig : rc sig with
    | some e => exact .raised hframe hsound
    | none => exact ih s hframe hsound fun huse => hguard huse hsig

namespace Guarded

variable {rc : Receivers} {w₀ w : World} {post : β → World → Prop}

theorem bind {p : Op α} {f : α → Op β}
    (h : p.Guarded rc w₀ (fun x w => (f x).Guarded rc w₀ post w) w) :
    (p >>= f).Guarded rc w₀ post w := by
  change (p.bind f).Guarded rc w₀ post w
  induction p generalizing w with
  | pure x => exact h
  | abort e => exact trivial
  | world k ih => exact ih w h
  | effective u at_ k ih => exact ⟨h.1, fun as has => ih as (h.2 as has)⟩
  | valid a k ih => exact ⟨h.1, h.2.1, fun b hb => ih b (h.2.2 b hb)⟩
  | save t k ih => exact ih h
  | invalidate i k ih => exact trivial
  | onCommit i k ih => exact ih h
  | send sig k ih => exact fun hsig => ih (h hsig)

theorem of_run {p : Op β} (h : p.Guarded rc w₀ (fun _ _ => True) w)
    (hpost : ∀ x w', p.run rc w = .ok (x, w') → post x w') : p.Guarded rc w₀ post w := by
  induction p generalizing w with
  | pure x => exact hpost x w rfl
  | abort e => exact trivial
  | world k ih => exact ih w h hpost
  | effective u at_ k ih =>
    refine ⟨h.1, fun as has => ih as (h.2 as has) fun x w' hrun => hpost x w' ?_⟩
    simpa only [run, has] using hrun
  | valid a k ih =>
    refine ⟨h.1, h.2.1, fun b hb => ih b (h.2.2 b hb) fun x w' hrun => hpost x w' ?_⟩
    simpa only [run, hb] using hrun
  | save t k ih => exact ih h hpost
  | invalidate i k ih => exact trivial
  | onCommit i k ih => exact ih h hpost
  | send sig k ih =>
    refine fun hsig => ih (h hsig) fun x w' hrun => hpost x w' ?_
    simpa only [run, hsig] using hrun

theorem ite {c : Prop} [Decidable c] {p q : Op β} (hp : c → p.Guarded rc w₀ post w)
    (hq : ¬ c → q.Guarded rc w₀ post w) : (if c then p else q).Guarded rc w₀ post w := by
  split
  · exact hp ‹_›
  · exact hq ‹_›

theorem reject {c : Prop} [Decidable c] {cls : ExnClass} {message : String} {p : Op β}
    (hp : p.Guarded rc w₀ post w) : (if c then raise cls message else p).Guarded rc w₀ post w :=
  .ite (fun _ => trivial) fun _ => hp

theorem ask {f : World → Op β} (h : (f w).Guarded rc w₀ post w) :
    (Op.ask >>= f).Guarded rc w₀ post w := h

theorem liftPy {p : Py α} {f : α → Op β} (h : ∀ x, p = .ok x → (f x).Guarded rc w₀ post w) :
    ((liftM p : Op α) >>= f).Guarded rc w₀ post w := by
  cases p with
  | error e => exact trivial
  | ok x => exact h x rfl

theorem read {p : Read α} {f : α → Op β} (hview : SameView w₀.tables w.tables)
    (hasks : p.Asks w fun _ => True) (h : ∀ x, (f x).Guarded rc w₀ post w) :
    ((liftM p : Op α) >>= f).Guarded rc w₀ post w := by
  refine .bind ?_
  change (ofRead p).Guarded rc w₀ _ w
  induction p with
  | pure x => exact h x
  | abort e => exact trivial
  | world k ih => exact ih w hasks
  | effective u at_ k ih => exact ⟨hview, fun as has => ih as (hasks.2 as has)⟩
  | valid a k ih => exact ⟨hview, hasks.1, fun b hb => ih b (hasks.2 b hb)⟩

theorem write {rows : TableRows} {f : Unit → Op β}
    (h : ∀ t : Tables, t.toTableRows = rows → (f ()).Guarded rc w₀ post (w.save t)) :
    (Op.write rows >>= f).Guarded rc w₀ post w := by
  unfold Op.write
  rw [LawfulMonad.bind_assoc]
  exact .liftPy fun t ht => h t (TableRows.commit_ok ht)

theorem refreshForMutation (role : Role) (f : Role → Op β) :
    (ScopedAccess.refreshForMutation role >>= f).Guarded rc w₀ post w := by
  unfold ScopedAccess.refreshForMutation
  refine .bind (.ask ?_)
  cases role.pk.bind w.tables.role with
  | none => exact trivial
  | some row => exact trivial

end Guarded

end Op

open Op (Guarded)

variable {rc : Receivers} {w : World}

namespace ScopeAssignment

theorem grant_guarded (user : User) (role : Role) (actor : Option User) (level : Option String)
    (scope : Option Obj) (validFrom validUntil : Option Time)
    (post : AssignmentRow → World → Prop) :
    (grant user role actor level scope validFrom validUntil).Guarded rc w post w := by
  unfold grant
  exact .ask (.liftPy fun level _ => .reject (.refreshForMutation role _))

theorem authorizeTransition_guarded (pk : Option Nat) (actor : Option User)
    {post : Assignment → World → Prop} (hpost : ∀ a, post a w) :
    (authorizeTransition pk actor).Guarded rc w post w := by
  cases pk with
  | none => exact trivial
  | some pk =>
    unfold authorizeTransition
    refine .ask ?_
    cases (w.tables.assignment pk).bind w.loadAssignment with
    | none => exact trivial
    | some a =>
      refine .liftPy fun scope _ => ?_
      have hasks (n : Option Obj) : (canManageAssignment actor n none).Asks w fun _ => True :=
        asks_canManageAssignment (fun _ _ => trivial) n none
      dsimp only
      split
      · exact .read .refl (hasks _) fun allowed => .reject (hpost a)
      · exact .read .refl (hasks _) fun allowed => .reject (hpost a)

theorem finish_guarded (a : Assignment) (target : AssignmentStatus)
    (allowedFrom : List AssignmentStatus) (changes : AssignmentRow → AssignmentRow)
    (signal : AssignmentRow → Signal) (post : Unit → World → Prop) :
    (finish a target allowedFrom changes signal).Guarded rc w post w := by
  unfold finish transition
  refine .bind (.ask ?_)
  cases w.tables.assignment a.row.id with
  | none => exact trivial
  | some row => exact .reject (.write fun t _ => trivial)

theorem suspend_guarded (pk : Option Nat) (actor : Option User) (reason : String)
    (post : Unit → World → Prop) : (suspend pk actor reason).Guarded rc w post w :=
  .bind (authorizeTransition_guarded pk actor fun a => finish_guarded a _ _ _ _ post)

theorem revoke_guarded (pk : Option Nat) (actor : Option User) (reason : String)
    (post : Unit → World → Prop) : (revoke pk actor reason).Guarded rc w post w :=
  .bind (authorizeTransition_guarded pk actor fun a => .ask (finish_guarded a _ _ _ _ post))

theorem reactivate_guarded (pk : Option Nat) (actor : Option User) (reason : String)
    (post : Unit → World → Prop) : (reactivate pk actor reason).Guarded rc w post w :=
  .bind (authorizeTransition_guarded pk actor fun a => .reject (.refreshForMutation a.role _))

end ScopeAssignment

theorem Saved.view {v : Role} {pk : Nat} {createdAt : Time} {t : Tables}
    (h : Saved w v pk createdAt t.toTableRows)
    (hfree : ∀ a ∈ w.tables.assignments, a.role ≠ pk) : SameView w.tables t := by
  have hview (hassign : t.assignments = w.tables.assignments)
      (hperms : t.rolePermissions = w.tables.rolePermissions)
      (hrole : ∀ id x, id ≠ pk → (t.role id = some x ↔ w.tables.role id = some x)) :
      SameView w.tables t :=
    ⟨hassign, fun a ha => Option.ext fun x => hrole a.role x (hfree a ha),
      fun a _ => by rw [Tables.roleLabels, Tables.roleLabels, hperms]⟩
  generalize hrows : t.toTableRows = rows at h
  cases h with
  | overwrite hpk hrow hcreated =>
    refine hview (by rw [hrows]; rfl) (by rw [hrows]; rfl) fun id x hne => ?_
    rw [Tables.role_setRole (y := v.columns _ createdAt) hrow rfl hrows]
    simp [hne]
  | fresh hpk hfresh =>
    refine hview (by rw [hrows]; rfl) (by rw [hrows]; rfl) fun id x hne => ?_
    rw [Tables.role_addRole hfresh hrows]
    simp [hne, Role.columns]

def World.Unassigned (w : World) (permissions : List Permission) (fields : RoleService.Fields) :
    Prop :=
  permissions = [] → ∀ r, fields.pk.bind w.tables.role = some r →
    ∀ a ∈ w.tables.assignments, a.role ≠ r.id

theorem saveRole_guarded (role : Role) {post : Role → World → Prop}
    (hpost : ∀ x w', (saveRole role).run rc w = .ok (x, w') → post x w') :
    (saveRole role).Guarded rc w post w := by
  refine .of_run ?_ hpost
  unfold saveRole
  refine .ask (.liftPy fun v _ => ?_)
  cases v.pk with
  | none => exact .write fun t _ => trivial
  | some pk =>
    refine .ite (fun _ => ?_) fun _ => .write fun t _ => trivial
    cases v.createdAt with
    | none => exact trivial
    | some createdAt => exact .write fun t _ => trivial

theorem Saved.free {v : Role} {pk : Nat} {createdAt : Time} {rows : TableRows}
    (h : Saved w v pk createdAt rows)
    (hfree : ∀ r, v.pk.bind w.tables.role = some r → ∀ a ∈ w.tables.assignments, a.role ≠ r.id) :
    ∀ a ∈ w.tables.assignments, a.role ≠ pk := by
  cases h with
  | overwrite hpk hrow hcreated => exact hfree _ (by rw [hpk]; exact hrow)
  | fresh hpk hfresh =>
    rintro a ha rfl
    obtain ⟨r, hr⟩ := w.tables.exists_role ha
    obtain ⟨hmem, hid⟩ := w.tables.role_eq_some.mp hr
    exact hfresh (hid ▸ List.mem_map_of_mem hmem)

namespace RoleService

theorem create_guarded (actor : Option User) {permissions : List Permission} {fields : Fields}
    (hfree : w.Unassigned permissions fields) :
    (create actor permissions fields).Guarded rc w (fun _ w' => SameView w.tables w'.tables) w := by
  unfold create
  refine .ask (.liftPy fun v hv => .read .refl ?_ fun allowed => .reject (.bind ?_))
  · exact asks_canManageRole (fun _ _ => trivial) v none
  · refine saveRole_guarded v fun role w' hsave => .ite (fun hempty => ?_) fun _ => ?_
    · obtain ⟨v', pk, createdAt, t, hv', hsaved, -, rfl⟩ := saveRole_ok hsave
      have hpk : v'.pk = fields.pk :=
        (World.validateOwner_pk hv').trans ((World.validateOwner_pk hv).trans rfl)
      exact hsaved.view (hsaved.free (hpk ▸ hfree (List.isEmpty_iff.mp hempty)))
    · unfold Role.grantPermissions
      rw [bind_assoc]
      exact .refreshForMutation role _

theorem update_guarded (role : Role) (actor : Option User) (changes : Changes)
    (post : Role → World → Prop) : (update role actor changes).Guarded rc w post w :=
  .refreshForMutation role _

theorem delete_guarded (role : Role) (actor : Option User) (post : Unit → World → Prop) :
    (delete role actor).Guarded rc w post w :=
  .refreshForMutation role _

end RoleService

def Mutation.Spares (w : World) : Mutation → Prop
  | .roleCall (.create permissions fields) => w.Unassigned permissions fields
  | _ => True

theorem Mutation.guarded (rc : Receivers) (actor : Option User) {mutation : Mutation}
    (h : mutation.Spares w) :
    (mutation.by_ actor).Guarded rc w (fun _ w' => SameView w.tables w'.tables) w := by
  cases mutation with
  | grant user role level scope validFrom validUntil =>
    exact .bind (ScopeAssignment.grant_guarded ..)
  | suspend pk reason => exact ScopeAssignment.suspend_guarded ..
  | reactivate pk reason => exact ScopeAssignment.reactivate_guarded ..
  | revoke pk reason => exact ScopeAssignment.revoke_guarded ..
  | roleCall call =>
    cases call with
    | create permissions fields => exact .bind (RoleService.create_guarded actor h)
    | update role changes => exact .bind (RoleService.update_guarded ..)
    | delete role => exact RoleService.delete_guarded ..
    | grantPermissions role perms => exact .refreshForMutation role _
    | revokePermissions role perms => exact .refreshForMutation role _

end ScopedAccess
