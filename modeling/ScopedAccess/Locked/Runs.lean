import ScopedAccess.Locked.Checks

namespace ScopedAccess.Locked

open Concurrent (Audit)
open Lib.Locks (Guarded)
open Lib.Shared (System Obeys Reachable own own_split)
open Read (Always)

inductive Saves (pk : Option Nat) : Edit → Prop
  | added {role : Role} {now : Time} : Saves pk (.roleAdded pk role now)
  | overwritten {row : RoleRow} (hpk : pk = some row.id) : Saves pk (.roleSet row)

/-- What the calls write, with the role that they have locked. -/
inductive Writes : Call → Option Nat → Edit → Prop
  | granted {user : User} {role : Role} {actor : Option User} {level : Option String}
    {scope : Option Obj} {validFrom validUntil : Option Time} {pk : Nat} {row : AssignmentRow}
    (hrow : row.role = pk) :
    Writes (.grant user role actor level scope validFrom validUntil) (some pk) (.assigned row)
  | suspended {pk : Option Nat} {actor : Option User} {reason : String} {key : Nat} :
    Writes (.suspend pk actor reason) none (.moved key .suspended [.active] none)
  | reactivated {pk : Option Nat} {actor : Option User} {reason : String} {key role : Nat} :
    Writes (.reactivate pk actor reason) (some role) (.moved key .active [.suspended] none)
  | revoked {pk : Option Nat} {actor : Option User} {reason : String} {key : Nat}
    {changes : Option Audit} :
    Writes (.revoke pk actor reason) none (.moved key .revoked [.active, .suspended] changes)
  | created {actor : Option User} {fields : RoleService.Fields} {e : Edit}
    (he : Saves fields.pk e) : Writes (.create actor fields) none e
  | updated {role : Role} {actor : Option User} {changes : RoleService.Changes} {pk : Nat} {e : Edit}
    (he : Saves (some pk) e) : Writes (.update role actor changes) (some pk) e
  | deleted {role : Role} {actor : Option User} {pk : Nat} :
    Writes (.delete role actor) (some pk) (.roleDeleted pk)
  | extended {role : Role} {perms : List Permission} {actor : Option User} {pk : Nat} :
    Writes (.grantPermissions role perms actor) (some pk) (.extended pk perms)
  | reduced {role : Role} {perms : List Permission} {actor : Option User} {pk : Nat} :
    Writes (.revokePermissions role perms actor) (some pk) (.reduced pk perms)

section Writes

variable {w : World} {pk : Option Nat}

theorem saved_saves {role : Role} (hpk : role.pk = pk) :
    (saved role).Always fun d => Saves pk d.edit := by
  refine .after _ fun w => .py fun v hv => ?_
  have hvpk : v.pk = pk := (World.validateOwner_pk hv).trans hpk
  subst hvpk
  cases hpk : v.pk with
  | none => exact .added
  | some pk =>
    dsimp only
    split
    · exact .added
    · cases v.createdAt with
      | none => trivial
      | some createdAt => exact .overwritten rfl

theorem always_refreshed {pk : Nat} {decide : Role → Read Decision} {post : Decision → Prop}
    (h : ∀ role, role.pk = some pk → (decide role).Always post) :
    (refreshed pk >>= decide).Always post := by
  refine .bind (.after Read.ask fun w => ?_)
  cases hrow : w.tables.role pk with
  | none => trivial
  | some row => exact h _ (congrArg some (w.tables.role_eq_some.mp hrow).2)

theorem always_refreshForMutation {c : Call} {decide : Role → Read Decision}
    (h : ∀ role pk, role.pk = some pk → (decide role).Always fun d => Writes c (some pk) d.edit)
    (role : Role) : (refreshForMutation role decide).Always fun plan =>
      plan.decide.Always fun d => Writes c plan.role d.edit := by
  unfold refreshForMutation
  cases role.pk with
  | none => trivial
  | some pk => exact always_refreshed fun role' hpk => h role' pk hpk

theorem plan_writes (c : Call) : c.plan.Always fun plan =>
    plan.decide.Always fun d => Writes c plan.role d.edit := by
  cases c with
  | grant user r actor level scope validFrom validUntil =>
    refine .after _ fun w => .after _ fun level' => ?_
    split
    · trivial
    · refine always_refreshForMutation (fun role pk hpk => .after _ fun v => ?_) r
      refine .check (.check (.check (.after _ fun v' => .pure (.granted ?_))))
      dsimp only
      rw [hpk, Option.getD_some]
  | suspend pk actor reason => exact .after _ fun a => .pure .suspended
  | reactivate pk actor reason =>
    refine .after _ fun a => .after _ fun w => ?_
    dsimp only
    split
    · trivial
    · refine always_refreshForMutation (fun role pk _ => .after _ fun scope => ?_) a.role
      exact .check (.pure .reactivated)
  | revoke pk actor reason => exact .after _ fun a => .after _ fun w => .pure .revoked
  | create actor fields =>
    refine .after _ fun w => .py fun v hv => .check ?_
    exact (saved_saves ((World.validateOwner_pk hv).trans rfl)).mono fun d => .created
  | update r actor changes =>
    refine always_refreshForMutation (fun role pk hpk => .check (.after _ fun w => ?_)) r
    refine .py fun v hv => .check ?_
    refine (saved_saves ?_).mono fun d => .updated
    rw [World.validateOwner_pk hv, RoleService.Changes.apply_pk, hpk]
  | delete r actor =>
    refine always_refreshForMutation (fun role pk hpk => .check (.after _ fun w => ?_)) r
    dsimp only
    split
    · trivial
    · rw [hpk]
      exact .deleted
  | grantPermissions r perms actor =>
    refine always_refreshForMutation (fun role pk hpk => ?_) r
    cases actor with
    | none => trivial
    | some user =>
      refine .check (.after _ fun w => .after _ fun forbidden => ?_)
      split
      · trivial
      · rw [hpk]
        exact .extended
  | revokePermissions r perms actor =>
    refine always_refreshForMutation (fun role pk hpk => .check (.after _ fun w => ?_)) r
    rw [hpk]
    exact .reduced

theorem Writes.within {c : Call} {role : Option Nat} {e : Edit} (h : Writes c role e) (n : Nat) :
    ∀ k ∈ (e.withKey n).touches, k ∈ (e.withKey n).locks ∨ ∃ pk ∈ role, k = .role pk := by
  have hsaves {pk : Option Nat} (he : Saves pk e) : (e.withKey n).touches = (e.withKey n).locks := by
    cases he with
    | added => cases pk <;> rfl
    | overwritten => rfl
  intro k hk
  cases h with
  | granted | suspended | reactivated | revoked | deleted => exact .inl hk
  | created he | updated he => exact .inl (hsaves he ▸ hk)
  | extended | reduced => exact .inr ⟨_, rfl, List.mem_singleton.mp hk⟩

end Writes

structure Client where
  conn : Nat
  code : Code

abbrev Ans (_ : Client) : Type := Unit

abbrev Pool := Lib.Shared.Pool sig Abort Store Ans

/-- What the host does to its own tables, the clock, and what is connected to the signals. -/
def Drifts (s s' : Store) : Prop := s'.db = s.db ∧ s'.next = s.next

/-- Nobody else has locked the rows that the statement would lock. -/
def Stmt.Ready (s : Store) : Stmt → Prop
  | .lock conn pk => s.hasRole conn pk = true → s.db.Free conn (.role pk)
  | .write conn e =>
    e.holds (s.visible conn) = true → ∀ k ∈ (e.withKey s.next).locks, s.db.Free conn k
  | _ => True

def Admits (s : Store) (_ : Trace) (i : Nat) (c : Client) (o : Stmt) : Prop := c.conn = i ∧ o.Ready s

def platform : System sig Abort Store Ans where
  act := act
  body c := c.code.body c.conn
  drifts := Drifts
  admits := Admits

def prompt (i : Nat) (c : Client) : Stmt → Bool
  | .lock .. | .write .. => false
  | _ => c.conn = i

theorem prompt_admits (s : Store) (h : Trace) (i : Nat) (c : Client) (o : Stmt)
    (ho : prompt i c o = true) : platform.admits s h i c o := by
  cases o with
  | lock | write => cases ho
  | _ => exact ⟨of_decide_eq_true ho, trivial⟩

theorem platform_obeys (i : Nat) (c : Client) :
    Obeys platform.act i (May i c.conn c.code) (fun _ _ => True) (platform.body c) [] :=
  Sends.part (fun _ hc => hc) []

variable {s : Store} {h : Trace} {i conn : Nat} {code : Code} {o : Stmt} {P : Pool}

theorem May.sender (h : May i conn code h o) : o.Quiet ∨ o.conn = conn := by
  cases h with
  | ask | effective | valid | send => exact .inl trivial
  | enter | leave | undo | lock | write => exact .inr rfl

theorem act_quiet (ho : o.Quiet) (s : Store) : (act o s).2.db = s.db := by
  rw [act, ho.change]
  rfl

structure LocksHold (s : Store) (h : Trace) : Prop where
  guarded : Guarded theory s.db
  quiet : ∀ {i later e earlier}, h = later ++ e :: earlier →
    (∀ e' ∈ later, e'.thread = i → e'.op.Quiet) →
      s.db.blocks i = (act e.op e.before).2.db.blocks i ∧
        ∀ k ∈ s.db.held i, part k s.db.committed = part k (act e.op e.before).2.db.committed
  kept : ∀ {i k later e earlier}, h = later ++ e :: earlier →
    (∀ e' ∈ e :: later, k ∈ e'.before.db.held i) → k ∈ s.db.held i →
      part k s.db.committed = part k e.before.db.committed
  opened : ∀ e ∈ h, ∀ conn pk, e.op = .lock conn pk → e.before.db.blocks conn ≠ []

theorem LocksHold.planned (hs : LocksHold s h) {c : Call} {plan : Plan}
    (hplan : Planned i i c plan (own i h)) : s.db.blocks i ≠ [] := by
  obtain ⟨es, v, h₀, hes, heq⟩ := hplan
  obtain ⟨later, earlier, rfl, hown, -⟩ := own_split heq
  have hblocks := (hs.quiet rfl fun e he hi => hes.quiet e (hown ▸ Lib.Shared.mem_own.mpr ⟨he, hi⟩)).1
  rw [hblocks]
  simp [act, Stmt.conn, Store.change, Lib.Locks.Db.run, Lib.Locks.Db.enter]

theorem LocksHold.holding (hs : LocksHold s h) {pk : Nat} {es rest : Trace} {v : Store}
    (heq : own i h = es ++ ⟨i, .lock i pk, true, v⟩ :: rest) (hquiet : ∀ e ∈ es, e.op.Quiet)
    (hpk : v.hasRole i pk = true) : .role pk ∈ s.db.held i := by
  obtain ⟨later, earlier, rfl, hown, -⟩ := own_split heq
  have hblocks := (hs.quiet rfl fun e he hi => hquiet e (hown ▸ Lib.Shared.mem_own.mpr ⟨he, hi⟩)).1
  have hopen := hs.opened _ (List.mem_append_right _ List.mem_cons_self) i pk rfl
  rw [Lib.Locks.Db.held, hblocks]
  simp only [act, Stmt.conn, Store.change, hpk, if_true]
  exact Lib.Locks.Db.mem_held_lock (Lib.Locks.Db.lock_ne_nil hopen) (.inl List.mem_cons_self)

theorem LocksHold.allowed (hs : LocksHold s h) (hmay : May i i code (own i h) o)
    (hready : o.Ready s) :
    (s.change o).Allowed theory s.db o.conn := by
  cases hmay with
  | enter | leave | undo | ask | effective | valid | send => trivial
  | @lock _ _ pk _ _ _ =>
    simp only [Store.change]
    split
    · exact hready ‹_›
    · trivial
  | @write c plan d es h₁ h₂ hcall hplan hheld hdecide heq =>
    simp only [Store.change]
    split
    · rename_i hwrites
      refine ⟨hready (Bool.and_eq_true_iff.mp hwrites).1, fun k hk => ?_⟩
      obtain ⟨ps, -, -, hps, -⟩ := hplan
      refine ((hdecide.always (hps.always (plan_writes c))).within _ k hk).imp_right ?_
      rintro ⟨pk, hpk, rfl⟩
      cases hheld with
      | unlocked hrole => simp [hrole] at hpk
      | locked hrole hhas =>
        obtain rfl : _ = pk := Option.some.inj (hrole.symm.trans hpk)
        exact hs.holding heq hdecide.quiet hhas
    · trivial

theorem LocksHold.act (hs : LocksHold s h) (hmay : May i i code (own i h) o) (hready : o.Ready s) :
    LocksHold (act o s).2 (⟨i, o, (act o s).1, s⟩ :: h) where
  guarded := hs.guarded.run (hs.allowed hmay hready)
  quiet := by
    intro j later e earlier heq hquiet
    cases later with
    | nil =>
      obtain ⟨rfl, rfl⟩ := List.cons.inj heq
      exact ⟨rfl, fun _ _ => rfl⟩
    | cons e' later =>
      obtain ⟨rfl, rfl⟩ := List.cons.inj heq
      obtain ⟨he', hlater⟩ := List.forall_mem_cons.mp hquiet
      obtain ⟨hblocks, hparts⟩ := hs.quiet rfl hlater
      by_cases ho : o.Quiet
      · rw [act_quiet ho]
        exact ⟨hblocks, hparts⟩
      · have hne : o.conn ≠ j := fun hj => ho (he' (hmay.sender.resolve_left ho ▸ hj))
        have hblocks' : (Locked.act o s).2.db.blocks j = s.db.blocks j := Lib.Locks.Db.blocks_run hne
        refine ⟨hblocks'.trans hblocks, fun k hk => ?_⟩
        have hk' : k ∈ s.db.held j := by rwa [Lib.Locks.Db.held, hblocks'] at hk
        exact (hs.guarded.part_run (hs.allowed hmay hready) hk' hk).trans (hparts k hk')
  kept := by
    intro j k later e earlier heq hheld hk
    obtain ⟨he, hlater⟩ := List.forall_mem_cons.mp hheld
    cases later with
    | nil =>
      obtain ⟨rfl, rfl⟩ := List.cons.inj heq
      exact hs.guarded.part_run (hs.allowed hmay hready) he hk
    | cons e' later =>
      obtain ⟨rfl, rfl⟩ := List.cons.inj heq
      obtain ⟨he', hlater⟩ := List.forall_mem_cons.mp hlater
      refine (hs.guarded.part_run (hs.allowed hmay hready) he' hk).trans (hs.kept rfl ?_ he')
      exact List.forall_mem_cons.mpr ⟨he, hlater⟩
  opened := by
    intro e he conn pk hop
    rcases List.mem_cons.mp he with rfl | he
    · obtain rfl : o = .lock conn pk := hop
      cases hmay with
      | lock hcall hplan hrole => exact hs.planned hplan
    · exact hs.opened e he conn pk hop

theorem locks_hold (hidle : ∀ conn, s.db.blocks conn = []) (hreached : Reachable platform s P) :
    LocksHold P.world P.history := by
  refine Reachable.invariant platform_obeys LocksHold ?_ ?_ ?_ hreached
  · exact {
      guarded := .start hidle
      quiet := fun heq => by simp at heq
      kept := fun heq => by simp at heq
      opened := fun e he => by simp at he }
  · rintro v v' h hs ⟨hdb, -⟩
    exact {
      guarded := hdb ▸ hs.guarded
      quiet := fun heq hquiet => hdb ▸ hs.quiet heq hquiet
      kept := fun heq hheld hk => hdb ▸ hs.kept heq hheld (hdb ▸ hk)
      opened := hs.opened }
  · rintro Q i t o - hs - hmay ⟨rfl, hready⟩
    exact hs.act hmay hready

end ScopedAccess.Locked
