import ScopedAccess.Concurrent.Calls

namespace ScopedAccess.Concurrent

open Lib.Shared (Prog Event History Obeys System)

abbrev Trace := History sig Store

inductive Code.Makes : Code → Call → Prop
  | here {c : Call} {next : Option Abort → Code} : Makes (.call c next) c
  | next {c c' : Call} {next : Option Abort → Code} {e : Option Abort} (h : (next e).Makes c') :
    Makes (.call c next) c'
  | inside {body : Code} {next : Option Abort → Code} {c : Call} (h : body.Makes c) :
    Makes (.atomic body next) c
  | after {body : Code} {next : Option Abort → Code} {e : Option Abort} {c : Call}
    (h : (next e).Makes c) : Makes (.atomic body next) c

def Asked (i : Nat) (h : Trace) (now : Time) : Prop :=
  ∃ r w, (⟨i, .ask, r, w⟩ : Event sig Store) ∈ h ∧ w.site.now = now

structure Shaped (row : AssignmentRow) : Prop where
  scope : row.scopeCt.isSome = row.scopeId.isSome
  level : row.scopeId.isSome = true → row.level.isSome = true

theorem Shaped.scopeCt {row : AssignmentRow} (h : Shaped row) (hid : row.scopeId = none) :
    row.scopeCt = none := by
  have hscope := h.scope
  rw [hid, Option.isSome_none, Option.isSome_eq_false_iff] at hscope
  exact Option.isNone_iff_eq_none.mp hscope

structure Granted (row : AssignmentRow) : Prop extends Shaped row where
  status : row.status = .active
  revokedBy : row.revokedBy = none
  revokedAt : row.revokedAt = none
  reason : row.reason = ""

/-- The calls that have returned inside a block, and the changes made there, the newest
first. -/
structure Frame where
  calls : List Call := []
  done : List (Nat × Entry) := []

def Frame.over (F G : Frame) : Frame := ⟨F.calls ++ G.calls, F.done ++ G.done⟩

def Frame.push (F : Frame) : List Frame → List Frame
  | [] => []
  | G :: gs => F.over G :: gs

def Stmt.frames : (o : Stmt) → o.Res → List Frame → List Frame
  | .enter _, _, gs => {} :: gs
  | .leave _ _, _, [] => []
  | .leave _ call, _, F :: gs => Frame.push ⟨call.toList ++ F.calls, F.done⟩ gs
  | .undo _, _, gs => gs.tail
  | .update _ pk target _ changes, true, gs => Frame.push ⟨[], [(pk, .moved target changes)]⟩ gs
  | .insert _ _, some row, gs => Frame.push ⟨[], [(row.id, .granted row)]⟩ gs
  | .update .., false, gs | .insert .., none, gs | .select .., _, gs | .ask, _, gs
  | .effective .., _, gs | .valid _, _, gs | .send _, _, gs => gs

def frames (h : Trace) : List Frame := h.foldr (fun e gs => e.op.frames e.res gs) []

/-- The change that a call is there to make. -/
inductive Made : Call → Nat × Entry → Prop
  | grant {user : User} {role : Role} {actor : Option User} {level : Option String}
    {scope : Option Obj} {validFrom validUntil : Option Time} {row : AssignmentRow}
    (huser : row.user = user.pk) (hscope : row.scopeId = scope.map (·.row.pk))
    (hfrom : row.validFrom = validFrom) (huntil : row.validUntil = validUntil)
    (hby : row.grantedBy = actor.map User.pk) :
    Made (.grant user role actor level scope validFrom validUntil) (row.id, .granted row)
  | suspend {pk : Nat} {actor : Option User} {reason : String} :
    Made (.suspend (some pk) actor reason) (pk, .moved .suspended none)
  | reactivate {pk : Nat} {actor : Option User} {reason : String} :
    Made (.reactivate (some pk) actor reason) (pk, .moved .active none)
  | revoke {pk : Nat} {actor : Option User} {reason : String} {now : Time} :
    Made (.revoke (some pk) actor reason)
      (pk, .moved .revoked (some ⟨actor.map User.pk, now, reason⟩))

def Matched (calls : List Call) (done : List (Nat × Entry)) : Prop := List.Forall₂ Made calls done

theorem Matched.append {calls calls' : List Call} {done done' : List (Nat × Entry)}
    (h : Matched calls done) (h' : Matched calls' done') :
    Matched (calls ++ calls') (done ++ done') := List.rel_append h h'

inductive May (i conn : Nat) (code : Code) (h : Trace) : Stmt → Prop
  | enter : May i conn code h (.enter conn)
  | leave {call : Option Call}
    (hmatched : ∀ F gs, frames h = F :: gs → Matched (call.toList ++ F.calls) F.done) :
    May i conn code h (.leave conn call)
  | undo : May i conn code h (.undo conn)
  | select {pk : Nat} : May i conn code h (.select conn pk)
  | ask : May i conn code h .ask
  | effective {u : User} {at_ : Option Time} : May i conn code h (.effective u at_)
  | valid {a : Assignment} : May i conn code h (.valid a)
  | send {s : Signal} : May i conn code h (.send s)
  | insert {row : AssignmentRow} (hrow : Granted row) (hopen : frames h ≠ []) :
    May i conn code h (.insert conn row)
  | suspend {pk : Nat} {actor : Option User} {reason : String}
    (hcall : code.Makes (.suspend (some pk) actor reason)) (hopen : frames h ≠ []) :
    May i conn code h (.update conn pk .suspended [.active] none)
  | reactivate {pk : Nat} {actor : Option User} {reason : String}
    (hcall : code.Makes (.reactivate (some pk) actor reason)) (hopen : frames h ≠ []) :
    May i conn code h (.update conn pk .active [.suspended] none)
  | revoke {pk : Nat} {actor : Option User} {reason : String} {now : Time}
    (hcall : code.Makes (.revoke (some pk) actor reason)) (hnow : Asked i h now)
    (hopen : frames h ≠ []) :
    May i conn code h
      (.update conn pk .revoked [.active, .suspended] (some ⟨actor.map User.pk, now, reason⟩))

section Safe

variable {i conn : Nat} {code : Code} {α β : Type} {gs : List Frame}

/-- Whatever it finds, from the open blocks on. -/
def Safe (i conn : Nat) (code : Code) (gs : List Frame) (post : Except Abort α → List Frame → Prop)
    (p : M α) : Prop :=
  ∀ h, frames h = gs → Obeys act i (May i conn code) (fun h' x => post x (frames h')) p h

def Quiet (i conn : Nat) (code : Code) (p : M α) : Prop :=
  ∀ gs, Safe i conn code gs (fun _ gs' => gs' = gs) p

variable {post : Except Abort α → List Frame → Prop} {post' : Except Abort β → List Frame → Prop}

theorem open_of_eq {h : Trace} {F : Frame} (hgs : frames h = F :: gs) : frames h ≠ [] := by
  rw [hgs]
  exact List.cons_ne_nil _ _

theorem Safe.pure {x : α} (hpost : post (.ok x) gs) : Safe i conn code gs post (pure x) := by
  intro h hgs
  subst hgs
  exact hpost

theorem Safe.fail {e : Abort} (hpost : post (.error e) gs) :
    Safe i conn code gs post (Prog.raise e : M α) := by
  intro h hgs
  subst hgs
  exact hpost

theorem Safe.perform {o : Stmt} {f : o.Res → M β} (hmay : ∀ h, frames h = gs → May i conn code h o)
    (hf : ∀ w, Safe i conn code (o.frames (act o w).1 gs) post' (f (act o w).1)) :
    Safe i conn code gs post' (perform o >>= f) := fun h hgs =>
  Obeys.perform (hmay h hgs) fun w => hf w _ (congrArg (o.frames _) hgs)

theorem Safe.attempt {p : M α} {f : Except Abort α → M β} (hp : Safe i conn code gs post p)
    (hf : ∀ x gs', post x gs' → Safe i conn code gs' post' (f x)) :
    Safe i conn code gs post' (p.attempt >>= f) := fun h hgs =>
  Obeys.attempt ((hp h hgs).mono fun h' x hpost => hf x _ hpost h' rfl)

theorem Safe.mono {post₀ : Except Abort α → List Frame → Prop} {p : M α}
    (hp : Safe i conn code gs post₀ p) (hpost : ∀ x gs', post₀ x gs' → post x gs') :
    Safe i conn code gs post p := fun h hgs =>
  (hp h hgs).mono fun h' x => hpost x (frames h')

theorem Quiet.bind {p : M α} {f : α → M β} (hp : Quiet i conn code p)
    (hf : ∀ x, Safe i conn code gs post' (f x)) (herror : ∀ e, post' (.error e) gs) :
    Safe i conn code gs post' (p >>= f) := fun h hgs => by
  refine Obeys.bind ((hp gs h hgs).mono fun h' x hgs' => ?_)
  cases x with
  | ok x => exact hf x h' hgs'
  | error e =>
    dsimp only at hgs' ⊢
    rw [hgs']
    exact herror e

theorem Quiet.pure (x : α) : Quiet i conn code (Pure.pure x) := fun _ => .pure rfl

theorem Quiet.fail (e : Abort) : Quiet i conn code (Prog.raise e : M α) := fun _ => .fail rfl

theorem Quiet.perform {o : Stmt} {f : o.Res → M β} (hmay : ∀ h, May i conn code h o)
    (hreads : ∀ r gs, o.frames r gs = gs) (hf : ∀ w, Quiet i conn code (f (act o w).1)) :
    Quiet i conn code (perform o >>= f) := fun gs => by
  refine Safe.perform (fun h _ => hmay h) fun w => ?_
  rw [hreads]
  exact hf w gs

theorem Quiet.liftPy (x : Py α) : Quiet i conn code (liftPy x) := by
  cases x with
  | ok x => exact .pure x
  | error e => exact .fail e

theorem Quiet.ofRead (p : Read α) : Quiet i conn code (ofRead p) := by
  induction p with
  | pure x => exact .pure x
  | abort e => exact .fail e
  | world k ih => exact .perform (fun _ => .ask) (fun _ _ => rfl) fun w => ih w.site
  | effective u at_ k ih =>
    rw [Concurrent.ofRead]
    refine fun gs h hgs => ⟨.effective, fun w => ?_⟩
    cases (act (.effective u at_) w).1 with
    | ok as => exact ih as gs _ hgs
    | error e => exact hgs
  | valid a k ih =>
    rw [Concurrent.ofRead]
    refine fun gs h hgs => ⟨.valid, fun w => ?_⟩
    cases (act (.valid a) w).1 with
    | ok b => exact ih b gs _ hgs
    | error e => exact hgs

theorem Quiet.emit (s : Signal) : Quiet i conn code (emit s) := by
  refine .perform (fun _ => .send) (fun _ _ => rfl) fun w => ?_
  cases (act (.send s) w).1 with
  | none => exact .pure ()
  | some e => exact .fail _

theorem Quiet.refreshForMutation (role : Role) : Quiet i conn code (refreshForMutation role) := by
  refine .perform (fun _ => .ask) (fun _ _ => rfl) fun w => ?_
  cases role.pk.bind (World.tables (act .ask w).1).role with
  | none => exact .fail _
  | some row => exact .pure _

def Single (c : Call) (gs : List Frame) : Except Abort Unit → List Frame → Prop
  | .ok _, gs' => ∃ e, Made c e ∧ gs' = ⟨[], [e]⟩ :: gs
  | .error _, gs' => ∃ F, gs' = F :: gs

/-- What is left of a call that has changed nothing yet. -/
def Unwritten (i conn : Nat) (code : Code) (c : Call) (gs : List Frame) (p : M Unit) : Prop :=
  Safe i conn code ({} :: gs) (Single c gs) p

variable {c : Call}

theorem Unwritten.fail (e : Abort) : Unwritten i conn code c gs (Prog.raise e) := Safe.fail ⟨_, rfl⟩

theorem Unwritten.read {p : M α} {f : α → M Unit} (hp : Quiet i conn code p)
    (hf : ∀ x, Unwritten i conn code c gs (f x)) : Unwritten i conn code c gs (p >>= f) :=
  hp.bind hf fun _ => ⟨_, rfl⟩

theorem Unwritten.ask {f : World → M Unit} (hf : ∀ w : Store, Unwritten i conn code c gs (f w.site)) :
    Unwritten i conn code c gs (perform .ask >>= f) :=
  Safe.perform (fun _ _ => .ask) hf

theorem Unwritten.select {pk : Nat} {f : Option AssignmentRow → M Unit}
    (hf : ∀ r, Unwritten i conn code c gs (f r)) :
    Unwritten i conn code c gs (perform (.select conn pk) >>= f) :=
  Safe.perform (fun _ _ => .select) fun _ => hf _

theorem Unwritten.guard {b : Bool} {cls : ExnClass} {message : String} {p : M Unit}
    (hp : Unwritten i conn code c gs p) :
    Unwritten i conn code c gs (if !b then Concurrent.raise cls message else p) := by
  cases b with
  | true => exact hp
  | false => exact .fail _

theorem Safe.emit {e : Nat × Entry} (hmade : Made c e) (s : Signal) :
    Safe i conn code (⟨[], [e]⟩ :: gs) (Single c gs) (emit s) := by
  refine Safe.mono (Quiet.emit s _) fun x gs' hgs' => ?_
  subst hgs'
  cases x with
  | ok _ => exact ⟨e, hmade, rfl⟩
  | error _ => exact ⟨_, rfl⟩

/-- A block adds calls and their changes to the one around it. -/
def Grown (gs gs' : List Frame) : Prop := ∃ F : Frame, Matched F.calls F.done ∧ gs' = F.push gs

theorem Grown.refl (gs : List Frame) : Grown gs gs := by
  refine ⟨{}, .nil, ?_⟩
  cases gs <;> rfl

theorem Grown.trans {gs gs' gs'' : List Frame} (h : Grown gs gs') (h' : Grown gs' gs'') :
    Grown gs gs'' := by
  obtain ⟨F, hF, rfl⟩ := h
  obtain ⟨G, hG, rfl⟩ := h'
  refine ⟨G.over F, hG.append hF, ?_⟩
  cases gs with
  | nil => rfl
  | cons H gs => simp [Frame.push, Frame.over]

theorem Safe.atomic {call : Option Call} {p : M α}
    (hp : Safe i conn code ({} :: gs) (fun x gs' => ∃ F, gs' = F :: gs ∧
      ∀ y, x = .ok y → Matched (call.toList ++ F.calls) F.done) p) :
    Safe i conn code gs (fun _ gs' => Grown gs gs') (atomic conn call p) := by
  refine Safe.perform (fun _ _ => .enter) fun _ => Safe.attempt hp ?_
  rintro x _ ⟨F, rfl, hmatched⟩
  cases x with
  | ok x =>
    have hcalls := hmatched x rfl
    refine Safe.perform (fun h hgs => .leave fun F' gs' hF' => ?_) fun _ => ?_
    · rw [hgs] at hF'
      obtain ⟨rfl, rfl⟩ := List.cons.inj hF'
      exact hcalls
    · exact .pure ⟨⟨_, _⟩, hcalls, rfl⟩
  | error e => exact Safe.perform (fun _ _ => .undo) fun _ => .fail (.refl gs)

theorem Unwritten.atomic {p : M Unit} (hp : Unwritten i conn code c gs p) :
    Safe i conn code gs (fun _ gs' => Grown gs gs') (Concurrent.atomic conn (some c) p) := by
  refine Safe.atomic (Safe.mono hp fun x gs' hsingle => ?_)
  cases x with
  | ok x =>
    obtain ⟨e, hmade, rfl⟩ := hsingle
    exact ⟨_, rfl, fun _ _ => .cons hmade .nil⟩
  | error e =>
    obtain ⟨F, rfl⟩ := hsingle
    exact ⟨F, rfl, fun _ h => by cases h⟩

theorem grantLevel_shaped {w : World} {level level' : Option String} {scope : Option Obj}
    (h : w.grantLevel level scope = .ok level') (hscope : scope.isSome = true) :
    level'.isSome = true := by
  obtain ⟨o, rfl⟩ := Option.isSome_iff_exists.mp hscope
  cases level with
  | none =>
    simp only [World.grantLevel] at h
    split at h
    · cases h
      rfl
    · cases h
  | some name =>
    simp only [World.grantLevel] at h
    split at h
    · cases h
      rfl
    · cases h

theorem safe_grant (user : User) (role : Role) (actor : Option User) (level : Option String)
    (scope : Option Obj) (validFrom validUntil : Option Time) :
    Safe i conn code gs (fun _ gs' => Grown gs gs')
      (grant conn user role actor level scope validFrom validUntil) := by
  refine Unwritten.atomic (.ask fun w => ?_)
  cases hlevel : w.site.grantLevel level scope with
  | error e => exact .fail e
  | ok level' =>
    refine .guard (.read (.refreshForMutation role) fun role' => .ask fun v => ?_)
    refine .read (.liftPy _) fun fits => .guard (.read (.ofRead _) fun may => .guard ?_)
    refine .read (.ofRead _) fun assigns => .guard (.ask fun v' => ?_)
    refine Safe.perform (fun h hgs => .insert ⟨⟨?_, fun hscope => ?_⟩, rfl, rfl, rfl, rfl⟩
      (open_of_eq hgs)) fun w' => ?_
    · simp
    · exact grantLevel_shaped hlevel (by simpa using hscope)
    · simp only [act]
      split
      · exact Safe.fail ⟨_, rfl⟩
      · exact Safe.emit (.grant rfl rfl rfl rfl rfl) _

theorem Unwritten.authorizeTransition {pk : Option Nat} {actor : Option User}
    {f : Nat × Assignment → M Unit}
    (hf : ∀ pk', pk = some pk' → ∀ a, Unwritten i conn code c gs (f (pk', a))) :
    Unwritten i conn code c gs (authorizeTransition conn pk actor >>= f) := by
  cases pk with
  | none => exact .fail _
  | some pk =>
    rw [Concurrent.authorizeTransition, bind_assoc]
    refine .select fun r => ?_
    cases r with
    | none => exact .fail _
    | some row =>
      rw [bind_assoc]
      refine .ask fun v => ?_
      cases v.site.loadAssignment row with
      | none => exact .fail _
      | some a =>
        rw [bind_assoc]
        refine .read (.liftPy _) fun scope => ?_
        have hallowed (allowed : Bool) : Unwritten i conn code c gs ((if !allowed then
            Concurrent.raise .assignmentManagementPermissionError
              "The actor cannot manage assignments at the assignment's scope."
            else Pure.pure (pk, a)) >>= f) := by
          cases allowed with
          | true => exact hf pk rfl a
          | false => exact .fail _
        dsimp only
        split
        · rw [bind_assoc]
          exact .read (.ofRead _) hallowed
        · rw [bind_assoc]
          exact .read (.ofRead _) hallowed

theorem obeys_transition {pk : Nat} {target : AssignmentStatus} {allowedFrom : List AssignmentStatus}
    {changes : Option Audit} {h : Trace} (hgs : frames h = {} :: gs)
    (hmay : May i conn code h (.update conn pk target allowedFrom changes)) {f : Unit → M Unit}
    (hf : Safe i conn code (⟨[], [(pk, .moved target changes)]⟩ :: gs) (Single c gs) (f ())) :
    Obeys act i (May i conn code) (fun h' x => Single c gs x (frames h'))
      (transition conn pk target allowedFrom changes >>= f) h := by
  rw [transition, bind_assoc]
  refine ⟨hmay, fun w => ?_⟩
  cases (act (.update conn pk target allowedFrom changes) w).1 with
  | true => exact hf _ (congrArg (Frame.push _) hgs)
  | false =>
    refine ⟨.select, fun v => ?_⟩
    cases (act (.select conn pk) v).1 with
    | none => exact ⟨_, hgs⟩
    | some row => exact ⟨_, hgs⟩

theorem safe_suspend {pk : Option Nat} {actor : Option User} {reason : String}
    (hcall : code.Makes (.suspend pk actor reason)) :
    Safe i conn code gs (fun _ gs' => Grown gs gs') (suspend conn pk actor reason) := by
  refine Unwritten.atomic (.authorizeTransition fun pk' hpk a h hgs => ?_)
  subst hpk
  exact obeys_transition hgs (.suspend hcall (open_of_eq hgs)) (.emit .suspend _)

theorem safe_reactivate {pk : Option Nat} {actor : Option User} {reason : String}
    (hcall : code.Makes (.reactivate pk actor reason)) :
    Safe i conn code gs (fun _ gs' => Grown gs gs') (reactivate conn pk actor reason) := by
  refine Unwritten.atomic (.authorizeTransition fun pk' hpk a => .select fun r => ?_)
  subst hpk
  dsimp only
  split
  · exact .fail _
  · refine .read (.refreshForMutation _) fun role => .read (.liftPy _) fun scope => ?_
    refine .read (.ofRead _) fun assigns => .guard fun h hgs => ?_
    exact obeys_transition hgs (.reactivate hcall (open_of_eq hgs)) (.emit .reactivate _)

theorem safe_revoke {pk : Option Nat} {actor : Option User} {reason : String}
    (hcall : code.Makes (.revoke pk actor reason)) :
    Safe i conn code gs (fun _ gs' => Grown gs gs') (revoke conn pk actor reason) := by
  refine Unwritten.atomic (.authorizeTransition fun pk' hpk a h hgs => ?_)
  subst hpk
  refine ⟨.ask, fun w => ?_⟩
  have hgs' : frames (⟨i, .ask, (act .ask w).1, w⟩ :: h) = {} :: gs := hgs
  have hasked : Asked i (⟨i, .ask, (act .ask w).1, w⟩ :: h) w.site.now :=
    ⟨_, w, List.mem_cons_self .., rfl⟩
  have hmade : Made (.revoke (some pk') actor reason)
      (pk', .moved .revoked (some ⟨actor.map User.pk, w.site.now, reason⟩)) := .revoke
  exact obeys_transition hgs' (.revoke hcall hasked (open_of_eq hgs')) (.emit hmade _)

theorem safe_call (hcall : code.Makes c) :
    Safe i conn code gs (fun _ gs' => Grown gs gs') (c.body conn) := by
  cases c with
  | grant user role actor level scope validFrom validUntil =>
    exact safe_grant user role actor level scope validFrom validUntil
  | suspend => exact safe_suspend hcall
  | reactivate => exact safe_reactivate hcall
  | revoke => exact safe_revoke hcall

theorem safe_part {part : Code} (hpart : ∀ c, part.Makes c → code.Makes c) :
    Safe i conn code gs (fun _ gs' => Grown gs gs') (part.body conn) := by
  induction part generalizing gs with
  | done => exact .pure (.refl gs)
  | fail e => exact .fail (.refl gs)
  | call c next ih =>
    refine (safe_call (hpart c .here)).attempt fun r gs' hgrown => ?_
    exact (ih _ fun c' hc => hpart c' (.next hc)).mono fun _ _ h => hgrown.trans h
  | atomic body next ihbody ihnext =>
    refine Safe.attempt (Safe.atomic ((ihbody fun c hc => hpart c (.inside hc)).mono ?_))
      fun r gs' hgrown => ?_
    · rintro x _ ⟨F, hF, rfl⟩
      refine ⟨F.over {}, rfl, fun _ _ => ?_⟩
      simpa [Frame.over] using hF
    · exact (ihnext _ fun c hc => hpart c (.after hc)).mono fun _ _ h => hgrown.trans h

end Safe

end ScopedAccess.Concurrent
