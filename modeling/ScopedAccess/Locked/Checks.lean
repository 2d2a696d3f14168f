import ScopedAccess.Locked.Calls

namespace ScopedAccess

namespace Read

variable {α β : Type}

/-- Each read is answered in some world of `S`. -/
inductive Yields (S : World → Prop) : Read α → α → Prop
  | pure (x : α) : Yields S (.pure x) x
  | world {k : World → Read α} {x : α} {w : World} (hw : S w) (h : Yields S (k w) x) :
    Yields S (.world k) x
  | effective {u : User} {at_ : Option Time} {k : List Assignment → Read α} {x : α} {w : World}
    {as : List Assignment} (hw : S w) (has : w.fetchEffective u (at_.getD w.now) = .ok as)
    (h : Yields S (k as) x) : Yields S (.effective u at_ k) x
  | valid {a : Assignment} {k : Bool → Read α} {x : α} {w : World} {b : Bool} (hw : S w)
    (hb : w.assignmentIsValid a = .ok b) (h : Yields S (k b) x) : Yields S (.valid a k) x

theorem Yields.bind_inv {S : World → Prop} {p : Read α} {f : α → Read β} {y : β}
    (h : Yields S (p >>= f) y) : ∃ x, Yields S p x ∧ Yields S (f x) y := by
  induction p with
  | pure x => exact ⟨x, .pure x, h⟩
  | abort e => cases h
  | world k ih =>
    cases h with
    | world hw h =>
      obtain ⟨x, hx, hy⟩ := ih _ h
      exact ⟨x, .world hw hx, hy⟩
  | effective u at_ k ih =>
    cases h with
    | effective hw has h =>
      obtain ⟨x, hx, hy⟩ := ih _ h
      exact ⟨x, .effective hw has hx, hy⟩
  | valid a k ih =>
    cases h with
    | valid hw hb h =>
      obtain ⟨x, hx, hy⟩ := ih _ h
      exact ⟨x, .valid hw hb hx, hy⟩

section Inversion

variable {S : World → Prop} {x : α} {y : β}

theorem Yields.pure_inv {z : α} (h : Yields S (Pure.pure x : Read α) z) : x = z := by
  cases h
  rfl

theorem Yields.ask_inv {f : World → Read β} (h : Yields S (ask >>= f) y) :
    ∃ w, S w ∧ Yields S (f w) y := by
  cases h with
  | world hw h => exact ⟨_, hw, h⟩

theorem Yields.py_inv {p : Py α} {f : α → Read β} (h : Yields S ((liftM p : Read α) >>= f) y) :
    ∃ x, p = .ok x ∧ Yields S (f x) y := by
  cases p with
  | ok x => exact ⟨x, rfl, h⟩
  | error e => cases h

theorem Yields.check_inv {p : Read Bool} {e : Abort} {q : Read β}
    (h : Yields S (do if !(← p) then .abort e else q) y) : Yields S p true ∧ Yields S q y := by
  obtain ⟨b, hb, h⟩ := h.bind_inv
  cases b with
  | true => exact ⟨hb, h⟩
  | false => cases h

end Inversion

/-- Whatever is read, what comes out is as `post` says. -/
def Always (post : α → Prop) : Read α → Prop
  | .pure x => post x
  | .abort _ => True
  | .world k => ∀ w, (k w).Always post
  | .effective _ _ k => ∀ as, (k as).Always post
  | .valid _ k => ∀ b, (k b).Always post

variable {post : α → Prop}

theorem Always.pure {x : α} (h : post x) : (Pure.pure x : Read α).Always post := h

theorem Always.of_forall (h : ∀ x, post x) (p : Read α) : p.Always post := by
  induction p with
  | pure x => exact h x
  | abort e => trivial
  | world k ih => exact ih
  | effective u at_ k ih => exact ih
  | valid a k ih => exact ih

theorem Always.mono {post' : α → Prop} {p : Read α} (hp : p.Always post)
    (h : ∀ x, post x → post' x) : p.Always post' := by
  induction p with
  | pure x => exact h x hp
  | abort e => trivial
  | world k ih => exact fun w => ih w (hp w)
  | effective u at_ k ih => exact fun as => ih as (hp as)
  | valid a k ih => exact fun b => ih b (hp b)

theorem Always.bind {post : β → Prop} {p : Read α} {f : α → Read β}
    (h : p.Always fun x => (f x).Always post) : (p >>= f).Always post := by
  induction p with
  | pure x => exact h
  | abort e => trivial
  | world k ih => exact fun w => ih w (h w)
  | effective u at_ k ih => exact fun as => ih as (h as)
  | valid a k ih => exact fun b => ih b (h b)

theorem Always.after {post : β → Prop} (p : Read α) {f : α → Read β}
    (h : ∀ x, (f x).Always post) : (p >>= f).Always post := .bind (.of_forall h p)

theorem Always.py {post : β → Prop} {p : Py α} {f : α → Read β}
    (h : ∀ x, p = .ok x → (f x).Always post) : ((liftM p : Read α) >>= f).Always post := by
  cases p with
  | ok x => exact h x rfl
  | error e => trivial

theorem Always.check {post : α → Prop} {p : Read Bool} {e : Abort} {q : Read α}
    (hq : q.Always post) : (do if !(← p) then .abort e else q).Always post := by
  refine .after p fun b => ?_
  cases b with
  | true => exact hq
  | false => trivial

end Read

namespace Locked

open Lib.Shared (Prog History Obeys)
open Lib.Loop (bind_eq_ok)

abbrev Trace := History sig Store

def Stmt.Quiet : Stmt → Prop
  | .ask _ | .effective .. | .valid .. | .send _ => True
  | _ => False

theorem Stmt.Quiet.change {o : Stmt} (h : o.Quiet) (s : Store) : s.change o = .none := by
  cases o with
  | ask | effective | valid | send => rfl
  | enter | leave | undo | lock | write => exact h.elim

variable {i conn : Nat} {α β : Type}

inductive Answers (i conn : Nat) : Read α → α → Trace → Prop
  | pure (x : α) : Answers i conn (.pure x) x []
  | world {k : World → Read α} {x : α} {es : Trace} {s : Store} {w : World}
    (hw : s.sees conn = .ok w) (h : Answers i conn (k w) x es) :
    Answers i conn (.world k) x (es ++ [⟨i, .ask conn, .ok w, s⟩])
  | effective {u : User} {at_ : Option Time} {k : List Assignment → Read α} {x : α} {es : Trace}
    {s : Store} {w : World} {as : List Assignment} (hw : s.sees conn = .ok w)
    (has : w.fetchEffective u (at_.getD w.now) = .ok as) (h : Answers i conn (k as) x es) :
    Answers i conn (.effective u at_ k) x (es ++ [⟨i, .effective conn u at_, .ok as, s⟩])
  | valid {a : Assignment} {k : Bool → Read α} {x : α} {es : Trace} {s : Store} {w : World}
    {b : Bool} (hw : s.sees conn = .ok w) (hb : w.assignmentIsValid a = .ok b)
    (h : Answers i conn (k b) x es) :
    Answers i conn (.valid a k) x (es ++ [⟨i, .valid conn a, .ok b, s⟩])

namespace Answers

variable {p : Read α} {x : α} {es : Trace}

theorem quiet (h : Answers i conn p x es) : ∀ e ∈ es, e.op.Quiet := by
  induction h with
  | pure => simp
  | world _ _ ih | effective _ _ _ ih | valid _ _ _ ih =>
    intro e he
    rcases List.mem_append.mp he with he | he
    · exact ih e he
    · rw [List.mem_singleton.mp he]
      trivial

theorem always {post : α → Prop} (h : Answers i conn p x es) (hp : p.Always post) : post x := by
  induction h with
  | pure => exact hp
  | world _ _ ih | effective _ _ _ ih | valid _ _ _ ih => exact ih (hp _)

theorem yields (h : Answers i conn p x es) {S : World → Prop}
    (hS : ∀ e ∈ es, ∀ w, e.before.sees conn = .ok w → S w) : p.Yields S x := by
  induction h with
  | pure => exact .pure _
  | world hw _ ih =>
    exact .world (hS _ (List.mem_append_right _ List.mem_cons_self) _ hw)
      (ih fun e he => hS e (List.mem_append_left _ he))
  | effective hw has _ ih =>
    exact .effective (hS _ (List.mem_append_right _ List.mem_cons_self) _ hw) has
      (ih fun e he => hS e (List.mem_append_left _ he))
  | valid hw hb _ ih =>
    exact .valid (hS _ (List.mem_append_right _ List.mem_cons_self) _ hw) hb
      (ih fun e he => hS e (List.mem_append_left _ he))

end Answers

inductive Code.Makes : Code → Call → Prop
  | here {c : Call} {next : Except Abort Nat → Code} : Makes (.call c next) c
  | next {c c' : Call} {next : Except Abort Nat → Code} {r : Except Abort Nat}
    (h : (next r).Makes c') : Makes (.call c next) c'
  | inside {body : Code} {next : Except Abort Unit → Code} {c : Call} (h : body.Makes c) :
    Makes (.atomic body next) c
  | after {body : Code} {next : Except Abort Unit → Code} {r : Except Abort Unit} {c : Call}
    (h : (next r).Makes c) : Makes (.atomic body next) c

def Planned (i conn : Nat) (c : Call) (plan : Plan) (h : Trace) : Prop :=
  ∃ es s h₀, Answers i conn c.plan plan es ∧ h = es ++ ⟨i, .enter conn (some c), (), s⟩ :: h₀

/-- Then it has locked the role of the plan, if there is one. -/
inductive Holding (i conn : Nat) (plan : Plan) (h : Trace) : Trace → Prop
  | unlocked (hrole : plan.role = none) : Holding i conn plan h h
  | locked {pk : Nat} {s : Store} (hrole : plan.role = some pk) (hpk : s.hasRole conn pk = true) :
    Holding i conn plan h (⟨i, .lock conn pk, true, s⟩ :: h)

inductive May (i conn : Nat) (code : Code) (h : Trace) : Stmt → Prop
  | enter {call : Option Call} : May i conn code h (.enter conn call)
  | leave : May i conn code h (.leave conn)
  | undo : May i conn code h (.undo conn)
  | ask : May i conn code h (.ask conn)
  | effective {u : User} {at_ : Option Time} : May i conn code h (.effective conn u at_)
  | valid {a : Assignment} : May i conn code h (.valid conn a)
  | send {s : Signal} : May i conn code h (.send s)
  | lock {c : Call} {plan : Plan} {pk : Nat} (hcall : code.Makes c)
    (hplan : Planned i conn c plan h) (hrole : plan.role = some pk) :
    May i conn code h (.lock conn pk)
  | write {c : Call} {plan : Plan} {d : Decision} {es h₁ h₂ : Trace} (hcall : code.Makes c)
    (hplan : Planned i conn c plan h₁) (hheld : Holding i conn plan h₁ h₂)
    (hdecide : Answers i conn plan.decide d es) (hh : h = es ++ h₂) :
    May i conn code h (.write conn d.edit)

section Safe

variable {code : Code} {h : Trace}

def Sends (i conn : Nat) (code : Code) (p : M α) (h : Trace) : Prop :=
  Obeys act i (May i conn code) (fun _ _ => True) p h

theorem Sends.perform {o : Stmt} {f : o.Res → M β} (hmay : May i conn code h o)
    (hf : ∀ s : Store, Sends i conn code (f (s.answer o)) (⟨i, o, s.answer o, s⟩ :: h)) :
    Sends i conn code (perform o >>= f) h :=
  Obeys.perform hmay hf

theorem Sends.liftPy {r : Py α} {f : α → M β} (hf : ∀ x, r = .ok x → Sends i conn code (f x) h) :
    Sends i conn code (liftPy r >>= f) h := by
  cases r with
  | ok x => exact hf x rfl
  | error e => trivial

theorem Sends.ofRead {p : Read α} {f : α → M β}
    (hf : ∀ x es, Answers i conn p x es → Sends i conn code (f x) (es ++ h)) :
    Sends i conn code (ofRead conn p >>= f) h := by
  induction p generalizing h with
  | pure x => exact hf x [] (.pure x)
  | abort e => trivial
  | world k ih =>
    simp only [Locked.ofRead, bind_assoc]
    refine .perform .ask fun s => .liftPy fun w hw => ih w fun x es hes => ?_
    have hx := hf x _ (.world hw hes)
    rw [List.append_assoc] at hx
    rw [show s.answer (.ask conn) = .ok w from hw]
    exact hx
  | effective u at_ k ih =>
    simp only [Locked.ofRead, bind_assoc]
    refine .perform .effective fun s => .liftPy fun as has => ih as fun x es hes => ?_
    obtain ⟨w, hw, hfetch⟩ := bind_eq_ok.mp has
    have hx := hf x _ (.effective hw hfetch hes)
    rw [List.append_assoc] at hx
    rw [has]
    exact hx
  | valid a k ih =>
    simp only [Locked.ofRead, bind_assoc]
    refine .perform .valid fun s => .liftPy fun b hb => ih b fun x es hes => ?_
    obtain ⟨w, hw, hvalid⟩ := bind_eq_ok.mp hb
    have hx := hf x _ (.valid hw hvalid hes)
    rw [List.append_assoc] at hx
    rw [hb]
    exact hx

theorem Sends.emit (s : Option Signal) {f : Unit → M β} (hf : ∀ h, Sends i conn code (f ()) h) :
    Sends i conn code (emit s >>= f) h := by
  cases s with
  | none => exact hf h
  | some s =>
    rw [Locked.emit, bind_assoc]
    refine .perform .send fun v => ?_
    dsimp only [Store.answer]
    cases v.receivers s with
    | none => exact hf _
    | some e => trivial

theorem Sends.write {d : Decision} (hmay : May i conn code h (.write conn d.edit)) :
    Sends i conn code (write conn d) h := by
  refine .perform hmay fun s => .liftPy fun pk _ => ?_
  cases pk with
  | none => exact .ofRead fun _ _ _ => trivial
  | some pk => exact .emit _ fun _ => trivial

theorem Sends.lockRole {c : Call} {plan : Plan} {pk : Nat} (hcall : code.Makes c)
    (hplan : Planned i conn c plan h) (hrole : plan.role = some pk) {f : Unit → M β}
    (hf : ∀ h', Holding i conn plan h h' → Sends i conn code (f ()) h') :
    Sends i conn code (lockRole conn pk >>= f) h := by
  rw [Locked.lockRole, bind_assoc]
  refine .perform (.lock hcall hplan hrole) fun s => ?_
  cases hpk : s.hasRole conn pk with
  | false =>
    simp only [Store.answer, hpk]
    trivial
  | true =>
    simp only [Store.answer, hpk]
    exact hf _ (.locked hrole hpk)

theorem Sends.atomic {call : Option Call} {p : M α} {f : Except Abort α → M β}
    (hp : ∀ s, Sends i conn code p (⟨i, .enter conn call, (), s⟩ :: h))
    (hf : ∀ x h, Sends i conn code (f x) h) :
    Sends i conn code ((atomic conn call p).attempt >>= f) h := by
  have hbody : Sends i conn code (Locked.atomic conn call p) h := by
    refine .perform .enter fun s => Obeys.attempt ((hp s).mono fun h' x _ => ?_)
    cases x with
    | error e => exact Sends.perform .undo fun _ => trivial
    | ok x =>
      refine Sends.perform .leave fun v => ?_
      cases v.answer (.leave conn) <;> trivial
  exact Obeys.attempt (hbody.mono fun h' x _ => hf x h')

theorem Sends.call {c : Call} (hcall : code.Makes c) {f : Except Abort Nat → M β}
    (hf : ∀ x h, Sends i conn code (f x) h) :
    Sends i conn code ((c.body conn).attempt >>= f) h := by
  refine .atomic (fun s => .ofRead fun plan es hes => ?_) hf
  have hplan : Planned i conn c plan (es ++ ⟨i, .enter conn (some c), (), s⟩ :: h) := ⟨es, s, h, hes, rfl⟩
  cases hrole : plan.role with
  | none =>
    refine .ofRead fun d ds hds => .write ?_
    exact .write hcall hplan (.unlocked hrole) hds rfl
  | some pk =>
    refine .lockRole hcall hplan hrole fun h' hheld => .ofRead fun d ds hds => .write ?_
    exact .write hcall hplan hheld hds rfl

theorem Sends.part {part : Code} (hpart : ∀ c, part.Makes c → code.Makes c) (h : Trace) :
    Sends i conn code (part.body conn) h := by
  induction part generalizing h with
  | done => trivial
  | fail e => trivial
  | call c next ih =>
    exact .call (hpart c .here) fun r h => ih r (fun c' hc => hpart c' (.next hc)) h
  | atomic body next ihbody ihnext =>
    exact .atomic (fun s => ihbody (fun c hc => hpart c (.inside hc)) _)
      fun r h => ihnext r (fun c hc => hpart c (.after hc)) h

end Safe

end Locked

end ScopedAccess
