import Mathlib.Logic.Relation

/-! Programs that act on a shared object, one operation at a time: run alone, and
interleaved with other programs and with what happens to the object by itself. -/

namespace Lib.Shared

open Relation (ReflTransGen)

structure Signature where
  Op : Type
  Res : Op → Type

inductive Prog (S : Signature) (ε α : Type) : Type
  | done (x : α)
  | fail (e : ε)
  | call (o : S.Op) (k : S.Res o → Prog S ε α)

variable {S : Signature} {ε α β W : Type}

namespace Prog

def bind : Prog S ε α → (α → Prog S ε β) → Prog S ε β
  | .done x, f => f x
  | .fail e, _ => .fail e
  | .call o k, f => .call o fun r => (k r).bind f

instance : Monad (Prog S ε) where
  pure := .done
  bind := bind

theorem bind_pure (p : Prog S ε α) : p.bind .done = p := by
  induction p with
  | done x => rfl
  | fail e => rfl
  | call o k ih => exact congrArg (call o) (funext ih)

theorem bind_assoc {γ : Type} (p : Prog S ε α) (f : α → Prog S ε β) (g : β → Prog S ε γ) :
    (p.bind f).bind g = p.bind fun x => (f x).bind g := by
  induction p with
  | done x => rfl
  | fail e => rfl
  | call o k ih => exact congrArg (call o) (funext ih)

instance : LawfulMonad (Prog S ε) :=
  LawfulMonad.mk' (Prog S ε) bind_pure (fun _ _ => rfl) bind_assoc

def perform (o : S.Op) : Prog S ε (S.Res o) := .call o .done

def raise (e : ε) : Prog S ε α := .fail e

/-- The program with its exception as a value: `try ... except`. -/
def attempt : Prog S ε α → Prog S ε (Except ε α)
  | .done x => .done (.ok x)
  | .fail e => .done (.error e)
  | .call o k => .call o fun r => (k r).attempt

def run (act : (o : S.Op) → W → S.Res o × W) : Prog S ε α → W → Except ε α × W
  | .done x, w => (.ok x, w)
  | .fail e, w => (.error e, w)
  | .call o k, w => (k (act o w).1).run act (act o w).2

def andThen : Except ε α × W → (α → W → Except ε β × W) → Except ε β × W
  | (.ok x, w), f => f x w
  | (.error e, w), _ => (.error e, w)

variable {act : (o : S.Op) → W → S.Res o × W} {w : W}

@[simp] theorem run_pure (x : α) : (pure x : Prog S ε α).run act w = (.ok x, w) := rfl

@[simp] theorem run_raise (e : ε) : (raise e : Prog S ε α).run act w = (.error e, w) := rfl

@[simp] theorem run_perform (o : S.Op) :
    (perform o : Prog S ε (S.Res o)).run act w = (.ok (act o w).1, (act o w).2) := rfl

theorem run_attempt (p : Prog S ε α) :
    p.attempt.run act w = (.ok (p.run act w).1, (p.run act w).2) := by
  induction p generalizing w with
  | done x => rfl
  | fail e => rfl
  | call o k ih => exact ih (act o w).1

theorem run_bind (p : Prog S ε α) (f : α → Prog S ε β) :
    (p >>= f).run act w = andThen (p.run act w) fun x w' => (f x).run act w' := by
  induction p generalizing w with
  | done x => rfl
  | fail e => rfl
  | call o k ih => exact ih (act o w).1

end Prog

structure Event (S : Signature) (W : Type) where
  thread : Nat
  op : S.Op
  res : S.Res op
  before : W

/-- The newest event comes first. -/
abbrev History (S : Signature) (W : Type) := List (Event S W)

def own (i : Nat) (h : History S W) : History S W := h.filter (·.thread = i)

theorem mem_own {i : Nat} {h : History S W} {e : Event S W} :
    e ∈ own i h ↔ e ∈ h ∧ e.thread = i := by
  simp [own]

theorem own_split {i : Nat} {h es rest : History S W} {e : Event S W}
    (heq : own i h = es ++ e :: rest) :
    ∃ later earlier, h = later ++ e :: earlier ∧ own i later = es ∧ own i earlier = rest := by
  obtain ⟨later, others, rfl, hes, hrest⟩ := List.filter_eq_append_iff.mp heq
  obtain ⟨skipped, earlier, rfl, hskipped, -, hearlier⟩ := List.filter_eq_cons_iff.mp hrest
  refine ⟨later ++ skipped, earlier, by simp, ?_, hearlier⟩
  rw [own, List.filter_append, List.filter_eq_nil_iff.mpr hskipped, List.append_nil, hes]

theorem eq_or_before {h : History S W} {e e' : Event S W} (he : e ∈ h) (he' : e' ∈ h) :
    e = e' ∨ (∃ after before, h = after ++ e :: before ∧ e' ∈ before) ∨
      ∃ after before, h = after ++ e' :: before ∧ e ∈ before := by
  obtain ⟨after, before, rfl⟩ := List.append_of_mem he
  rcases List.mem_append.mp he' with hmem | hmem
  · obtain ⟨as, bs, rfl⟩ := List.append_of_mem hmem
    exact .inr (.inr ⟨as, bs ++ e :: before, by simp, by simp⟩)
  · rcases List.mem_cons.mp hmem with rfl | hmem
    · exact .inl rfl
    · exact .inr (.inl ⟨after, before, rfl, hmem⟩)

theorem suffix_or {h after before : History S W} {e : Event S W} (hs : h <:+ after ++ e :: before) :
    e :: before <:+ h ∨ h <:+ before := by
  rcases List.suffix_or_suffix_of_suffix hs (List.suffix_append after (e :: before)) with hs | hs
  · rcases List.suffix_cons_iff.mp hs with rfl | hs
    · exact .inl List.suffix_rfl
    · exact .inr hs
  · exact .inl hs

theorem exists_newest {h : History S W} {p : Event S W → Prop} (hp : ∃ e ∈ h, p e) :
    ∃ after e before, h = after ++ e :: before ∧ p e ∧ ∀ e' ∈ after, ¬ p e' := by
  induction h with
  | nil => simp at hp
  | cons e h ih =>
    by_cases he : p e
    · exact ⟨[], e, h, rfl, he, by simp⟩
    · obtain ⟨e', hmem, he'⟩ := hp
      obtain rfl | hmem := List.mem_cons.mp hmem
      · exact absurd he' he
      · obtain ⟨after, e₁, before, rfl, he₁, hnone⟩ := ih ⟨e', hmem, he'⟩
        exact ⟨e :: after, e₁, before, rfl, he₁, by simpa [he] using hnone⟩

section Obeys

variable (act : (o : S.Op) → W → S.Res o × W) (i : Nat) (may : History S W → S.Op → Prop)

/-- Whatever the thread finds, each operation it performs is one it may perform
after what it has done so far, and so is what it returns in the end. -/
def Obeys (post : History S W → Except ε α → Prop) : Prog S ε α → History S W → Prop
  | .done x, h => post h (.ok x)
  | .fail e, h => post h (.error e)
  | .call o k, h => may h o ∧ ∀ w, Obeys post (k (act o w).1) (⟨i, o, (act o w).1, w⟩ :: h)

variable {act i may} {h : History S W}

theorem Obeys.mono {post post' : History S W → Except ε α → Prop}
    (hpost : ∀ h x, post h x → post' h x) {p : Prog S ε α} (hp : Obeys act i may post p h) :
    Obeys act i may post' p h := by
  induction p generalizing h with
  | done x => exact hpost _ _ hp
  | fail e => exact hpost _ _ hp
  | call o k ih => exact ⟨hp.1, fun w => ih _ (hp.2 w)⟩

theorem Obeys.bind {post : History S W → Except ε β → Prop} {p : Prog S ε α}
    {f : α → Prog S ε β}
    (hp : Obeys act i may
      (fun h x => match x with
        | .ok x => Obeys act i may post (f x) h
        | .error e => post h (.error e)) p h) :
    Obeys act i may post (p >>= f) h := by
  induction p generalizing h with
  | done x => exact hp
  | fail e => exact hp
  | call o k ih => exact ⟨hp.1, fun w => ih _ (hp.2 w)⟩

theorem Obeys.attempt {post : History S W → Except ε β → Prop} {p : Prog S ε α}
    {f : Except ε α → Prog S ε β}
    (hp : Obeys act i may (fun h x => Obeys act i may post (f x) h) p h) :
    Obeys act i may post (p.attempt >>= f) h := by
  induction p generalizing h with
  | done x => exact hp
  | fail e => exact hp
  | call o k ih => exact ⟨hp.1, fun w => ih _ (hp.2 w)⟩

theorem Obeys.run {post : History S W → Except ε α → Prop} {R : W → W → Prop}
    (hrefl : ∀ w, R w w) (htrans : ∀ {w w' w''}, R w w' → R w' w'' → R w w'')
    (hact : ∀ {h o} w, may h o → R w (act o w).2) {p : Prog S ε α}
    (hp : Obeys act i may post p h) (w : W) :
    R w (p.run act w).2 ∧ ∃ h', post h' (p.run act w).1 := by
  induction p generalizing h w with
  | done x => exact ⟨hrefl w, h, hp⟩
  | fail e => exact ⟨hrefl w, h, hp⟩
  | call o k ih =>
    obtain ⟨hR, hpost⟩ := ih _ (hp.2 w) (act o w).2
    exact ⟨htrans (hact w hp.1) hR, hpost⟩

theorem Obeys.perform {post : History S W → Except ε β → Prop} {o : S.Op}
    {f : S.Res o → Prog S ε β} (hmay : may h o)
    (hf : ∀ w, Obeys act i may post (f (act o w).1) (⟨i, o, (act o w).1, w⟩ :: h)) :
    Obeys act i may post (Prog.perform o >>= f) h :=
  ⟨hmay, hf⟩

end Obeys

variable {C : Type} {Ans : C → Type}

structure Task (S : Signature) (ε : Type) {C : Type} (Ans : C → Type) where
  call : C
  rest : Prog S ε (Ans call)

structure Pool (S : Signature) (ε W : Type) {C : Type} (Ans : C → Type) where
  world : W
  history : History S W := []
  tasks : List (Task S ε Ans) := []

/-- What the interleavings are of: how operations act, what each call runs, what
may happen to the object by itself, and which steps are looked at. -/
structure System (S : Signature) (ε W : Type) {C : Type} (Ans : C → Type) where
  act : (o : S.Op) → W → S.Res o × W
  body : (c : C) → Prog S ε (Ans c)
  drifts : W → W → Prop
  admits : W → History S W → Nat → C → S.Op → Prop := fun _ _ _ _ _ => True

variable (M : System S ε W Ans)

inductive Step : Pool S ε W Ans → Pool S ε W Ans → Prop
  | drift {P : Pool S ε W Ans} {w : W} (h : M.drifts P.world w) : Step P { P with world := w }
  | start {P : Pool S ε W Ans} (c : C) : Step P { P with tasks := P.tasks ++ [⟨c, M.body c⟩] }
  | act {P : Pool S ε W Ans} {i : Nat} {c : C} {o : S.Op} {k : S.Res o → Prog S ε (Ans c)}
      (htask : P.tasks[i]? = some ⟨c, .call o k⟩) (hadmits : M.admits P.world P.history i c o) :
      Step P {
        world := (M.act o P.world).2
        history := ⟨i, o, (M.act o P.world).1, P.world⟩ :: P.history
        tasks := P.tasks.set i ⟨c, k (M.act o P.world).1⟩ }

def Steps : Pool S ε W Ans → Pool S ε W Ans → Prop := ReflTransGen (Step M)

def Reachable (w : W) (P : Pool S ε W Ans) : Prop := Steps M { world := w } P

variable {M} {w : W} {P Q : Pool S ε W Ans}

inductive Move (C : Type)
  | start (c : C)
  | act (i : Nat)

variable (M) in
def Pool.move (P : Pool S ε W Ans) : Move C → Option (Pool S ε W Ans)
  | .start c => some { P with tasks := P.tasks ++ [⟨c, M.body c⟩] }
  | .act i =>
    match P.tasks[i]? with
    | some ⟨c, .call o k⟩ => some {
        world := (M.act o P.world).2
        history := ⟨i, o, (M.act o P.world).1, P.world⟩ :: P.history
        tasks := P.tasks.set i ⟨c, k (M.act o P.world).1⟩ }
    | _ => none

variable (M) in
def Pool.play (P : Pool S ε W Ans) : List (Move C) → Option (Pool S ε W Ans)
  | [] => some P
  | m :: ms => (P.move M m).bind (·.play ms)

variable (M) in
def Pool.Admits (P : Pool S ε W Ans) : Move C → Prop
  | .start _ => True
  | .act i =>
    match P.tasks[i]? with
    | some ⟨c, .call o _⟩ => M.admits P.world P.history i c o
    | _ => True

variable (M) in
def Pool.Admitted (P : Pool S ε W Ans) : List (Move C) → Prop
  | [] => True
  | m :: ms => P.Admits M m ∧ (P.move M m).elim True (·.Admitted ms)

theorem Pool.move_step {m : Move C} (hadmits : P.Admits M m) (h : P.move M m = some Q) :
    Step M P Q := by
  cases m with
  | start c =>
    obtain rfl := Option.some.inj h
    exact .start c
  | act i =>
    simp only [move] at h
    split at h
    · rename_i htask
      obtain rfl := Option.some.inj h
      refine .act htask ?_
      simpa only [Admits, htask] using hadmits
    · cases h

theorem Pool.play_admitted {ms : List (Move C)} (hadmitted : P.Admitted M ms)
    (h : P.play M ms = some Q) : Steps M P Q := by
  induction ms generalizing P with
  | nil =>
    obtain rfl := Option.some.inj h
    exact .refl
  | cons m ms ih =>
    obtain ⟨R, hmove, hplay⟩ := Option.bind_eq_some_iff.mp h
    obtain ⟨hadmits, hrest⟩ := hadmitted
    rw [hmove] at hrest
    exact ReflTransGen.head (move_step hadmits hmove) (ih hrest hplay)

def Pool.passes (test : Nat → C → S.Op → Bool) (P : Pool S ε W Ans) : Move C → Bool
  | .start _ => true
  | .act i =>
    match P.tasks[i]? with
    | some ⟨c, .call o _⟩ => test i c o
    | _ => true

variable (M) in
def Pool.allPass (test : Nat → C → S.Op → Bool) (P : Pool S ε W Ans) : List (Move C) → Bool
  | [] => true
  | m :: ms => P.passes test m && (P.move M m).elim true (·.allPass test ms)

section Passing

variable {test : Nat → C → S.Op → Bool}
  (htest : ∀ w h i c o, test i c o = true → M.admits w h i c o)
include htest

theorem Pool.admits_of_passes {m : Move C} (h : P.passes test m = true) : P.Admits M m := by
  cases m with
  | start c => trivial
  | act i =>
    simp only [passes] at h
    simp only [Admits]
    split at h
    · exact htest _ _ _ _ _ h
    · trivial

theorem Pool.admitted_of_allPass {ms : List (Move C)} (h : P.allPass M test ms = true) :
    P.Admitted M ms := by
  induction ms generalizing P with
  | nil => trivial
  | cons m ms ih =>
    obtain ⟨hfirst, hrest⟩ := Bool.and_eq_true_iff.mp h
    refine ⟨admits_of_passes htest hfirst, ?_⟩
    cases hmove : P.move M m with
    | none => trivial
    | some R =>
      rw [hmove] at hrest
      exact ih hrest

theorem Pool.play_then {ms : List (Move C)} {m : Move C} {R : Pool S ε W Ans}
    (hpass : P.allPass M test ms = true) (h : P.play M ms = some Q) (hadmits : Q.Admits M m)
    (hmove : Q.move M m = some R) : Steps M P R :=
  (play_admitted (admitted_of_allPass htest hpass) h).tail (move_step hadmits hmove)

end Passing

theorem Pool.play_steps (hadmits : ∀ w h i c o, M.admits w h i c o) {ms : List (Move C)}
    (h : P.play M ms = some Q) : Steps M P Q := by
  refine play_admitted ?_ h
  clear h
  induction ms generalizing P with
  | nil => trivial
  | cons m ms ih =>
    refine ⟨?_, ?_⟩
    · cases m with
      | start c => trivial
      | act i =>
        dsimp only [Admits]
        split
        · exact hadmits ..
        · trivial
    · cases P.move M m with
      | none => trivial
      | some R => exact ih

theorem Steps.grows (h : Steps M P Q) : P.history <:+ Q.history ∧
    ∀ (i : Nat) (t : Task S ε Ans), P.tasks[i]? = some t →
      ∃ t', Q.tasks[i]? = some t' ∧ t'.call = t.call := by
  induction h with
  | refl => exact ⟨List.suffix_rfl, fun i t ht => ⟨t, ht, rfl⟩⟩
  | @tail Q R _ hstep ih =>
    obtain ⟨hsuffix, htasks⟩ := ih
    cases hstep with
    | drift _ => exact ⟨hsuffix, htasks⟩
    | start c =>
      refine ⟨hsuffix, fun i t ht => ?_⟩
      obtain ⟨t', ht', hcall⟩ := htasks i t ht
      refine ⟨t', ?_, hcall⟩
      rw [List.getElem?_append_left (List.getElem?_eq_some_iff.mp ht').1]
      exact ht'
    | @act j c o k htask _ =>
      refine ⟨hsuffix.trans (List.suffix_cons _ _), fun i t ht => ?_⟩
      obtain ⟨t', ht', hcall⟩ := htasks i t ht
      by_cases hij : j = i
      · subst hij
        obtain rfl : (⟨c, .call o k⟩ : Task S ε Ans) = t' := Option.some.inj (htask.symm.trans ht')
        refine ⟨⟨c, k (M.act o Q.world).1⟩, ?_, hcall⟩
        exact List.getElem?_set_self (List.getElem?_eq_some_iff.mp htask).1
      · exact ⟨t', by rwa [List.getElem?_set_ne hij], hcall⟩

def Fired (M : System S ε W Ans) (w : W) (before : History S W) (e : Event S W)
    (P : Pool S ε W Ans) : Prop :=
  ∃ (Q : Pool S ε W Ans) (c : C) (k : S.Res e.op → Prog S ε (Ans c)), Reachable M w Q ∧
    Steps M Q P ∧ Q.world = e.before ∧ Q.history = before ∧
    Q.tasks[e.thread]? = some ⟨c, .call e.op k⟩ ∧
    M.admits e.before before e.thread c e.op ∧ e.res = (M.act e.op e.before).1

theorem Fired.step {before : History S W} {e : Event S W} (h : Fired M w before e P)
    (hstep : Step M P Q) : Fired M w before e Q := by
  obtain ⟨Q', c, k, hreach, hsteps, hrest⟩ := h
  exact ⟨Q', c, k, hreach, hsteps.tail hstep, hrest⟩

theorem Reachable.fired (h : Reachable M w P) {after before : History S W} {e : Event S W}
    (he : P.history = after ++ e :: before) : Fired M w before e P := by
  induction h generalizing after with
  | refl => simp at he
  | @tail Q R hreach hstep ih =>
    cases hstep with
    | drift hdrifts => exact (ih he).step (.drift hdrifts)
    | start c => exact (ih he).step (.start c)
    | @act i c o k htask hadmits =>
      cases after with
      | cons e' after => exact (ih (List.cons.inj he).2).step (.act htask hadmits)
      | nil =>
        obtain ⟨rfl, rfl⟩ := List.cons.inj he
        exact ⟨Q, c, k, hreach, ReflTransGen.single (.act htask hadmits), rfl, rfl, htask,
          hadmits, rfl⟩

theorem Reachable.restrict
    (h : Reachable { M with admits := fun _ _ _ _ _ => True } w P)
    (hall : ∀ (after : History S W) (e : Event S W) (before : History S W) (t : Task S ε Ans),
      P.history = after ++ e :: before → P.tasks[e.thread]? = some t →
      M.admits e.before before e.thread t.call e.op) : Reachable M w P := by
  induction h with
  | refl => exact .refl
  | @tail Q R hreach hstep ih =>
    obtain ⟨⟨more, hmore⟩, htasks⟩ := Steps.grows (ReflTransGen.single hstep)
    have hQ : Reachable M w Q := ih fun after e before t heq ht => by
      obtain ⟨t', ht', hcall⟩ := htasks _ _ ht
      have hsplit : R.history = (more ++ after) ++ e :: before := by
        rw [← hmore, heq, List.append_assoc]
      exact hcall ▸ hall _ e before t' hsplit ht'
    cases hstep with
    | drift hdrifts => exact ReflTransGen.tail hQ (.drift hdrifts)
    | start c => exact ReflTransGen.tail hQ (.start c)
    | @act i c o k htask _ =>
      obtain ⟨t', ht', hcall⟩ := htasks _ _ htask
      have hadmits := hall [] _ _ t' rfl ht'
      rw [hcall] at hadmits
      exact ReflTransGen.tail hQ (.act htask hadmits)

section Discipline

variable {may : Nat → C → History S W → S.Op → Prop}
  {post : Nat → (c : C) → History S W → Except ε (Ans c) → Prop}
  (hbody : ∀ i c, Obeys M.act i (may i c) (post i c) (M.body c) [])
include hbody

theorem Reachable.obeys (h : Reachable M w P) :
    (∀ e ∈ P.history, e.thread < P.tasks.length) ∧
      ∀ i t, P.tasks[i]? = some t →
        Obeys M.act i (may i t.call) (post i t.call) t.rest (own i P.history) := by
  induction h with
  | refl => exact ⟨by simp, by simp⟩
  | @tail Q R _ hstep ih =>
    obtain ⟨hthreads, hrest⟩ := ih
    cases hstep with
    | drift _ => exact ⟨hthreads, hrest⟩
    | start c =>
      refine ⟨fun e he => ?_, fun i t ht => ?_⟩
      · rw [List.length_append]
        exact Nat.lt_add_right _ (hthreads e he)
      · rcases Nat.lt_or_ge i Q.tasks.length with hlt | hge
        · rw [List.getElem?_append_left hlt] at ht
          exact hrest i t ht
        · rw [List.getElem?_append_right hge] at ht
          obtain ⟨hi, rfl⟩ : i - Q.tasks.length = 0 ∧ (⟨c, M.body c⟩ : Task S ε Ans) = t := by
            cases hi : i - Q.tasks.length with
            | zero => exact ⟨rfl, by simpa [hi] using ht⟩
            | succ n => simp [hi] at ht
          have hnone : own i Q.history = [] := by
            rw [own, List.filter_eq_nil_iff]
            intro e he
            have := hthreads e he
            simp only [decide_eq_true_eq]
            omega
          dsimp only
          rw [hnone]
          exact hbody i c
    | @act j c o k htask _ =>
      refine ⟨fun e he => ?_, fun i t ht => ?_⟩
      · rw [List.length_set]
        rcases List.mem_cons.mp he with rfl | he
        · exact (List.getElem?_eq_some_iff.mp htask).1
        · exact hthreads e he
      · by_cases hij : j = i
        · subst hij
          rw [List.getElem?_set_self (List.getElem?_eq_some_iff.mp htask).1] at ht
          obtain rfl := Option.some.inj ht
          have hcall := (hrest j _ htask).2 Q.world
          simpa [own] using hcall
        · rw [List.getElem?_set_ne hij] at ht
          simpa [own, hij] using hrest i t ht

theorem Reachable.invariant (I : W → History S W → Prop) (hinit : I w [])
    (hdrift : ∀ {w w' h}, I w h → M.drifts w w' → I w' h)
    (hact : ∀ {Q : Pool S ε W Ans} {i t o}, Reachable M w Q → I Q.world Q.history →
      Q.tasks[i]? = some t → may i t.call (own i Q.history) o →
      M.admits Q.world Q.history i t.call o →
      I (M.act o Q.world).2 (⟨i, o, (M.act o Q.world).1, Q.world⟩ :: Q.history))
    (h : Reachable M w P) : I P.world P.history := by
  induction h with
  | refl => exact hinit
  | @tail Q R hreach hstep ih =>
    cases hstep with
    | drift hdrifts => exact hdrift ih hdrifts
    | start c => exact ih
    | @act i c o k htask hadmits =>
      exact hact hreach ih htask ((Reachable.obeys hbody hreach).2 i _ htask).1 hadmits

theorem Reachable.allowed (h : Reachable M w P) {after before : History S W} {e : Event S W}
    (he : P.history = after ++ e :: before) : ∃ t, P.tasks[e.thread]? = some t ∧
      may e.thread t.call (own e.thread before) e.op := by
  obtain ⟨Q, c, k, hQ, hsteps, -, hhistory, htask, -⟩ := h.fired he
  obtain ⟨t, ht, hcall⟩ := hsteps.grows.2 _ _ htask
  have hmay := ((Reachable.obeys hbody hQ).2 _ _ htask).1
  rw [hhistory] at hmay
  exact ⟨t, ht, hcall ▸ hmay⟩

theorem Reachable.returned (h : Reachable M w P) {i : Nat} {c : C} {x : Ans c}
    (ht : P.tasks[i]? = some ⟨c, .done x⟩) : post i c (own i P.history) (.ok x) :=
  (Reachable.obeys hbody h).2 i _ ht

end Discipline

end Lib.Shared
