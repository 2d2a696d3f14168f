import Mathlib.Data.Finset.Lattice.Lemmas

namespace Lib.Loop

variable {ε α β : Type}

theorem bind_eq_ok {x : Except ε α} {f : α → Except ε β} {b : β} :
    x >>= f = .ok b ↔ ∃ a, x = .ok a ∧ f a = .ok b := by
  cases x with
  | error e => simp [bind, Except.bind]
  | ok a => simp [bind, Except.bind]

theorem map_eq_ok {x : Except ε α} {f : α → β} {b : β} :
    f <$> x = .ok b ↔ ∃ a, x = .ok a ∧ f a = b := by
  cases x with
  | error e => simp [Functor.map, Except.map]
  | ok a => simp [Functor.map, Except.map]

@[simp] theorem pure_eq_ok {a b : α} : (pure a : Except ε α) = .ok b ↔ a = b := by
  simp [pure, Except.pure]

@[simp] theorem ok_bind (a : α) (f : α → Except ε β) : (Except.ok a >>= f) = f a := rfl

@[simp] theorem error_bind (e : ε) (f : α → Except ε β) :
    ((Except.error e : Except ε α) >>= f) = .error e := rfl

theorem isOk_iff {x : Except ε α} : x.isOk ↔ ∃ a, x = .ok a := by
  cases x <;> simp [Except.isOk, Except.toBool]

def Both {α' : Type} (R : α → α' → Prop) : Except ε α → Except ε α' → Prop
  | .ok a, .ok a' => R a a'
  | .error e, .error e' => e = e'
  | _, _ => False

theorem Both.bind {α' β' : Type} {R : α → α' → Prop} {S : β → β' → Prop} {x : Except ε α}
    {x' : Except ε α'} {f : α → Except ε β} {f' : α' → Except ε β'} (hx : Both R x x')
    (hf : ∀ a a', R a a' → Both S (f a) (f' a')) : Both S (x >>= f) (x' >>= f') := by
  cases x with
  | error e =>
    cases x' with
    | error e' => exact hx
    | ok a' => exact hx.elim
  | ok a =>
    cases x' with
    | error e' => exact hx.elim
    | ok a' => exact hf a a' hx

theorem Both.mono {α' : Type} {R S : α → α' → Prop} {x : Except ε α} {x' : Except ε α'}
    (h : Both R x x') (hRS : ∀ a a', R a a' → S a a') : Both S x x' := by
  cases x with
  | error e =>
    cases x' with
    | error e' => exact h
    | ok a' => exact h
  | ok a =>
    cases x' with
    | error e' => exact h
    | ok a' => exact hRS a a' h

theorem Both.refl {R : α → α → Prop} (hR : ∀ a, R a a) (x : Except ε α) : Both R x x := by
  cases x with
  | error e => rfl
  | ok a => exact hR a

section MapM

variable {f : α → Except ε β} {as : List α} {bs : List β}

theorem mapM_eq_ok : as.mapM f = .ok bs ↔ List.Forall₂ (fun a b => f a = .ok b) as bs := by
  induction as generalizing bs with
  | nil =>
    rw [List.mapM_nil, pure_eq_ok, eq_comm]
    exact List.forall₂_nil_left_iff.symm
  | cons a as ih =>
    simp only [List.mapM_cons, bind_eq_ok, pure_eq_ok, List.forall₂_cons_left_iff, ih]
    constructor
    · rintro ⟨b, hb, bs, hbs, rfl⟩
      exact ⟨b, bs, hb, hbs, rfl⟩
    · rintro ⟨b, bs, hb, hbs, rfl⟩
      exact ⟨b, hb, bs, hbs, rfl⟩

theorem mapM_eq_some {g : α → Option β} {as : List α} {bs : List β} :
    as.mapM g = some bs ↔ List.Forall₂ (fun a b => g a = some b) as bs := by
  induction as generalizing bs with
  | nil =>
    rw [List.mapM_nil, Option.pure_def, Option.some.injEq, eq_comm]
    exact List.forall₂_nil_left_iff.symm
  | cons a as ih =>
    simp only [List.mapM_cons, Option.bind_eq_bind, Option.bind_eq_some_iff, Option.pure_def,
      Option.some.injEq, List.forall₂_cons_left_iff, ih]
    constructor
    · rintro ⟨b, hb, bs, hbs, rfl⟩
      exact ⟨b, bs, hb, hbs, rfl⟩
    · rintro ⟨b, bs, hb, hbs, rfl⟩
      exact ⟨b, hb, bs, hbs, rfl⟩

theorem getElem?_of_forall₂ {R : α → β → Prop} {as : List α} {bs : List β}
    (h : List.Forall₂ R as bs) {k : Nat} {b : β} (hb : bs[k]? = some b) :
    ∃ a, as[k]? = some a ∧ R a b := by
  induction h generalizing k with
  | nil => simp at hb
  | cons hR _ ih =>
    cases k with
    | zero =>
      obtain rfl := Option.some.inj hb
      exact ⟨_, rfl, hR⟩
    | succ k => exact ih hb

theorem mem_of_mapM (h : as.mapM f = .ok bs) {b : β} : b ∈ bs ↔ ∃ a ∈ as, f a = .ok b := by
  rw [mapM_eq_ok] at h
  induction h with
  | nil => simp
  | cons hab _ ih => simp [hab, ih, eq_comm]

theorem mapM_total (h : ∀ a ∈ as, ∃ b, f a = .ok b) : ∃ bs, as.mapM f = .ok bs := by
  induction as with
  | nil => exact ⟨[], rfl⟩
  | cons a as ih =>
    obtain ⟨b, hb⟩ := h a List.mem_cons_self
    obtain ⟨bs, hbs⟩ := ih fun a ha => h a (List.mem_cons_of_mem _ ha)
    exact ⟨b :: bs, by rw [List.mapM_cons, hb, hbs]; rfl⟩

theorem ok_of_mapM (h : as.mapM f = .ok bs) {a : α} (ha : a ∈ as) : ∃ b ∈ bs, f a = .ok b := by
  rw [mapM_eq_ok] at h
  induction h with
  | nil => cases ha
  | cons hab _ ih =>
    rcases List.mem_cons.mp ha with rfl | ha
    · exact ⟨_, List.mem_cons_self, hab⟩
    · obtain ⟨b, hb, hfa⟩ := ih ha
      exact ⟨b, List.mem_cons_of_mem _ hb, hfa⟩

theorem mapM_filter {keep : α → Bool} {keep' : β → Bool}
    (hdrop : ∀ a ∈ as, keep a = false → ∃ b, f a = .ok b)
    (hkeep : ∀ a ∈ as, ∀ b, f a = .ok b → keep' b = keep a) :
    (as.filter keep).mapM f = (as.mapM f).map (List.filter keep') := by
  induction as with
  | nil => rfl
  | cons a as ih =>
    have ih := ih (fun a ha => hdrop a (List.mem_cons_of_mem _ ha))
      (fun a ha => hkeep a (List.mem_cons_of_mem _ ha))
    have heq := hkeep a List.mem_cons_self
    cases hk : keep a with
    | true =>
      rw [List.filter_cons_of_pos hk, List.mapM_cons, List.mapM_cons, ih]
      cases hf : f a with
      | error e => rfl
      | ok b =>
        have hb : keep' b = true := (heq b hf).trans hk
        cases as.mapM f with
        | error e => rfl
        | ok bs => exact congrArg Except.ok (List.filter_cons_of_pos hb).symm
    | false =>
      obtain ⟨b, hf⟩ := hdrop a List.mem_cons_self hk
      have hb : ¬ keep' b = true := by simp [heq b hf, hk]
      rw [List.filter_cons_of_neg (by simp [hk]), List.mapM_cons, ih, hf]
      cases as.mapM f with
      | error e => rfl
      | ok bs => exact congrArg Except.ok (List.filter_cons_of_neg hb).symm

end MapM

section AnyM

variable {p : α → Except ε Bool} {as : List α}

theorem anyM_cons_ok {a : α} {b : Bool} (h : p a = .ok b) :
    (a :: as).anyM p = if b then .ok true else as.anyM p := by
  rw [List.anyM_cons, h]
  cases b <;> rfl

theorem exists_of_anyM (h : as.anyM p = .ok true) : ∃ a ∈ as, p a = .ok true := by
  induction as with
  | nil => simp [List.anyM, pure, Except.pure] at h
  | cons a as ih =>
    cases hp : p a with
    | error e => simp [hp] at h
    | ok b =>
      cases b with
      | true => exact ⟨a, List.mem_cons_self, hp⟩
      | false =>
        rw [anyM_cons_ok hp] at h
        obtain ⟨a', ha', hpa'⟩ := ih h
        exact ⟨a', List.mem_cons_of_mem _ ha', hpa'⟩

theorem anyM_eq_false : as.anyM p = .ok false ↔ ∀ a ∈ as, p a = .ok false := by
  induction as with
  | nil => simp [List.anyM, pure, Except.pure]
  | cons a as ih =>
    cases hp : p a with
    | error e => simp [hp]
    | ok b => cases b <;> simp [ih, hp]

theorem anyM_true_iff {b : Bool} (h : as.anyM p = .ok b) :
    b = true ↔ ∃ a ∈ as, p a = .ok true := by
  cases b with
  | true => exact iff_of_true rfl (exists_of_anyM h)
  | false =>
    refine iff_of_false (by simp) ?_
    rintro ⟨a, ha, hp⟩
    simp [anyM_eq_false.mp h a ha] at hp

theorem anyM_congr {q : α → Except ε Bool} (h : ∀ a ∈ as, p a = q a) : as.anyM p = as.anyM q := by
  induction as with
  | nil => rfl
  | cons a as ih =>
    rw [List.anyM_cons, List.anyM_cons, h a List.mem_cons_self,
      ih fun b hb => h b (List.mem_cons_of_mem _ hb)]

theorem anyM_total (h : ∀ a ∈ as, ∃ b, p a = .ok b) :
    ∃ b, as.anyM p = .ok b ∧ (b = true ↔ ∃ a ∈ as, p a = .ok true) := by
  induction as with
  | nil => exact ⟨false, rfl, by simp⟩
  | cons a as ih =>
    obtain ⟨b, hb⟩ := h a List.mem_cons_self
    obtain ⟨b', hb', hiff⟩ := ih fun a ha => h a (List.mem_cons_of_mem _ ha)
    cases b with
    | true => exact ⟨true, by rw [anyM_cons_ok hb]; rfl, by simp [hb]⟩
    | false =>
      refine ⟨b', by rw [anyM_cons_ok hb, hb']; rfl, ?_⟩
      simp [hb, hiff]

/-- Each element is good, up to one at which the loop stops. -/
def Until (stop good : α → Prop) : List α → Prop
  | [] => True
  | a :: as => good a ∧ (stop a ∨ Until stop good as)

section Until

variable {stop good stop' good' : α → Prop}

theorem Until.of_forall (h : ∀ a ∈ as, good a) : Until stop good as := by
  induction as with
  | nil => trivial
  | cons a as ih =>
    exact ⟨h a List.mem_cons_self, .inr (ih fun a ha => h a (List.mem_cons_of_mem _ ha))⟩

theorem Until.mono (h : Until stop good as) (hstop : ∀ a ∈ as, stop a → stop' a)
    (hgood : ∀ a ∈ as, good a → good' a) : Until stop' good' as := by
  induction as with
  | nil => trivial
  | cons a as ih =>
    refine ⟨hgood a List.mem_cons_self h.1, h.2.imp (hstop a List.mem_cons_self) fun h => ?_⟩
    exact ih h (fun a ha => hstop a (List.mem_cons_of_mem _ ha))
      fun a ha => hgood a (List.mem_cons_of_mem _ ha)

theorem until_congr (hstop : ∀ a ∈ as, (stop a ↔ stop' a)) (hgood : ∀ a ∈ as, (good a ↔ good' a)) :
    Until stop good as ↔ Until stop' good' as :=
  ⟨fun h => h.mono (fun a ha => (hstop a ha).mp) fun a ha => (hgood a ha).mp,
    fun h => h.mono (fun a ha => (hstop a ha).mpr) fun a ha => (hgood a ha).mpr⟩

theorem until_forall₂ {R : α → β → Prop} {stopb goodb : β → Prop} {bs : List β}
    (h : List.Forall₂ R as bs) (hstop : ∀ a b, R a b → (stop a ↔ stopb b))
    (hgood : ∀ a b, R a b → (good a ↔ goodb b)) :
    Until stop good as ↔ Until stopb goodb bs := by
  induction h with
  | nil => rfl
  | cons hab _ ih => simp only [Until, hstop _ _ hab, hgood _ _ hab, ih]

theorem until_never : Until (fun _ => False) good as ↔ ∀ a ∈ as, good a := by
  induction as with
  | nil => simp [Until]
  | cons a as ih => simp [Until, ih]

end Until

theorem anyM_ok : (∃ b, as.anyM p = .ok b) ↔
    Until (fun a => p a = .ok true) (fun a => ∃ b, p a = .ok b) as := by
  induction as with
  | nil => exact ⟨fun _ => trivial, fun _ => ⟨false, rfl⟩⟩
  | cons a as ih =>
    cases h : p a with
    | error e => simp [Until, h]
    | ok b => cases b <;> simp [Until, h, ih]

theorem anyM_filter {keep : α → Bool} (h : ∀ a ∈ as, keep a = false → p a = .ok false) :
    (as.filter keep).anyM p = as.anyM p := by
  induction as with
  | nil => rfl
  | cons a as ih =>
    have ih := ih fun a ha => h a (List.mem_cons_of_mem _ ha)
    cases hk : keep a with
    | true => rw [List.filter_cons_of_pos hk, List.anyM_cons, List.anyM_cons, ih]
    | false =>
      rw [List.filter_cons_of_neg (by simp [hk]), ih,
        anyM_cons_ok (h a List.mem_cons_self hk)]
      rfl

theorem allM_eq_true : as.allM p = .ok true ↔ ∀ a ∈ as, p a = .ok true := by
  induction as with
  | nil => simp [List.allM, pure, Except.pure]
  | cons a as ih =>
    cases hp : p a with
    | error e => simp [List.allM, hp]
    | ok b => cases b <;> simp [List.allM, ih, hp]

end AnyM

theorem forM_eq_ok {f : α → Except ε Unit} {as : List α} :
    as.forM f = .ok ⟨⟩ ↔ ∀ a ∈ as, f a = .ok ⟨⟩ := by
  induction as with
  | nil => simp [pure, Except.pure]
  | cons a as ih =>
    have hcons : (a :: as).forM f = f a >>= fun _ => as.forM f := rfl
    rw [hcons, bind_eq_ok, List.forall_mem_cons]
    exact ⟨fun ⟨_, ha, has⟩ => ⟨ha, ih.mp has⟩, fun ⟨ha, has⟩ => ⟨_, ha, ih.mpr has⟩⟩

/-- `for a in as: acc |= f(a)` -/
def gather {m : Type → Type} [Monad m] [DecidableEq β] (f : α → m (Finset β)) :
    List α → Finset β → m (Finset β)
  | [], acc => pure acc
  | a :: as, acc => do gather f as (acc ∪ (← f a))

section Gather

variable [DecidableEq β] {f : α → Except ε (Finset β)} {as : List α} {acc s : Finset β}

theorem gather_cons_ok {a : α} {t : Finset β} (h : f a = .ok t) :
    gather f (a :: as) acc = gather f as (acc ∪ t) := by
  rw [gather, h]
  rfl

theorem gather_body (h : gather f as acc = .ok s) : ∀ a ∈ as, ∃ t, f a = .ok t := by
  induction as generalizing acc with
  | nil => simp
  | cons a as ih =>
    obtain ⟨t, ht, hrest⟩ := bind_eq_ok.mp h
    intro a' ha'
    rcases List.mem_cons.mp ha' with rfl | ha'
    · exact ⟨t, ht⟩
    · exact ih hrest a' ha'

theorem mem_gather (h : gather f as acc = .ok s) {x : β} :
    x ∈ s ↔ x ∈ acc ∨ ∃ a ∈ as, ∃ t, f a = .ok t ∧ x ∈ t := by
  induction as generalizing acc with
  | nil =>
    obtain rfl : acc = s := pure_eq_ok.mp h
    simp
  | cons a as ih =>
    obtain ⟨t, ht, hrest⟩ := bind_eq_ok.mp h
    simp [ih hrest, ht, or_assoc]

theorem gather_congr {g : α → Except ε (Finset β)} (h : ∀ a ∈ as, f a = g a) :
    gather f as acc = gather g as acc := by
  induction as generalizing acc with
  | nil => rfl
  | cons a as ih =>
    rw [gather, gather, h a List.mem_cons_self]
    exact bind_congr fun t => ih fun b hb => h b (List.mem_cons_of_mem _ hb)

theorem gather_total (h : ∀ a ∈ as, ∃ t, f a = .ok t) : ∃ s, gather f as acc = .ok s := by
  induction as generalizing acc with
  | nil => exact ⟨acc, rfl⟩
  | cons a as ih =>
    obtain ⟨t, ht⟩ := h a List.mem_cons_self
    rw [gather_cons_ok ht]
    exact ih fun a ha => h a (List.mem_cons_of_mem _ ha)

theorem gather_filter {keep : α → Bool} (h : ∀ a ∈ as, keep a = false → f a = .ok ∅) :
    gather f (as.filter keep) acc = gather f as acc := by
  induction as generalizing acc with
  | nil => rfl
  | cons a as ih =>
    have ih {acc : Finset β} : gather f (as.filter keep) acc = gather f as acc :=
      ih fun a ha => h a (List.mem_cons_of_mem _ ha)
    cases hk : keep a with
    | true =>
      rw [List.filter_cons_of_pos hk, gather, gather]
      congr 1
      funext t
      exact ih
    | false =>
      rw [List.filter_cons_of_neg (by simp [hk]), ih,
        gather_cons_ok (h a List.mem_cons_self hk), Finset.union_empty]

end Gather

/-- Where it fails, it fails with an error of a kind. -/
def Fails (E : ε → Prop) (x : Except ε α) : Prop := ∀ e, x = .error e → E e

section Fails

variable {E : ε → Prop} {x : Except ε α} {as : List α}

theorem Fails.ok (a : α) : Fails E (.ok a : Except ε α) := fun _ h => nomatch h

theorem Fails.error {e : ε} (h : E e) : Fails E (.error e : Except ε α) := fun e' heq => by
  cases heq
  exact h

theorem Fails.ite {y : Except ε α} {c : Prop} [Decidable c] (hx : Fails E x) (hy : Fails E y) :
    Fails E (if c then x else y) := by
  split
  · exact hx
  · exact hy

theorem Fails.bind {f : α → Except ε β} (hx : Fails E x)
    (hf : ∀ a, x = .ok a → Fails E (f a)) : Fails E (x >>= f) := by
  intro e h
  cases x with
  | error e' =>
    obtain rfl : e' = e := by simpa using h
    exact hx _ rfl
  | ok a => exact hf a rfl e h

theorem Fails.mapM {f : α → Except ε β} (hf : ∀ a ∈ as, Fails E (f a)) : Fails E (as.mapM f) := by
  induction as with
  | nil => exact .ok []
  | cons a as ih =>
    rw [List.mapM_cons]
    refine (hf a List.mem_cons_self).bind fun b _ => ?_
    exact (ih fun a' ha' => hf a' (List.mem_cons_of_mem _ ha')).bind fun bs _ => .ok _

theorem Fails.anyM {p : α → Except ε Bool} (hp : ∀ a ∈ as, Fails E (p a)) : Fails E (as.anyM p) := by
  induction as with
  | nil => exact .ok false
  | cons a as ih =>
    rw [List.anyM_cons]
    refine (hp a List.mem_cons_self).bind fun b _ => ?_
    cases b with
    | true => exact .ok true
    | false => exact ih fun a' ha' => hp a' (List.mem_cons_of_mem _ ha')

theorem Fails.gather [DecidableEq β] {f : α → Except ε (Finset β)}
    (hf : ∀ a ∈ as, Fails E (f a)) (acc : Finset β) : Fails E (gather f as acc) := by
  induction as generalizing acc with
  | nil => exact .ok acc
  | cons a as ih =>
    refine (hf a List.mem_cons_self).bind fun t _ => ?_
    exact ih (fun a' ha' => hf a' (List.mem_cons_of_mem _ ha')) _

end Fails

end Lib.Loop
