import ScopedAccess.Helpdesk
import ScopedAccess.Lib.Formula

/-! Permission policies of a view (`drf/permissions.py`, `drf/mixins.py`): one scoped permission,
policies composed of several, and the permissions a list is filtered by. -/

namespace ScopedAccess.Drf

open Lib (Formula)
open Lib.Loop

structure Options where
  appLabel : String
  modelName : String

/-- `DjangoModelPermissions`: what each HTTP method asks for. -/
structure ScopedModelPermission where
  permsMap : List (String × List (Options → String))

/-- `"%(app_label)s.<action>_%(model_name)s"` -/
def codename (action : String) (opts : Options) : String :=
  opts.appLabel ++ "." ++ action ++ "_" ++ opts.modelName

namespace ScopedModelPermission

def stock : ScopedModelPermission where
  permsMap := [
    ("GET", [codename "view"]),
    ("OPTIONS", []),
    ("HEAD", [codename "view"]),
    ("POST", [codename "add"]),
    ("PUT", [codename "change"]),
    ("PATCH", [codename "change"]),
    ("DELETE", [codename "delete"])]

variable (p : ScopedModelPermission)

def getRequiredPermissions (method : String) (opts : Options) : Py (List String) :=
  match p.permsMap.lookup method with
  | none => throwing .methodNotAllowed ("Method \"" ++ method ++ "\" not allowed.")
  | some templates => .ok (templates.map (· opts))

def hasObjectPermission (optsOf : Model → Options) (user : User) (method : String) (o : Obj) :
    Read Bool := do
  let permissions ← (p.getRequiredPermissions method (optsOf o.model) : Py _)
  if ← permissions.allM fun permission => hasPerm user permission (some o) none then return true
  (throwing .permissionDenied "You do not have this permission in the object's scope." : Py Bool)

end ScopedModelPermission

variable {β : Type}

inductive Operator
  | and
  | or

/-- What is called to make a permission: a class, or what an operator makes of classes. -/
inductive Factory (β : Type)
  | scopedModelPermission (p : ScopedModelPermission)
  | other (q : β)
  | operandHolder (operatorClass : Operator) (op1Class op2Class : Factory β)
  | singleOperandHolder (op1Class : Factory β)

/-- A permission as a view has it, called already or not. -/
inductive Permission (β : Type)
  | scopedModelPermission (p : ScopedModelPermission)
  | other (q : β)
  | and (op1 op2 : Permission β)
  | or (op1 op2 : Permission β)
  | not (op1 : Permission β)
  | factory (f : Factory β)

def Operator.apply : Operator → Permission β → Permission β → Permission β
  | .and => .and
  | .or => .or

def Factory.call : Factory β → Permission β
  | scopedModelPermission p => .scopedModelPermission p
  | other q => .other q
  | operandHolder operatorClass op1Class op2Class =>
    operatorClass.apply op1Class.call op2Class.call
  | singleOperandHolder op1Class => .not op1Class.call

def Factory.size : Factory β → Nat
  | scopedModelPermission _ | other _ => 1
  | operandHolder _ op1Class op2Class => op1Class.size + op2Class.size + 1
  | singleOperandHolder op1Class => op1Class.size + 1

def Permission.size : Permission β → Nat
  | scopedModelPermission _ | other _ => 1
  | and op1 op2 | or op1 op2 => op1.size + op2.size + 1
  | not op1 => op1.size + 1
  | factory f => f.size + 1

@[simp] theorem Factory.size_call (f : Factory β) : f.call.size = f.size := by
  induction f with
  | scopedModelPermission | other => rfl
  | operandHolder operatorClass op1Class op2Class ih ih' =>
    cases operatorClass <;> simp [call, Operator.apply, Permission.size, size, ih, ih']
  | singleOperandHolder op1Class ih => simp [call, Permission.size, size, ih]

/-- `if leaves and not isinstance(permission, AND)` -/
def refuseChoice (leaves : List ScopedModelPermission) : Py (List ScopedModelPermission) :=
  if leaves.isEmpty then .ok leaves
  else throwing .improperlyConfigured
    ("ScopedModelPermission supports AND (&) composition only in scoped mixins; " ++
      "OR (|) and NOT (~) require an explicit custom scope policy.")

def scopedPermissionLeaves : Permission β → Py (List ScopedModelPermission)
  | .scopedModelPermission p => .ok [p]
  | .other _ => .ok []
  | .and op1 op2 => do
    let leaves ← scopedPermissionLeaves op1
    return leaves ++ (← scopedPermissionLeaves op2)
  | .or op1 op2 => do
    let leaves ← scopedPermissionLeaves op1
    refuseChoice (leaves ++ (← scopedPermissionLeaves op2))
  | .not op1 => do
    refuseChoice (← scopedPermissionLeaves op1)
  | .factory f => scopedPermissionLeaves f.call
termination_by permission => permission.size
decreasing_by all_goals simp only [Permission.size, Factory.size_call]; omega

def extendRequired (method : String) (opts : Options) : List (Permission β) → Py (List String)
  | [] => .ok []
  | permission :: permissions => do
    let leaves ← scopedPermissionLeaves permission
    let required ← leaves.mapM fun leaf => leaf.getRequiredPermissions method opts
    return required.flatten ++ (← extendRequired method opts permissions)

/-- `tuple(dict.fromkeys(required))`, without the cache on the view. -/
def requiredScopedPermissions (permissions : List (Permission β)) (method : String)
    (opts : Options) : Py (List String) := do
  return (← extendRequired method opts permissions).eraseDups

def Factory.formula : Factory β → Formula ScopedModelPermission β
  | scopedModelPermission p => .leaf p
  | other q => .other q
  | operandHolder .and op1Class op2Class => .and op1Class.formula op2Class.formula
  | operandHolder .or op1Class op2Class => .or op1Class.formula op2Class.formula
  | singleOperandHolder op1Class => .not op1Class.formula

def Permission.formula : Permission β → Formula ScopedModelPermission β
  | scopedModelPermission p => .leaf p
  | other q => .other q
  | and op1 op2 => .and op1.formula op2.formula
  | or op1 op2 => .or op1.formula op2.formula
  | not op1 => .not op1.formula
  | factory f => f.formula

@[simp] theorem Factory.formula_call (f : Factory β) : f.call.formula = f.formula := by
  induction f with
  | scopedModelPermission | other => rfl
  | operandHolder operatorClass op1Class op2Class ih ih' =>
    cases operatorClass <;> simp [call, Operator.apply, Permission.formula, formula, ih, ih']
  | singleOperandHolder op1Class ih => simp [call, Permission.formula, formula, ih]

theorem refuseChoice_of_ne_nil {leaves : List ScopedModelPermission} (h : leaves ≠ []) :
    ∃ e, refuseChoice leaves = .error (.raised e) ∧ e.cls = .improperlyConfigured := by
  rw [refuseChoice, if_neg (by simpa using h)]
  exact ⟨_, rfl, rfl⟩

theorem scopedPermissionLeaves_pure {permission : Permission β}
    (h : ¬ permission.formula.Mixed) :
    scopedPermissionLeaves permission = .ok permission.formula.leaves := by
  fun_induction scopedPermissionLeaves permission with
  | case1 p => rfl
  | case2 q => rfl
  | case3 op1 op2 ih ih' =>
    rw [Permission.formula, Formula.mixed_and, not_or] at h
    rw [ih h.1, ok_bind, ih' h.2]
    rfl
  | case4 op1 op2 ih ih' =>
    have hnil : op1.formula.leaves = [] ∧ op2.formula.leaves = [] := by
      simpa [Permission.formula] using h
    rw [ih fun hmixed => Formula.leaves_of_mixed hmixed hnil.1,
      ok_bind, ih' fun hmixed => Formula.leaves_of_mixed hmixed hnil.2, ok_bind,
      Permission.formula, Formula.leaves, hnil.1, hnil.2]
    rfl
  | case5 op1 ih =>
    have hnil : op1.formula.leaves = [] := by simpa [Permission.formula] using h
    rw [ih fun hmixed => Formula.leaves_of_mixed hmixed hnil, ok_bind, Permission.formula,
      Formula.leaves, hnil]
    rfl
  | case6 f ih =>
    rw [Permission.formula, ← Factory.formula_call] at h ⊢
    exact ih h

theorem scopedPermissionLeaves_mixed {permission : Permission β} (h : permission.formula.Mixed) :
    ∃ e, scopedPermissionLeaves permission = .error (.raised e) ∧
      e.cls = .improperlyConfigured := by
  fun_induction scopedPermissionLeaves permission with
  | case1 p => exact absurd h Formula.not_mixed_leaf
  | case2 q => exact absurd h Formula.not_mixed_other
  | case3 op1 op2 ih ih' =>
    by_cases h1 : op1.formula.Mixed
    · obtain ⟨e, he, hcls⟩ := ih h1
      exact ⟨e, by rw [he, error_bind], hcls⟩
    · obtain ⟨e, he, hcls⟩ := ih' ((Formula.mixed_and.mp h).resolve_left h1)
      exact ⟨e, by rw [scopedPermissionLeaves_pure h1, ok_bind, he, error_bind], hcls⟩
  | case4 op1 op2 ih ih' =>
    by_cases h1 : op1.formula.Mixed
    · obtain ⟨e, he, hcls⟩ := ih h1
      exact ⟨e, by rw [he, error_bind], hcls⟩
    · by_cases h2 : op2.formula.Mixed
      · obtain ⟨e, he, hcls⟩ := ih' h2
        exact ⟨e, by rw [scopedPermissionLeaves_pure h1, ok_bind, he, error_bind], hcls⟩
      · rw [scopedPermissionLeaves_pure h1, ok_bind, scopedPermissionLeaves_pure h2, ok_bind]
        exact refuseChoice_of_ne_nil (Formula.mixed_or.mp h)
  | case5 op1 ih =>
    by_cases h1 : op1.formula.Mixed
    · obtain ⟨e, he, hcls⟩ := ih h1
      exact ⟨e, by rw [he, error_bind], hcls⟩
    · rw [scopedPermissionLeaves_pure h1, ok_bind]
      exact refuseChoice_of_ne_nil (Formula.mixed_not.mp h)
  | case6 f ih =>
    rw [Permission.formula, ← Factory.formula_call] at h
    exact ih h

theorem scopedPermissionLeaves_ok {permission : Permission β} {leaves : List ScopedModelPermission} :
    scopedPermissionLeaves permission = .ok leaves ↔
      ¬ permission.formula.Mixed ∧ leaves = permission.formula.leaves := by
  constructor
  · intro h
    have hpure : ¬ permission.formula.Mixed := fun hmixed => by
      obtain ⟨e, he, -⟩ := scopedPermissionLeaves_mixed hmixed
      simp [he] at h
    exact ⟨hpure, Except.ok.inj (h.symm.trans (scopedPermissionLeaves_pure hpure))⟩
  · rintro ⟨hpure, rfl⟩
    exact scopedPermissionLeaves_pure hpure

section Check

variable {w : World} {optsOf : Model → Options} {user : User} {method : String} {o : Obj}
  {p : ScopedModelPermission}

theorem hasObjectPermission_true :
    (p.hasObjectPermission optsOf user method o).run w = .ok true ↔
      ∃ permissions, p.getRequiredPermissions method (optsOf o.model) = .ok permissions ∧
        ∀ perm ∈ permissions, (hasPerm user perm (some o) none).run w = .ok true := by
  simp only [ScopedModelPermission.hasObjectPermission, Read.run_bind, Read.run_liftPy,
    Read.run_allM, bind_eq_ok, ← allM_eq_true]
  refine exists_congr fun permissions => and_congr_right fun _ => ?_
  constructor
  · rintro ⟨granted, hgranted, h⟩
    cases granted with
    | true => exact hgranted
    | false => simp [throwing] at h
  · exact fun h => ⟨true, h, rfl⟩

theorem mem_extendRequired {permissions : List (Permission β)} {opts : Options}
    {required : List String} (h : extendRequired method opts permissions = .ok required) :
    (∀ permission ∈ permissions, ∀ p ∈ permission.formula.leaves,
      ∃ ps, p.getRequiredPermissions method opts = .ok ps) ∧
    ∀ perm, perm ∈ required ↔ ∃ permission ∈ permissions, ∃ p ∈ permission.formula.leaves,
      ∃ ps, p.getRequiredPermissions method opts = .ok ps ∧ perm ∈ ps := by
  induction permissions generalizing required with
  | nil =>
    obtain rfl : [] = required := Except.ok.inj h
    simp
  | cons permission permissions ih =>
    obtain ⟨leaves, hleaves, h⟩ := bind_eq_ok.mp h
    obtain ⟨asked, hasked, h⟩ := bind_eq_ok.mp h
    obtain ⟨rest, hrest, rfl⟩ := map_eq_ok.mp h
    obtain ⟨-, rfl⟩ := scopedPermissionLeaves_ok.mp hleaves
    obtain ⟨hok, hmem⟩ := ih hrest
    have hhead (perm : String) : perm ∈ asked.flatten ↔ ∃ p ∈ permission.formula.leaves,
        ∃ ps, p.getRequiredPermissions method opts = .ok ps ∧ perm ∈ ps := by
      rw [List.mem_flatten]
      constructor
      · rintro ⟨ps, hps, hperm⟩
        obtain ⟨p, hp, hget⟩ := (mem_of_mapM hasked).mp hps
        exact ⟨p, hp, ps, hget, hperm⟩
      · rintro ⟨p, hp, ps, hget, hperm⟩
        exact ⟨ps, (mem_of_mapM hasked).mpr ⟨p, hp, hget⟩, hperm⟩
    refine ⟨List.forall_mem_cons.mpr ⟨fun p hp => ?_, hok⟩, fun perm => ?_⟩
    · obtain ⟨ps, -, hget⟩ := ok_of_mapM hasked hp
      exact ⟨ps, hget⟩
    · rw [List.mem_append, hhead, hmem]
      simp only [List.mem_cons, exists_eq_or_imp]

theorem required_iff {permissions : List (Permission β)} {required : List String}
    (h : requiredScopedPermissions permissions method (optsOf o.model) = .ok required) :
    (∀ perm ∈ required, (hasPerm user perm (some o) none).run w = .ok true) ↔
      ∀ permission ∈ permissions, ∀ p ∈ permission.formula.leaves,
        (p.hasObjectPermission optsOf user method o).run w = .ok true := by
  obtain ⟨extended, hextended, rfl⟩ := map_eq_ok.mp h
  obtain ⟨hok, hmem⟩ := mem_extendRequired hextended
  simp only [List.mem_eraseDups, hmem, hasObjectPermission_true]
  constructor
  · intro hall permission hpermission p hp
    obtain ⟨ps, hps⟩ := hok permission hpermission p hp
    exact ⟨ps, hps, fun perm hperm => hall perm ⟨permission, hpermission, p, hp, ps, hps, hperm⟩⟩
  · rintro hall perm ⟨permission, hpermission, p, hp, ps, hps, hperm⟩
    obtain ⟨ps', hps', hheld⟩ := hall permission hpermission p hp
    obtain rfl := Except.ok.inj (hps.symm.trans hps')
    exact hheld perm hperm

end Check

/-- Discovery finds the scoped permissions of a policy exactly where they are conjuncts, and
refuses every other policy that has one.  Whatever else the policy asks for, what it admits
each of them admits. -/
theorem discovery_exact (permission : Permission β) :
    ((∃ e, scopedPermissionLeaves permission = .error (.raised e) ∧
        e.cls = .improperlyConfigured) ↔ permission.formula.Mixed) ∧
    (¬ permission.formula.Mixed →
      scopedPermissionLeaves permission = .ok permission.formula.leaves) ∧
    ∀ leaves, scopedPermissionLeaves permission = .ok leaves →
      ∀ (w : World) (optsOf : Model → Options) (user : User) (method : String) (o : Obj)
        (grants : Formula ScopedModelPermission β → Prop),
        (∀ f g, grants (.and f g) ↔ grants f ∧ grants g) →
        (∀ p, grants (.leaf p) ↔
          (p.hasObjectPermission optsOf user method o).run w = .ok true) →
        (grants permission.formula →
          ∀ p ∈ leaves, (p.hasObjectPermission optsOf user method o).run w = .ok true) ∧
        ∀ required, requiredScopedPermissions [permission] method (optsOf o.model) = .ok required →
          ((∀ perm ∈ required, (hasPerm user perm (some o) none).run w = .ok true) ↔
            ∀ p ∈ leaves, (p.hasObjectPermission optsOf user method o).run w = .ok true) := by
  refine ⟨⟨?_, scopedPermissionLeaves_mixed⟩, scopedPermissionLeaves_pure, ?_⟩
  · rintro ⟨e, he, -⟩
    by_contra hpure
    simp [scopedPermissionLeaves_pure hpure] at he
  · intro leaves hleaves w optsOf user method o grants hand hleaf
    obtain ⟨hpure, rfl⟩ := scopedPermissionLeaves_ok.mp hleaves
    refine ⟨fun h p hp => (hleaf p).mp (Formula.holds_leaves hand hpure h p hp), ?_⟩
    intro required hrequired
    rw [required_iff hrequired, List.forall_mem_singleton]

namespace Queue

open Helpdesk

def optsOf (_ : Model) : Options := { appLabel := "helpdesk", modelName := "ticket" }

def policy : Permission Unit :=
  .factory (.operandHolder .and (.scopedModelPermission .stock) (.singleOperandHolder (.other ())))

theorem stock_discovered : scopedPermissionLeaves policy = .ok [.stock] ∧
    (ScopedModelPermission.stock.hasObjectPermission optsOf alice "GET"
      (.stored loginButton)).run seeded = .ok true := by
  have hleaves : policy.formula.leaves = [.stock] := rfl
  have hpure : ¬ policy.formula.Mixed := by
    simp [policy, Permission.formula, Factory.formula, Formula.leaves]
  obtain ⟨-, hfound, hadmits⟩ := discovery_exact policy
  have hfound := hfound hpure
  refine ⟨hleaves ▸ hfound, ?_⟩
  have hadmit := hadmits _ hfound seeded optsOf alice "GET" (.stored loginButton)
    (Formula.Holds (fun p => (p.hasObjectPermission optsOf alice "GET"
      (.stored loginButton)).run seeded = .ok true) fun _ => False)
    (fun _ _ => Iff.rfl) fun _ => Iff.rfl
  have hgranted : (ScopedModelPermission.stock.hasObjectPermission optsOf alice "GET"
      (.stored loginButton)).run seeded = .ok true := by decide
  exact hadmit.1 ⟨hgranted, id⟩ .stock (by simp [hleaves])

end Queue

end ScopedAccess.Drf
