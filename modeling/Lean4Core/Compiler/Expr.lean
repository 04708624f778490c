import Lean4Core.Basic

/-!
# Expressions and local contexts of the code generator

The part of the kernel's `expr` and of `local_ctx` that the specializer (`specialize.cpp`,
`unnamed/part_003`) reads. Expressions have no metavariables (the
specializer never meets one: `lean_unreachable`); names of constants and free variables are
numbers, and a universe level only records whether it mentions a universe parameter, which
is all `has_univ_param` asks of it.

A local context lists its declarations in the order they were made; a let-declaration has a
value. `find` and `get_closed` follow let-values, so they recurse through the context as
well as through the expression; they take fuel, and `none` means that it ran out or, for
`get_closed`, that a free variable has no declaration (where `get_local_decl` throws).

Main results:
- `getClosed_expands`: in a context whose let-values refer only to earlier declarations,
  `get_closed` returns on every expression whose free variables are declared, and what it
  returns is the unique expansion through let-values and metadata (`Expands`) when that is
  closed, and `none_expr()` when it is not. Every expression `get_closed` receives has its
  free variables declared: `visit_lambda` and `visit_let` declare each variable they open.
-/

namespace Lean4Core

namespace Compiler

/-- Kernel expressions without metavariables. -/
inductive Expr where
  | bvar (idx : Nat)
  | fvar (fvarId : Nat)
  | sort (hasUnivParam : Bool)
  | const (declName : Nat) (hasUnivParam : Bool)
  | app (fn arg : Expr)
  | lam (binderType body : Expr)
  | forallE (binderType body : Expr)
  | letE (type value body : Expr)
  | lit (val : Nat)
  | mdata (expr : Expr)
  | proj (idx : Nat) (struct : Expr)
  deriving DecidableEq, Repr

namespace Expr

/-- `has_fvar`. -/
def hasFVar : Expr → Bool
  | fvar _ => true
  | app f a => f.hasFVar || a.hasFVar
  | lam d b | forallE d b => d.hasFVar || b.hasFVar
  | letE t v b => t.hasFVar || v.hasFVar || b.hasFVar
  | mdata e | proj _ e => e.hasFVar
  | bvar _ | sort _ | const _ _ | lit _ => false

/-- `has_univ_param`. -/
def hasUnivParam : Expr → Bool
  | sort u | const _ u => u
  | app f a => f.hasUnivParam || a.hasUnivParam
  | lam d b | forallE d b => d.hasUnivParam || b.hasUnivParam
  | letE t v b => t.hasUnivParam || v.hasUnivParam || b.hasUnivParam
  | mdata e | proj _ e => e.hasUnivParam
  | bvar _ | fvar _ | lit _ => false

def isLambda : Expr → Bool
  | lam _ _ => true
  | _ => false

/-- `get_app_fn`: the head of an application spine. -/
def getAppFn : Expr → Expr
  | app f _ => f.getAppFn
  | e => e

def isConst : Expr → Bool
  | const _ _ => true
  | _ => false

/-- `mk_app(f, args)`. -/
def mkAppN (f : Expr) (args : List Expr) : Expr := args.foldl app f

def isFVar : Expr → Bool
  | fvar _ => true
  | _ => false

/-- `get_app_num_args`. -/
def getAppNumArgs : Expr → Nat
  | app f _ => f.getAppNumArgs + 1
  | _ => 0

/-- The arguments that `get_app_args` collects: those of an application spine, first to
last; the head it returns is `getAppFn`. -/
def getAppArgs : Expr → List Expr
  | app f a => f.getAppArgs ++ [a]
  | _ => []

@[simp] theorem length_getAppArgs (e : Expr) : e.getAppArgs.length = e.getAppNumArgs := by
  induction e <;> simp [getAppArgs, getAppNumArgs, *]

@[simp] theorem getAppFn_app (f a : Expr) : (app f a).getAppFn = f.getAppFn := rfl

@[simp] theorem getAppArgs_app (f a : Expr) : (app f a).getAppArgs = f.getAppArgs ++ [a] := rfl

end Expr

/-- A local declaration: its free variable, whether its user name is a join point's
(`is_join_point_name`), its type, and its value if it is a let-declaration. -/
structure LocalDecl where
  fvarId : Nat
  isJoinPoint : Bool
  type : Expr
  value : Option Expr
  deriving DecidableEq, Repr

/-- A local context: its declarations in the order they were made. -/
abbrev LocalCtx := List LocalDecl

namespace LocalCtx

/-- `find_local_decl`. -/
def findDecl (lctx : LocalCtx) (x : Nat) : Option LocalDecl := lctx.find? (·.fvarId == x)

/-- The position of a declaration, which `sort_fvars` orders by. -/
def index (lctx : LocalCtx) (x : Nat) : Nat := lctx.findIdx (·.fvarId == x)

/-- `sort_fvars`: free variables in the order of their declarations. -/
def sortFVars (lctx : LocalCtx) (xs : List Nat) : List Nat :=
  xs.insertionSort fun a b => lctx.index a ≤ lctx.index b

@[simp] theorem mem_sortFVars (lctx : LocalCtx) (xs : List Nat) (x : Nat) :
    x ∈ lctx.sortFVars xs ↔ x ∈ xs :=
  (List.perm_insertionSort _ xs).mem_iff

theorem nodup_sortFVars (lctx : LocalCtx) {xs : List Nat} (h : xs.Nodup) : (lctx.sortFVars xs).Nodup :=
  (List.perm_insertionSort _ xs).nodup_iff.2 h

theorem sorted_sortFVars (lctx : LocalCtx) (xs : List Nat) :
    (lctx.sortFVars xs).Sorted fun a b => lctx.index a ≤ lctx.index b :=
  have : IsTotal Nat fun a b => lctx.index a ≤ lctx.index b := ⟨fun _ _ => Nat.le_total _ _⟩
  have : IsTrans Nat fun a b => lctx.index a ≤ lctx.index b := ⟨fun _ _ _ => Nat.le_trans⟩
  List.sorted_insertionSort _ xs

end LocalCtx

open Expr

variable (lctx : LocalCtx)

/-- `find` of the specializer: the expression a variable stands for, through let-values and
metadata. -/
def find : Nat → Expr → Option Expr
  | 0, _ => none
  | fuel + 1, fvar x =>
    match lctx.findDecl x with
    | some { value := some v, .. } => find fuel v
    | _ => some (fvar x)
  | fuel + 1, mdata e => find fuel e
  | _ + 1, e => some e

/-- Sequencing in `get_closed`: an error (`none`) and a failure (`some none`) stop it. -/
def bindClosed (r : Option (Option Expr)) (k : Expr → Option (Option Expr)) : Option (Option Expr) :=
  match r with
  | some (some e) => k e
  | r => r

/-- `get_closed`: the expression with every let-variable replaced by its value and metadata
removed, when that leaves no free variable and no universe parameter. The source walks an
application spine head first, then each argument; recursing on the function and then the
argument of each `app` visits them in the same order. -/
def getClosed : Nat → Expr → Option (Option Expr)
  | 0, _ => none
  | fuel + 1, e =>
    if e.hasUnivParam then some none else
    match e with
    | bvar _ | sort _ | const _ _ | lit _ => some (some e)
    | fvar x =>
      match lctx.findDecl x with
      | none => none
      | some decl =>
        match decl.value with
        | some v => getClosed fuel v
        | none => some none
    | mdata e => getClosed fuel e
    | proj i s => bindClosed (getClosed fuel s) fun s => some (some (proj i s))
    | lam d b => bindClosed (getClosed fuel d) fun d => bindClosed (getClosed fuel b) fun b =>
        some (some (lam d b))
    | forallE d b => bindClosed (getClosed fuel d) fun d => bindClosed (getClosed fuel b) fun b =>
        some (some (forallE d b))
    | app f a => bindClosed (getClosed fuel f) fun f => bindClosed (getClosed fuel a) fun a =>
        some (some (app f a))
    | letE t v b => bindClosed (getClosed fuel t) fun t => bindClosed (getClosed fuel v) fun v =>
        bindClosed (getClosed fuel b) fun b => some (some (letE t v b))

/-! ## What `get_closed` computes

The specializer's global cache is keyed by the closed form of each fixed argument. Given a
context in which every let-value refers only to earlier declarations, and an expression whose
free variables are all declared, `get_closed` returns, for enough fuel, the expression
expanded through let-values and stripped of metadata when that expansion has no free
variable and no universe parameter, and `none_expr()` otherwise. The specializer calls it
only on arguments of code it has opened, whose free variables `visit_lambda` and `visit_let`
have declared. -/

namespace Expr

/-- The free variables of an expression, in order of occurrence. -/
def fvars : Expr → List Nat
  | fvar x => [x]
  | app f a => f.fvars ++ a.fvars
  | lam d b | forallE d b => d.fvars ++ b.fvars
  | letE t v b => t.fvars ++ v.fvars ++ b.fvars
  | mdata e | proj _ e => e.fvars
  | bvar _ | sort _ | const _ _ | lit _ => []

/-- Specification: an expression that is no cache key, for it has a free variable
or a universe parameter. -/
def isOpen (e : Expr) : Bool := e.hasFVar || e.hasUnivParam

theorem isOpen_proj (i : Nat) (s : Expr) : (proj i s).isOpen = s.isOpen := rfl

theorem isOpen_lam (d b : Expr) : (lam d b).isOpen = (d.isOpen || b.isOpen) := by
  simp only [isOpen, hasFVar, hasUnivParam]; ac_rfl

theorem isOpen_forallE (d b : Expr) : (forallE d b).isOpen = (d.isOpen || b.isOpen) := by
  simp only [isOpen, hasFVar, hasUnivParam]; ac_rfl

theorem isOpen_app (f a : Expr) : (app f a).isOpen = (f.isOpen || a.isOpen) := by
  simp only [isOpen, hasFVar, hasUnivParam]; ac_rfl

theorem isOpen_letE (t v b : Expr) : (letE t v b).isOpen = (t.isOpen || v.isOpen || b.isOpen) := by
  simp only [isOpen, hasFVar, hasUnivParam]; ac_rfl

theorem hasFVar_eq_false_iff (e : Expr) : e.hasFVar = false ↔ e.fvars = [] := by
  induction e <;> simp [hasFVar, fvars, and_assoc, *]

/-! ### Binding free variables

`instantiate_rev` and `abstract` of the kernel (`kernel/instantiate.cpp` and
`kernel/abstract.cpp`, which are not among the modelled files), for the substitutions made of
free variables that the specializer passes them. Both rebuild the expression as `replace`
does, counting in `k` the binders passed. -/

/-- `instantiate_rev(e, xs.size(), xs)` under `k` binders: the loose bound variable `k + j`
becomes the free variable `xs[xs.size() - j - 1]` when `j < xs.size()`, and the bound variable
`k + j - xs.size()` otherwise. -/
def instantiateRevAt (xs : List Nat) : Nat → Expr → Expr
  | k, bvar i =>
    if i < k then bvar i
    else if i - k < xs.length then fvar (xs.reverse.getD (i - k) 0) else bvar (i - xs.length)
  | k, app f a => app (instantiateRevAt xs k f) (instantiateRevAt xs k a)
  | k, lam d b => lam (instantiateRevAt xs k d) (instantiateRevAt xs (k + 1) b)
  | k, forallE d b => forallE (instantiateRevAt xs k d) (instantiateRevAt xs (k + 1) b)
  | k, letE t v b =>
    letE (instantiateRevAt xs k t) (instantiateRevAt xs k v) (instantiateRevAt xs (k + 1) b)
  | k, mdata e => mdata (instantiateRevAt xs k e)
  | k, proj i s => proj i (instantiateRevAt xs k s)
  | _, e => e

def instantiateRev (e : Expr) (xs : List Nat) : Expr := instantiateRevAt xs 0 e

/-- `abstract(e, xs.size(), xs)` under `k` binders: the free variable `xs[i]` becomes the
bound variable `k + xs.size() - i - 1`, the last `i` counting for a variable that `xs`
repeats. -/
def abstractAt (xs : List Nat) : Nat → Expr → Expr
  | k, fvar x => if x ∈ xs then bvar (k + xs.reverse.indexOf x) else fvar x
  | k, app f a => app (abstractAt xs k f) (abstractAt xs k a)
  | k, lam d b => lam (abstractAt xs k d) (abstractAt xs (k + 1) b)
  | k, forallE d b => forallE (abstractAt xs k d) (abstractAt xs (k + 1) b)
  | k, letE t v b => letE (abstractAt xs k t) (abstractAt xs k v) (abstractAt xs (k + 1) b)
  | k, mdata e => mdata (abstractAt xs k e)
  | k, proj i s => proj i (abstractAt xs k s)
  | _, e => e

def abstract (e : Expr) (xs : List Nat) : Expr := abstractAt xs 0 e

/-- Abstraction removes exactly the free variables it abstracts. -/
theorem fvars_abstractAt (xs : List Nat) (k : Nat) (e : Expr) :
    (abstractAt xs k e).fvars = e.fvars.filter (· ∉ xs) := by
  induction e generalizing k with
  | fvar x => by_cases h : x ∈ xs <;> simp [abstractAt, fvars, h]
  | app _ _ ihf iha | lam _ _ ihf iha | forallE _ _ ihf iha =>
    simp [abstractAt, fvars, ihf, iha, List.filter_append]
  | letE _ _ _ iht ihv ihb => simp [abstractAt, fvars, iht, ihv, ihb, List.filter_append]
  | mdata _ ih | proj _ _ ih => simp [abstractAt, fvars, ih]
  | bvar _ | sort _ | const _ _ | lit _ => rfl

/-- Instantiation adds no free variable but those it substitutes. -/
theorem mem_fvars_instantiateRevAt {xs : List Nat} {y : Nat} :
    ∀ {k : Nat} {e : Expr}, y ∈ (instantiateRevAt xs k e).fvars → y ∈ e.fvars ∨ y ∈ xs
  | k, bvar i, h => by
    simp only [instantiateRevAt] at h
    split_ifs at h with h₁ h₂
    · cases h
    · rw [fvars, List.mem_singleton, List.getD_eq_getElem?_getD,
        List.getElem?_eq_getElem (by simpa using h₂), Option.getD_some] at h
      exact .inr (List.mem_reverse.1 (h ▸ List.getElem_mem _))
    · cases h
  | k, app f a, h | k, lam f a, h | k, forallE f a, h => by
    rcases List.mem_append.1 h with h | h <;>
      rcases mem_fvars_instantiateRevAt h with h | h <;> simp [fvars, h]
  | k, letE t v b, h => by
    rcases List.mem_append.1 h with h | h
    · rcases List.mem_append.1 h with h | h <;>
        rcases mem_fvars_instantiateRevAt h with h | h <;> simp [fvars, h]
    · rcases mem_fvars_instantiateRevAt h with h | h <;> simp [fvars, h]
  | k, mdata e, h | k, proj _ e, h => mem_fvars_instantiateRevAt (e := e) h
  | _, fvar _, h | _, sort _, h | _, const _ _, h | _, lit _, h => .inl h

/-- `replace_fvar(e, x, v)`: every occurrence of the free variable `x` replaced by `v`, which
has no loose bound variable, under binders as elsewhere. -/
def replaceFVar : Expr → Nat → Expr → Expr
  | fvar y, x, v => if y = x then v else fvar y
  | app f a, x, v => app (f.replaceFVar x v) (a.replaceFVar x v)
  | lam d b, x, v => lam (d.replaceFVar x v) (b.replaceFVar x v)
  | forallE d b, x, v => forallE (d.replaceFVar x v) (b.replaceFVar x v)
  | letE t w b, x, v => letE (t.replaceFVar x v) (w.replaceFVar x v) (b.replaceFVar x v)
  | mdata e, x, v => mdata (e.replaceFVar x v)
  | proj i s, x, v => proj i (s.replaceFVar x v)
  | e, _, _ => e

/-- Replacing `x` by `v` leaves the other free variables and adds those of `v`. -/
theorem mem_fvars_replaceFVar {x y : Nat} {v : Expr} :
    ∀ {e : Expr}, y ∈ (e.replaceFVar x v).fvars → y ∈ e.fvars ∧ y ≠ x ∨ y ∈ v.fvars
  | fvar z, h => by
    simp only [replaceFVar] at h
    split_ifs at h with hz
    · exact .inr h
    · rw [fvars, List.mem_singleton] at h
      exact .inl ⟨by simp [fvars, h], h ▸ hz⟩
  | app f a, h | lam f a, h | forallE f a, h => by
    rcases List.mem_append.1 h with h | h <;>
      rcases mem_fvars_replaceFVar h with ⟨h, hx⟩ | h <;> simp [fvars, *]
  | letE t w b, h => by
    rcases List.mem_append.1 h with h | h
    · rcases List.mem_append.1 h with h | h <;>
        rcases mem_fvars_replaceFVar h with ⟨h, hx⟩ | h <;> simp [fvars, *]
    · rcases mem_fvars_replaceFVar h with ⟨h, hx⟩ | h <;> simp [fvars, *]
  | mdata e, h | proj _ e, h => mem_fvars_replaceFVar (e := e) h
  | bvar _, h | sort _, h | const _ _, h | lit _, h => nomatch h

theorem mem_fvars_abstract {e : Expr} {xs : List Nat} {y : Nat} :
    y ∈ (e.abstract xs).fvars ↔ y ∈ e.fvars ∧ y ∉ xs := by
  simp [abstract, fvars_abstractAt]

theorem fvars_mkAppN (f : Expr) (args : List Expr) : (mkAppN f args).fvars = f.fvars ++ args.flatMap fvars := by
  induction args generalizing f with
  | nil => simp [mkAppN]
  | cons a args ih =>
    simp only [mkAppN, List.foldl_cons] at ih ⊢
    simp [ih, fvars]

theorem mem_fvars_of_mem_getAppArgs {e a : Expr} (ha : a ∈ e.getAppArgs) {y : Nat} (hy : y ∈ a.fvars) :
    y ∈ e.fvars := by
  induction e with
  | app f a' ihf _ =>
    rcases List.mem_append.1 ha with ha | ha
    · exact List.mem_append_left _ (ihf ha)
    · exact List.mem_append_right _ (List.mem_singleton.1 ha ▸ hy)
  | _ => cases ha

end Expr

namespace LocalCtx

/-- The value of `x` when it is a let-variable. -/
def letValue (lctx : LocalCtx) (x : Nat) : Option Expr := (lctx.findDecl x).bind LocalDecl.value

/-- Specification: every let-declaration's value refers only to declarations made
before it. -/
def LetValuesEarlier (lctx : LocalCtx) : Prop :=
  ∀ j (hj : j < lctx.length), ∀ v ∈ lctx[j].value, ∀ x ∈ v.fvars, lctx.index x < j

instance : DecidablePred LetValuesEarlier := fun _ => by unfold LetValuesEarlier; infer_instance

theorem findDecl_eq_getElem? (lctx : LocalCtx) (x : Nat) : lctx.findDecl x = lctx[lctx.index x]? := by
  induction lctx with
  | nil => rfl
  | cons d lctx ih =>
    by_cases hd : d.fvarId = x <;> simp_all [findDecl, index, List.findIdx_cons, Bool.cond_eq_ite]

theorem index_lt_length_of_findDecl {lctx : LocalCtx} {x : Nat} (h : (lctx.findDecl x).isSome) :
    lctx.index x < lctx.length :=
  List.findIdx_lt_length_of_exists (by simpa [findDecl, List.find?_isSome] using h)

theorem fvarId_of_findDecl {lctx : LocalCtx} {x : Nat} {d : LocalDecl} (h : lctx.findDecl x = some d) :
    d.fvarId = x := by
  simpa using List.find?_some h

/-- Two declared variables at one position are one variable. -/
theorem eq_of_index_eq {lctx : LocalCtx} {x y : Nat} {d d' : LocalDecl} (hx : lctx.findDecl x = some d)
    (hy : lctx.findDecl y = some d') (h : lctx.index x = lctx.index y) : x = y := by
  have e : d = d' := by
    rw [findDecl_eq_getElem?, h] at hx
    rw [findDecl_eq_getElem?] at hy
    exact Option.some.inj (hx.symm.trans hy)
  rw [← fvarId_of_findDecl hx, ← fvarId_of_findDecl hy, e]

end LocalCtx

/-- Specification of the expansion `get_closed` computes: `Expands lctx e e'` when `e'` is `e` with every let-bound free
variable replaced, transitively, by its value and every metadata node removed. -/
inductive Expands (lctx : LocalCtx) : Expr → Expr → Prop
  | bvar (i : Nat) : Expands lctx (.bvar i) (.bvar i)
  | sort (u : Bool) : Expands lctx (.sort u) (.sort u)
  | const (c : Nat) (u : Bool) : Expands lctx (.const c u) (.const c u)
  | lit (n : Nat) : Expands lctx (.lit n) (.lit n)
  | letVar {x : Nat} {v v' : Expr} : lctx.letValue x = some v → Expands lctx v v' →
      Expands lctx (.fvar x) v'
  | freeVar {x : Nat} : lctx.letValue x = none → Expands lctx (.fvar x) (.fvar x)
  | mdata {e e' : Expr} : Expands lctx e e' → Expands lctx (.mdata e) e'
  | proj (i : Nat) {s s' : Expr} : Expands lctx s s' → Expands lctx (.proj i s) (.proj i s')
  | lam {d d' b b' : Expr} : Expands lctx d d' → Expands lctx b b' →
      Expands lctx (.lam d b) (.lam d' b')
  | forallE {d d' b b' : Expr} : Expands lctx d d' → Expands lctx b b' →
      Expands lctx (.forallE d b) (.forallE d' b')
  | app {f f' a a' : Expr} : Expands lctx f f' → Expands lctx a a' →
      Expands lctx (.app f a) (.app f' a')
  | letE {t t' v v' b b' : Expr} : Expands lctx t t' → Expands lctx v v' → Expands lctx b b' →
      Expands lctx (.letE t v b) (.letE t' v' b')

/-- Specification: what `get_closed` returns for an expression that expands to `e'`. -/
def closedResult (e' : Expr) : Option Expr := if e'.isOpen then none else some e'

/-- `get_closed` returns `r` on `e` from some fuel on. -/
def ClosedAfter (e : Expr) (r : Option Expr) : Prop :=
  ∃ n, ∀ fuel, n ≤ fuel → getClosed lctx fuel e = some r

/-! Each node of `get_closed` stops at the first child that is open, so it returns the closed
result of the rebuilt node exactly when the node is open if one of its children is. -/

theorem bindClosed_closedResult₁ {g : Expr → Expr} {a : Expr} (hg : (g a).isOpen = a.isOpen) :
    (bindClosed (some (closedResult a)) fun a => some (some (g a))) = some (closedResult (g a)) := by
  unfold closedResult; rw [hg]; cases a.isOpen <;> rfl

theorem bindClosed_closedResult₂ {g : Expr → Expr → Expr} {a b : Expr}
    (hg : (g a b).isOpen = (a.isOpen || b.isOpen)) :
    (bindClosed (some (closedResult a)) fun a => bindClosed (some (closedResult b)) fun b =>
      some (some (g a b))) = some (closedResult (g a b)) := by
  unfold closedResult; rw [hg]; cases a.isOpen <;> cases b.isOpen <;> rfl

theorem bindClosed_closedResult₃ {g : Expr → Expr → Expr → Expr} {a b c : Expr}
    (hg : (g a b c).isOpen = (a.isOpen || b.isOpen || c.isOpen)) :
    (bindClosed (some (closedResult a)) fun a => bindClosed (some (closedResult b)) fun b =>
      bindClosed (some (closedResult c)) fun c => some (some (g a b c))) =
      some (closedResult (g a b c)) := by
  unfold closedResult; rw [hg]; cases a.isOpen <;> cases b.isOpen <;> cases c.isOpen <;> rfl

section Expands

variable {lctx}

/-- The expansion is unique. -/
theorem Expands.det {e e₁ e₂ : Expr} (h₁ : Expands lctx e e₁) (h₂ : Expands lctx e e₂) : e₁ = e₂ := by
  induction h₁ generalizing e₂ <;> cases h₂ <;> aesop

/-- Expanding keeps every universe parameter. -/
theorem Expands.hasUnivParam_eq_true {e e' : Expr} (h : Expands lctx e e') (hu : e.hasUnivParam) :
    e'.hasUnivParam := by
  induction h with
  | bvar | sort | const | lit | freeVar => exact hu
  | letVar => simp [Expr.hasUnivParam] at hu
  | mdata _ ih | proj _ _ ih => exact ih hu
  | lam _ _ ih₁ ih₂ | forallE _ _ ih₁ ih₂ | app _ _ ih₁ ih₂ =>
    simp only [Expr.hasUnivParam, Bool.or_eq_true] at hu ⊢; exact hu.imp ih₁ ih₂
  | letE _ _ _ ih₁ ih₂ ih₃ =>
    simp only [Expr.hasUnivParam, Bool.or_eq_true] at hu ⊢; exact hu.imp (Or.imp ih₁ ih₂) ih₃

/-- One step of `get_closed`: its universe-parameter guard agrees with the expansion, so only
the case without one is left. -/
theorem closedAfter_of_step {e e' : Expr} (hE : Expands lctx e e') (n : Nat)
    (h : e.hasUnivParam = false → ∀ k, n ≤ k → getClosed lctx (k + 1) e = some (closedResult e')) :
    ClosedAfter lctx e (closedResult e') := by
  refine ⟨n + 1, fun fuel hf => ?_⟩
  obtain ⟨k, rfl⟩ : ∃ k, fuel = k + 1 := ⟨fuel - 1, by omega⟩
  cases hu : e.hasUnivParam
  · exact h hu k (by omega)
  · simp [getClosed, hu, closedResult, isOpen, hE.hasUnivParam_eq_true hu]

end Expands

/-- `get_closed` closes every expression whose free variables close. -/
theorem closedAfter_of_fvars : ∀ e : Expr,
    (∀ x ∈ e.fvars, ∃ e', Expands lctx (.fvar x) e' ∧ ClosedAfter lctx (.fvar x) (closedResult e')) →
    ∃ e', Expands lctx e e' ∧ ClosedAfter lctx e (closedResult e')
  | .bvar i, _ => ⟨_, .bvar i, closedAfter_of_step (.bvar i) 0 fun _ _ _ => rfl⟩
  | .sort u, _ => ⟨_, .sort u, closedAfter_of_step (.sort u) 0 fun hu _ _ => by
      simp only [hasUnivParam] at hu; subst hu; rfl⟩
  | .const c u, _ => ⟨_, .const c u, closedAfter_of_step (.const c u) 0 fun hu _ _ => by
      simp only [hasUnivParam] at hu; subst hu; rfl⟩
  | .lit n, _ => ⟨_, .lit n, closedAfter_of_step (.lit n) 0 fun _ _ _ => rfl⟩
  | .fvar x, h => h x (List.mem_singleton_self x)
  | .mdata e, h => by
    obtain ⟨e', hE, n, hn⟩ := closedAfter_of_fvars e h
    exact ⟨e', .mdata hE, closedAfter_of_step (.mdata hE) n fun hu k hk => by
      simpa only [getClosed, hu] using hn k hk⟩
  | .proj i s, h => by
    obtain ⟨s', hs, n, hn⟩ := closedAfter_of_fvars s h
    refine ⟨_, .proj i hs, closedAfter_of_step (.proj i hs) n fun hu k hk => ?_⟩
    simp only [getClosed, hu, hn k hk]
    exact bindClosed_closedResult₁ (isOpen_proj i s')
  | .lam d b, h => by
    obtain ⟨d', hd, nd, hnd⟩ := closedAfter_of_fvars d fun x hx => h x (List.mem_append_left _ hx)
    obtain ⟨b', hb, nb, hnb⟩ := closedAfter_of_fvars b fun x hx => h x (List.mem_append_right _ hx)
    refine ⟨_, .lam hd hb, closedAfter_of_step (.lam hd hb) (max nd nb) fun hu k hk => ?_⟩
    simp only [getClosed, hu, hnd k (by omega), hnb k (by omega)]
    exact bindClosed_closedResult₂ (isOpen_lam d' b')
  | .forallE d b, h => by
    obtain ⟨d', hd, nd, hnd⟩ := closedAfter_of_fvars d fun x hx => h x (List.mem_append_left _ hx)
    obtain ⟨b', hb, nb, hnb⟩ := closedAfter_of_fvars b fun x hx => h x (List.mem_append_right _ hx)
    refine ⟨_, .forallE hd hb, closedAfter_of_step (.forallE hd hb) (max nd nb) fun hu k hk => ?_⟩
    simp only [getClosed, hu, hnd k (by omega), hnb k (by omega)]
    exact bindClosed_closedResult₂ (isOpen_forallE d' b')
  | .app f a, h => by
    obtain ⟨f', hf, nf, hnf⟩ := closedAfter_of_fvars f fun x hx => h x (List.mem_append_left _ hx)
    obtain ⟨a', ha, na, hna⟩ := closedAfter_of_fvars a fun x hx => h x (List.mem_append_right _ hx)
    refine ⟨_, .app hf ha, closedAfter_of_step (.app hf ha) (max nf na) fun hu k hk => ?_⟩
    simp only [getClosed, hu, hnf k (by omega), hna k (by omega)]
    exact bindClosed_closedResult₂ (isOpen_app f' a')
  | .letE t v b, h => by
    obtain ⟨t', ht, nt, hnt⟩ := closedAfter_of_fvars t fun x hx =>
      h x (List.mem_append_left _ (List.mem_append_left _ hx))
    obtain ⟨v', hv, nv, hnv⟩ := closedAfter_of_fvars v fun x hx =>
      h x (List.mem_append_left _ (List.mem_append_right _ hx))
    obtain ⟨b', hb, nb, hnb⟩ := closedAfter_of_fvars b fun x hx => h x (List.mem_append_right _ hx)
    refine ⟨_, .letE ht hv hb, closedAfter_of_step (.letE ht hv hb) (max nt (max nv nb))
      fun hu k hk => ?_⟩
    simp only [getClosed, hu, hnt k (by omega), hnv k (by omega), hnb k (by omega)]
    exact bindClosed_closedResult₃ (isOpen_letE t' v' b')

/-- In a context whose let-values refer only to earlier declarations, every declared free
variable closes: by induction on a bound of its position. -/
theorem closedAfter_fvar (hacyc : lctx.LetValuesEarlier) : ∀ B x, lctx.index x < B →
    lctx.index x < lctx.length →
    ∃ e', Expands lctx (.fvar x) e' ∧ ClosedAfter lctx (.fvar x) (closedResult e')
  | 0, _, hB, _ => absurd hB (Nat.not_lt_zero _)
  | B + 1, x, hB, hx => by
    have hd : lctx.findDecl x = some lctx[lctx.index x] := by
      rw [lctx.findDecl_eq_getElem? x, List.getElem?_eq_getElem hx]
    cases hv : lctx[lctx.index x].value with
    | none =>
      have hl : lctx.letValue x = none := by simp [LocalCtx.letValue, hd, hv]
      exact ⟨_, .freeVar hl, closedAfter_of_step (.freeVar hl) 0 fun _ _ _ => by
        simp [getClosed, hd, hv, closedResult, isOpen, hasFVar]⟩
    | some v =>
      have hl : lctx.letValue x = some v := by simp [LocalCtx.letValue, hd, hv]
      obtain ⟨v', hE, n, hn⟩ := closedAfter_of_fvars lctx v fun y hy =>
        have hy : lctx.index y < lctx.index x := hacyc _ hx v hv y hy
        closedAfter_fvar hacyc B y (by omega) (by omega)
      exact ⟨v', .letVar hl hE, closedAfter_of_step (.letVar hl hE) n fun _ k hk => by
        simp [getClosed, hd, hv, hn k hk, hasUnivParam]⟩

/-- `get_closed` computes the closed cache key. In a context whose let-values refer only to
earlier declarations, for an expression whose free variables are all declared, it returns
from some fuel on; the expansion of the expression through let-values and metadata is unique,
and `get_closed` returns it exactly when it has no free variable and no universe parameter. -/
theorem getClosed_expands (hacyc : lctx.LetValuesEarlier) (e : Expr)
    (hdecl : ∀ x ∈ e.fvars, (lctx.findDecl x).isSome) :
    ∃ e', Expands lctx e e' ∧ (∀ e'', Expands lctx e e'' → e'' = e') ∧
      ∃ n, ∀ fuel, n ≤ fuel →
        getClosed lctx fuel e = some (if e'.hasFVar || e'.hasUnivParam then none else some e') := by
  obtain ⟨e', hE, hc⟩ := closedAfter_of_fvars lctx e fun x hx =>
    have hx := LocalCtx.index_lt_length_of_findDecl (hdecl x hx)
    closedAfter_fvar lctx hacyc _ x hx hx
  exact ⟨e', hE, fun _ h => h.det hE, hc⟩

/-- Two let-declarations, the second referring to the first. -/
def letCtx : LocalCtx :=
  [⟨0, false, .sort false, some (.const 5 false)⟩, ⟨1, false, .sort false, some (.app (.fvar 0) (.lit 2))⟩]

theorem getClosed_expands_letCtx : ∃ n, ∀ fuel, n ≤ fuel →
    getClosed letCtx fuel (.mdata (.fvar 1)) = some (some (.app (.const 5 false) (.lit 2))) := by
  obtain ⟨e', _, huniq, n, hn⟩ := getClosed_expands letCtx (by decide) (.mdata (.fvar 1)) (by decide)
  obtain rfl := huniq _ (.mdata (.letVar rfl (.app (.letVar rfl (.const 5 false)) (.lit 2))))
  exact ⟨n, hn⟩

end Compiler

end Lean4Core
