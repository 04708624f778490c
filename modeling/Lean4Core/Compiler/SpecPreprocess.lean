import Mathlib.Data.List.Sections
import Lean4Core.Compiler.SpecCtx
import Lean4Core.Compiler.SpecInfo

/-!
# Specializing a recursive block: `spec_preprocess` and `adjust_rec_apps`

When `specialize` fixes arguments of a call of `f`, `spec_preprocess` (`specialize.cpp`,
`unnamed/part_003`, lines 801–837) copies the stage-one code of `f`, with the fixed
parameters instantiated by the mask's free variables and the others bound by new lambdas;
`adjust_rec_apps` (lines 709–799) then rewrites, in the copy, every call of a function of the
mutual block that passes a fixed argument on into a call of a specialization of that function,
which `spec_preprocess` makes in turn. The two recurse into each other. A local cache keyed by
the function and the mask (`mk_cache_key`) receives the new name before the copy is walked,
so that a recursive call with the same mask reuses the name; the copies are collected in
`m_pre_decls`, for `mk_new_decl` to finish.

The model runs `spec_preprocess` on fuel spent at each cache miss; `adjust_rec_apps` is
structural on the expression. The type checker's answers (`is_cases_on_app`,
`has_specialize_attribute`), the stage-one definitions of the environment and the names
`mk_spec_name` makes are parameters.

Main results:
- `specPreprocess_terminates`: whenever the stage-one code of each function of the block
  has the header that its kinds describe, `spec_preprocess` returns from every state, the
  same result for all enough fuel, whatever the code and however the block recurses;
- `specPreprocess_preDecls`: from a fresh `spec_ctx`, a run that succeeds leaves exactly
  one pre-declaration for each specialization in the cache, their names distinct, and the
  name it returns among them;
- `specPreprocess_preDecls_fvars`: from a local context fresh for the name generator, the
  pre-declarations of a run refer to no free variable but the parameters and those of the
  mask, which `mk_new_decl` binds before it asserts that the code is closed.
-/

namespace Lean4Core

namespace Compiler

open Expr

/-- `local_ctx::mk_lambda(xs, e)` of the kernel (`kernel/local_ctx.cpp`, not among the
modelled files): `abstract_spec_ctx` with no let-variable lambda-abstracted. -/
def LocalCtx.mkLambda (lctx : LocalCtx) (xs : List Nat) (e : Expr) : Option Expr :=
  abstractSpecCtxAux lctx [] xs.reverse (e.abstract xs)

/-! ## Keys, masks and calls -/

/-- `mk_cache_key`: the function applied to the fixed arguments, `expr()` at the positions
the mask does not fix. -/
def mkCacheKey (fn : Expr) (mask : List (Option Expr)) : Expr :=
  mask.foldl (fun r b => .app r (b.getD placeholder)) fn

/-- `contains`: whether the mask fixes the expression. -/
def contains (mask : List (Option Expr)) (e : Expr) : Bool := mask.any (· == some e)

/-- `get_bool_mask(fn, args_size)` of the specializer: the mask of the kinds `get_arg_kinds`
reads, `none` where it asserts that `fn` has a `spec_info`. -/
def getBoolMaskOf (ext : SpecInfoMap) (hasAttr : Nat → Bool) (fn argsSize : Nat) : Option (List Bool) :=
  (getArgKinds ext fn).map fun kinds => (getBoolMask kinds argsSize (hasAttr fn)).toList

/-- The loop of `adjust_rec_apps` that builds `new_mask`: the arguments of the call that its
own mask fixes and that the current mask fixes too. -/
def newMask (mask : List (Option Expr)) (bmask : List Bool) (args : List Expr) : List (Option Expr) :=
  (bmask.zip args).map fun p => if p.1 && contains mask p.2 then some p.2 else none

/-- The arguments that `adjust_rec_apps` passes to the specialization after `m_params`: those
of the call that `new_mask` does not fix, then those past the mask. -/
def adjustedArgs (mask : List (Option Expr)) (bmask : List Bool) (args : List Expr) : List Expr :=
  (bmask.zip args).filterMap (fun p => if p.1 && contains mask p.2 then none else some p.2) ++
    args.drop bmask.length

/-! ## The state and the results -/

/-- What `spec_preprocess` and `adjust_rec_apps` change: the cache and the pre-declarations
of the `spec_ctx` (latest cache entry first), `m_next_idx`, the local context and the next
name of the name generator. -/
structure PreState where
  cache : List (Expr × Nat)
  preDecls : List CompDecl
  nextIdx : Nat
  lctx : LocalCtx
  ngen : Nat
  deriving DecidableEq, Repr

/-- A result of the walk: `none` when the fuel runs out or an assertion of the source fails,
`some (none, st)` where the source returns `none`, `some (some a, st)` on success. -/
abbrev PreResult (α : Type) := Option (Option α × PreState)

/-- Continue with the value of a successful step; a failure, or no result, is passed on. -/
def bindPre {α β : Type} (r : PreResult α) (k : α → PreState → PreResult β) : PreResult β :=
  match r with
  | some (some a, st) => k a st
  | some (none, st) => some (none, st)
  | none => none

/-! ## `adjust_rec_apps` -/

section Adjust

variable (isCasesOn : Nat → Option (Nat × Nat)) (ext : SpecInfoMap) (hasAttr : Nat → Bool)
  (mutualDecls params : List Nat)

/-- The case of `adjust_rec_apps` for a call `c args` of a function of the block: when the
call passes a fixed argument on, the call of the specialization that `sp`
(`spec_preprocess`) makes for its `new_mask`. -/
def adjustCall (sp : Nat → Bool → List (Option Expr) → PreState → PreResult Nat)
    (mask : List (Option Expr)) (c : Nat) (u : Bool) (args : List Expr) (e : Expr) (st : PreState) :
    PreResult Expr :=
  match getBoolMaskOf ext hasAttr c args.length with
  | none => none
  | some bmask =>
    if (newMask mask bmask args).any Option.isSome then
      bindPre (sp c u (newMask mask bmask args) st) fun n st =>
        some (some (mkAppN (.const n false) (params.map .fvar ++ adjustedArgs mask bmask args)), st)
    else some (some e, st)

mutual

/-- `adjust_rec_apps`: through lambdas, let values and bodies and the minor premises of
`casesOn` applications, each call of a function of the block adjusted by `adjustCall`. -/
def adjustRecApps (sp : Nat → Bool → List (Option Expr) → PreState → PreResult Nat)
    (mask : List (Option Expr)) : Expr → PreState → PreResult Expr
  | app f a, st =>
    match (app f a).getAppFn with
    | const c u =>
      match isCasesOn c with
      | some (lo, hi) =>
        bindPre (adjustMinors sp mask lo hi f st) fun f' st' =>
          if lo ≤ f.getAppNumArgs ∧ f.getAppNumArgs < hi then
            bindPre (adjustRecApps sp mask a st') fun a st'' => some (some (app f' a), st'')
          else some (some (app f' a), st')
      | none =>
        if c ∈ mutualDecls then adjustCall ext hasAttr params sp mask c u (app f a).getAppArgs (app f a) st
        else some (some (app f a), st)
    | _ => some (some (app f a), st)
  | lam d b, st => bindPre (adjustRecApps sp mask b st) fun b st' => some (some (lam d b), st')
  | letE t v b, st =>
    bindPre (adjustRecApps sp mask v st) fun v st' =>
      bindPre (adjustRecApps sp mask b st') fun b st'' => some (some (letE t v b), st'')
  | e, st => some (some e, st)

/-- The loop of `adjust_rec_apps` over the minor premises of a `casesOn` application, the
arguments at positions `lo` to `hi - 1`, first to last; it stops at the first failure. -/
def adjustMinors (sp : Nat → Bool → List (Option Expr) → PreState → PreResult Nat)
    (mask : List (Option Expr)) (lo hi : Nat) : Expr → PreState → PreResult Expr
  | app f a, st =>
    bindPre (adjustMinors sp mask lo hi f st) fun f' st' =>
      if lo ≤ f.getAppNumArgs ∧ f.getAppNumArgs < hi then
        bindPre (adjustRecApps sp mask a st') fun a st'' => some (some (app f' a), st'')
      else some (some (app f' a), st')
  | e, st => some (some e, st)

end

/-! ## `spec_preprocess` -/

variable (stage1 : Nat → Bool → Option Expr) (mkSpecName : Nat → Nat → Nat)

/-- The loop of `spec_preprocess` over the mask: a fixed position takes the mask's free
variable, any other a new local declaration of the binder's type; `none` where the source
asserts that the code is a lambda and that the mask holds a free variable. -/
def stripMask : List (Option Expr) → Expr → List Nat → List Nat → PreState →
    Option (Expr × List Nat × List Nat × PreState)
  | [], code, fvars, newFVars, st => some (code, fvars, newFVars, st)
  | some (fvar x) :: mask, lam _ body, fvars, newFVars, st => stripMask mask body (fvars ++ [x]) newFVars st
  | none :: mask, lam d body, fvars, newFVars, st =>
    stripMask mask body (fvars ++ [st.ngen]) (newFVars ++ [st.ngen])
      { st with lctx := st.lctx ++ [⟨st.ngen, false, d.instantiateRev fvars, none⟩], ngen := st.ngen + 1 }
  | _ :: _, _, _, _, _ => none

/-- `spec_preprocess` of the constant `c` at levels `u`, on fuel spent at each cache miss.
`stage1 c u` is the instantiated value of the stage-one definition of `c`, `none` when there
is none; `mkSpecName c i` is the name `mk_spec_name` makes for `c` when `m_next_idx` is `i`.
The local context is restored on the way out. -/
def specPreprocess : Nat → Nat → Bool → List (Option Expr) → PreState → PreResult Nat
  | fuel, c, u, mask, st =>
    match st.cache.lookup (mkCacheKey (.const c u) mask), fuel with
    | some n, _ => some (some n, st)
    | none, 0 => none
    | none, fuel + 1 =>
      match stage1 c u with
      | none => some (none, st)
      | some code =>
        let n := mkSpecName c st.nextIdx
        let st₁ := { st with cache := (mkCacheKey (.const c u) mask, n) :: st.cache, nextIdx := st.nextIdx + 1 }
        match stripMask mask code [] [] st₁ with
        | none => none
        | some (body, fvars, newFVars, st₂) =>
          match adjustRecApps isCasesOn ext hasAttr mutualDecls params (specPreprocess fuel) mask
              (body.instantiateRev fvars) st₂ with
          | none => none
          | some (none, st₃) => some (none, { st₃ with lctx := st.lctx })
          | some (some body, st₃) =>
            match st₃.lctx.mkLambda newFVars body with
            | none => none
            | some code => some (some n, { st₃ with lctx := st.lctx, preDecls := st₃.preDecls ++ [⟨n, code⟩] })

end Adjust

/-! ## Helpers -/

@[simp] theorem bindPre_some_some {α β : Type} (a : α) (st : PreState) (k : α → PreState → PreResult β) :
    bindPre (some (some a, st)) k = k a st := rfl

@[simp] theorem bindPre_some_none {α β : Type} (st : PreState) (k : α → PreState → PreResult β) :
    bindPre (some (none, st)) k = some (none, st) := rfl

@[simp] theorem bindPre_none {α β : Type} (k : α → PreState → PreResult β) : bindPre none k = none := rfl

theorem bindPre_eq_some_some {α β : Type} {r : PreResult α} {k : α → PreState → PreResult β} {b : β}
    {st' : PreState} (h : bindPre r k = some (some b, st')) :
    ∃ a st, r = some (some a, st) ∧ k a st = some (some b, st') := by
  rcases r with _ | ⟨_ | a, st⟩ <;> simp at h
  exact ⟨a, st, rfl, h⟩

theorem bindPre_eq_some {α β : Type} {r : PreResult α} {k : α → PreState → PreResult β} {x : Option β}
    {st' : PreState} (h : bindPre r k = some (x, st')) :
    r = some (none, st') ∧ x = none ∨ ∃ a st, r = some (some a, st) ∧ k a st = some (x, st') := by
  rcases r with _ | ⟨_ | a, st⟩
  · cases h
  · obtain ⟨rfl, rfl⟩ := Prod.mk.inj (Option.some.inj h)
    exact .inl ⟨rfl, rfl⟩
  · exact .inr ⟨a, st, rfl, h⟩

theorem bindPre_isSome {α β : Type} {r : PreResult α} {k : α → PreState → PreResult β} (hr : r.isSome)
    (hk : ∀ a st, r = some (some a, st) → (k a st).isSome) : (bindPre r k).isSome := by
  rcases r with _ | ⟨_ | a, st⟩
  · cases hr
  · rfl
  · exact hk a st rfl

theorem contains_eq_true {mask : List (Option Expr)} {e : Expr} : contains mask e = true ↔ some e ∈ mask := by
  simp [contains]

/-- Every position the new mask fixes, the current mask fixes. -/
theorem mem_newMask {mask : List (Option Expr)} {bmask : List Bool} {args : List Expr} {b : Option Expr}
    (hb : b ∈ newMask mask bmask args) : b = none ∨ b ∈ mask := by
  obtain ⟨p, -, rfl⟩ := List.mem_map.1 hb
  by_cases h : (p.1 && contains mask p.2) = true
  · simp only [h, if_true]
    exact .inr (contains_eq_true.1 (Bool.and_eq_true _ _ ▸ h).2)
  · simp [h]

theorem length_newMask_le (mask : List (Option Expr)) (bmask : List Bool) (args : List Expr) :
    (newMask mask bmask args).length ≤ bmask.length := by
  simp [newMask]

theorem getBoolMaskOf_length {ext : SpecInfoMap} {hasAttr : Nat → Bool} {fn argsSize : Nat}
    {bmask : List Bool} {kinds : List SpecArgKind} (hk : getArgKinds ext fn = some kinds)
    (h : getBoolMaskOf ext hasAttr fn argsSize = some bmask) : bmask.length ≤ kinds.length := by
  simp only [getBoolMaskOf, hk, Option.map_some', Option.some.injEq] at h
  subst h
  refine (size_toBoolMaskAux_le _ _ _ _).trans ?_
  simp

theorem findDecl_append_of_isSome {lctx : LocalCtx} {x : Nat} (l : LocalCtx) (h : (lctx.findDecl x).isSome) :
    ((lctx ++ l).findDecl x).isSome := by
  simp only [LocalCtx.findDecl, List.find?_append] at *
  cases hx : lctx.find? (·.fvarId == x) <;> simp_all

theorem findDecl_append_self (lctx : LocalCtx) (d : LocalDecl) : ((lctx ++ [d]).findDecl d.fvarId).isSome := by
  simp only [LocalCtx.findDecl, List.find?_append]
  cases lctx.find? (·.fvarId == d.fvarId) <;> simp

theorem abstractSpecCtxAux_isSome (lctx : LocalCtx) (letVars : List Nat) : ∀ {xs : List Nat} (r : Expr),
    (∀ x ∈ xs, (lctx.findDecl x).isSome) → (abstractSpecCtxAux lctx letVars xs r).isSome
  | [], _, _ => rfl
  | x :: xs, r, h => by
    obtain ⟨d, hd⟩ := Option.isSome_iff_exists.1 (h x (List.mem_cons_self _ _))
    have hxs : ∀ y ∈ xs, (lctx.findDecl y).isSome := fun y hy => h y (List.mem_cons_of_mem _ hy)
    simp only [abstractSpecCtxAux, hd, Option.bind_eq_bind, Option.some_bind]
    split
    · split_ifs <;> exact abstractSpecCtxAux_isSome lctx letVars _ hxs
    · exact abstractSpecCtxAux_isSome lctx letVars _ hxs

theorem mkLambda_isSome {lctx : LocalCtx} {xs : List Nat} (e : Expr) (h : ∀ x ∈ xs, (lctx.findDecl x).isSome) :
    (lctx.mkLambda xs e).isSome :=
  abstractSpecCtxAux_isSome lctx [] _ fun x hx => h x (List.mem_reverse.1 hx)

theorem value_eq_of_some {α : Type} {a b : α} {st st' : PreState} (h : some (some a, st) = some (some b, st')) :
    a = b :=
  Option.some.inj (congrArg Prod.fst (Option.some.inj h))

/-- The case of `adjust_rec_apps` for an application, with the loop over the minor premises
of a `casesOn` application stated as `adjustMinors` of the whole application. -/
theorem adjustRecApps_app (isCasesOn : Nat → Option (Nat × Nat)) (ext : SpecInfoMap) (hasAttr : Nat → Bool)
    (mutualDecls params : List Nat) (sp : Nat → Bool → List (Option Expr) → PreState → PreResult Nat)
    (mask : List (Option Expr)) (f a : Expr) (st : PreState) :
    adjustRecApps isCasesOn ext hasAttr mutualDecls params sp mask (app f a) st =
      match f.getAppFn with
      | const c u =>
        match isCasesOn c with
        | some (lo, hi) => adjustMinors isCasesOn ext hasAttr mutualDecls params sp mask lo hi (app f a) st
        | none =>
          if c ∈ mutualDecls then adjustCall ext hasAttr params sp mask c u (app f a).getAppArgs (app f a) st
          else some (some (app f a), st)
      | _ => some (some (app f a), st) := by
  rw [adjustRecApps, getAppFn_app]
  rfl

/-! ## What a successful walk keeps

Each relation between states that `spec_preprocess` establishes on success, and that is
reflexive and transitive, holds across every successful walk of `adjust_rec_apps`. -/

section Rel

variable {isCasesOn : Nat → Option (Nat × Nat)} {ext : SpecInfoMap} {hasAttr : Nat → Bool}
  {mutualDecls params : List Nat} {sp : Nat → Bool → List (Option Expr) → PreState → PreResult Nat}
  {mask : List (Option Expr)}

theorem adjustCall_rel_any (R : Bool → PreState → PreState → Prop) (hrefl : ∀ st, R true st st)
    (hsp : ∀ c u m st r st', (∀ b ∈ m, b = none ∨ b ∈ mask) → sp c u m st = some (r, st') → R r.isSome st st')
    {c : Nat} {u : Bool} {args : List Expr} {e : Expr} {st st' : PreState} {r : Option Expr}
    (h : adjustCall ext hasAttr params sp mask c u args e st = some (r, st')) : R r.isSome st st' := by
  simp only [adjustCall] at h
  split at h
  · cases h
  · split_ifs at h
    · rcases bindPre_eq_some h with ⟨h₁, rfl⟩ | ⟨n, st₁, h₁, h₂⟩
      · exact hsp _ _ _ _ _ _ (fun _ => mem_newMask) h₁
      · obtain ⟨rfl, rfl⟩ := Prod.mk.inj (Option.some.inj h₂)
        exact hsp _ _ _ _ _ _ (fun _ => mem_newMask) h₁
    · obtain ⟨rfl, rfl⟩ := Prod.mk.inj (Option.some.inj h)
      exact hrefl _

/-- The walk keeps a relation that may depend on whether a step returned a value: one that
holds across every step that returns one, and across a step that stops early from a state
where it holds after the steps before. -/
theorem adjust_rel_any (R : Bool → PreState → PreState → Prop) (hrefl : ∀ st, R true st st) (htrans : ∀ {a b c x}, R true a b → R x b c → R x a c)
    (hsp : ∀ c u m st r st', (∀ b ∈ m, b = none ∨ b ∈ mask) → sp c u m st = some (r, st') → R r.isSome st st')
    (e : Expr) :
    (∀ st r st', adjustRecApps isCasesOn ext hasAttr mutualDecls params sp mask e st = some (r, st') →
      R r.isSome st st') ∧
    (∀ lo hi st r st', adjustMinors isCasesOn ext hasAttr mutualDecls params sp mask lo hi e st =
      some (r, st') → R r.isSome st st') := by
  have hleaf : ∀ {e : Expr} {r : Option Expr} {st st'}, some (some e, st) = some (r, st') → R r.isSome st st' :=
    fun h => by obtain ⟨rfl, rfl⟩ := Prod.mk.inj (Option.some.inj h); exact hrefl _
  -- a bind either stops with its first step or goes on from the state that step returned
  have hbind : ∀ {r₁ : PreResult Expr} {k : Expr → PreState → PreResult Expr} {st r st'},
      bindPre r₁ k = some (r, st') → (∀ r' s, r₁ = some (r', s) → R r'.isSome st s) →
      (∀ a s, k a s = some (r, st') → R r.isSome s st') → R r.isSome st st' := fun h h₁ h₂ => by
    rcases bindPre_eq_some h with ⟨e₁, rfl⟩ | ⟨a, s, e₁, e₂⟩
    · exact h₁ _ _ e₁
    · exact htrans (h₁ _ _ e₁) (h₂ a s e₂)
  induction e with
  | app f a ihf iha =>
    have hmin : ∀ lo hi st r st', adjustMinors isCasesOn ext hasAttr mutualDecls params sp mask lo hi (app f a) st =
        some (r, st') → R r.isSome st st' := by
      intro lo hi st r st' h
      rw [adjustMinors] at h
      refine hbind h (fun _ _ e₁ => ihf.2 _ _ _ _ _ e₁) fun f' s h => ?_
      split_ifs at h
      · exact hbind h (fun _ _ e₂ => iha.1 _ _ _ e₂) fun _ _ => hleaf
      · exact hleaf h
    refine ⟨fun st r st' h => ?_, hmin⟩
    rw [adjustRecApps_app] at h
    split at h
    · split at h
      · exact hmin _ _ _ _ _ h
      · split_ifs at h
        · exact adjustCall_rel_any R hrefl hsp h
        · exact hleaf h
    · exact hleaf h
  | lam d b _ ihb =>
    exact ⟨fun st r st' h => hbind h (fun _ _ e₁ => ihb.1 _ _ _ e₁) fun _ _ => hleaf,
      fun _ _ _ _ _ h => hleaf h⟩
  | letE t v b _ ihv ihb =>
    refine ⟨fun st r st' h => ?_, fun _ _ _ _ _ h => hleaf h⟩
    exact hbind h (fun _ _ e₁ => ihv.1 _ _ _ e₁) fun _ _ h =>
      hbind h (fun _ _ e₂ => ihb.1 _ _ _ e₂) fun _ _ => hleaf
  | _ => exact ⟨fun _ _ _ h => hleaf h, fun _ _ _ _ _ h => hleaf h⟩

/-- A reflexive and transitive relation that `spec_preprocess` establishes on success holds
across every successful walk. -/
theorem adjust_rel (R : PreState → PreState → Prop) (hrefl : ∀ st, R st st)
    (htrans : ∀ {a b c}, R a b → R b c → R a c)
    (hsp : ∀ c u m st n st', (∀ b ∈ m, b = none ∨ b ∈ mask) → sp c u m st = some (some n, st') → R st st')
    (e : Expr) :
    (∀ st e' st', adjustRecApps isCasesOn ext hasAttr mutualDecls params sp mask e st = some (some e', st') →
      R st st') ∧
    (∀ lo hi st e' st', adjustMinors isCasesOn ext hasAttr mutualDecls params sp mask lo hi e st =
      some (some e', st') → R st st') :=
  have h := adjust_rel_any (fun b st st' => b = true → R st st') (fun st _ => hrefl st)
    (fun h₁ h₂ hx => htrans (h₁ rfl) (h₂ hx))
    (fun c u m st r st' hm h hr => by
      obtain ⟨n, rfl⟩ := Option.isSome_iff_exists.1 hr
      exact hsp c u m st n st' hm h) e
  ⟨fun st _ st' h' => h.1 st _ st' h' rfl, fun lo hi st _ st' h' => h.2 lo hi st _ st' h' rfl⟩

end Rel

/-! ## What the walk leaves free -/

section Scope

variable {isCasesOn : Nat → Option (Nat × Nat)} {ext : SpecInfoMap} {hasAttr : Nat → Bool}
  {mutualDecls params : List Nat} {sp : Nat → Bool → List (Option Expr) → PreState → PreResult Nat}
  {mask : List (Option Expr)}

theorem mem_adjustedArgs {bmask : List Bool} {args : List Expr} {a : Expr} (ha : a ∈ adjustedArgs mask bmask args) :
    a ∈ args := by
  rcases List.mem_append.1 ha with ha | ha
  · obtain ⟨p, hp, hpa⟩ := List.mem_filterMap.1 ha
    split_ifs at hpa
    exact Option.some.inj hpa ▸ (List.of_mem_zip hp).2
  · exact List.mem_of_mem_drop ha

/-- A rewritten call refers to the parameters and to what the call refers to. -/
theorem adjustCall_fvars {c : Nat} {u : Bool} {args : List Expr} {e e' : Expr} {st st' : PreState}
    (hargs : ∀ a ∈ args, ∀ y ∈ a.fvars, y ∈ e.fvars)
    (h : adjustCall ext hasAttr params sp mask c u args e st = some (some e', st')) :
    ∀ y ∈ e'.fvars, y ∈ e.fvars ∨ y ∈ params := by
  simp only [adjustCall] at h
  split at h
  · cases h
  · split_ifs at h
    · obtain ⟨n, st₁, -, h₂⟩ := bindPre_eq_some_some h
      intro y hy
      rw [← value_eq_of_some h₂, fvars_mkAppN] at hy
      simp only [fvars, List.flatMap_append, List.nil_append, List.mem_append, List.mem_flatMap, List.mem_map] at hy
      rcases hy with ⟨_, ⟨p, hp, rfl⟩, hy⟩ | ⟨a, ha, hy⟩
      · exact .inr (List.mem_singleton.1 hy ▸ hp)
      · exact .inl (hargs a (mem_adjustedArgs ha) y hy)
    · exact fun y hy => .inl (value_eq_of_some h ▸ hy)

/-- The walk adds no free variable but the parameters `m_params`. -/
theorem adjust_fvars (e : Expr) :
    (∀ st e' st', adjustRecApps isCasesOn ext hasAttr mutualDecls params sp mask e st = some (some e', st') →
      ∀ y ∈ e'.fvars, y ∈ e.fvars ∨ y ∈ params) ∧
    (∀ lo hi st e' st', adjustMinors isCasesOn ext hasAttr mutualDecls params sp mask lo hi e st =
      some (some e', st') → ∀ y ∈ e'.fvars, y ∈ e.fvars ∨ y ∈ params) := by
  have hleaf : ∀ {e e' : Expr} {st st'}, some (some e, st) = some (some e', st') →
      ∀ y ∈ e'.fvars, y ∈ e.fvars ∨ y ∈ params :=
    fun h y hy => .inl (value_eq_of_some h ▸ hy)
  induction e with
  | app f a ihf iha =>
    have hmin : ∀ lo hi st e' st', adjustMinors isCasesOn ext hasAttr mutualDecls params sp mask lo hi (app f a) st =
        some (some e', st') → ∀ y ∈ e'.fvars, y ∈ (app f a).fvars ∨ y ∈ params := by
      intro lo hi st e' st' h y hy
      rw [adjustMinors] at h
      obtain ⟨f', st₁, h₁, h₂⟩ := bindPre_eq_some_some h
      have hf := ihf.2 _ _ _ _ _ h₁
      split_ifs at h₂
      · obtain ⟨a', st₂, h₃, h₄⟩ := bindPre_eq_some_some h₂
        rw [← value_eq_of_some h₄, fvars, List.mem_append] at hy
        rcases hy with hy | hy
        · exact (hf y hy).imp_left (List.mem_append_left _)
        · exact (iha.1 _ _ _ h₃ y hy).imp_left (List.mem_append_right _)
      · rw [← value_eq_of_some h₂, fvars, List.mem_append] at hy
        rcases hy with hy | hy
        · exact (hf y hy).imp_left (List.mem_append_left _)
        · exact .inl (List.mem_append_right _ hy)
    refine ⟨fun st e' st' h => ?_, hmin⟩
    rw [adjustRecApps_app] at h
    split at h
    · split at h
      · exact hmin _ _ _ _ _ h
      · split_ifs at h
        · exact adjustCall_fvars (fun _ ha _ hy => mem_fvars_of_mem_getAppArgs ha hy) h
        · exact hleaf h
    · exact hleaf h
  | lam d b _ ihb =>
    refine ⟨fun st e' st' h y hy => ?_, fun _ _ _ _ _ h => hleaf h⟩
    obtain ⟨b', st₁, h₁, h₂⟩ := bindPre_eq_some_some h
    rw [← value_eq_of_some h₂, fvars, List.mem_append] at hy
    rcases hy with hy | hy
    · exact .inl (List.mem_append_left _ hy)
    · exact (ihb.1 _ _ _ h₁ y hy).imp_left (List.mem_append_right _)
  | letE t v b _ ihv ihb =>
    refine ⟨fun st e' st' h y hy => ?_, fun _ _ _ _ _ h => hleaf h⟩
    obtain ⟨v', st₁, h₁, h₂⟩ := bindPre_eq_some_some h
    obtain ⟨b', st₂, h₃, h₄⟩ := bindPre_eq_some_some h₂
    rw [← value_eq_of_some h₄] at hy
    simp only [fvars, List.mem_append] at hy ⊢
    rcases hy with (hy | hy) | hy
    · exact .inl (.inl (.inl hy))
    · exact (ihv.1 _ _ _ h₁ y hy).imp_left fun h => .inl (.inr h)
    · exact (ihb.1 _ _ _ h₃ y hy).imp_left .inr
  | _ => exact ⟨fun _ _ _ h => hleaf h, fun _ _ _ _ _ h => hleaf h⟩

end Scope

/-! ## Where the walk returns -/

section Defined

variable {isCasesOn : Nat → Option (Nat × Nat)} {ext : SpecInfoMap} {hasAttr : Nat → Bool}
  {mutualDecls params : List Nat} {sp : Nat → Bool → List (Option Expr) → PreState → PreResult Nat}
  {mask : List (Option Expr)} (R : PreState → PreState → Prop)

theorem adjustCall_isSome (hext : ∀ c ∈ mutualDecls, (getArgKinds ext c).isSome) {c : Nat}
    (hc : c ∈ mutualDecls) (u : Bool) (args : List Expr) (e : Expr) {st : PreState}
    (hsp : ∀ m, (∃ kinds, getArgKinds ext c = some kinds ∧ m.length ≤ kinds.length) →
      (∀ b ∈ m, b = none ∨ b ∈ mask) → (sp c u m st).isSome) :
    (adjustCall ext hasAttr params sp mask c u args e st).isSome := by
  obtain ⟨kinds, hk⟩ := Option.isSome_iff_exists.1 (hext c hc)
  have hb : getBoolMaskOf ext hasAttr c args.length =
      some (getBoolMask kinds args.length (hasAttr c)).toList := by simp [getBoolMaskOf, hk]
  simp only [adjustCall, hb]
  split_ifs
  · refine bindPre_isSome (hsp _ ⟨kinds, hk, (length_newMask_le _ _ _).trans (getBoolMaskOf_length hk hb)⟩
      fun b hb => mem_newMask hb) fun _ _ _ => rfl
  · rfl

/-- The walk returns wherever `sp` does, for the calls it makes: a function of the block,
and a mask that fixes only what the current mask fixes, no longer than the function's kinds. -/
theorem adjust_isSome (hrefl : ∀ st, R st st) (htrans : ∀ {a b c}, R a b → R b c → R a c)
    (hsp : ∀ c u m st n st', (∀ b ∈ m, b = none ∨ b ∈ mask) → sp c u m st = some (some n, st') → R st st')
    (hext : ∀ c ∈ mutualDecls, (getArgKinds ext c).isSome) (e : Expr) :
    (∀ st, (∀ st', R st st' → ∀ c ∈ mutualDecls, ∀ u m,
        (∃ kinds, getArgKinds ext c = some kinds ∧ m.length ≤ kinds.length) →
        (∀ b ∈ m, b = none ∨ b ∈ mask) → (sp c u m st').isSome) →
      (adjustRecApps isCasesOn ext hasAttr mutualDecls params sp mask e st).isSome) ∧
    (∀ lo hi st, (∀ st', R st st' → ∀ c ∈ mutualDecls, ∀ u m,
        (∃ kinds, getArgKinds ext c = some kinds ∧ m.length ≤ kinds.length) →
        (∀ b ∈ m, b = none ∨ b ∈ mask) → (sp c u m st').isSome) →
      (adjustMinors isCasesOn ext hasAttr mutualDecls params sp mask lo hi e st).isSome) := by
  have hrel := @adjust_rel isCasesOn ext hasAttr mutualDecls params sp mask R hrefl htrans hsp
  induction e with
  | app f a ihf iha =>
    have hmin : ∀ lo hi st, (∀ st', R st st' → ∀ c ∈ mutualDecls, ∀ u m,
        (∃ kinds, getArgKinds ext c = some kinds ∧ m.length ≤ kinds.length) →
        (∀ b ∈ m, b = none ∨ b ∈ mask) → (sp c u m st').isSome) →
        (adjustMinors isCasesOn ext hasAttr mutualDecls params sp mask lo hi (app f a) st).isSome := by
      intro lo hi st hd
      rw [adjustMinors]
      refine bindPre_isSome (ihf.2 lo hi st hd) fun f' st₁ h₁ => ?_
      have r₁ := (hrel f).2 _ _ _ _ _ h₁
      split_ifs
      · exact bindPre_isSome (iha.1 st₁ fun st' h' => hd st' (htrans r₁ h')) fun _ _ _ => rfl
      · rfl
    refine ⟨fun st hd => ?_, hmin⟩
    rw [adjustRecApps_app]
    split
    · split
      · exact hmin _ _ _ hd
      · split_ifs with hc
        · exact adjustCall_isSome hext hc _ _ _ fun m hm hmm => hd _ (hrefl _) _ hc _ _ hm hmm
        · rfl
    · rfl
  | lam d b _ ihb =>
    exact ⟨fun st hd => bindPre_isSome (ihb.1 st hd) fun _ _ _ => rfl, fun _ _ _ _ => rfl⟩
  | letE t v b _ ihv ihb =>
    refine ⟨fun st hd => bindPre_isSome (ihv.1 st hd) fun v' st₁ h₁ => ?_, fun _ _ _ _ => rfl⟩
    have r₁ := (hrel v).1 _ _ _ h₁
    exact bindPre_isSome (ihb.1 st₁ fun st' h' => hd st' (htrans r₁ h')) fun _ _ _ => rfl
  | _ => exact ⟨fun _ _ => rfl, fun _ _ _ _ => rfl⟩

end Defined

/-! ## More fuel, the same result -/

section Mono

variable {isCasesOn : Nat → Option (Nat × Nat)} {ext : SpecInfoMap} {hasAttr : Nat → Bool}
  {mutualDecls params : List Nat} {sp₁ sp₂ : Nat → Bool → List (Option Expr) → PreState → PreResult Nat}
  {mask : List (Option Expr)}

theorem bindPre_mono {α β : Type} {r₁ r₂ : PreResult α} {k₁ k₂ : α → PreState → PreResult β} {x : Option β × PreState}
    (hr : ∀ y, r₁ = some y → r₂ = some y) (hk : ∀ a st y, k₁ a st = some y → k₂ a st = some y)
    (h : bindPre r₁ k₁ = some x) : bindPre r₂ k₂ = some x := by
  rcases r₁ with _ | ⟨_ | a, st⟩
  · cases h
  · rw [hr _ rfl]; exact h
  · rw [hr _ rfl]; exact hk _ _ _ h

/-- Every result of the walk with one `spec_preprocess` is a result with any other that
extends its results. -/
theorem adjust_mono (hsp : ∀ c u m st r, sp₁ c u m st = some r → sp₂ c u m st = some r) (e : Expr) :
    (∀ st r, adjustRecApps isCasesOn ext hasAttr mutualDecls params sp₁ mask e st = some r →
      adjustRecApps isCasesOn ext hasAttr mutualDecls params sp₂ mask e st = some r) ∧
    (∀ lo hi st r, adjustMinors isCasesOn ext hasAttr mutualDecls params sp₁ mask lo hi e st = some r →
      adjustMinors isCasesOn ext hasAttr mutualDecls params sp₂ mask lo hi e st = some r) := by
  induction e with
  | app f a ihf iha =>
    have hmin : ∀ lo hi st r, adjustMinors isCasesOn ext hasAttr mutualDecls params sp₁ mask lo hi (app f a) st =
        some r → adjustMinors isCasesOn ext hasAttr mutualDecls params sp₂ mask lo hi (app f a) st = some r := by
      intro lo hi st r h
      rw [adjustMinors] at h ⊢
      refine bindPre_mono (ihf.2 lo hi st) (fun f' st' y h => ?_) h
      split_ifs at h ⊢
      · exact bindPre_mono (iha.1 st') (fun _ _ _ h => h) h
      · exact h
    refine ⟨fun st r h => ?_, hmin⟩
    rw [adjustRecApps_app] at h ⊢
    split at h
    · split at h
      · exact hmin _ _ _ _ h
      · split_ifs at h ⊢
        · simp only [adjustCall] at h ⊢
          split at h
          · cases h
          · split_ifs at h ⊢
            · exact bindPre_mono (hsp _ _ _ _) (fun _ _ _ h => h) h
            · exact h
        · exact h
    · exact h
  | lam d b _ ihb => exact ⟨fun st r h => bindPre_mono (ihb.1 st) (fun _ _ _ h => h) h, fun _ _ _ _ h => h⟩
  | letE t v b _ ihv ihb =>
    exact ⟨fun st r h => bindPre_mono (ihv.1 st) (fun _ st' _ h => bindPre_mono (ihb.1 st') (fun _ _ _ h => h) h) h,
      fun _ _ _ _ h => h⟩
  | _ => exact ⟨fun _ _ h => h, fun _ _ _ _ h => h⟩

end Mono

/-! ## The loop over the mask -/

/-- The loop over the mask only declares the new free variables, at the end of the local
context. -/
theorem stripMask_state {mask : List (Option Expr)} {code : Expr} {fvars newFVars : List Nat} {st : PreState}
    {body : Expr} {fvars' newFVars' : List Nat} {st' : PreState}
    (h : stripMask mask code fvars newFVars st = some (body, fvars', newFVars', st')) :
    st'.cache = st.cache ∧ st'.preDecls = st.preDecls ∧ st'.nextIdx = st.nextIdx ∧
      ∃ l, st'.lctx = st.lctx ++ l ∧ ∀ x ∈ newFVars', x ∈ newFVars ∨ (st'.lctx.findDecl x).isSome := by
  induction mask, code, fvars, newFVars, st using stripMask.induct with
  | case1 =>
    simp only [stripMask, Option.some.injEq, Prod.mk.injEq] at h
    obtain ⟨-, -, rfl, rfl⟩ := h
    exact ⟨rfl, rfl, rfl, [], by simp, fun x hx => .inl hx⟩
  | case2 x mask d body fvars newFVars st ih => exact ih h
  | case3 mask d body fvars newFVars st ih =>
    obtain ⟨h₁, h₂, h₃, l, hl, hx⟩ := ih h
    refine ⟨h₁, h₂, h₃, ⟨st.ngen, false, d.instantiateRev fvars, none⟩ :: l, by simp [hl], fun x hx' => ?_⟩
    rcases hx x hx' with hx | hx
    · rcases List.mem_append.1 hx with hx | hx
      · exact .inl hx
      · refine .inr ?_
        rw [List.mem_singleton.1 hx, hl]
        exact findDecl_append_of_isSome _ (findDecl_append_self _ _)
    · exact .inr hx
  | case4 b mask code fvars newFVars st h₁ h₂ =>
    rcases b with _ | b
    · cases code <;> first | cases h | exact absurd rfl (h₂ _ _ rfl)
    · cases code <;> first | cases h | (rcases b with _ | x <;> first | cases h | exact absurd rfl (h₁ x _ _ rfl))

/-- The loop over the mask returns when the code has a lambda for each position of the mask
and the mask holds free variables. -/
theorem stripMask_isSome {mask : List (Option Expr)} {code : Expr} (fvars newFVars : List Nat) (st : PreState)
    (hlen : mask.length ≤ headerSize code) (hfv : ∀ b ∈ mask, ∀ e, b = some e → e.isFVar) :
    (stripMask mask code fvars newFVars st).isSome := by
  induction mask, code, fvars, newFVars, st using stripMask.induct with
  | case1 => rfl
  | case2 x mask d body fvars newFVars st ih =>
    exact ih (by simpa [headerSize] using hlen) fun b hb => hfv b (List.mem_cons_of_mem _ hb)
  | case3 mask d body fvars newFVars st ih =>
    exact ih (by simpa [headerSize] using hlen) fun b hb => hfv b (List.mem_cons_of_mem _ hb)
  | case4 b mask code fvars newFVars st h₁ h₂ =>
    cases code with
    | lam d body =>
      rcases b with _ | e
      · exact absurd rfl (h₂ d body rfl)
      · obtain ⟨x, rfl⟩ : ∃ x, e = .fvar x := by
          have := hfv _ (List.mem_cons_self _ _) e rfl
          cases e <;> first | exact ⟨_, rfl⟩ | cases this
        exact absurd rfl (h₁ x d body rfl)
    | _ => simp [headerSize] at hlen

/-- One position of the loop over the mask: the code is a lambda, and the position holds a free
variable, which instantiates the bound variable, or nothing, and a new local declaration
does. -/
theorem stripMask_cons {b : Option Expr} {mask : List (Option Expr)} {code : Expr} {fvars newFVars : List Nat}
    {st : PreState} {r : Expr × List Nat × List Nat × PreState}
    (h : stripMask (b :: mask) code fvars newFVars st = some r) :
    ∃ d body, code = lam d body ∧
      ((∃ x, b = some (fvar x) ∧ stripMask mask body (fvars ++ [x]) newFVars st = some r) ∨
        b = none ∧ stripMask mask body (fvars ++ [st.ngen]) (newFVars ++ [st.ngen])
          { st with lctx := st.lctx ++ [⟨st.ngen, false, d.instantiateRev fvars, none⟩], ngen := st.ngen + 1 } =
            some r) := by
  cases code with
  | lam d body =>
    rcases b with _ | e
    · exact ⟨d, body, rfl, .inr ⟨rfl, h⟩⟩
    · cases e with
      | fvar x => exact ⟨d, body, rfl, .inl ⟨x, rfl, h⟩⟩
      | _ => cases h
  | _ =>
    rcases b with _ | e
    · cases h
    · cases e <;> cases h

/-- What the loop over the mask binds. The body is part of the code; each free variable it
instantiates was instantiated before, is one of the mask's or is new; the new ones are the next
names of the generator, in order, each declared at the end of the local context without a
value and with a type that refers only to the code, to what was instantiated before, to the
mask and to earlier new names. -/
theorem stripMask_scope : ∀ {mask : List (Option Expr)} {code : Expr} {fvars newFVars : List Nat} {st : PreState}
    {body : Expr} {fvars' newFVars' : List Nat} {st' : PreState},
    stripMask mask code fvars newFVars st = some (body, fvars', newFVars', st') →
    (∀ y ∈ body.fvars, y ∈ code.fvars) ∧
      (∀ y ∈ fvars', y ∈ fvars ∨ some (fvar y) ∈ mask ∨ st.ngen ≤ y ∧ y < st'.ngen) ∧
      newFVars' = newFVars ++ List.range' st.ngen (st'.ngen - st.ngen) ∧ st.ngen ≤ st'.ngen ∧
      ∃ l, st'.lctx = st.lctx ++ l ∧ l.map LocalDecl.fvarId = List.range' st.ngen (st'.ngen - st.ngen) ∧
        ∀ d ∈ l, d.value = none ∧ ∀ y ∈ d.type.fvars,
          y ∈ code.fvars ∨ y ∈ fvars ∨ some (fvar y) ∈ mask ∨ st.ngen ≤ y ∧ y < d.fvarId
  | [], code, fvars, newFVars, st, body, fvars', newFVars', st', h => by
    simp only [stripMask, Option.some.injEq, Prod.mk.injEq] at h
    obtain ⟨rfl, rfl, rfl, rfl⟩ := h
    exact ⟨fun _ => id, fun y hy => .inl hy, by simp, le_rfl, [], by simp, by simp, by simp⟩
  | b :: mask, _, fvars, newFVars, st, body, fvars', newFVars', st', h => by
    obtain ⟨d, body₀, rfl, ⟨x, rfl, h'⟩ | ⟨rfl, h'⟩⟩ := stripMask_cons h
    · -- a fixed position: `x` is instantiated
      obtain ⟨hb, hf, hn, hle, l, hl, hids, hdecl⟩ := stripMask_scope h'
      refine ⟨fun y hy => List.mem_append_right _ (hb y hy), fun y hy => ?_, hn, hle, l, hl, hids,
        fun d' hd' => ⟨(hdecl d' hd').1, fun y hy => ?_⟩⟩
      · rcases hf y hy with hy | hy | hy
        · rcases List.mem_append.1 hy with hy | hy
          · exact .inl hy
          · exact .inr (.inl (List.mem_singleton.1 hy ▸ List.mem_cons_self _ _))
        · exact .inr (.inl (List.mem_cons_of_mem _ hy))
        · exact .inr (.inr hy)
      · rcases (hdecl d' hd').2 y hy with hy | hy | hy | hy
        · exact .inl (List.mem_append_right _ hy)
        · rcases List.mem_append.1 hy with hy | hy
          · exact .inr (.inl hy)
          · exact .inr (.inr (.inl (List.mem_singleton.1 hy ▸ List.mem_cons_self _ _)))
        · exact .inr (.inr (.inl (List.mem_cons_of_mem _ hy)))
        · exact .inr (.inr (.inr hy))
    · -- a new local declaration, named `st.ngen`
      obtain ⟨hb, hf, hn, hle, l, hl, hids, hdecl⟩ := stripMask_scope h'
      dsimp only at hf hn hle hl hids hdecl
      have hk : st'.ngen - st.ngen = st'.ngen - (st.ngen + 1) + 1 := by omega
      refine ⟨fun y hy => List.mem_append_right _ (hb y hy), fun y hy => ?_,
        by rw [hn, hk, List.range'_succ, List.append_assoc]; rfl, by omega,
        ⟨st.ngen, false, d.instantiateRev fvars, none⟩ :: l, by simp [hl],
        by rw [hk, List.range'_succ, List.map_cons, hids], fun d' hd' => ?_⟩
      · rcases hf y hy with hy | hy | hy
        · rcases List.mem_append.1 hy with hy | hy
          · exact .inl hy
          · obtain rfl := List.mem_singleton.1 hy
            exact .inr (.inr ⟨le_rfl, by omega⟩)
        · exact .inr (.inl (List.mem_cons_of_mem _ hy))
        · exact .inr (.inr ⟨by omega, hy.2⟩)
      · rcases List.mem_cons.1 hd' with rfl | hd'
        · refine ⟨rfl, fun y hy => ?_⟩
          rcases mem_fvars_instantiateRevAt hy with hy | hy
          · exact .inl (List.mem_append_left _ hy)
          · exact .inr (.inl hy)
        · have hge : st.ngen + 1 ≤ d'.fvarId := (List.mem_range'_1.1 (hids ▸ List.mem_map_of_mem _ hd')).1
          refine ⟨(hdecl d' hd').1, fun y hy => ?_⟩
          rcases (hdecl d' hd').2 y hy with hy | hy | hy | hy
          · exact .inl (List.mem_append_right _ hy)
          · rcases List.mem_append.1 hy with hy | hy
            · exact .inr (.inl hy)
            · obtain rfl := List.mem_singleton.1 hy
              exact .inr (.inr (.inr ⟨le_rfl, by omega⟩))
          · exact .inr (.inr (.inl (List.mem_cons_of_mem _ hy)))
          · exact .inr (.inr (.inr ⟨by omega, hy.2⟩))

/-! ## Binding the new variables -/

/-- Among consecutive names, a name below `x` and not below the first comes before `x`. -/
theorem mem_of_range'_eq_append {s k x y : Nat} {as bs : List Nat} (h : List.range' s k = as ++ x :: bs)
    (hy : s ≤ y) (hyx : y < x) : y ∈ as := by
  have hx := (List.mem_range'_1.1 (h ▸ List.mem_append_right _ (List.mem_cons_self _ _) : x ∈ List.range' s k)).2
  have hp := (List.pairwise_append.1 (h ▸ List.pairwise_lt_range' s k)).2.1
  rcases List.mem_append.1 (h ▸ List.mem_range'_1.2 ⟨hy, by omega⟩ : y ∈ as ++ x :: bs) with hy | hy
  · exact hy
  · rcases List.mem_cons.1 hy with rfl | hy
    · omega
    · exact absurd ((List.pairwise_cons.1 hp).1 y hy) (by omega)

/-- A declaration under a name not declared before it is the one `find_local_decl` finds. -/
theorem findDecl_append_cons {lctx l₁ l₂ : LocalCtx} {d : LocalDecl}
    (h : d.fvarId ∉ (lctx ++ l₁).map LocalDecl.fvarId) : (lctx ++ (l₁ ++ d :: l₂)).findDecl d.fvarId = some d := by
  rw [← List.append_assoc, LocalCtx.findDecl, List.find?_append,
    List.find?_eq_none.2 fun d' hd' he => h (List.mem_map.2 ⟨d', hd', by simpa using he⟩), Option.none_or]
  exact List.find?_cons_of_pos _ (beq_self_eq_true _)

/-- `mk_lambda` over the declarations `l` made at the end of a local context, each under a name
not declared before it: the result refers only to `S` when the body refers only to `S` and to
the new variables, and each new declaration's type and value only to `S` and to the new
variables before it. -/
theorem mkLambda_fvars_of_suffix {S : Nat → Prop} {lctx l : LocalCtx} {body code : Expr}
    (hl : ∀ l₁ d l₂, l = l₁ ++ d :: l₂ → d.fvarId ∉ (lctx ++ l₁).map LocalDecl.fvarId ∧
      (∀ y ∈ d.type.fvars, S y ∨ y ∈ l₁.map LocalDecl.fvarId) ∧
      ∀ v, d.value = some v → ∀ y ∈ v.fvars, S y ∨ y ∈ l₁.map LocalDecl.fvarId)
    (hbody : ∀ y ∈ body.fvars, S y ∨ y ∈ l.map LocalDecl.fvarId)
    (h : (lctx ++ l).mkLambda (l.map LocalDecl.fvarId) body = some code) : ∀ y ∈ code.fvars, S y := by
  refine fvars_abstractSpecCtxAux [] (fun ys x zs hxs => ?_) (fun y hy => ?_) h
  · have hmap : l.map LocalDecl.fvarId = zs.reverse ++ x :: ys.reverse := by
      rw [← List.reverse_reverse (l.map _), hxs]; simp
    obtain ⟨l₁, l', rfl, h₁, h'⟩ := List.map_eq_append_iff.1 hmap
    obtain ⟨d, l₂, rfl, rfl, -⟩ := List.map_eq_cons_iff.1 h'
    obtain ⟨hfr, ht, hv⟩ := hl l₁ d l₂ rfl
    have hzs : ∀ y, S y ∨ y ∈ l₁.map LocalDecl.fvarId → S y ∨ y ∈ zs := fun y =>
      Or.imp_right fun hy => List.mem_reverse.1 (h₁ ▸ hy)
    exact ⟨d, findDecl_append_cons hfr, fun y hy => hzs y (ht y hy), fun v hv' y hy => hzs y (hv v hv' y hy)⟩
  · obtain ⟨hy, hny⟩ := mem_fvars_abstract.1 hy
    exact (hbody y hy).resolve_right hny

/-- `mk_lambda` over the new variables `range' g k`, declared in order at the end of a local
context whose names are below `g`: the result refers only to `S` when the body refers only to
`S` and to the new variables, and each new variable's type only to `S` and to the new
variables before it. -/
theorem mkLambda_fvars {S : Nat → Prop} {lctx l : LocalCtx} {g k : Nat} {body code : Expr}
    (hfresh : ∀ d ∈ lctx, d.fvarId < g) (hids : l.map LocalDecl.fvarId = List.range' g k)
    (hl : ∀ d ∈ l, d.value = none ∧ ∀ y ∈ d.type.fvars, S y ∨ g ≤ y ∧ y < d.fvarId)
    (hbody : ∀ y ∈ body.fvars, S y ∨ g ≤ y ∧ y < g + k)
    (h : (lctx ++ l).mkLambda (List.range' g k) body = some code) : ∀ y ∈ code.fvars, S y := by
  refine mkLambda_fvars_of_suffix (fun l₁ d l₂ e => ?_) (fun y hy => (hbody y hy).imp_right fun h => ?_)
    (hids ▸ h)
  · subst e
    have hr : List.range' g k = l₁.map LocalDecl.fvarId ++ d.fvarId :: l₂.map LocalDecl.fvarId := by simp [← hids]
    have hd := hl d (by simp)
    have hg := (List.mem_range'_1.1 (hr ▸ List.mem_append_right _ (List.mem_cons_self _ _))).1
    refine ⟨fun hm => ?_, fun y hy => (hd.2 y hy).imp_right fun h => mem_of_range'_eq_append hr h.1 h.2,
      fun v hv => by simp [hd.1] at hv⟩
    rcases List.mem_append.1 (List.map_append _ _ _ ▸ hm) with hm | hm
    · obtain ⟨d', hd', e⟩ := List.mem_map.1 hm
      exact absurd (hfresh d' hd') (by omega)
    · have := (List.pairwise_append.1 (hr ▸ List.pairwise_lt_range' g k)).2.2 _ hm _ (List.mem_cons_self _ _)
      omega
  · exact hids ▸ List.mem_range'_1.2 ⟨h.1, by omega⟩

/-! ## What a successful `spec_preprocess` adds -/

/-- What a successful step adds to the `spec_ctx`: entries in front of the cache, and as many
pre-declarations, one for each new name; the local context is as it was. -/
structure Adds (st st' : PreState) : Prop where
  aligned : ∃ new ds, st'.cache = new ++ st.cache ∧ st'.preDecls = st.preDecls ++ ds ∧
    (new.map Prod.snd).Perm (ds.map CompDecl.name)
  lctx : st'.lctx = st.lctx

theorem Adds.refl (st : PreState) : Adds st st := ⟨⟨[], [], rfl, by simp, by simp⟩, rfl⟩

theorem Adds.trans {a b c : PreState} (h₁ : Adds a b) (h₂ : Adds b c) : Adds a c := by
  obtain ⟨⟨new₁, ds₁, hc₁, hd₁, hp₁⟩, hl₁⟩ := h₁
  obtain ⟨⟨new₂, ds₂, hc₂, hd₂, hp₂⟩, hl₂⟩ := h₂
  refine ⟨⟨new₂ ++ new₁, ds₁ ++ ds₂, by simp [hc₂, hc₁], by simp [hd₂, hd₁], ?_⟩, hl₂.trans hl₁⟩
  simpa using (hp₂.append hp₁).trans List.perm_append_comm

theorem mem_of_lookup_eq_some {l : List (Expr × Nat)} {k : Expr} {n : Nat} (h : l.lookup k = some n) :
    (k, n) ∈ l := by
  induction l with
  | nil => cases h
  | cons p l ih =>
    rw [lookup_cons_ite] at h
    split_ifs at h with hk
    · exact List.mem_cons.2 (.inl (by rw [hk, ← Option.some.inj h]))
    · exact List.mem_cons_of_mem _ (ih h)

section Preprocess

variable {isCasesOn : Nat → Option (Nat × Nat)} {ext : SpecInfoMap} {hasAttr : Nat → Bool}
  {mutualDecls params : List Nat} {stage1 : Nat → Bool → Option Expr} {mkSpecName : Nat → Nat → Nat}

/-- The steps of a cache miss that succeeds, in order. -/
theorem specPreprocess_miss {fuel c : Nat} {u : Bool} {mask : List (Option Expr)} {st st' : PreState} {n : Nat}
    (hmiss : st.cache.lookup (mkCacheKey (.const c u) mask) = none)
    (h : specPreprocess isCasesOn ext hasAttr mutualDecls params stage1 mkSpecName (fuel + 1) c u mask st =
      some (some n, st')) :
    ∃ code body fvars newFVars st₂ body' st₃ code',
      stage1 c u = some code ∧ n = mkSpecName c st.nextIdx ∧
      stripMask mask code [] []
        { st with cache := (mkCacheKey (.const c u) mask, n) :: st.cache, nextIdx := st.nextIdx + 1 } =
          some (body, fvars, newFVars, st₂) ∧
      adjustRecApps isCasesOn ext hasAttr mutualDecls params
        (specPreprocess isCasesOn ext hasAttr mutualDecls params stage1 mkSpecName fuel) mask
        (body.instantiateRev fvars) st₂ = some (some body', st₃) ∧
      st₃.lctx.mkLambda newFVars body' = some code' ∧
      st' = { st₃ with lctx := st.lctx, preDecls := st₃.preDecls ++ [⟨n, code'⟩] } := by
  rw [specPreprocess.eq_def] at h
  simp only [hmiss] at h
  split at h
  · cases h
  · rename_i code hcode
    split at h
    · cases h
    · rename_i body fvars newFVars st₂ hstrip
      split at h
      · cases h
      · cases h
      · rename_i body' st₃ hadj
        split at h
        · cases h
        · rename_i code' hlam
          simp only [Option.some.injEq, Prod.mk.injEq] at h
          obtain ⟨rfl, rfl⟩ := h
          exact ⟨code, body, fvars, newFVars, st₂, body', st₃, code', hcode, rfl, hstrip, hadj, hlam, rfl⟩

theorem specPreprocess_hit {fuel c : Nat} {u : Bool} {mask : List (Option Expr)} {st : PreState} {n : Nat}
    (hl : st.cache.lookup (mkCacheKey (.const c u) mask) = some n) :
    specPreprocess isCasesOn ext hasAttr mutualDecls params stage1 mkSpecName fuel c u mask st = some (some n, st) :=
  specPreprocess.eq_1 _ _ _ _ _ _ _ _ _ _ _ _ _ hl

theorem specPreprocess_zero {c : Nat} {u : Bool} {mask : List (Option Expr)} {st : PreState}
    (hl : st.cache.lookup (mkCacheKey (.const c u) mask) = none) :
    specPreprocess isCasesOn ext hasAttr mutualDecls params stage1 mkSpecName 0 c u mask st = none :=
  specPreprocess.eq_2 _ _ _ _ _ _ _ _ _ _ _ hl

/-- More fuel gives `spec_preprocess` the same result. -/
theorem specPreprocess_mono : ∀ {fuel fuel' c : Nat} {u : Bool} {mask : List (Option Expr)} {st : PreState}
    {r : Option Nat × PreState}, fuel ≤ fuel' →
      specPreprocess isCasesOn ext hasAttr mutualDecls params stage1 mkSpecName fuel c u mask st = some r →
      specPreprocess isCasesOn ext hasAttr mutualDecls params stage1 mkSpecName fuel' c u mask st = some r
  | fuel, fuel', c, u, mask, st, r, hle, h => by
    cases hl : st.cache.lookup (mkCacheKey (.const c u) mask) with
    | some n => rw [specPreprocess_hit hl] at h ⊢; exact h
    | none =>
      cases fuel with
      | zero => rw [specPreprocess_zero hl] at h; cases h
      | succ fuel =>
        obtain ⟨fuel', rfl⟩ : ∃ f, fuel' = f + 1 := ⟨fuel' - 1, by omega⟩
        rw [specPreprocess.eq_def] at h ⊢
        simp only [hl] at h ⊢
        split at h
        · exact h
        · split at h
          · cases h
          · have hsp : ∀ c u m st r,
                specPreprocess isCasesOn ext hasAttr mutualDecls params stage1 mkSpecName fuel c u m st = some r →
                specPreprocess isCasesOn ext hasAttr mutualDecls params stage1 mkSpecName fuel' c u m st = some r :=
              fun _ _ _ _ _ h => specPreprocess_mono (by omega) h
            generalize hx : adjustRecApps isCasesOn ext hasAttr mutualDecls params
              (specPreprocess isCasesOn ext hasAttr mutualDecls params stage1 mkSpecName fuel) mask _ _ = x at h
            rcases x with _ | x
            · cases h
            · rw [(adjust_mono hsp _).1 _ _ hx]; exact h

/-- A successful `spec_preprocess` adds one pre-declaration for each name it caches, and the
name it returns is cached under its key. -/
theorem specPreprocess_adds : ∀ {fuel c : Nat} {u : Bool} {mask : List (Option Expr)} {st st' : PreState}
    {n : Nat}, specPreprocess isCasesOn ext hasAttr mutualDecls params stage1 mkSpecName fuel c u mask st =
      some (some n, st') → Adds st st' ∧ (mkCacheKey (.const c u) mask, n) ∈ st'.cache
  | fuel, c, u, mask, st, st', n, h => by
    cases hl : st.cache.lookup (mkCacheKey (.const c u) mask) with
    | some n' =>
      obtain ⟨rfl, rfl⟩ : n' = n ∧ st = st' := by simpa [specPreprocess_hit hl] using h
      exact ⟨.refl _, mem_of_lookup_eq_some hl⟩
    | none =>
      cases fuel with
      | zero => rw [specPreprocess_zero hl] at h; cases h
      | succ fuel =>
        obtain ⟨code, body, fvars, newFVars, st₂, body', st₃, code', -, rfl, hstrip, hadj, -, rfl⟩ :=
          specPreprocess_miss hl h
        obtain ⟨hc₂, hd₂, -, -⟩ := stripMask_state hstrip
        obtain ⟨⟨new, ds, hc₃, hd₃, hp⟩, -⟩ := (adjust_rel Adds Adds.refl Adds.trans
          (fun _ _ _ _ _ _ _ h => (specPreprocess_adds h).1) _).1 _ _ _ hadj
        refine ⟨⟨⟨new ++ [(mkCacheKey (.const c u) mask, mkSpecName c st.nextIdx)],
          ds ++ [⟨mkSpecName c st.nextIdx, code'⟩], ?_, ?_, ?_⟩, rfl⟩, ?_⟩
        · simp [hc₃, hc₂]
        · simp [hd₃, hd₂]
        · simpa using hp.append_right _
        · simp [hc₃, hc₂]

/-- The name a successful `spec_preprocess` returns was cached before it, or is the name of a
pre-declaration it adds. -/
theorem specPreprocess_name_mem {fuel c : Nat} {u : Bool} {mask : List (Option Expr)} {st st' : PreState} {n : Nat}
    (h : specPreprocess isCasesOn ext hasAttr mutualDecls params stage1 mkSpecName fuel c u mask st =
      some (some n, st')) :
    (mkCacheKey (.const c u) mask, n) ∈ st.cache ∨ n ∈ st'.preDecls.map CompDecl.name := by
  obtain ⟨⟨⟨new, ds, hc, hd, hp⟩, -⟩, hmem⟩ := specPreprocess_adds h
  rw [hc, List.mem_append] at hmem
  refine hmem.symm.imp_right fun hn => ?_
  rw [hd, List.map_append, List.mem_append]
  exact .inr (hp.mem_iff.1 (List.mem_map_of_mem Prod.snd hn))

/-- Every run of `spec_preprocess` that returns, with a name or with none, restores the local
context and leaves the name generator and `m_next_idx` no lower. -/
theorem specPreprocess_advances : ∀ {fuel c : Nat} {u : Bool} {mask : List (Option Expr)} {st st' : PreState}
    {r : Option Nat}, specPreprocess isCasesOn ext hasAttr mutualDecls params stage1 mkSpecName fuel c u mask st =
      some (r, st') → st.ngen ≤ st'.ngen ∧ st'.lctx = st.lctx ∧ st.nextIdx ≤ st'.nextIdx
  | fuel, c, u, mask, st, st', r, h => by
    cases hl : st.cache.lookup (mkCacheKey (.const c u) mask) with
    | some n =>
      obtain ⟨-, rfl⟩ := Prod.mk.inj (Option.some.inj ((specPreprocess_hit hl).symm.trans h))
      exact ⟨le_rfl, rfl, le_rfl⟩
    | none =>
      cases fuel with
      | zero => rw [specPreprocess_zero hl] at h; cases h
      | succ fuel =>
        rw [specPreprocess.eq_def] at h
        simp only [hl] at h
        split at h
        · obtain ⟨-, rfl⟩ := Prod.mk.inj (Option.some.inj h)
          exact ⟨le_rfl, rfl, le_rfl⟩
        · split at h
          · cases h
          · rename_i hstrip
            -- the cache miss takes an index, and `stripMask` declares new variables
            have h₂ := (stripMask_scope hstrip).2.2.2.1
            have h₂' := (stripMask_state hstrip).2.2.1
            have hadj := fun {e} => (@adjust_rel_any isCasesOn ext hasAttr mutualDecls params
              (specPreprocess isCasesOn ext hasAttr mutualDecls params stage1 mkSpecName fuel) mask
              (fun _ s s' => s.ngen ≤ s'.ngen ∧ s.nextIdx ≤ s'.nextIdx) (fun _ => ⟨le_rfl, le_rfl⟩)
              (fun h₁ h₂ => ⟨h₁.1.trans h₂.1, h₁.2.trans h₂.2⟩)
              (fun _ _ _ _ _ _ _ h => ⟨(specPreprocess_advances h).1, (specPreprocess_advances h).2.2⟩) e).1
            split at h
            · cases h
            · rename_i h₃
              obtain ⟨-, rfl⟩ := Prod.mk.inj (Option.some.inj h)
              have h₃ := hadj _ _ _ h₃
              exact ⟨h₂.trans h₃.1, rfl, by simp only at h₂' ⊢; omega⟩
            · rename_i h₃
              have h₃ := hadj _ _ _ h₃
              split at h
              · cases h
              · obtain ⟨-, rfl⟩ := Prod.mk.inj (Option.some.inj h)
                exact ⟨h₂.trans h₃.1, rfl, by simp only at h₂' ⊢; omega⟩

/-! ## Termination

A cache miss inserts its key before the copy is walked, and every key a run meets belongs to
a finite universe: a function of the block, with a mask no longer than its kinds that fixes
only what the first mask fixes. The number of keys of that universe the cache misses is
therefore a measure that each nested `spec_preprocess` lowers. -/

/-- All masks of length at most `n` over `A`. -/
def masksUpTo (n : Nat) (A : List (Option Expr)) : List (List (Option Expr)) :=
  (List.range (n + 1)).flatMap fun k => (List.replicate k A).sections

theorem forall₂_mem_replicate {A : List (Option Expr)} :
    ∀ m : List (Option Expr), (∀ b ∈ m, b ∈ A) → List.Forall₂ (· ∈ ·) m (List.replicate m.length A)
  | [], _ => .nil
  | b :: m, hA =>
    .cons (hA b (List.mem_cons_self _ _)) (forall₂_mem_replicate m fun b hb => hA b (List.mem_cons_of_mem _ hb))

theorem mem_masksUpTo {n : Nat} {A m : List (Option Expr)} (hn : m.length ≤ n) (hA : ∀ b ∈ m, b ∈ A) :
    m ∈ masksUpTo n A := by
  simp only [masksUpTo, List.mem_flatMap, List.mem_range]
  exact ⟨m.length, by omega, List.mem_sections.2 (forall₂_mem_replicate m hA)⟩

/-- The keys that a run of `spec_preprocess` from the mask `mask₀` can meet. -/
def keyUniverse (ext : SpecInfoMap) (mutualDecls : List Nat) (mask₀ : List (Option Expr)) : List Expr :=
  mutualDecls.flatMap fun g => [false, true].flatMap fun u =>
    (masksUpTo ((getArgKinds ext g).getD []).length (none :: mask₀)).map (mkCacheKey (.const g u))

theorem mem_keyUniverse {ext : SpecInfoMap} {mutualDecls : List Nat} {mask₀ m : List (Option Expr)} {g : Nat}
    (u : Bool) {kinds : List SpecArgKind} (hg : g ∈ mutualDecls) (hk : getArgKinds ext g = some kinds)
    (hlen : m.length ≤ kinds.length) (hm : ∀ b ∈ m, b = none ∨ b ∈ mask₀) :
    mkCacheKey (.const g u) m ∈ keyUniverse ext mutualDecls mask₀ := by
  simp only [keyUniverse, List.mem_flatMap, List.mem_map]
  refine ⟨g, hg, u, by cases u <;> simp, m, mem_masksUpTo (by simpa [hk] using hlen) fun b hb => ?_, rfl⟩
  rcases hm b hb with rfl | hb
  · exact List.mem_cons_self _ _
  · exact List.mem_cons_of_mem _ hb

/-- The measure: how many keys of `U` the cache misses. -/
def unseen (U : List Expr) (cache : List (Expr × Nat)) : Nat := U.countP fun k => (cache.lookup k).isNone

theorem unseen_append_le (U : List Expr) (new cache : List (Expr × Nat)) :
    unseen U (new ++ cache) ≤ unseen U cache :=
  List.countP_mono_left fun k _ hk => by
    rw [List.lookup_append] at hk
    cases h : new.lookup k
    · simpa [h] using hk
    · simp [h] at hk

theorem unseen_cons_lt {U : List Expr} {cache : List (Expr × Nat)} {k : Expr} (n : Nat) (hk : k ∈ U)
    (hl : cache.lookup k = none) : unseen U ((k, n) :: cache) < unseen U cache := by
  refine countP_lt_countP (fun x _ hx => ?_) hk (by simp [hl]) (by simp [lookup_cons_ite])
  by_cases h : x = k
  · simp [h, lookup_cons_ite] at hx
  · rwa [lookup_cons_ite, if_neg h] at hx

variable (isCasesOn ext hasAttr mutualDecls params stage1 mkSpecName) in
/-- From every state whose cache misses fewer keys of the universe than the fuel,
`spec_preprocess` returns, on every function of the block and every mask within the universe. -/
theorem specPreprocess_isSome (mask₀ : List (Option Expr))
    (hext : ∀ g ∈ mutualDecls, ∃ kinds, getArgKinds ext g = some kinds ∧
      ∀ u code, stage1 g u = some code → kinds.length ≤ headerSize code)
    (hfv : ∀ b ∈ mask₀, ∀ e, b = some e → e.isFVar) :
    ∀ fuel c u mask st, c ∈ mutualDecls →
      (∃ kinds, getArgKinds ext c = some kinds ∧ mask.length ≤ kinds.length) →
      (∀ b ∈ mask, b = none ∨ b ∈ mask₀) → unseen (keyUniverse ext mutualDecls mask₀) st.cache < fuel →
      (specPreprocess isCasesOn ext hasAttr mutualDecls params stage1 mkSpecName fuel c u mask st).isSome := by
  intro fuel
  induction fuel with
  | zero => intro _ _ _ _ _ _ _ h; omega
  | succ fuel ih =>
    intro c u mask st hc ⟨kinds, hk, hlen⟩ hm hfuel
    cases hl : st.cache.lookup (mkCacheKey (.const c u) mask) with
    | some n => rw [specPreprocess_hit hl]; rfl
    | none =>
      have hlt := unseen_cons_lt (mkSpecName c st.nextIdx) (mem_keyUniverse u hc hk hlen hm) hl
      rw [specPreprocess.eq_def]
      simp only [hl]
      split
      · rfl
      · rename_i code hcode
        obtain ⟨kinds', hk', hhead⟩ := hext c hc
        obtain rfl : kinds' = kinds := Option.some.inj (hk'.symm.trans hk)
        obtain ⟨⟨body, fvars, newFVars, st₂⟩, hstrip⟩ := Option.isSome_iff_exists.1
          (stripMask_isSome [] []
            { st with cache := (mkCacheKey (.const c u) mask, mkSpecName c st.nextIdx) :: st.cache, nextIdx := st.nextIdx + 1 }
            (hlen.trans (hhead u code hcode)) fun b hb e he => by
              rcases hm b hb with rfl | hb
              · cases he
              · exact hfv b hb e he)
        obtain ⟨hc₂, -, -, _, -, hdecl⟩ := stripMask_state hstrip
        rw [hstrip]
        dsimp only
        have hext' : ∀ g ∈ mutualDecls, (getArgKinds ext g).isSome := fun g hg => by
          obtain ⟨kinds, hk, -⟩ := hext g hg; simp [hk]
        have hadj := (@adjust_isSome isCasesOn ext hasAttr mutualDecls params
          (specPreprocess isCasesOn ext hasAttr mutualDecls params stage1 mkSpecName fuel) mask Adds Adds.refl Adds.trans
          (fun _ _ _ _ _ _ _ h => (specPreprocess_adds h).1) hext' (body.instantiateRev fvars)).1 st₂
          fun st' hst' c' hc' u' m hkm hm' => by
            obtain ⟨⟨new, ds, hcache, -, -⟩, -⟩ := hst'
            refine ih c' u' m st' hc' hkm (fun b hb => ?_) ?_
            · rcases hm' b hb with rfl | hb
              · exact .inl rfl
              · exact hm b hb
            · have := unseen_append_le (keyUniverse ext mutualDecls mask₀) new st₂.cache
              rw [hc₂] at this
              rw [hcache, hc₂]
              dsimp only at this ⊢
              omega
        obtain ⟨⟨r, st₃⟩, hr⟩ := Option.isSome_iff_exists.1 hadj
        rw [hr]
        rcases r with _ | body'
        · rfl
        · have hlctx := ((@adjust_rel isCasesOn ext hasAttr mutualDecls params
            (specPreprocess isCasesOn ext hasAttr mutualDecls params stage1 mkSpecName fuel) mask Adds Adds.refl Adds.trans
            (fun _ _ _ _ _ _ _ h => (specPreprocess_adds h).1) (body.instantiateRev fvars)).1 _ _ _ hr).lctx
          obtain ⟨code', hcode'⟩ := Option.isSome_iff_exists.1 (@mkLambda_isSome st₃.lctx newFVars body'
            fun x hx => by rw [hlctx]; simpa using hdecl x hx)
          simp only [hcode']
          rfl

/-- `f x y := g y x`, in a block with `g`. -/
def swapF : Expr := .lam (.sort false) (.lam (.sort false) (.app (.app (.const 6 false) (.bvar 0)) (.bvar 1)))

/-- `g x y := f y x`, in a block with `f`. -/
def swapG : Expr := .lam (.sort false) (.lam (.sort false) (.app (.app (.const 5 false) (.bvar 0)) (.bvar 1)))

/-- Both parameters of `f` and `g` are instances. -/
def swapExt : SpecInfoMap :=
  [(5, ⟨[5, 6], toSpecArgKinds [.fixedInst, .fixedInst]⟩), (6, ⟨[5, 6], toSpecArgKinds [.fixedInst, .fixedInst]⟩)]

def swapStage1 (c : Nat) (_ : Bool) : Option Expr :=
  if c = 5 then some swapF else if c = 6 then some swapG else none

theorem swapStage1_closed (g : Nat) (u : Bool) (code : Expr) (h : swapStage1 g u = some code) : code.fvars = [] := by
  simp only [swapStage1] at h
  split_ifs at h <;> cases h <;> rfl

def swapName (_ i : Nat) : Nat := 1000 + i

def swapState : PreState := ⟨[], [], 0, [], 200⟩

/-- Specializing `f` on its first argument specializes `g` on its second, and the two copies
call each other: `f' y := g' y` and `g' x := f' x`. -/
def swapResult : PreState :=
  ⟨[(.app (.app (.const 6 false) (.bvar 0)) (.fvar 100), 1001), (.app (.app (.const 5 false) (.fvar 100)) (.bvar 0), 1000)],
    [⟨1001, .lam (.sort false) (.app (.const 1000 false) (.bvar 0))⟩,
      ⟨1000, .lam (.sort false) (.app (.const 1001 false) (.bvar 0))⟩], 2, [], 202⟩

variable (isCasesOn ext hasAttr mutualDecls params stage1 mkSpecName) in
/-- `spec_preprocess` terminates on a block each of whose functions has a `spec_info` with no
more kinds than its stage-one code has header lambdas, from a first mask of free variables no
longer than the kinds of its function: from every state, some fuel makes it return, and every
larger fuel gives the same result, whatever the code of the block and however its functions
call each other. What stops the recursion is the cache entry made before each copy is
walked. -/
theorem specPreprocess_terminates (mask₀ : List (Option Expr))
    (hext : ∀ g ∈ mutualDecls, ∃ kinds, getArgKinds ext g = some kinds ∧
      ∀ u code, stage1 g u = some code → kinds.length ≤ headerSize code)
    (hfv : ∀ b ∈ mask₀, ∀ e, b = some e → e.isFVar) {c : Nat} (hc : c ∈ mutualDecls)
    (hlen : ∃ kinds, getArgKinds ext c = some kinds ∧ mask₀.length ≤ kinds.length) (u : Bool) :
    ∃ N, ∀ st, ∃ r, ∀ fuel, N ≤ fuel →
      specPreprocess isCasesOn ext hasAttr mutualDecls params stage1 mkSpecName fuel c u mask₀ st = some r := by
  refine ⟨(keyUniverse ext mutualDecls mask₀).length + 1, fun st => ?_⟩
  obtain ⟨r, hr⟩ := Option.isSome_iff_exists.1 <|
    specPreprocess_isSome isCasesOn ext hasAttr mutualDecls params stage1 mkSpecName mask₀ hext hfv _ c u mask₀ st
      hc hlen (fun _ hb => .inr hb) (Nat.lt_succ_of_le (List.countP_le_length _))
  exact ⟨r, fun _ hN => specPreprocess_mono hN hr⟩

theorem specPreprocess_terminates_swap : ∃ N, ∀ st, ∃ r, ∀ fuel, N ≤ fuel →
    specPreprocess (fun _ => none) swapExt (fun _ => false) [5, 6] [] swapStage1 swapName fuel 5 false
      [some (.fvar 100), none] st = some r :=
  specPreprocess_terminates (fun _ => none) swapExt (fun _ => false) [5, 6] [] swapStage1 swapName _
    (fun g hg => by
      rcases List.mem_pair.1 hg with rfl | rfl <;>
        exact ⟨_, rfl, fun u code h => by simp only [swapStage1] at h; cases h; decide⟩)
    (by simp [Expr.isFVar]) (show 5 ∈ [5, 6] by decide) ⟨_, rfl, by decide⟩ false

/-! ## One pre-declaration for each specialization -/

/-- The invariant of the local cache, for the index `lo` that `m_next_idx` started at: each key
and each name at most once, every name made by `mk_spec_name` from an index taken since. -/
structure CacheInv (mkSpecName : Nat → Nat → Nat) (lo : Nat) (st : PreState) : Prop where
  nodup_keys : (st.cache.map Prod.fst).Nodup
  nodup_names : (st.cache.map Prod.snd).Nodup
  names : ∀ p ∈ st.cache, ∃ c i, lo ≤ i ∧ i < st.nextIdx ∧ p.2 = mkSpecName c i
  lo_le : lo ≤ st.nextIdx

/-- A cache miss keeps the invariant: the key is new, and so is the name, since
`m_next_idx` was never used. -/
theorem CacheInv.insert (hinj : ∀ c i c' i', mkSpecName c i = mkSpecName c' i' → i = i') {lo : Nat} {st : PreState}
    (hi : CacheInv mkSpecName lo st) {k : Expr} (hk : st.cache.lookup k = none) (c : Nat) :
    CacheInv mkSpecName lo
      { st with cache := (k, mkSpecName c st.nextIdx) :: st.cache, nextIdx := st.nextIdx + 1 } := by
  refine ⟨List.nodup_cons.2 ⟨fun hmem => ?_, hi.nodup_keys⟩, List.nodup_cons.2 ⟨fun hmem => ?_, hi.nodup_names⟩, ?_,
    hi.lo_le.trans (Nat.le_succ _)⟩
  · obtain ⟨⟨k', n'⟩, hp, rfl⟩ := List.mem_map.1 hmem
    have := (lookup_eq_some_iff hi.nodup_keys k' n').2 hp
    simp_all
  · obtain ⟨p, hp, hpn⟩ := List.mem_map.1 hmem
    obtain ⟨c', i, -, hi', hpi⟩ := hi.names p hp
    have := hinj _ _ _ _ (hpn.symm.trans hpi)
    omega
  · intro p hp
    rcases List.mem_cons.1 hp with rfl | hp
    · exact ⟨c, st.nextIdx, hi.lo_le, by simp, rfl⟩
    · obtain ⟨c', i, hlo, hi', hpi⟩ := hi.names p hp
      exact ⟨c', i, hlo, by simp only; omega, hpi⟩

/-- A successful `spec_preprocess` keeps the invariant of the cache. -/
theorem specPreprocess_cacheInv (hinj : ∀ c i c' i', mkSpecName c i = mkSpecName c' i' → i = i') {lo : Nat} :
    ∀ {fuel c : Nat} {u : Bool} {mask : List (Option Expr)} {st st' : PreState} {n : Nat},
      specPreprocess isCasesOn ext hasAttr mutualDecls params stage1 mkSpecName fuel c u mask st =
        some (some n, st') → CacheInv mkSpecName lo st → CacheInv mkSpecName lo st'
  | fuel, c, u, mask, st, st', n, h, hi => by
    cases hl : st.cache.lookup (mkCacheKey (.const c u) mask) with
    | some n' =>
      obtain ⟨-, rfl⟩ : n' = n ∧ st = st' := by simpa [specPreprocess_hit hl] using h
      exact hi
    | none =>
      cases fuel with
      | zero => rw [specPreprocess_zero hl] at h; cases h
      | succ fuel =>
        obtain ⟨code, body, fvars, newFVars, st₂, body', st₃, code', -, rfl, hstrip, hadj, -, rfl⟩ :=
          specPreprocess_miss hl h
        obtain ⟨hc₂, -, hn₂, -⟩ := stripMask_state hstrip
        have hi₂ : CacheInv mkSpecName lo st₂ := by
          have := hi.insert hinj hl c
          exact ⟨hc₂ ▸ this.1, hc₂ ▸ this.2, hc₂ ▸ hn₂ ▸ this.3, hn₂ ▸ this.4⟩
        have hi₃ := (@adjust_rel isCasesOn ext hasAttr mutualDecls params
          (specPreprocess isCasesOn ext hasAttr mutualDecls params stage1 mkSpecName fuel) mask
          (fun a b => CacheInv mkSpecName lo a → CacheInv mkSpecName lo b) (fun _ => id) (fun h₁ h₂ h => h₂ (h₁ h))
          (fun _ _ _ _ _ _ _ h => specPreprocess_cacheInv hinj h) _).1 _ _ _ hadj hi₂
        exact ⟨hi₃.1, hi₃.2, hi₃.3, hi₃.4⟩

/-- In a fresh `spec_ctx` (empty cache, no pre-declarations), a successful `spec_preprocess`
keeps the invariant of the cache from the index `m_next_idx` starts at, and its cache names
exactly its pre-declarations. -/
theorem specPreprocess_fresh (hinj : ∀ c i c' i', mkSpecName c i = mkSpecName c' i' → i = i')
    {fuel c : Nat} {u : Bool} {mask : List (Option Expr)} {st st' : PreState} {n : Nat}
    (hcache : st.cache = []) (hpre : st.preDecls = [])
    (h : specPreprocess isCasesOn ext hasAttr mutualDecls params stage1 mkSpecName fuel c u mask st =
      some (some n, st')) :
    CacheInv mkSpecName st.nextIdx st' ∧ (st'.cache.map Prod.snd).Perm (st'.preDecls.map CompDecl.name) := by
  obtain ⟨⟨⟨new, ds, hc, hd, hp⟩, -⟩, -⟩ := specPreprocess_adds h
  refine ⟨specPreprocess_cacheInv hinj h ⟨by simp [hcache], by simp [hcache], by simp [hcache], le_rfl⟩, ?_⟩
  rw [hc, hd, hcache, hpre]
  simpa using hp

/-- The pre-declarations a successful `spec_preprocess` leaves in a fresh `spec_ctx` have
distinct names, each made by `mk_spec_name` from an index it took from `m_next_idx`. -/
theorem specPreprocess_preDecl_names (hinj : ∀ c i c' i', mkSpecName c i = mkSpecName c' i' → i = i')
    {fuel c : Nat} {u : Bool} {mask : List (Option Expr)} {st st' : PreState} {n : Nat}
    (hcache : st.cache = []) (hpre : st.preDecls = [])
    (h : specPreprocess isCasesOn ext hasAttr mutualDecls params stage1 mkSpecName fuel c u mask st =
      some (some n, st')) :
    (st'.preDecls.map CompDecl.name).Nodup ∧
      ∀ d ∈ st'.preDecls, ∃ c i, st.nextIdx ≤ i ∧ i < st'.nextIdx ∧ d.name = mkSpecName c i := by
  obtain ⟨hi, hperm⟩ := specPreprocess_fresh hinj hcache hpre h
  refine ⟨hperm.nodup_iff.1 hi.nodup_names, fun d hd => ?_⟩
  obtain ⟨p, hp, he⟩ := List.mem_map.1 (hperm.mem_iff.2 (List.mem_map_of_mem _ hd))
  obtain ⟨c, i, hlo, hi', hpi⟩ := hi.names p hp
  exact ⟨c, i, hlo, hi', he ▸ hpi⟩

/-- What a successful `spec_preprocess` leaves in a fresh `spec_ctx` (empty cache, no
pre-declarations), whenever `mk_spec_name` makes distinct names from distinct indices: the
name it returns is the one the cache holds for its key; each key is specialized once; and
the pre-declarations, whose names are distinct, are exactly one for each specialization the
cache names, so that every name a rewritten call refers to is declared for `mk_new_decl`. -/
theorem specPreprocess_preDecls (hinj : ∀ c i c' i', mkSpecName c i = mkSpecName c' i' → i = i')
    {fuel c : Nat} {u : Bool} {mask : List (Option Expr)} {st st' : PreState} {n : Nat}
    (hcache : st.cache = []) (hpre : st.preDecls = [])
    (h : specPreprocess isCasesOn ext hasAttr mutualDecls params stage1 mkSpecName fuel c u mask st =
      some (some n, st')) :
    st'.cache.lookup (mkCacheKey (.const c u) mask) = some n ∧ (st'.cache.map Prod.fst).Nodup ∧
      (st'.cache.map Prod.snd).Perm (st'.preDecls.map CompDecl.name) ∧
      (st'.preDecls.map CompDecl.name).Nodup := by
  obtain ⟨hi, hperm⟩ := specPreprocess_fresh hinj hcache hpre h
  exact ⟨(lookup_eq_some_iff hi.nodup_keys _ _).2 (specPreprocess_adds h).2, hi.nodup_keys, hperm,
    hperm.nodup_iff.1 hi.nodup_names⟩

theorem specPreprocess_preDecls_swap :
    (∀ c i c' i', swapName c i = swapName c' i' → i = i') ∧
    specPreprocess (fun _ => none) swapExt (fun _ => false) [5, 6] [] swapStage1 swapName 3 5 false
      [some (.fvar 100), none] swapState = some (some 1000, swapResult) ∧
    swapResult.cache.lookup (mkCacheKey (.const 5 false) [some (.fvar 100), none]) = some 1000 ∧
      (swapResult.cache.map Prod.fst).Nodup ∧
      (swapResult.cache.map Prod.snd).Perm (swapResult.preDecls.map CompDecl.name) ∧
      (swapResult.preDecls.map CompDecl.name).Nodup :=
  have hinj : ∀ c i c' i', swapName c i = swapName c' i' → i = i' := fun _ _ _ _ h => by
    simp only [swapName] at h; omega
  have h : specPreprocess (fun _ => none) swapExt (fun _ => false) [5, 6] [] swapStage1 swapName 3 5 false
      [some (.fvar 100), none] swapState = some (some 1000, swapResult) := by decide
  ⟨hinj, h, specPreprocess_preDecls hinj rfl rfl h⟩

/-! ## What a pre-declaration refers to

`mk_new_decl` binds around each pre-declaration the free variables of the mask, as
let-variables or by substituting their values, then the variables of the `spec_ctx`, among
them the parameters `m_params`, and asserts that nothing is left free. The copies that
`spec_preprocess` makes meet that assertion: the stage-one code is closed, every variable a
copy binds is new to the local context, and a rewritten call adds only the parameters. -/

/-- What a successful run keeps: the name generator only advances, the local context is
restored and, from a local context whose names are all below the generator's, every
pre-declaration it adds refers only to the parameters and to the free variables of `mask`. -/
structure Scoped (params : List Nat) (mask : List (Option Expr)) (st st' : PreState) : Prop where
  ngen_le : st.ngen ≤ st'.ngen
  lctx : st'.lctx = st.lctx
  preDecls : (∀ d ∈ st.lctx, d.fvarId < st.ngen) → ∃ ds, st'.preDecls = st.preDecls ++ ds ∧
    ∀ d ∈ ds, ∀ y ∈ d.code.fvars, y ∈ params ∨ some (fvar y) ∈ mask

theorem Scoped.refl {mask : List (Option Expr)} (st : PreState) : Scoped params mask st st :=
  ⟨le_rfl, rfl, fun _ => ⟨[], by simp, by simp⟩⟩

theorem Scoped.trans {mask : List (Option Expr)} {a b c : PreState} (h₁ : Scoped params mask a b)
    (h₂ : Scoped params mask b c) : Scoped params mask a c := by
  refine ⟨h₁.ngen_le.trans h₂.ngen_le, h₂.lctx.trans h₁.lctx, fun hf => ?_⟩
  obtain ⟨ds₁, hd₁, hs₁⟩ := h₁.preDecls hf
  obtain ⟨ds₂, hd₂, hs₂⟩ := h₂.preDecls fun d hd => (hf d (h₁.lctx ▸ hd)).trans_le h₁.ngen_le
  exact ⟨ds₁ ++ ds₂, by rw [hd₂, hd₁, List.append_assoc], fun d hd => (List.mem_append.1 hd).elim (hs₁ d) (hs₂ d)⟩

/-- A successful `spec_preprocess` on a mask that fixes only what `mask₀` fixes keeps `Scoped`
for `mask₀`, when the stage-one code is closed. -/
theorem specPreprocess_scoped (hclosed : ∀ g u code, stage1 g u = some code → code.fvars = [])
    {mask₀ : List (Option Expr)} : ∀ {fuel c : Nat} {u : Bool} {mask : List (Option Expr)} {st st' : PreState}
      {n : Nat}, (∀ b ∈ mask, b = none ∨ b ∈ mask₀) →
      specPreprocess isCasesOn ext hasAttr mutualDecls params stage1 mkSpecName fuel c u mask st =
        some (some n, st') → Scoped params mask₀ st st'
  | fuel, c, u, mask, st, st', n, hm, h => by
    cases hl : st.cache.lookup (mkCacheKey (.const c u) mask) with
    | some n' =>
      obtain ⟨-, rfl⟩ : n' = n ∧ st = st' := by simpa [specPreprocess_hit hl] using h
      exact .refl _
    | none =>
      cases fuel with
      | zero => rw [specPreprocess_zero hl] at h; cases h
      | succ fuel =>
        obtain ⟨code, body, fvars, newFVars, st₂, body', st₃, code', hcode, rfl, hstrip, hadj, hlam, rfl⟩ :=
          specPreprocess_miss hl h
        obtain ⟨hb, hf, rfl, hle, l, hl₂, hids, hdecl⟩ := stripMask_scope hstrip
        obtain ⟨-, hd₂, -, -⟩ := stripMask_state hstrip
        have hM : ∀ y, some (fvar y) ∈ mask → some (fvar y) ∈ mask₀ := fun y hy =>
          (hm _ hy).resolve_left (Option.some_ne_none _)
        have hcode := hclosed c u code hcode
        have h₃ := (adjust_rel (Scoped params mask₀) Scoped.refl Scoped.trans
          (fun _ _ _ _ _ _ hm' h => specPreprocess_scoped hclosed
            (fun b hb => (hm' b hb).elim .inl (hm b)) h) _).1 _ _ _ hadj
        refine ⟨hle.trans h₃.ngen_le, rfl, fun hfresh => ?_⟩
        obtain ⟨ds, hds, hscope⟩ := h₃.preDecls fun d hd => by
          rw [hl₂] at hd
          rcases List.mem_append.1 hd with hd | hd
          · exact (hfresh d hd).trans_le hle
          · have := List.mem_range'_1.1 (hids ▸ List.mem_map_of_mem LocalDecl.fvarId hd)
            dsimp only at this ⊢
            omega
        refine ⟨ds ++ [⟨mkSpecName c st.nextIdx, code'⟩], by simp [hds, hd₂], fun d hd => ?_⟩
        rcases List.mem_append.1 hd with hd | hd
        · exact hscope d hd
        · obtain rfl := List.mem_singleton.1 hd
          rw [h₃.lctx, hl₂, List.nil_append] at hlam
          refine mkLambda_fvars hfresh hids (fun d hd => ⟨(hdecl d hd).1, fun y hy => ?_⟩) (fun y hy => ?_) hlam
          · rcases (hdecl d hd).2 y hy with hy | hy | hy | hy
            · simp [hcode] at hy
            · cases hy
            · exact .inl (.inr (hM y hy))
            · exact .inr hy
          · rcases (adjust_fvars _).1 _ _ _ hadj y hy with hy | hy
            · rcases mem_fvars_instantiateRevAt hy with hy | hy
              · exact absurd (hb y hy) (by simp [hcode])
              · rcases hf y hy with hy | hy | hy
                · cases hy
                · exact .inl (.inr (hM y hy))
                · exact .inr ⟨hy.1, by dsimp only at hy ⊢; omega⟩
            · exact .inl (.inl hy)

/-- From a local context whose names are all below the name generator's, a successful
`spec_preprocess` of code whose stage-one definitions are closed restores the local context,
and every pre-declaration it adds refers to no free variable but the parameters `m_params`
and the free variables of the mask: those that `mk_new_decl` binds before it asserts that
the code is closed. -/
theorem specPreprocess_preDecls_fvars (hclosed : ∀ g u code, stage1 g u = some code → code.fvars = [])
    {fuel c : Nat} {u : Bool} {mask : List (Option Expr)} {st st' : PreState} {n : Nat}
    (hfresh : ∀ d ∈ st.lctx, d.fvarId < st.ngen)
    (h : specPreprocess isCasesOn ext hasAttr mutualDecls params stage1 mkSpecName fuel c u mask st =
      some (some n, st')) :
    st'.lctx = st.lctx ∧ ∃ ds, st'.preDecls = st.preDecls ++ ds ∧
      ∀ d ∈ ds, ∀ y ∈ d.code.fvars, y ∈ params ∨ some (fvar y) ∈ mask :=
  have hs := specPreprocess_scoped hclosed (fun _ hb => .inr hb) h
  ⟨hs.lctx, hs.preDecls hfresh⟩

theorem specPreprocess_preDecls_fvars_swap :
    (∀ g u code, swapStage1 g u = some code → code.fvars = []) ∧
    (∀ d ∈ swapState.lctx, d.fvarId < swapState.ngen) ∧
    specPreprocess (fun _ => none) swapExt (fun _ => false) [5, 6] [] swapStage1 swapName 3 5 false
      [some (.fvar 100), none] swapState = some (some 1000, swapResult) ∧
    swapResult.lctx = swapState.lctx ∧ ∃ ds, swapResult.preDecls = swapState.preDecls ++ ds ∧
      ∀ d ∈ ds, ∀ y ∈ d.code.fvars, y ∈ ([] : List Nat) ∨ some (fvar y) ∈ [some (.fvar 100), none] :=
  have h : specPreprocess (fun _ => none) swapExt (fun _ => false) [5, 6] [] swapStage1 swapName 3 5 false
      [some (.fvar 100), none] swapState = some (some 1000, swapResult) := by decide
  ⟨swapStage1_closed, nofun, h, specPreprocess_preDecls_fvars swapStage1_closed nofun h⟩

end Preprocess

end Compiler

end Lean4Core
