import Lean4Core.Compiler.SpecNewDecl

/-!
# The specializer's `visit`

`visit` (`specialize.cpp`, `unnamed/part_003`, lines 1097–1104) walks code. It opens each
lambda and let telescope, declaring a local for each binder (`visit_lambda`, `visit_let`,
lines 335–360); it visits the minor premises of a `casesOn` application (`visit_cases_on`,
lines 362–373), and at any other application of a constant with a `spec_info` (`visit_app`,
lines 1075–1095) it calls `specialize`, whose `mk_new_decl` visits the code of each new
specialization with `visit` in turn.

The model of expressions has no binder names: whether the user name of a binder is a join
point's (`is_join_point_name`) is a parameter, asked of the binder. `visit` takes fuel, spent
at each step, and passes what is left to `specialize`, with itself as the visitor.

Main results:
- `visit_spec`: under `ClosedOracles`, `visit` meets `VisitWalks`: from a good state, on code
  whose free variables lie in a set of declared variables closed under their declarations, it
  restores the local context, only advances the name generator, adds only closed
  declarations, and returns code whose free variables lie in that set;
- `visit_declared`: in particular, code whose free variables are declared stays so;
- `specialize_newDecls_closed`: every declaration that `specialize` adds, called with `visit`,
  is closed, the specializations of its nested visits included.

`visit_spec` is stated for any relation between states that each step keeps (`RunRel`), so
that what the pass does to the global cache comes from the same induction.
-/

namespace Lean4Core

namespace Compiler

open Expr

/-- `m_lctx.mk_local_decl(ngen(), n, type, value)`: a declaration of the generator's next name
at the end of the local context; `isJoinPoint` is `is_join_point_name(n)`. Returns the new
free variable. -/
def SpecState.mkLocalDecl (st : SpecState) (isJoinPoint : Bool) (type : Expr) (value : Option Expr) :
    Nat × SpecState :=
  (st.ngen, { st with ngen := st.ngen + 1, lctx := st.lctx ++ [⟨st.ngen, isJoinPoint, type, value⟩] })

section MkLocalDecl

variable (st : SpecState) (isJoinPoint : Bool) (type : Expr) (value : Option Expr)

@[simp] theorem SpecState.mkLocalDecl_fst : (st.mkLocalDecl isJoinPoint type value).1 = st.ngen := rfl

@[simp] theorem SpecState.mkLocalDecl_lctx :
    (st.mkLocalDecl isJoinPoint type value).2.lctx = st.lctx ++ [⟨st.ngen, isJoinPoint, type, value⟩] := rfl

@[simp] theorem SpecState.mkLocalDecl_ngen : (st.mkLocalDecl isJoinPoint type value).2.ngen = st.ngen + 1 := rfl

@[simp] theorem SpecState.mkLocalDecl_newDecls : (st.mkLocalDecl isJoinPoint type value).2.newDecls = st.newDecls :=
  rfl

@[simp] theorem SpecState.mkLocalDecl_gcache : (st.mkLocalDecl isJoinPoint type value).2.gcache = st.gcache := rfl

end MkLocalDecl

/-! ## `visit` -/

section Visit

variable (isCasesOn : Nat → Option (Nat × Nat)) (ext : SpecInfoMap) (hasAttr hasNospecialize isInstance : Nat → Bool)
  (stage1 : Nat → Bool → Option Expr) (mkSpecName : Nat → Nat → Nat) (whnf : LocalCtx → Expr → Expr)
  (isConstructorApp : Expr → Bool) (infer : LocalCtx → Expr → Expr) (isIrrelevant : LocalCtx → Expr → Bool)
  (csimp : Expr → Expr) (etaExpand : Nat → Expr → Expr × Nat) (isJoinPointName : Expr → Bool)

/-- The loop of `visit_lambda` over the binders, `fvars` the new variables made so far: each
binder's type, instantiated with them, gets a new local declaration; then the body is visited
by `v` and closed over the new variables by `mk_lambda`. -/
def visitLambda (v : Expr → SpecState → Option (Expr × SpecState)) :
    Expr → List Nat → SpecState → Option (Expr × SpecState)
  | lam d b, fvars, st =>
    match st.mkLocalDecl (isJoinPointName (lam d b)) (d.instantiateRev fvars) none with
    | (x, st) => visitLambda v b (fvars ++ [x]) st
  | e, fvars, st => do
    let (r, st) ← v (e.instantiateRev fvars) st
    let r ← st.lctx.mkLambda fvars r
    pure (r, st)

/-- The loop of `visit_let` over the let-declarations, `fvars` the new variables made so far:
each value, instantiated with them, is visited by `v`, and the let gets a new local declaration
of its instantiated type and the new value; then the body is visited and closed over the new
variables by `mk_lambda`. -/
def visitLet (v : Expr → SpecState → Option (Expr × SpecState)) :
    Expr → List Nat → SpecState → Option (Expr × SpecState)
  | letE t val b, fvars, st => do
    let (val', st') ← v (val.instantiateRev fvars) st
    match st'.mkLocalDecl (isJoinPointName (letE t val b)) (t.instantiateRev fvars) (some val') with
    | (x, st') => visitLet v b (fvars ++ [x]) st'
  | e, fvars, st => do
    let (r, st) ← v (e.instantiateRev fvars) st
    let r ← st.lctx.mkLambda fvars r
    pure (r, st)

/-- `visit_cases_on`: its loop over the minor premises, the arguments at positions `lo` to
`hi - 1`, first to last, each visited by `v`. -/
def visitCasesOn (v : Expr → SpecState → Option (Expr × SpecState)) (lo hi : Nat) :
    Expr → SpecState → Option (Expr × SpecState)
  | app f a, st => do
    let (f', st) ← visitCasesOn v lo hi f st
    if lo ≤ f.getAppNumArgs ∧ f.getAppNumArgs < hi then
      let (a', st) ← v a st
      pure (app f' a', st)
    else pure (app f' a, st)
  | e, st => some (e, st)

/-- `visit_app`: the minor premises of a `casesOn` application visited by `v`; the result of
`specialize`, in a `spec_ctx` of the block in the function's `spec_info` and with `v` as its
visitor, for any other call of a constant that has one, is not `@[nospecialize]`, and is not
an instance without `@[specialize]`; the application unchanged where `specialize` returns
none. -/
def visitApp (v : Expr → SpecState → Option (Expr × SpecState)) (fuel : Nat) (e : Expr) (st : SpecState) :
    Option (Expr × SpecState) :=
  match e.getAppFn with
  | const c u =>
    match isCasesOn c with
    | some (lo, hi) => visitCasesOn v lo hi e st
    | none =>
      if hasNospecialize c || (isInstance c && !hasAttr c) then some (e, st)
      else
        match ext.lookup c with
        | none => some (e, st)
        | some info =>
          match specialize isCasesOn ext hasAttr info.mutualDecls stage1 mkSpecName whnf isConstructorApp infer
              isIrrelevant csimp etaExpand v fuel c u e.getAppArgs st with
          | none => none
          | some (r, st) => some (r.getD e, st)
  | _ => some (e, st)

/-- `visit`: an application by `visit_app`, a lambda or a let by `visit_lambda` or `visit_let`,
which restore the local context on the way out (`flet`), any other expression unchanged. -/
def visit : Nat → Expr → SpecState → Option (Expr × SpecState)
  | 0, _, _ => none
  | fuel + 1, e, st =>
    match e with
    | app .. =>
      visitApp isCasesOn ext hasAttr hasNospecialize isInstance stage1 mkSpecName whnf isConstructorApp infer
        isIrrelevant csimp etaExpand (visit fuel) fuel e st
    | lam .. => (visitLambda isJoinPointName (visit fuel) e [] st).map fun p => (p.1, { p.2 with lctx := st.lctx })
    | letE .. => (visitLet isJoinPointName (visit fuel) e [] st).map fun p => (p.1, { p.2 with lctx := st.lctx })
    | _ => some (e, st)

end Visit

/-! ## The local contexts the binder loops build -/

/-- Specification: the declarations `l` that a binder loop has made at the end of `base`, each
under a name not declared before it, its type and value referring only to `S` and to the
declarations of `l` before it. -/
def Telescope (base : LocalCtx) (S : Nat → Prop) (l : LocalCtx) : Prop :=
  ∀ l₁ d l₂, l = l₁ ++ d :: l₂ → d.fvarId ∉ (base ++ l₁).map LocalDecl.fvarId ∧
    (∀ y ∈ d.type.fvars, S y ∨ y ∈ l₁.map LocalDecl.fvarId) ∧
    ∀ v, d.value = some v → ∀ y ∈ v.fvars, S y ∨ y ∈ l₁.map LocalDecl.fvarId

theorem telescope_nil (base : LocalCtx) (S : Nat → Prop) : Telescope base S [] := fun _ _ _ h => by simp at h

theorem Telescope.push {base l : LocalCtx} {S : Nat → Prop} (h : Telescope base S l) {d : LocalDecl}
    (hd : d.fvarId ∉ (base ++ l).map LocalDecl.fvarId)
    (ht : ∀ y ∈ d.type.fvars, S y ∨ y ∈ l.map LocalDecl.fvarId)
    (hv : ∀ v, d.value = some v → ∀ y ∈ v.fvars, S y ∨ y ∈ l.map LocalDecl.fvarId) :
    Telescope base S (l ++ [d]) := fun l₁ d' l₂ e => by
  rcases append_cons_eq_append_cons e with ⟨B, hB⟩ | ⟨rfl, rfl, rfl⟩ | ⟨A, -, hA⟩
  · exact h l₁ d' B hB
  · exact ⟨hd, ht, hv⟩
  · simp at hA

/-- A telescope over a set closed under the declarations of `base` extends it by its own
variables to a set closed under the declarations of the whole local context. -/
theorem Telescope.depClosed {base l : LocalCtx} {S : Nat → Prop} (ht : Telescope base S l) (hS : base.DepClosed S) :
    (base ++ l).DepClosed fun y => S y ∨ y ∈ l.map LocalDecl.fvarId := by
  intro x d hx hd
  cases hb : base.findDecl x with
  | some d₀ =>
    -- a variable of `base`: no variable of the telescope has its name
    rw [findDecl_append_eq l (by simp [hb]), hb] at hd
    cases hd
    rcases hx with hx | hx
    · exact (hS x _ hx hb).imp (fun h y hy => .inl (h y hy)) fun h w hw y hy => .inl (h w hw y hy)
    · obtain ⟨d', hd', rfl⟩ := List.mem_map.1 hx
      obtain ⟨l₁, l₂, rfl⟩ := List.append_of_mem hd'
      refine absurd ?_ (ht l₁ d' l₂ rfl).1
      rw [List.map_append]
      exact List.mem_append_left _ (List.mem_map.2 ⟨_, List.mem_of_find?_eq_some hb, LocalCtx.fvarId_of_findDecl hb⟩)
  | none =>
    -- a variable of the telescope: its declaration refers to `S` and to those before it
    rw [findDecl_append_of_none l hb] at hd
    obtain ⟨l₁, l₂, rfl⟩ := List.append_of_mem (List.mem_of_find?_eq_some hd)
    obtain ⟨-, hty, hval⟩ := ht l₁ d l₂ rfl
    have hsub : ∀ y, S y ∨ y ∈ l₁.map LocalDecl.fvarId → S y ∨ y ∈ (l₁ ++ d :: l₂).map LocalDecl.fvarId :=
      fun y => Or.imp_right fun hy => by rw [List.map_append]; exact List.mem_append_left _ hy
    exact ⟨fun y hy => hsub y (hty y hy), fun w hw y hy => hsub y (hval w hw y hy)⟩

/-- Code under the binders of a loop, instantiated with its variables, refers to `S` and to
them. -/
theorem fvars_instantiateRev_sub {S : Nat → Prop} {e : Expr} (he : ∀ y ∈ e.fvars, S y) (xs : List Nat) :
    ∀ y ∈ (e.instantiateRev xs).fvars, S y ∨ y ∈ xs := fun _ hy => (mem_fvars_instantiateRevAt hy).imp_left (he _)

/-- A new local declaration that refers only to declared variables keeps the state good. -/
theorem SpecState.Good.mkLocalDecl {st : SpecState} (h : st.Good) (isJoinPoint : Bool) {type : Expr}
    {value : Option Expr} (ht : ∀ y ∈ type.fvars, y ∈ st.lctx.map LocalDecl.fvarId)
    (hv : ∀ v, value = some v → ∀ y ∈ v.fvars, y ∈ st.lctx.map LocalDecl.fvarId) :
    (st.mkLocalDecl isJoinPoint type value).2.Good :=
  h.append (Nat.le_succ _) fun d hd => by
    obtain rfl := List.mem_singleton.1 hd
    exact ⟨Nat.lt_succ_self _, ht, hv⟩

theorem walk_mkLocalDecl (st : SpecState) (isJoinPoint : Bool) (type : Expr) (value : Option Expr) :
    Walk st (st.mkLocalDecl isJoinPoint type value).2 :=
  ⟨Nat.le_succ _, [], by simp, by simp⟩

/-- Specification: the state of a binder loop of `visit` that started from the local context
`base`, for a set `S` of variables declared there and closed under their declarations: the
loop's variables `fvars` are declared, in order, by a telescope at the end of `base`, and the
state is good. -/
structure BinderLoop (base : LocalCtx) (S : Nat → Prop) (fvars : List Nat) (st : SpecState) : Prop where
  closed : base.DepClosed S
  declared : ∀ y, S y → y ∈ base.map LocalDecl.fvarId
  telescope : ∃ l, st.lctx = base ++ l ∧ l.map LocalDecl.fvarId = fvars ∧ Telescope base S l
  good : st.Good

section BinderLoop

variable {base : LocalCtx} {S : Nat → Prop} {fvars : List Nat} {st : SpecState}

theorem binderLoop_start (hg : st.Good) (hS : st.lctx.DepClosed S)
    (hSd : ∀ y, S y → y ∈ st.lctx.map LocalDecl.fvarId) : BinderLoop st.lctx S [] st :=
  ⟨hS, hSd, ⟨[], (List.append_nil _).symm, rfl, telescope_nil _ _⟩, hg⟩

/-- In the loop, `S` and the loop's variables are declared variables, closed under their
declarations. -/
theorem BinderLoop.inner (h : BinderLoop base S fvars st) :
    st.lctx.DepClosed (fun y => S y ∨ y ∈ fvars) ∧ ∀ y, S y ∨ y ∈ fvars → y ∈ st.lctx.map LocalDecl.fvarId := by
  obtain ⟨l, hl, rfl, ht⟩ := h.telescope
  rw [hl, List.map_append]
  exact ⟨ht.depClosed h.closed, fun y hy => List.mem_append.2 (hy.imp_left (h.declared y))⟩

/-- A new local declaration whose type and value refer only to `S` and to the loop's variables
extends the loop by one variable. -/
theorem BinderLoop.mkLocalDecl (h : BinderLoop base S fvars st) (isJoinPoint : Bool) {type : Expr}
    {value : Option Expr} (hty : ∀ y ∈ type.fvars, S y ∨ y ∈ fvars)
    (hval : ∀ v, value = some v → ∀ y ∈ v.fvars, S y ∨ y ∈ fvars) :
    BinderLoop base S (fvars ++ [st.ngen]) (st.mkLocalDecl isJoinPoint type value).2 := by
  have hdecl := h.inner.2
  obtain ⟨l, hl, rfl, ht⟩ := h.telescope
  refine ⟨h.closed, h.declared, ⟨l ++ [⟨st.ngen, isJoinPoint, type, value⟩], by simp [hl], by simp,
    ht.push (hl ▸ h.good.ngen_not_mem) hty hval⟩,
    h.good.mkLocalDecl isJoinPoint (fun y hy => hdecl y (hty y hy)) fun v hv y hy => hdecl y (hval v hv y hy)⟩

/-- A step that restores the local context and steps as `Walk` says keeps the loop's state. -/
theorem BinderLoop.of_walk (h : BinderLoop base S fvars st) {st' : SpecState} (hl : st'.lctx = st.lctx)
    (hw : Walk st st') : BinderLoop base S fvars st' :=
  have ⟨l, e, hf, ht⟩ := h.telescope
  ⟨h.closed, h.declared, ⟨l, hl.trans e, hf, ht⟩, h.good.of_walk hl hw⟩

/-- `mk_lambda` over the loop's variables closes the body over them: the result refers only
to `S`. -/
theorem BinderLoop.fvars_mkLambda (h : BinderLoop base S fvars st) {body code : Expr}
    (hbody : ∀ y ∈ body.fvars, S y ∨ y ∈ fvars) (hm : st.lctx.mkLambda fvars body = some code) :
    ∀ y ∈ code.fvars, S y := by
  obtain ⟨l, hl, rfl, ht⟩ := h.telescope
  rw [hl] at hm
  exact mkLambda_fvars_of_suffix ht hbody hm

end BinderLoop

/-! ## Runs of `visit` -/

/-- A relation between states that holds across every run of `visit`: it is reflexive and
transitive, a new local declaration and the restoring of the local context keep it, and every
call of `specialize` with a visitor whose runs establish it establishes it. -/
structure RunRel (isCasesOn : Nat → Option (Nat × Nat)) (ext : SpecInfoMap) (hasAttr : Nat → Bool)
    (stage1 : Nat → Bool → Option Expr) (mkSpecName : Nat → Nat → Nat) (whnf : LocalCtx → Expr → Expr)
    (isConstructorApp : Expr → Bool) (infer : LocalCtx → Expr → Expr) (isIrrelevant : LocalCtx → Expr → Bool)
    (csimp : Expr → Expr) (etaExpand : Nat → Expr → Expr × Nat) (R : SpecState → SpecState → Prop) : Prop where
  refl : ∀ st, R st st
  trans : ∀ {a b c}, R a b → R b c → R a c
  push : ∀ st isJoinPoint type value, R st (st.mkLocalDecl isJoinPoint type value).2
  restore : ∀ {st st'} (lctx : LocalCtx), R st st' → R st { st' with lctx := lctx }
  call : ∀ {v : Expr → SpecState → Option (Expr × SpecState)} {mutualDecls : List Nat} {fuel c : Nat} {u : Bool}
    {args : List Expr} {st st' : SpecState} {r : Option Expr}, (∀ ⦃e st r st'⦄, v e st = some (r, st') → R st st') →
    specialize isCasesOn ext hasAttr mutualDecls stage1 mkSpecName whnf isConstructorApp infer isIrrelevant csimp
      etaExpand v fuel c u args st = some (r, st') → R st st'

/-- Specification: what `visit` does, as a property of a visitor `v`: every run establishes
`R`, and under the assumptions `P` the visitor meets `VisitWalks`. -/
def VisitSpec (P : Prop) (R : SpecState → SpecState → Prop) (v : Expr → SpecState → Option (Expr × SpecState)) :
    Prop :=
  ∀ ⦃e st r st'⦄, v e st = some (r, st') → R st st' ∧ (P → st.Good → ∀ S : Nat → Prop, st.lctx.DepClosed S →
    (∀ y, S y → y ∈ st.lctx.map LocalDecl.fvarId) → (∀ y ∈ e.fvars, S y) →
      st'.lctx = st.lctx ∧ Walk st st' ∧ ∀ y ∈ r.fvars, S y)

section Spec

variable {isCasesOn : Nat → Option (Nat × Nat)} {ext : SpecInfoMap} {hasAttr hasNospecialize isInstance : Nat → Bool}
  {stage1 : Nat → Bool → Option Expr} {mkSpecName : Nat → Nat → Nat} {whnf : LocalCtx → Expr → Expr}
  {isConstructorApp : Expr → Bool} {infer : LocalCtx → Expr → Expr} {isIrrelevant : LocalCtx → Expr → Bool}
  {csimp : Expr → Expr} {etaExpand : Nat → Expr → Expr × Nat} {isJoinPointName : Expr → Bool}
  {v : Expr → SpecState → Option (Expr × SpecState)} {P : Prop} {R : SpecState → SpecState → Prop}

theorem VisitSpec.rel (h : VisitSpec P R v) : ∀ ⦃e st r st'⦄, v e st = some (r, st') → R st st' :=
  fun _ _ _ _ hrun => (h hrun).1

theorem VisitSpec.walks (h : VisitSpec P R v) (hP : P) : VisitWalks v := fun _ _ _ _ hrun => (h hrun).2 hP

theorem runRel_true :
    RunRel isCasesOn ext hasAttr stage1 mkSpecName whnf isConstructorApp infer isIrrelevant csimp etaExpand
      fun _ _ => True :=
  ⟨fun _ => trivial, fun _ _ => trivial, fun _ _ _ _ => trivial, fun _ _ => trivial, fun _ _ => trivial⟩

theorem runRel_cacheWalk :
    RunRel isCasesOn ext hasAttr stage1 mkSpecName whnf isConstructorApp infer isIrrelevant csimp etaExpand
      CacheWalk :=
  ⟨fun _ => .of_eq rfl rfl, CacheWalk.trans, fun _ _ _ _ => .of_eq rfl rfl, fun _ h => ⟨h.newDecls, h.named⟩,
    fun hv h => specialize_gcache hv h⟩

theorem runRel_nameWalk (hinj : ∀ c i c' i', mkSpecName c i = mkSpecName c' i' → i = i') :
    RunRel isCasesOn ext hasAttr stage1 mkSpecName whnf isConstructorApp infer isIrrelevant csimp etaExpand
      (NameWalk mkSpecName) :=
  ⟨fun _ => .of_eq rfl rfl, NameWalk.trans hinj, fun _ _ _ _ => .of_eq rfl rfl, fun _ h => ⟨h.nextIdx_le, h.added⟩,
    fun hv h => specialize_names hinj hv h⟩

/-- A step that returns the expression and the state unchanged. -/
theorem visitSpec_pure
    (hR : RunRel isCasesOn ext hasAttr stage1 mkSpecName whnf isConstructorApp infer isIrrelevant csimp etaExpand R) :
    VisitSpec P R fun e st => some (e, st) := fun e st r st' h => by
  obtain ⟨rfl, rfl⟩ := Prod.mk.inj (Option.some.inj h)
  exact ⟨hR.refl _, fun _ _ _ _ _ he => ⟨rfl, .refl _, he⟩⟩

theorem visitCasesOn_spec
    (hR : RunRel isCasesOn ext hasAttr stage1 mkSpecName whnf isConstructorApp infer isIrrelevant csimp etaExpand R)
    (hv : VisitSpec P R v) (lo hi : Nat) : VisitSpec P R (visitCasesOn v lo hi) := by
  intro e
  induction e with
  | app f a ihf _ =>
    intro st r st' h
    obtain ⟨⟨f', s⟩, h₁, h⟩ := Option.bind_eq_some.1 h
    obtain ⟨hR₁, hs₁⟩ := ihf h₁
    -- the head's run, under the assumptions
    have hf : P → st.Good → ∀ S : Nat → Prop, st.lctx.DepClosed S → (∀ y, S y → y ∈ st.lctx.map LocalDecl.fvarId) →
        (∀ y ∈ (app f a).fvars, S y) → s.lctx = st.lctx ∧ Walk st s ∧ ∀ y ∈ f'.fvars, S y :=
      fun hP hg S hS hSd he => hs₁ hP hg S hS hSd fun y hy => he y (List.mem_append_left _ hy)
    split_ifs at h
    · obtain ⟨⟨a', s'⟩, h₂, h⟩ := Option.bind_eq_some.1 h
      obtain ⟨hR₂, hs₂⟩ := hv h₂
      cases h
      refine ⟨hR.trans hR₁ hR₂, fun hP hg S hS hSd he => ?_⟩
      obtain ⟨hl₁, hw₁, hr₁⟩ := hf hP hg S hS hSd he
      obtain ⟨hl₂, hw₂, hr₂⟩ := hs₂ hP (hg.of_walk hl₁ hw₁) S (hl₁ ▸ hS) (hl₁ ▸ hSd)
        fun y hy => he y (List.mem_append_right _ hy)
      exact ⟨hl₂.trans hl₁, hw₁.trans hw₂, fun y hy => (List.mem_append.1 hy).elim (hr₁ y) (hr₂ y)⟩
    · cases h
      refine ⟨hR₁, fun hP hg S hS hSd he => ?_⟩
      obtain ⟨hl₁, hw₁, hr₁⟩ := hf hP hg S hS hSd he
      exact ⟨hl₁, hw₁, fun y hy => (List.mem_append.1 hy).elim (hr₁ y) fun hy => he y (List.mem_append_right _ hy)⟩
  | _ => exact fun st r st' h => visitSpec_pure hR h

/-- The end of the binder loops: the body, instantiated with the loop's variables, is visited,
then closed over them by `mk_lambda`. -/
theorem visitBody_spec (hv : VisitSpec P R v) (base : LocalCtx) {e : Expr} {fvars : List Nat} {st st' : SpecState}
    {r : Expr} (h : (do
      let (r, st) ← v (e.instantiateRev fvars) st
      let r ← st.lctx.mkLambda fvars r
      pure (r, st) : Option (Expr × SpecState)) = some (r, st')) :
    R st st' ∧ (P → ∀ S, BinderLoop base S fvars st → (∀ y ∈ e.fvars, S y) →
      Walk st st' ∧ ∀ y ∈ r.fvars, S y) := by
  obtain ⟨⟨r₀, s⟩, h₁, h⟩ := Option.bind_eq_some.1 h
  obtain ⟨r₁, hm, h⟩ := Option.bind_eq_some.1 h
  obtain ⟨rfl, rfl⟩ := Prod.mk.inj (Option.some.inj h)
  refine ⟨(hv h₁).1, fun hP S hb he => ?_⟩
  obtain ⟨hS, hSd⟩ := hb.inner
  obtain ⟨hl₁, hw₁, hr₁⟩ := (hv h₁).2 hP hb.good _ hS hSd (fvars_instantiateRev_sub he fvars)
  exact ⟨hw₁, (hb.of_walk hl₁ hw₁).fvars_mkLambda hr₁ hm⟩

/-- The loop of `visit_lambda` establishes `R`; under the assumptions, in a binder loop over
`base` and a set `S` that holds the free variables of the code, it steps as `Walk` says and
returns code that refers only to `S`. -/
theorem visitLambda_spec
    (hR : RunRel isCasesOn ext hasAttr stage1 mkSpecName whnf isConstructorApp infer isIrrelevant csimp etaExpand R)
    (hv : VisitSpec P R v) (base : LocalCtx) (e : Expr) (fvars : List Nat) (st : SpecState) :
    ∀ {r st'}, visitLambda isJoinPointName v e fvars st = some (r, st') → R st st' ∧
      (P → ∀ S, BinderLoop base S fvars st → (∀ y ∈ e.fvars, S y) → Walk st st' ∧ ∀ y ∈ r.fvars, S y) := by
  induction e, fvars, st using visitLambda.induct isJoinPointName v with
  | case1 d b fvars st x st₁ hmk ih =>
    intro r st' h
    rw [visitLambda.eq_1, hmk] at h
    obtain rfl : st.ngen = x := congrArg Prod.fst hmk
    obtain rfl := congrArg Prod.snd hmk
    obtain ⟨hR₁, hs₁⟩ := ih h
    refine ⟨hR.trans (hR.push _ _ _ _) hR₁, fun hP S hb he => ?_⟩
    -- the binder's type refers to `S` and to the loop's variables
    have hb' := hb.mkLocalDecl (isJoinPointName (lam d b))
      (fvars_instantiateRev_sub (fun y hy => he y (List.mem_append_left _ hy)) fvars)
      fun v (h : none = some v) => nomatch h
    obtain ⟨hw, hr⟩ := hs₁ hP S hb' fun y hy => he y (List.mem_append_right _ hy)
    exact ⟨(walk_mkLocalDecl _ _ _ _).trans hw, hr⟩
  | case2 e fvars st hne =>
    intro r st' h
    rw [visitLambda.eq_2 _ _ _ _ _ hne] at h
    exact visitBody_spec hv base h

/-- The loop of `visit_let`, as `visitLambda_spec`: each value is visited, with the loop's
variables, before its declaration is made. -/
theorem visitLet_spec
    (hR : RunRel isCasesOn ext hasAttr stage1 mkSpecName whnf isConstructorApp infer isIrrelevant csimp etaExpand R)
    (hv : VisitSpec P R v) (base : LocalCtx) (e : Expr) (fvars : List Nat) (st : SpecState) :
    ∀ {r st'}, visitLet isJoinPointName v e fvars st = some (r, st') → R st st' ∧
      (P → ∀ S, BinderLoop base S fvars st → (∀ y ∈ e.fvars, S y) → Walk st st' ∧ ∀ y ∈ r.fvars, S y) := by
  induction e, fvars, st using visitLet.induct isJoinPointName v with
  | case1 t val b fvars st ih =>
    intro r st' h
    rw [visitLet.eq_1] at h
    obtain ⟨⟨val', s⟩, h₁, h⟩ := Option.bind_eq_some.1 h
    obtain ⟨hR₂, hs₂⟩ := ih _ _ h
    refine ⟨hR.trans (hv h₁).1 (hR.trans (hR.push _ _ _ _) hR₂), fun hP S hb he => ?_⟩
    have hsub : ∀ {e' : Expr}, (∀ y ∈ e'.fvars, y ∈ (letE t val b).fvars) →
        ∀ y ∈ (e'.instantiateRev fvars).fvars, S y ∨ y ∈ fvars :=
      fun he' => fvars_instantiateRev_sub (fun y hy => he y (he' y hy)) fvars
    -- the value is visited with `S` and the loop's variables
    obtain ⟨hS, hSd⟩ := hb.inner
    obtain ⟨hl₁, hw₁, hr₁⟩ := (hv h₁).2 hP hb.good _ hS hSd (@hsub val fun y hy => by simp [Expr.fvars, hy])
    have hb' := (hb.of_walk hl₁ hw₁).mkLocalDecl (isJoinPointName (letE t val b))
      (@hsub t fun y hy => by simp [Expr.fvars, hy]) fun v' e => Option.some.inj e ▸ hr₁
    obtain ⟨hw, hr⟩ := hs₂ hP S hb' fun y hy => he y (by simp [Expr.fvars, hy])
    exact ⟨hw₁.trans ((walk_mkLocalDecl _ _ _ _).trans hw), hr⟩
  | case2 e fvars st hne =>
    intro r st' h
    rw [visitLet.eq_2 _ _ _ _ _ hne] at h
    exact visitBody_spec hv base h

/-- `visit_app` of a visitor that meets `VisitSpec` meets it, under `ClosedOracles`: the minor
premises by `visitCasesOn_spec`, a call by `specialize_walk`, whose result refers only to a
set closed under the declarations that holds the call's arguments. -/
theorem visitApp_spec
    (hR : RunRel isCasesOn ext hasAttr stage1 mkSpecName whnf isConstructorApp infer isIrrelevant csimp etaExpand R)
    (hv : VisitSpec (ClosedOracles stage1 infer csimp etaExpand) R v) (fuel : Nat) :
    VisitSpec (ClosedOracles stage1 infer csimp etaExpand) R (visitApp isCasesOn ext hasAttr hasNospecialize
      isInstance stage1 mkSpecName whnf isConstructorApp infer isIrrelevant csimp etaExpand v fuel) := by
  intro e st r st' h
  unfold visitApp at h
  split at h
  · split at h
    · exact visitCasesOn_spec hR hv _ _ h
    · split_ifs at h
      · exact visitSpec_pure hR h
      · split at h
        · exact visitSpec_pure hR h
        · split at h
          · cases h
          · rename_i r₀ s hs
            obtain ⟨rfl, rfl⟩ := Prod.mk.inj (Option.some.inj h)
            refine ⟨hR.call hv.rel hs, fun ho hg S hS _ he => ?_⟩
            obtain ⟨hl, hw, hres⟩ := specialize_walk ho (hv.walks ho) hg hs
            refine ⟨hl, hw, fun y hy => ?_⟩
            cases r₀ with
            | none => exact he y hy
            | some e' => exact hres S hS (fun a ha y hy => he y (mem_fvars_of_mem_getAppArgs ha hy)) e' rfl y hy
  · exact visitSpec_pure hR h

/-- A binder loop started with no variables, after which the local context it started in is
restored (`flet`), meets `VisitSpec` when the loop meets its spec from that context. -/
theorem visitRestore_spec
    (hR : RunRel isCasesOn ext hasAttr stage1 mkSpecName whnf isConstructorApp infer isIrrelevant csimp etaExpand R)
    (loop : Expr → List Nat → SpecState → Option (Expr × SpecState))
    (hloop : ∀ e st {r st'}, loop e [] st = some (r, st') → R st st' ∧
      (P → ∀ S, BinderLoop st.lctx S [] st → (∀ y ∈ e.fvars, S y) → Walk st st' ∧ ∀ y ∈ r.fvars, S y)) :
    VisitSpec P R fun e st => (loop e [] st).map fun p => (p.1, { p.2 with lctx := st.lctx }) :=
  fun e st r st' h => by
    obtain ⟨⟨r₀, s⟩, h₁, h⟩ := Option.map_eq_some'.1 h
    obtain ⟨rfl, rfl⟩ := Prod.mk.inj h
    obtain ⟨hR₁, hs₁⟩ := hloop e st h₁
    refine ⟨hR.restore _ hR₁, fun hP hg S hS hSd he => ?_⟩
    obtain ⟨hw, hr⟩ := hs₁ hP S (binderLoop_start hg hS hSd) he
    exact ⟨rfl, ⟨hw.ngen_le, hw.newDecls⟩, hr⟩

/-- `visit` meets `VisitSpec` at every fuel: an application by `visitApp_spec`, a lambda or a
let by its loop from the local context it starts in, which it restores after the loop. -/
theorem visit_spec
    (hR : RunRel isCasesOn ext hasAttr stage1 mkSpecName whnf isConstructorApp infer isIrrelevant csimp etaExpand R)
    (fuel : Nat) :
    VisitSpec (ClosedOracles stage1 infer csimp etaExpand) R (visit isCasesOn ext hasAttr hasNospecialize isInstance
      stage1 mkSpecName whnf isConstructorApp infer isIrrelevant csimp etaExpand isJoinPointName fuel) := by
  induction fuel with
  | zero => intro e st r st' h; cases h
  | succ fuel ih =>
    intro e st r st' h
    cases e with
    | app f a => exact visitApp_spec hR ih fuel h
    | lam d b => exact visitRestore_spec hR _ (fun e st => visitLambda_spec hR ih st.lctx e [] st) h
    | letE t val b => exact visitRestore_spec hR _ (fun e st => visitLet_spec hR ih st.lctx e [] st) h
    | _ => exact visitSpec_pure hR h

/-- `visit` of code whose free variables are declared returns code whose free variables are
declared: in a well-scoped local context, the declared variables are closed under their
declarations. -/
theorem visit_declared (ho : ClosedOracles stage1 infer csimp etaExpand) {fuel : Nat} {e r : Expr}
    {st st' : SpecState} (hg : st.Good) (he : ∀ y ∈ e.fvars, y ∈ st.lctx.map LocalDecl.fvarId)
    (h : visit isCasesOn ext hasAttr hasNospecialize isInstance stage1 mkSpecName whnf isConstructorApp infer
      isIrrelevant csimp etaExpand isJoinPointName fuel e st = some (r, st')) :
    st'.lctx = st.lctx ∧ Walk st st' ∧ ∀ y ∈ r.fvars, y ∈ st.lctx.map LocalDecl.fvarId :=
  (visit_spec runRel_true fuel).walks ho h hg _ hg.wellScoped.depClosed (fun _ => id) he

end Spec

/-! ## `specialize` adds closed declarations -/

section Closed

variable {isCasesOn : Nat → Option (Nat × Nat)} {ext : SpecInfoMap} {hasAttr hasNospecialize isInstance : Nat → Bool}
  {mutualDecls : List Nat} {stage1 : Nat → Bool → Option Expr} {mkSpecName : Nat → Nat → Nat}
  {whnf : LocalCtx → Expr → Expr} {isConstructorApp : Expr → Bool} {infer : LocalCtx → Expr → Expr}
  {isIrrelevant : LocalCtx → Expr → Bool} {csimp : Expr → Expr} {etaExpand : Nat → Expr → Expr × Nat}
  {isJoinPointName : Expr → Bool}

/-- `lean_assert(!has_fvar(code))` holds at every `mk_new_decl` of a call of `specialize` made
with `visit`, and the code a new declaration gets after it stays closed. In a well-scoped local
context whose names are all below the name generator's, under `ClosedOracles`, every
declaration that `specialize` adds is closed, the specializations that the visits of new code
make included. -/
theorem specialize_newDecls_closed (ho : ClosedOracles stage1 infer csimp etaExpand)
    {fuel fuel' c : Nat} {u : Bool} {args : List Expr} {st st' : SpecState} {r : Option Expr}
    (hw : st.lctx.WellScoped) (hfresh : ∀ d ∈ st.lctx, d.fvarId < st.ngen)
    (h : specialize isCasesOn ext hasAttr mutualDecls stage1 mkSpecName whnf isConstructorApp infer isIrrelevant
      csimp etaExpand (visit isCasesOn ext hasAttr hasNospecialize isInstance stage1 mkSpecName whnf isConstructorApp
        infer isIrrelevant csimp etaExpand isJoinPointName fuel') fuel c u args st = some (r, st')) :
    ∃ ds, st'.newDecls = st.newDecls ++ ds ∧ ∀ d ∈ ds, d.code.hasFVar = false :=
  (specialize_walk ho ((visit_spec runRel_true fuel').walks ho) ⟨hw, hfresh⟩ h).2.1.newDecls

/-- A type `α` and an instance `x : α`. -/
def pairCtx : LocalCtx := [⟨0, false, .sort false, none⟩, ⟨1, false, .fvar 0, none⟩]

/-- The type of a declared free variable. -/
def pairInfer (lctx : LocalCtx) : Expr → Expr
  | .fvar x => ((lctx.findDecl x).map LocalDecl.type).getD (.sort false)
  | _ => .sort false

/-- The type `pairInfer` gives refers to the variables of the declaration's type. -/
theorem pairInfer_typeReach (lctx : LocalCtx) (a : Expr) (y : Nat) (h : y ∈ (pairInfer lctx a).fvars) :
    TypeReach lctx a y := by
  cases a with
  | fvar x =>
    cases hd : lctx.findDecl x with
    | none => simp [pairInfer, hd, fvars] at h
    | some d => exact .type (.fvar (List.mem_singleton_self x)) hd (by simpa [pairInfer, hd] using h)
  | _ => simp [pairInfer, fvars] at h

/-- The oracles of the samples: `swapStage1`, `pairInfer`, and no simplification or
eta-expansion. -/
theorem pairOracles : ClosedOracles swapStage1 pairInfer id fun n e => (e, n) :=
  ⟨swapStage1_closed, pairInfer_typeReach, fun _ h => h, fun _ _ h => ⟨h, le_rfl⟩⟩

def pairState : SpecState := ⟨2, pairCtx, 0, [], []⟩

/-- The specialization of `f` (`1000`) or `g` (`1001`) on `x` twice: over `α` and `x`, the
mask's variables let-bound to `x`, a call of the other's on `α` and `x`. -/
def pairCopy (n : Nat) : Expr :=
  .lam (.sort false) (.lam (.bvar 0) (.letE (.bvar 1) (.bvar 0) (.letE (.bvar 2) (.bvar 1)
    (.app (.app (.const n false) (.bvar 3)) (.bvar 2)))))

/-- `f x x` becomes `f' α x`, with `f'` and `g'` added; the visit of each new code declares its
four binders. -/
def pairResult : SpecState := ⟨12, pairCtx, 2, [], [⟨1001, pairCopy 1000⟩, ⟨1000, pairCopy 1001⟩]⟩

theorem specialize_newDecls_closed_pair :
    ClosedOracles swapStage1 pairInfer id (fun n e => (e, n)) ∧ pairCtx.WellScoped ∧
    (∀ d ∈ pairCtx, d.fvarId < pairState.ngen) ∧
    specialize (fun _ => none) swapExt (fun _ => false) [5, 6] swapStage1 swapName (fun _ e => e) (fun _ => true)
      pairInfer (fun _ _ => false) id (fun n e => (e, n))
      (visit (fun _ => none) swapExt (fun _ => false) (fun _ => false) (fun _ => false) swapStage1 swapName
        (fun _ e => e) (fun _ => true) pairInfer (fun _ _ => false) id (fun n e => (e, n)) (fun _ => false) 5)
      5 5 false [.fvar 1, .fvar 1] pairState =
      some (some (.app (.app (.const 1000 false) (.fvar 0)) (.fvar 1)), pairResult) ∧
    ∃ ds, pairResult.newDecls = pairState.newDecls ++ ds ∧ ∀ d ∈ ds, d.code.hasFVar = false :=
  have hw : pairCtx.WellScoped := ⟨by decide, by decide⟩
  have h : specialize (fun _ => none) swapExt (fun _ => false) [5, 6] swapStage1 swapName (fun _ e => e)
      (fun _ => true) pairInfer (fun _ _ => false) id (fun n e => (e, n))
      (visit (fun _ => none) swapExt (fun _ => false) (fun _ => false) (fun _ => false) swapStage1 swapName
        (fun _ e => e) (fun _ => true) pairInfer (fun _ _ => false) id (fun n e => (e, n)) (fun _ => false) 5)
      5 5 false [.fvar 1, .fvar 1] pairState =
      some (some (.app (.app (.const 1000 false) (.fvar 0)) (.fvar 1)), pairResult) := by decide
  ⟨pairOracles, hw, by decide, h, specialize_newDecls_closed pairOracles hw (by decide) h⟩

end Closed

end Compiler

end Lean4Core
