import Mathlib.Data.List.GetD
import Lean4Core.Compiler.Expr

/-!
# The specializer's global cache

The compiler's `specialize.cpp` (`unnamed/part_003`), lines 48–1073: how `specialize`
decides which arguments of a call it fixes (`to_bool_mask`, `get_bool_mask`), which call is
a candidate (`is_specialize_candidate`), which variables of the local context the
specialized code depends on (`dep_collector`, `specialize_init_deps`), and the key under
which it caches a specialization across declarations and modules (`get_closed`, the
`gcache_key_args` loop).

A cache hit calls the cached function on the context parameters `ctx.m_params` of the
call site. The specialization was built with the context parameters of the site that first
missed the cache, each lambda-abstracted, so a hit is only right when the two sites
have matching context parameters. The key does not record them: it is built from the
closed forms of the fixed arguments, in which every let-variable is replaced by its value.

Main results:
- `specializeInitDeps_eq_mask`: `specialize_init_deps` hands the dependency collector
  exactly the arguments at the positions the mask of `get_bool_mask` sets, last first.
- `isSpecializeCandidate_eq_true`: a candidate has an argument that passes its kind's test,
  and the mask fixes it unless it is higher-order, without `@[specialize]` and with no
  instance after it; `specialize_candidate_unfixed` is such a call.
- `specialize_gcacheKey_params_differ`: two call sites with the same arguments, in local
  contexts with one shared let-variable or two let-variables of the same value, are
  both candidates and get the same cache key, but one context parameter at the first site
  against two at the second.
-/

namespace Lean4Core

namespace Compiler

open Expr

/-- `spec_arg_kind`: how a parameter of a function can be specialized. -/
inductive SpecArgKind where
  | fixed
  /-- computationally neutral -/
  | fixedNeutral
  /-- higher order -/
  | fixedHO
  /-- type class instance -/
  | fixedInst
  | other
  deriving DecidableEq, Repr

/-! ## The mask of fixed arguments -/

/-- The loop of `to_bool_mask`, from position `i - 1` down: instances are always fixed,
higher-order and neutral arguments under `@[specialize]` or once an instance was seen to
their right, and the mask is cut just past the first (rightmost) fixed position. -/
def toBoolMaskAux (kinds : List SpecArgKind) (hasAttr : Bool) :
    Nat → Array Bool → Bool → Bool → Array Bool
  | 0, mask, _, _ => mask
  | i + 1, mask, foundInst, first =>
    match kinds.getD i .other with
    | .fixedInst =>
      let mask := mask.setD i true
      toBoolMaskAux kinds hasAttr i (if first then mask.take (i + 1) else mask) true false
    | .fixedHO | .fixedNeutral =>
      if hasAttr || foundInst then
        let mask := mask.setD i true
        toBoolMaskAux kinds hasAttr i (if first then mask.take (i + 1) else mask) foundInst false
      else toBoolMaskAux kinds hasAttr i mask foundInst first
    | .fixed | .other => toBoolMaskAux kinds hasAttr i mask foundInst first

def toBoolMask (kinds : List SpecArgKind) (hasAttr : Bool) : Array Bool :=
  toBoolMaskAux kinds hasAttr kinds.length (mkArray kinds.length false) false true

/-- `get_bool_mask`: the mask of the kinds of the parameters that the call applies. -/
def getBoolMask (kinds : List SpecArgKind) (argsSize : Nat) (hasAttr : Bool) : Array Bool :=
  toBoolMask (kinds.take argsSize) hasAttr

/-! ## Candidates -/

variable (lctx : LocalCtx)

/-- The loop of `is_specialize_candidate` over the arguments that have a kind. `whnf` and
the constructor test are the type checker's, parameters here. -/
def isSpecializeCandidateAux (whnf : Expr → Expr) (isConstructorApp : Expr → Bool) (fuel : Nat) :
    List (SpecArgKind × Expr) → Option Bool
  | [] => some false
  | (k, a) :: rest =>
    match k with
    | .fixedInst =>
      let w := whnf a
      if isConstructorApp w || w.isLambda then some true
      else isSpecializeCandidateAux whnf isConstructorApp fuel rest
    | .fixedHO => do
      let w ← find lctx fuel a
      if w.isLambda || w.getAppFn.isConst then some true
      else isSpecializeCandidateAux whnf isConstructorApp fuel rest
    | .fixedNeutral | .fixed | .other => isSpecializeCandidateAux whnf isConstructorApp fuel rest

/-- `is_specialize_candidate`: some argument a specialization would fix is worth fixing. -/
def isSpecializeCandidate (whnf : Expr → Expr) (isConstructorApp : Expr → Bool) (fuel : Nat)
    (kinds : List SpecArgKind) (hasAttr : Bool) (args : List Expr) : Option Bool :=
  if !hasAttr && !kinds.contains .fixedInst then some false
  else if !kinds.any (· != .other) then some false
  else isSpecializeCandidateAux lctx whnf isConstructorApp fuel (kinds.zip args)

/-! ## Dependencies -/

/-- The state of a `dep_collector` and the `spec_ctx` fields it fills: the variables the
specialization depends on (`m_vars`) and those it lambda-abstracts (`m_params`). -/
structure DepState where
  visitedNotInBinder : List Nat := []
  visitedInBinder : List Nat := []
  vars : List Nat := []
  params : List Nat := []
  deriving DecidableEq, Repr

/-- The bookkeeping of `collect_fvar` for a variable `x` not yet visited in this position
(under a binder or not): the new state, and the value whose variables are still to be
collected. Outside a binder a variable is abstracted unless it is a let-variable; under a
binder every variable but a join point is abstracted, and its value is not looked into. -/
def markFVar (inBinder : Bool) (x : Nat) (decl : LocalDecl) (st : DepState) : DepState × Option Expr :=
  if !inBinder then
    let st := { st with visitedNotInBinder := x :: st.visitedNotInBinder }
    if x ∈ st.visitedInBinder then (st, decl.value)
    else
      ({ st with vars := st.vars ++ [x],
                 params := if decl.value.isNone then st.params ++ [x] else st.params }, decl.value)
  else
    let st := { st with visitedInBinder := x :: st.visitedInBinder }
    if x ∈ st.visitedNotInBinder then
      if decl.value.isSome && !decl.isJoinPoint then ({ st with params := st.params ++ [x] }, none)
      else (st, decl.value)
    else
      let st := { st with vars := st.vars ++ [x] }
      if decl.value.isNone || !decl.isJoinPoint then ({ st with params := st.params ++ [x] }, none)
      else (st, decl.value)

/-- `dep_collector::collect`, with `collect_fvar` inlined; `none` when the fuel runs out or
a free variable has no declaration. -/
def collect : Nat → Expr → Bool → DepState → Option DepState
  | 0, _, _, _ => none
  | fuel + 1, e, inBinder, st =>
    if !e.hasFVar then some st else
    match e with
    | fvar x =>
      if x ∈ (if inBinder then st.visitedInBinder else st.visitedNotInBinder) then some st
      else do
        let decl ← lctx.findDecl x
        let (st, v) := markFVar inBinder x decl st
        let st ← collect fuel decl.type inBinder st
        match v with
        | some v => collect fuel v inBinder st
        | none => some st
    | app f a => (collect fuel a inBinder st).bind (collect fuel f inBinder)
    | lam d b | forallE d b => (collect fuel d inBinder st).bind (collect fuel b true)
    | letE t v b =>
      ((collect fuel t inBinder st).bind (collect fuel v inBinder)).bind (collect fuel b inBinder)
    | mdata e | proj _ e => collect fuel e inBinder st
    | bvar _ | sort _ | const _ _ | lit _ => some st

/-- The loop of `specialize_init_deps`, over the arguments that have a kind, last first. -/
def specializeInitDepsAux (fuel : Nat) (hasAttr : Bool) :
    List (SpecArgKind × Expr) → Bool → DepState → Option DepState
  | [], _, st => some st
  | (k, a) :: rest, foundInst, st =>
    match k with
    | .fixedInst => (collect lctx fuel a false st).bind (specializeInitDepsAux fuel hasAttr rest true)
    | .fixedHO | .fixedNeutral =>
      if hasAttr || foundInst then
        (collect lctx fuel a false st).bind (specializeInitDepsAux fuel hasAttr rest foundInst)
      else specializeInitDepsAux fuel hasAttr rest foundInst st
    | .fixed | .other => specializeInitDepsAux fuel hasAttr rest foundInst st

/-- The fields of `spec_ctx` that `specialize_init_deps` fills. -/
structure SpecCtx where
  vars : List Nat
  params : List Nat
  deriving DecidableEq, Repr

/-- `specialize_init_deps`: collect the dependencies of the arguments a specialization
fixes, then sort both lists in the order of the local context. -/
def specializeInitDeps (fuel : Nat) (kinds : List SpecArgKind) (hasAttr : Bool) (args : List Expr) :
    Option SpecCtx :=
  (specializeInitDepsAux lctx fuel hasAttr (kinds.zip args).reverse false {}).map fun st =>
    { vars := lctx.sortFVars st.vars, params := lctx.sortFVars st.params }

/-- `expr()`, which the key holds at a position the mask does not fix. -/
def placeholder : Expr := .bvar 0

/-! ## The mask and the dependencies agree

`to_bool_mask` and `specialize_init_deps` are two loops, from the last kind down, that each
decide which positions a specialization fixes; `fixedAt` is the decision both make. -/

/-- Whether position `i` of `kinds` is fixed, when `foundInst` says that an instance comes
after the kinds: an instance always; a higher-order or neutral parameter under
`@[specialize]` or when an instance comes after it. -/
def fixedAt (kinds : List SpecArgKind) (hasAttr foundInst : Bool) (i : Nat) : Bool :=
  match kinds.getD i .other with
  | .fixedInst => true
  | .fixedHO | .fixedNeutral => hasAttr || foundInst || (kinds.drop (i + 1)).contains .fixedInst
  | .fixed | .other => false

theorem fixedAt_of_length_le {kinds : List SpecArgKind} {i : Nat} (h : kinds.length ≤ i)
    (hasAttr foundInst : Bool) : fixedAt kinds hasAttr foundInst i = false := by
  rw [fixedAt, List.getD_eq_default _ _ h]

theorem contains_drop_fixedInst {kinds : List SpecArgKind} {i : Nat} (h : i < kinds.length) :
    (kinds.drop i).contains .fixedInst =
      (.fixedInst == kinds.getD i .other || (kinds.drop (i + 1)).contains .fixedInst) := by
  rw [List.drop_eq_getElem_cons h, List.contains_cons, List.getD_eq_getElem _ _ h]

/-- What the loop of `to_bool_mask` knows before it looks at position `i - 1`: whether an
instance comes at `i` or later, that while `first` holds no position from `i` on is fixed,
and that the mask is set exactly at the fixed positions from `i` on. -/
structure MaskInv (kinds : List SpecArgKind) (hasAttr : Bool) (i : Nat) (mask : Array Bool)
    (foundInst first : Bool) : Prop where
  le_length : i ≤ kinds.length
  le_size : i ≤ mask.size
  foundInst : foundInst = (kinds.drop i).contains .fixedInst
  first : first = true → ∀ j, i ≤ j → fixedAt kinds hasAttr false j = false
  getD : ∀ j, mask.getD j false = (decide (i ≤ j) && fixedAt kinds hasAttr false j)

variable {kinds : List SpecArgKind} {hasAttr : Bool}

theorem maskInv_init (kinds : List SpecArgKind) (hasAttr : Bool) :
    MaskInv kinds hasAttr kinds.length (mkArray kinds.length false) false true where
  le_length := le_rfl
  le_size := by simp
  foundInst := by simp
  first _ j hj := fixedAt_of_length_le hj _ _
  getD j := by
    by_cases hj : kinds.length ≤ j
    · simp [Array.getD, fixedAt_of_length_le hj]
    · simp [Array.getD, hj]

/-- A position the loop does not fix leaves its state as it is. -/
theorem MaskInv.skip {i : Nat} {mask : Array Bool} {fi first : Bool}
    (h : MaskInv kinds hasAttr (i + 1) mask fi first) (hk : kinds.getD i .other ≠ .fixedInst)
    (hf : fixedAt kinds hasAttr false i = false) : MaskInv kinds hasAttr i mask fi first where
  le_length := by have := h.le_length; omega
  le_size := by have := h.le_size; omega
  foundInst := by
    rw [contains_drop_fixedInst (by have := h.le_length; omega), ← h.foundInst,
      beq_eq_false_iff_ne.2 (Ne.symm hk), Bool.false_or]
  first hf' j hj := by
    rcases Nat.eq_or_lt_of_le hj with rfl | hj
    exacts [hf, h.first hf' j hj]
  getD j := by
    rw [h.getD j]
    rcases Nat.lt_trichotomy j i with hj | rfl | hj
    · simp [show ¬ i + 1 ≤ j by omega, show ¬ i ≤ j by omega]
    · simp [hf]
    · simp [show i + 1 ≤ j by omega, show i ≤ j by omega]

/-- A position the loop fixes is set, and the first one also cuts the mask just past it. -/
theorem MaskInv.mark {i : Nat} {mask : Array Bool} {fi fi' first : Bool}
    (h : MaskInv kinds hasAttr (i + 1) mask fi first) (hf : fixedAt kinds hasAttr false i = true)
    (hfi : fi' = (kinds.drop i).contains .fixedInst) :
    MaskInv kinds hasAttr i (if first then (mask.setD i true).take (i + 1) else mask.setD i true)
      fi' false where
  le_length := by have := h.le_length; omega
  le_size := by have := h.le_size; split <;> simp <;> omega
  foundInst := hfi
  first := nofun
  getD j := by
    have hsize := h.le_size
    have hj := h.getD j
    have hsetD : (mask.setD i true).getD j false = (decide (i ≤ j) && fixedAt kinds hasAttr false j) := by
      rw [getD_setD, hj]
      rcases Nat.lt_trichotomy j i with hj | rfl | hj
      · simp [show ¬ i + 1 ≤ j by omega, show ¬ i ≤ j by omega, show i ≠ j by omega]
      · simp [hf, show j < mask.size by omega]
      · simp [show i + 1 ≤ j by omega, show i ≤ j by omega, show i ≠ j by omega]
    split
    · rw [getD_take]
      split
      · exact hsetD
      · rw [h.first ‹_› j (by omega)]; simp
    · exact hsetD

/-- The mask `to_bool_mask` computes is set exactly at the fixed positions. -/
theorem getD_toBoolMaskAux :
    ∀ (i : Nat) (mask : Array Bool) (fi first : Bool), MaskInv kinds hasAttr i mask fi first →
      ∀ j, (toBoolMaskAux kinds hasAttr i mask fi first).getD j false = fixedAt kinds hasAttr false j
  | 0, mask, _, _, h, j => by simpa [toBoolMaskAux] using h.getD j
  | i + 1, mask, fi, first, h, j => by
    have hi : i < kinds.length := h.le_length
    have hfi := h.foundInst
    have hdrop := contains_drop_fixedInst hi
    cases hk : kinds.getD i .other with
    | fixedInst =>
      simp only [toBoolMaskAux, hk]
      exact getD_toBoolMaskAux i _ _ _ (h.mark (by rw [fixedAt, hk]) (by rw [hdrop, hk]; rfl)) j
    | fixedHO | fixedNeutral =>
      have hf : fixedAt kinds hasAttr false i = (hasAttr || fi) := by rw [fixedAt, hk, hfi]; simp
      simp only [toBoolMaskAux, hk]
      split
      · exact getD_toBoolMaskAux i _ _ _ (h.mark (hf.trans ‹_›) (by rw [hdrop, hk, ← hfi]; rfl)) j
      · exact getD_toBoolMaskAux i _ _ _
          (h.skip (by rw [hk]; nofun) (hf.trans (Bool.eq_false_iff.2 ‹_›))) j
    | fixed | other =>
      simp only [toBoolMaskAux, hk]
      exact getD_toBoolMaskAux i _ _ _ (h.skip (by rw [hk]; nofun) (by rw [fixedAt, hk])) j

theorem getD_toBoolMask (kinds : List SpecArgKind) (hasAttr : Bool) (j : Nat) :
    (toBoolMask kinds hasAttr).getD j false = fixedAt kinds hasAttr false j :=
  getD_toBoolMaskAux _ _ _ _ (maskInv_init kinds hasAttr) j

theorem size_toBoolMaskAux_le : ∀ (i : Nat) (mask : Array Bool) (fi first : Bool),
    (toBoolMaskAux kinds hasAttr i mask fi first).size ≤ mask.size
  | 0, _, _, _ => le_rfl
  | i + 1, mask, fi, first => by
    have hmark : ∀ fi', (toBoolMaskAux kinds hasAttr i
        (if first then (mask.setD i true).take (i + 1) else mask.setD i true) fi' false).size ≤
        mask.size := fun fi' => (size_toBoolMaskAux_le i _ _ _).trans (by split <;> simp)
    cases hk : kinds.getD i .other <;> simp only [toBoolMaskAux, hk] <;>
      first
      | exact hmark _
      | exact size_toBoolMaskAux_le i _ _ _
      | split <;> first | exact hmark _ | exact size_toBoolMaskAux_le i _ _ _

/-- One more kind at the end only tells the positions before it whether an instance comes
after them. -/
theorem fixedAt_append_singleton (ks : List SpecArgKind) (k : SpecArgKind) (hasAttr fi : Bool)
    {j : Nat} (hj : j < ks.length) :
    fixedAt (ks ++ [k]) hasAttr fi j = fixedAt ks hasAttr (fi || decide (k = .fixedInst)) j := by
  rw [fixedAt, fixedAt, List.getD_append _ _ _ _ hj, List.drop_append_of_le_length hj]
  cases ks.getD j .other <;> cases k <;> simp

theorem fixedAt_length_append (ks : List SpecArgKind) (k : SpecArgKind) (hasAttr fi : Bool) :
    fixedAt (ks ++ [k]) hasAttr fi ks.length = fixedAt [k] hasAttr fi 0 := by
  cases k <;> simp [fixedAt]

/-- The loop of `specialize_init_deps`, over the arguments last first, hands the collector
the argument at every fixed position, from the last to the first. -/
theorem specializeInitDepsAux_eq (arg : Nat → Expr) (fuel : Nat) (hasAttr : Bool)
    (l : List (SpecArgKind × Expr)) (harg : ∀ i (h : i < l.length), (l.get ⟨i, h⟩).2 = arg i)
    (fi : Bool) (st : DepState) :
    specializeInitDepsAux lctx fuel hasAttr l.reverse fi st =
      ((List.range l.length).reverse.filter (fixedAt (l.map Prod.fst) hasAttr fi)).foldlM
        (fun st i => collect lctx fuel (arg i) false st) st := by
  induction l using List.reverseRecOn generalizing fi st with
  | nil => rfl
  | append_singleton l x ih =>
    obtain ⟨k, a⟩ := x
    obtain rfl : a = arg l.length := by simpa using harg l.length (by simp)
    have ih' := ih (fun i h => by simpa [List.getElem_append_left h] using harg i (by simp; omega))
    have hrest : ∀ fi, (List.range l.length).reverse.filter (fixedAt (l.map Prod.fst ++ [k]) hasAttr fi) =
        (List.range l.length).reverse.filter (fixedAt (l.map Prod.fst) hasAttr (fi || decide (k = .fixedInst))) :=
      fun fi => List.filter_congr fun j hj =>
        fixedAt_append_singleton _ k hasAttr fi (by simpa using hj)
    have hlast : fixedAt (l.map Prod.fst ++ [k]) hasAttr fi l.length = fixedAt [k] hasAttr fi 0 := by
      simpa using fixedAt_length_append (l.map Prod.fst) k hasAttr fi
    simp only [List.map_append, List.map_cons, List.map_nil, List.reverse_append, List.reverse_cons,
      List.reverse_nil, List.nil_append, List.singleton_append, List.length_append,
      List.length_singleton, List.range_succ, List.filter_cons, hrest, hlast]
    cases k <;> simp [specializeInitDepsAux, fixedAt, ih'] <;>
      by_cases hc : hasAttr = true ∨ fi = true <;> simp [hc]

/-- Specialization mask and dependency collection agree: `specialize_init_deps` hands the
dependency collector exactly the arguments at the positions where the mask of
`get_bool_mask` is set, from the last to the first, so the variables a specialization
abstracts or let-binds are those of the arguments it fixes. -/
theorem specializeInitDeps_eq_mask (fuel : Nat) (kinds : List SpecArgKind) (hasAttr : Bool)
    (args : List Expr) :
    specializeInitDeps lctx fuel kinds hasAttr args =
      (((List.range (getBoolMask kinds args.length hasAttr).size).reverse.filter
          ((getBoolMask kinds args.length hasAttr).getD · false)).foldlM
        (fun st i => collect lctx fuel (args.getD i placeholder) false st) {}).map fun st =>
          { vars := lctx.sortFVars st.vars, params := lctx.sortFVars st.params } := by
  have hsize : (getBoolMask kinds args.length hasAttr).size ≤ (kinds.zip args).length := by
    refine (size_toBoolMaskAux_le _ _ _ _).trans ?_
    simp [Nat.min_comm]
  rw [specializeInitDeps, specializeInitDepsAux_eq lctx (args.getD · placeholder) fuel hasAttr _
    (fun i h => by dsimp only; rw [List.getD_eq_getElem _ _ (List.lt_length_right_of_zip h)]; simp),
    ← filter_range_getD _ hsize, map_fst_zip_eq_take]
  congr 2
  exact List.filter_congr fun j _ => (getD_toBoolMask _ _ j).symm

/-! ## Candidates and the mask -/

/-- The test `is_specialize_candidate` applies to an argument of the kinds it looks at: an
instance whose weak head normal form is a constructor application or a lambda, or a
higher-order argument that resolves, through let-values and metadata, to a lambda or an
application of a constant. -/
def candidateArg (whnf : Expr → Expr) (isConstructorApp : Expr → Bool) (fuel : Nat) :
    SpecArgKind × Expr → Bool
  | (.fixedInst, a) => isConstructorApp (whnf a) || (whnf a).isLambda
  | (.fixedHO, a) =>
    match find lctx fuel a with
    | some w => w.isLambda || w.getAppFn.isConst
    | none => false
  | _ => false

/-- The loop of `is_specialize_candidate` answers yes only at an argument that passes its
test. -/
theorem isSpecializeCandidateAux_eq_true {whnf : Expr → Expr} {isConstructorApp : Expr → Bool}
    {fuel : Nat} : ∀ {l : List (SpecArgKind × Expr)},
    isSpecializeCandidateAux lctx whnf isConstructorApp fuel l = some true →
      ∃ i, i < l.length ∧
        candidateArg lctx whnf isConstructorApp fuel (l.getD i (.other, placeholder)) = true
  | [], h => by simp [isSpecializeCandidateAux] at h
  | (k, a) :: rest, h => by
    have later : isSpecializeCandidateAux lctx whnf isConstructorApp fuel rest = some true →
        ∃ i, i < ((k, a) :: rest).length ∧ candidateArg lctx whnf isConstructorApp fuel
          (((k, a) :: rest).getD i (.other, placeholder)) = true := fun h' =>
      let ⟨i, hi, hc⟩ := isSpecializeCandidateAux_eq_true h'
      ⟨i + 1, by simpa using hi, by simpa using hc⟩
    cases k with
    | fixedInst =>
      simp only [isSpecializeCandidateAux] at h
      split at h
      · rename_i hc
        exact ⟨0, by simp, by simpa [candidateArg] using hc⟩
      · exact later h
    | fixedHO =>
      simp only [isSpecializeCandidateAux] at h
      cases hw : find lctx fuel a with
      | none => simp [hw] at h
      | some w =>
        simp only [hw, Option.bind_eq_bind, Option.some_bind] at h
        split at h
        · rename_i hc
          exact ⟨0, by simp, by simpa [candidateArg, hw] using hc⟩
        · exact later h
    | fixedNeutral | fixed | other => exact later h

/-- A call is a candidate only through an argument that passes the test of its kind, and
the mask fixes that argument unless it is higher-order, the function has no
`@[specialize]`, and no instance parameter comes after it. -/
theorem isSpecializeCandidate_eq_true {whnf : Expr → Expr} {isConstructorApp : Expr → Bool}
    {fuel : Nat} {kinds : List SpecArgKind} {hasAttr : Bool} {args : List Expr}
    (h : isSpecializeCandidate lctx whnf isConstructorApp fuel kinds hasAttr args = some true) :
    ∃ i, i < (kinds.zip args).length ∧
      candidateArg lctx whnf isConstructorApp fuel ((kinds.zip args).getD i (.other, placeholder)) = true ∧
      ((getBoolMask kinds args.length hasAttr).getD i false = true ∨
        (kinds.getD i .other = .fixedHO ∧ hasAttr = false ∧
          .fixedInst ∉ (kinds.take args.length).drop (i + 1))) := by
  simp only [isSpecializeCandidate] at h
  split at h
  · cases h
  split at h
  · cases h
  obtain ⟨i, hi, hc⟩ := isSpecializeCandidateAux_eq_true lctx h
  have hik : i < kinds.length := List.lt_length_left_of_zip hi
  have hia : i < args.length := List.lt_length_right_of_zip hi
  have hget : (kinds.zip args).getD i (.other, placeholder) = (kinds.getD i .other, args.getD i placeholder) := by
    rw [List.getD_eq_getElem _ _ hi, List.getD_eq_getElem _ _ hik, List.getD_eq_getElem _ _ hia,
      List.getElem_zip]
  have hmask : (getBoolMask kinds args.length hasAttr).getD i false =
      fixedAt (kinds.take args.length) hasAttr false i := getD_toBoolMask _ _ _
  have htake : (kinds.take args.length).getD i .other = kinds.getD i .other := by
    simp [List.getElem?_take, hia]
  refine ⟨i, hi, hc, ?_⟩
  rw [hmask, fixedAt, htake]
  rw [hget] at hc
  cases hk : kinds.getD i .other <;> simp only [hk, candidateArg] at hc ⊢
  · cases hc
  · cases hc
  · by_cases hfix : (hasAttr || false || ((kinds.take args.length).drop (i + 1)).contains .fixedInst) = true
    · exact .inl hfix
    · right
      simp only [Bool.or_false, Bool.or_eq_true, not_or, Bool.not_eq_true] at hfix
      exact ⟨trivial, hfix.1, by simpa using hfix.2⟩
  · exact .inl trivial
  · cases hc

/-- `foo [inst : C α] (f : α → α)`: its kinds are an instance, then a higher-order
parameter, and `foo` has no `@[specialize]`. -/
def instThenHO : List SpecArgKind := [.fixedInst, .fixedHO]

/-- A context with an instance variable `inst` without value, the free variable `0`. -/
def instVarCtx : LocalCtx := [⟨0, false, .const 20 false, none⟩]

/-- The candidate test and the mask disagree. The call `foo inst (fun x => x)` is a
candidate because its lambda argument passes the higher-order test; but the mask fixes
only the instance position, since no instance comes after the lambda and `foo` has no
`@[specialize]`, and the instance variable does not pass the instance test: its weak head
normal form is itself. No position the mask fixes holds an argument that made the call a
candidate. -/
theorem specialize_candidate_unfixed :
    isSpecializeCandidate instVarCtx id (fun _ => false) 1 instThenHO false
      [.fvar 0, .lam (.const 20 false) (.bvar 0)] = some true ∧
    getBoolMask instThenHO 2 false = #[true] ∧
    ¬ ∃ i, i < (getBoolMask instThenHO 2 false).size ∧
      (getBoolMask instThenHO 2 false).getD i false = true ∧
      candidateArg instVarCtx id (fun _ => false) 1
        ((instThenHO.zip [.fvar 0, .lam (.const 20 false) (.bvar 0)]).getD i (.other, placeholder)) = true :=
  ⟨rfl, by decide, by decide⟩

/-! ## The cache key -/

/-- The loop building `gcache_key_args` over the masked positions: the closed form of each
fixed argument and the placeholder elsewhere; `some none` once a fixed argument is not
closed, after which the source stops computing closed forms. -/
def gcacheKeyArgs (fuel : Nat) : List (Bool × Expr) → Option (Option (List Expr))
  | [] => some (some [])
  | (true, a) :: rest =>
    match getClosed lctx fuel a with
    | none => none
    | some none => some none
    | some (some c) => (gcacheKeyArgs fuel rest).map (·.map (c :: ·))
  | (false, _) :: rest => (gcacheKeyArgs fuel rest).map (·.map (placeholder :: ·))

/-- The key of the global specialization cache, `mk_app(fn, gcache_key_args)`, when every
fixed argument is closed. -/
def gcacheKey (fuel : Nat) (fn : Expr) (bmask : Array Bool) (args : List Expr) : Option (Option Expr) :=
  (gcacheKeyArgs lctx fuel (bmask.toList.zip args)).map (·.map fn.mkAppN)

/-! ## Two sites with one key -/

/-- `let w := f 0; let g := fun z => k w w z`, with `w`, `g` the free variables `1`, `3`. -/
def sharedCtx : LocalCtx :=
  [⟨1, false, .const 0 false, some (.app (.const 12 false) (.lit 0))⟩,
   ⟨3, false, .const 0 false, some (.lam (.const 0 false)
      (.app (.app (.app (.const 11 false) (.fvar 1)) (.fvar 1)) (.bvar 0)))⟩]

/-- `let w₁ := f 0; let w₂ := f 0; let g := fun z => k w₁ w₂ z`, with `w₁`, `w₂`, `g` the
free variables `1`, `2`, `3`. -/
def duplicatedCtx : LocalCtx :=
  [⟨1, false, .const 0 false, some (.app (.const 12 false) (.lit 0))⟩,
   ⟨2, false, .const 0 false, some (.app (.const 12 false) (.lit 0))⟩,
   ⟨3, false, .const 0 false, some (.lam (.const 0 false)
      (.app (.app (.app (.const 11 false) (.fvar 1)) (.fvar 2)) (.bvar 0)))⟩]

/-- The global cache does not determine the context parameters. A call `F g` of a function
`F` marked `@[specialize]` whose one parameter is higher-order is a candidate in both
contexts and gets the same key `F (fun z => k (f 0) (f 0) z)` in both. But `g`'s body uses
one let-variable under its binder at the first site and two at the second, so the
specialization lambda-abstracts one context parameter at the first site and two at the
second. Whichever site misses the cache first, the hit at the other calls the cached
function on the wrong number of context arguments. -/
theorem specialize_gcacheKey_params_differ :
    (∀ whnf isConstructorApp,
      isSpecializeCandidate sharedCtx whnf isConstructorApp 16 [.fixedHO] true [.fvar 3] = some true ∧
      isSpecializeCandidate duplicatedCtx whnf isConstructorApp 16 [.fixedHO] true [.fvar 3] =
        some true) ∧
    gcacheKey sharedCtx 16 (.const 10 false) (getBoolMask [.fixedHO] 1 true) [.fvar 3] =
      some (some (.app (.const 10 false) (.lam (.const 0 false) (.app (.app (.app (.const 11 false)
        (.app (.const 12 false) (.lit 0))) (.app (.const 12 false) (.lit 0))) (.bvar 0))))) ∧
    gcacheKey duplicatedCtx 16 (.const 10 false) (getBoolMask [.fixedHO] 1 true) [.fvar 3] =
      gcacheKey sharedCtx 16 (.const 10 false) (getBoolMask [.fixedHO] 1 true) [.fvar 3] ∧
    (specializeInitDeps sharedCtx 16 [.fixedHO] true [.fvar 3]).map (·.params) = some [1] ∧
    (specializeInitDeps duplicatedCtx 16 [.fixedHO] true [.fvar 3]).map (·.params) = some [1, 2] :=
  ⟨fun _ _ => ⟨rfl, rfl⟩, by decide, by decide, by decide, by decide⟩

end Compiler

end Lean4Core
