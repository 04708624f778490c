import Lean4Core.Compiler.SpecPreprocess

/-!
# `specialize` and `mk_new_decl`

`specialize` (`specialize.cpp`, `unnamed/part_003`, lines 1010–1073) joins the pieces of the
earlier modules for one call `f args`: the candidate test, the dependencies of the fixed
arguments (`specialize_init_deps`), a mask of new free variables for the fixed positions,
the lookup in the global cache and, on a miss, `spec_preprocess` and `mk_new_decl`
(lines 909–956) for each pre-declaration. `mk_new_decl` binds the mask's variables around the
copied code, as let-variables of the arguments or by substituting an argument whose type is
irrelevant, closes the code over the `spec_ctx` with `abstract_spec_ctx`, and asserts that no
free variable is left. It then eta-expands the code (`eta_expand_specialization`, lines
839–873), simplifies it with `csimp` and visits it, in the local context that holds the
let-variables, before it pushes the declaration to `m_new_decls`: the code of a new
specialization is specialized in turn, and the declarations that visit makes come first.

The specializer's `visit` is a parameter `v` of `specialize` here; `SpecVisit` passes `visit`
itself. The type checker's answers (`whnf`, `infer`, `is_irrelevant_type`, the constructor
test), `csimp` and `eta_expand_specialization` are parameters, each given what it reads of the
state: the local context for the type checker, the name generator for the eta-expansion, which
returns it advanced. They stand for one environment, which holds the meta axiom `mk_new_decl`
adds for each new name so that the type checker and `csimp` can type its applications.

Main results:
- `mkNewDeclCode_closed`: `lean_assert(!has_fvar(code))` in `mk_new_decl` holds, for the
  contexts and copies that `specialize` hands it;
- `specialize_walk`: from a good state, with a visitor that keeps closed code closed and the
  local context as it found it (`VisitWalks`), a call of `specialize` restores the local
  context, only advances the name generator, and adds only closed declarations, those of the
  nested visits included;
- `specialize_gcache`: the entry a miss adds to the global cache names a declaration added.
-/

namespace Lean4Core

namespace Compiler

open Expr

/-! ## The state -/

/-- What `specialize` reads and changes: the name generator, `m_lctx`, `m_next_idx`, the
global cache `m_ext.m_cache` (latest entry first) and `m_new_decls`. -/
structure SpecState where
  ngen : Nat
  lctx : LocalCtx
  nextIdx : Nat
  gcache : List (Expr × Nat)
  newDecls : List CompDecl
  deriving DecidableEq, Repr

/-! ## `mk_new_decl` -/

/-- The loop of `mk_new_decl` over the mask's free variables and their values: a variable
whose inferred type `is_irrelevant_type` finds irrelevant is replaced in the code by its
value (`replace_fvar`), any other becomes a let-declaration `_y_i` of that type and value at
the end of the local context. `infer` is the type checker made before the loop. Returns the
code, the let-variables and the local context. -/
def bindMaskFVars (infer : Expr → Expr) (isIrrelevant : LocalCtx → Expr → Bool) :
    List (Nat × Expr) → Expr → List Nat → LocalCtx → Expr × List Nat × LocalCtx
  | [], code, lets, lctx => (code, lets, lctx)
  | (x, v) :: ps, code, lets, lctx =>
    if isIrrelevant lctx (infer v) then bindMaskFVars infer isIrrelevant ps (code.replaceFVar x v) lets lctx
    else bindMaskFVars infer isIrrelevant ps code (lets ++ [x]) (lctx ++ [⟨x, false, infer v, some v⟩])

/-- `mk_new_decl` up to `lean_assert(!has_fvar(code))`: the code of a pre-declaration with the
mask's variables `fvars` bound to their values `fvarVals`, by let-declarations (`mk_lambda`
over them) or by substitution, then closed over the `spec_ctx` by `abstract_spec_ctx` in the
local context that holds the let-declarations. Returns the code and that local context, in
which the rest of `mk_new_decl` runs; `none` where `get_local_decl` throws. -/
def mkNewDeclCode (infer : LocalCtx → Expr → Expr) (isIrrelevant : LocalCtx → Expr → Bool) (lctx : LocalCtx)
    (ctx : SpecCtx) (fvars : List Nat) (fvarVals : List Expr) (code : Expr) : Option (Expr × LocalCtx) :=
  match bindMaskFVars (infer lctx) isIrrelevant (fvars.zip fvarVals) code [] lctx with
  | (code, lets, lctx) => do
    let code ← lctx.mkLambda lets code
    let code ← abstractSpecCtx lctx ctx code
    pure (code, lctx)

section MkNewDecl

variable (infer : LocalCtx → Expr → Expr) (isIrrelevant : LocalCtx → Expr → Bool) (csimp : Expr → Expr)
  (etaExpand : Nat → Expr → Expr × Nat)

/-- `mk_new_decl`: the code at the assertion, eta-expanded by `eta_expand_specialization`
(which takes the names of its binders from the name generator and returns it advanced),
simplified by `csimp` and visited by `v`, in the local context that holds the
let-declarations; `flet` restores `m_lctx` afterwards, and the declaration joins
`m_new_decls` after those the visit adds. -/
def mkNewDecl (v : Expr → SpecState → Option (Expr × SpecState)) (ctx : SpecCtx) (fvars : List Nat)
    (fvarVals : List Expr) (d : CompDecl) (st : SpecState) : Option SpecState := do
  let (code, lctx) ← mkNewDeclCode infer isIrrelevant st.lctx ctx fvars fvarVals d.code
  let (code, ngen) := etaExpand st.ngen code
  let (code, st') ← v (csimp code) { st with ngen := ngen, lctx := lctx }
  pure { st' with lctx := st.lctx, newDecls := st'.newDecls ++ [⟨d.name, code⟩] }

/-- The loop of `specialize` over `m_pre_decls`: `mk_new_decl` of each, in order. -/
def mkNewDecls (v : Expr → SpecState → Option (Expr × SpecState)) (ctx : SpecCtx) (fvars : List Nat)
    (fvarVals : List Expr) : List CompDecl → SpecState → Option SpecState
  | [], st => some st
  | d :: ds, st => do
    let st ← mkNewDecl infer isIrrelevant csimp etaExpand v ctx fvars fvarVals d st
    mkNewDecls v ctx fvars fvarVals ds st

end MkNewDecl

/-! ## `specialize` -/

/-- The loop of `specialize` over the mask of `get_bool_mask`: a fixed position gets the next
name of the name generator as a new free variable, whose value is the argument; the mask holds
it there and `none` elsewhere. Returns the mask, the new variables and their values. -/
def mkSpecMask : List (Bool × Expr) → Nat → List (Option Expr) × List Nat × List Expr
  | [], _ => ([], [], [])
  | (true, a) :: ps, n =>
    match mkSpecMask ps (n + 1) with
    | (mask, fvars, vals) => (some (fvar n) :: mask, n :: fvars, a :: vals)
  | (false, _) :: ps, n =>
    match mkSpecMask ps n with
    | (mask, fvars, vals) => (none :: mask, fvars, vals)

/-- The arguments `specialize` passes to the specialization after `m_params`: those at the
positions the mask does not fix, then those past the mask. -/
def unfixedArgs (bmask : List Bool) (args : List Expr) : List Expr :=
  (bmask.zip args).filterMap (fun p => if p.1 then none else some p.2) ++ args.drop bmask.length

/-- The call `specialize` returns: the specialization `n` applied to `m_params`, then to the
arguments at the positions the mask does not fix and to those past the mask. -/
def specCall (n : Nat) (params : List Nat) (bmask : List Bool) (args : List Expr) : Expr :=
  mkAppN (.const n false) (params.map .fvar ++ unfixedArgs bmask args)

section Specialize

variable (isCasesOn : Nat → Option (Nat × Nat)) (ext : SpecInfoMap) (hasAttr : Nat → Bool)
  (mutualDecls : List Nat) (stage1 : Nat → Bool → Option Expr) (mkSpecName : Nat → Nat → Nat)
  (whnf : LocalCtx → Expr → Expr) (isConstructorApp : Expr → Bool) (infer : LocalCtx → Expr → Expr)
  (isIrrelevant : LocalCtx → Expr → Bool) (csimp : Expr → Expr) (etaExpand : Nat → Expr → Expr × Nat)

/-- `specialize` of the call `c args` at levels `u`, in a fresh `spec_ctx` of the block
`mutualDecls`, with `v` the specializer's `visit`: `some (none, _)` where the source returns
`none_expr()`, `none` where the fuel runs out or an assertion or a lookup of the source
fails. -/
def specialize (v : Expr → SpecState → Option (Expr × SpecState)) (fuel c : Nat) (u : Bool) (args : List Expr)
    (st : SpecState) : Option (Option Expr × SpecState) :=
  match getArgKinds ext c with
  | none => none
  | some kinds =>
    match isSpecializeCandidate st.lctx (whnf st.lctx) isConstructorApp fuel kinds (hasAttr c) args with
    | none => none
    | some false => some (none, st)
    | some true =>
      match specializeInitDeps st.lctx fuel kinds (hasAttr c) args with
      | none => none
      | some ctx =>
        match mkSpecMask ((getBoolMask kinds args.length (hasAttr c)).toList.zip args) st.ngen with
        | (mask, fvars, fvarVals) =>
          match gcacheKey st.lctx fuel (.const c u) (getBoolMask kinds args.length (hasAttr c)) args with
          | none => none
          | some key =>
            match key.bind fun k => st.gcache.lookup k with
            | some n =>
              some (some (specCall n ctx.params (getBoolMask kinds args.length (hasAttr c)).toList args),
                { st with ngen := st.ngen + fvars.length })
            | none =>
              match specPreprocess isCasesOn ext hasAttr mutualDecls ctx.params stage1 mkSpecName fuel c u mask
                  ⟨[], [], st.nextIdx, st.lctx, st.ngen + fvars.length⟩ with
              | none => none
              | some (none, pst) => some (none, { st with ngen := pst.ngen, nextIdx := pst.nextIdx })
              | some (some n, pst) =>
                match mkNewDecls infer isIrrelevant csimp etaExpand v ctx fvars fvarVals pst.preDecls
                    { st with ngen := pst.ngen, nextIdx := pst.nextIdx } with
                | none => none
                | some st' =>
                  some (some (specCall n ctx.params (getBoolMask kinds args.length (hasAttr c)).toList args),
                    { st' with gcache := (key.map fun k => (k, n)).toList ++ st'.gcache })

end Specialize

/-! ## Declarations at the end of the local context -/

theorem findDecl_append_eq {lctx : LocalCtx} {x : Nat} (l : LocalCtx) (h : (lctx.findDecl x).isSome) :
    (lctx ++ l).findDecl x = lctx.findDecl x := by
  obtain ⟨d, hd⟩ := Option.isSome_iff_exists.1 h
  simp only [LocalCtx.findDecl, List.find?_append] at hd ⊢
  rw [hd, Option.or_some]

theorem findDecl_append_of_none {lctx : LocalCtx} {x : Nat} (l : LocalCtx) (h : lctx.findDecl x = none) :
    (lctx ++ l).findDecl x = l.findDecl x := by
  simp only [LocalCtx.findDecl, List.find?_append] at h ⊢
  rw [h, Option.none_or]

theorem abstractSpecCtxAux_congr {lctx₁ lctx₂ : LocalCtx} : ∀ {xs : List Nat},
    (∀ x ∈ xs, lctx₁.findDecl x = lctx₂.findDecl x) → ∀ letVars r,
      abstractSpecCtxAux lctx₁ letVars xs r = abstractSpecCtxAux lctx₂ letVars xs r
  | [], _, _, _ => rfl
  | x :: _, h, _, _ => by
    simp only [abstractSpecCtxAux, h x (List.mem_cons_self _ _),
      abstractSpecCtxAux_congr fun y hy => h y (List.mem_cons_of_mem _ hy)]

theorem letVarsInParams_congr {lctx₁ lctx₂ : LocalCtx} : ∀ {params : List Nat},
    (∀ x ∈ params, lctx₁.findDecl x = lctx₂.findDecl x) →
      letVarsInParams lctx₁ params = letVarsInParams lctx₂ params
  | [], _ => rfl
  | x :: _, h => by
    simp only [letVarsInParams, h x (List.mem_cons_self _ _),
      letVarsInParams_congr fun y hy => h y (List.mem_cons_of_mem _ hy)]

/-- Declarations made at the end of the local context change nothing for `abstract_spec_ctx`
of a context whose variables were declared before them. -/
theorem abstractSpecCtx_append {lctx : LocalCtx} {ctx : SpecCtx} (l : LocalCtx)
    (hvars : ∀ x ∈ ctx.vars, (lctx.findDecl x).isSome) (hparams : ∀ x ∈ ctx.params, x ∈ ctx.vars) (code : Expr) :
    abstractSpecCtx (lctx ++ l) ctx code = abstractSpecCtx lctx ctx code := by
  simp only [abstractSpecCtx, letVarsInParams_congr fun x hx => findDecl_append_eq l (hvars x (hparams x hx)),
    abstractSpecCtxAux_congr fun x hx => findDecl_append_eq l (hvars x (List.mem_reverse.1 hx))]

/-- A declared variable keeps its position when declarations are made after it. -/
theorem index_append_of_mem {lctx : LocalCtx} {x : Nat} (l : LocalCtx) (h : x ∈ lctx.map LocalDecl.fvarId) :
    (lctx ++ l).index x = lctx.index x := by
  have h' := LocalCtx.index_lt_length_iff.2 h
  unfold LocalCtx.index at h' ⊢
  rw [List.findIdx_append, if_pos h']

/-- Declarations whose types and values refer only to declared variables keep the local
context well scoped. -/
theorem LocalCtx.WellScoped.append {lctx : LocalCtx} (hw : lctx.WellScoped) {l : LocalCtx}
    (hl : ∀ d ∈ l, (∀ y ∈ d.type.fvars, y ∈ lctx.map LocalDecl.fvarId) ∧
      ∀ v, d.value = some v → ∀ y ∈ v.fvars, y ∈ lctx.map LocalDecl.fvarId) : (lctx ++ l).WellScoped := by
  -- a variable before position `j` of `lctx` is declared there, and keeps its position
  have hold : ∀ y j, lctx.index y < j → j ≤ lctx.length → (lctx ++ l).index y < j := fun y j hy hj => by
    rwa [index_append_of_mem _ (LocalCtx.index_lt_length_iff.1 (hy.trans_le hj))]
  have hnew : ∀ y ∈ lctx.map LocalDecl.fvarId, (lctx ++ l).index y < lctx.length := fun y hy =>
    hold y _ (LocalCtx.index_lt_length_iff.2 hy) le_rfl
  have hmem : ∀ j (hj : j < (lctx ++ l).length), lctx.length ≤ j → (lctx ++ l)[j] ∈ l := fun j hj h => by
    rw [List.getElem_append_right h]
    exact List.getElem_mem _
  refine ⟨fun j hj y hy => ?_, fun j hj v hv y hy => ?_⟩
  · rcases Nat.lt_or_ge j lctx.length with h | h
    · rw [List.getElem_append_left h] at hy
      exact hold y j (hw.types j h y hy) h.le
    · exact (hnew y ((hl _ (hmem j hj h)).1 y hy)).trans_le h
  · rcases Nat.lt_or_ge j lctx.length with h | h
    · rw [List.getElem_append_left h] at hv
      exact hold y j (hw.values j h v hv y hy) h.le
    · exact (hnew y ((hl _ (hmem j hj h)).2 v hv y hy)).trans_le h

/-! ## The code at the assertion is closed -/

section Bind

variable {infer : Expr → Expr} {isIrrelevant : LocalCtx → Expr → Bool} {S : Nat → Prop}

/-- What the loop of `mk_new_decl` leaves free, when the values and their types refer only to
`S` and the code only to `S`, to the let-variables and to the variables still to bind: the
result refers only to `S` and to the let-variables, each let-variable is declared at the end
of the local context, and each declaration there is one of a variable bound, with a type and
a value that refer only to `S`. -/
theorem bindMaskFVars_spec : ∀ {ps : List (Nat × Expr)} {code : Expr} {lets : List Nat} {lctx : LocalCtx}
    {code' : Expr} {lets' : List Nat} {lctx' : LocalCtx},
    bindMaskFVars infer isIrrelevant ps code lets lctx = (code', lets', lctx') →
    (∀ p ∈ ps, (∀ y ∈ p.2.fvars, S y) ∧ ∀ y ∈ (infer p.2).fvars, S y) →
    (∀ y ∈ code.fvars, S y ∨ y ∈ lets ∨ y ∈ ps.map Prod.fst) →
    (∀ y ∈ code'.fvars, S y ∨ y ∈ lets') ∧ ∃ l, lctx' = lctx ++ l ∧
      (∀ x ∈ lets', x ∈ lets ∨ ∃ d ∈ l, d.fvarId = x) ∧
      ∀ d ∈ l, d.fvarId ∈ ps.map Prod.fst ∧ (∀ y ∈ d.type.fvars, S y) ∧
        ∀ v, d.value = some v → ∀ y ∈ v.fvars, S y
  | [], code, lets, lctx, code', lets', lctx', h, _, hcode => by
    simp only [bindMaskFVars, Prod.mk.injEq] at h
    obtain ⟨rfl, rfl, rfl⟩ := h
    exact ⟨fun y hy => (hcode y hy).imp_right fun h => h.resolve_right (by simp), [], by simp,
      fun x hx => .inl hx, by simp⟩
  | (x, v) :: ps, code, lets, lctx, code', lets', lctx', h, hps, hcode => by
    have hv := hps (x, v) (List.mem_cons_self _ _)
    have hps' := fun p hp => hps p (List.mem_cons_of_mem _ hp)
    simp only [bindMaskFVars] at h
    split_ifs at h
    · -- an irrelevant type: `x` is replaced by `v`
      obtain ⟨hc, l, hl, hlets, hd⟩ := bindMaskFVars_spec h hps' fun y hy => by
        rcases mem_fvars_replaceFVar hy with ⟨hy, hyx⟩ | hy
        · simpa [hyx] using hcode y hy
        · exact .inl (hv.1 y hy)
      exact ⟨hc, l, hl, hlets, fun d hd' => ⟨List.mem_cons_of_mem _ (hd d hd').1, (hd d hd').2⟩⟩
    · -- a let-declaration of `x`
      obtain ⟨hc, l, hl, hlets, hd⟩ := bindMaskFVars_spec h hps' fun y hy => by
        have := hcode y hy
        simp only [List.map_cons, List.mem_cons, List.mem_append, List.mem_singleton] at this ⊢
        tauto
      refine ⟨hc, ⟨x, false, infer v, some v⟩ :: l, by simp [hl], fun y hy => ?_, fun d hd' => ?_⟩
      · have := hlets y hy
        simp only [List.mem_append, List.mem_singleton, List.mem_cons, List.not_mem_nil, or_false, exists_eq_or_imp]
          at this ⊢
        rcases this with (hy | rfl) | hy
        exacts [.inl hy, .inr (.inl rfl), .inr (.inr hy)]
      · rcases List.mem_cons.1 hd' with rfl | hd'
        · exact ⟨List.mem_cons_self _ _, hv.2, fun w hw => by cases hw; exact hv.1⟩
        · exact ⟨List.mem_cons_of_mem _ (hd d hd').1, (hd d hd').2⟩

end Bind

section NewDeclCode

variable {infer : LocalCtx → Expr → Expr} (isIrrelevant : LocalCtx → Expr → Bool) {lctx : LocalCtx}
  {ctx : SpecCtx} {fvars : List Nat} {fvarVals : List Expr}

/-- `lean_assert(!has_fvar(code))` of `mk_new_decl` holds, and no lookup before it fails, for a
well-formed context in a well-scoped local context, new variables undeclared there, values
that refer, and whose types refer, only to variables of the context, and code that refers
only to variables of the context and to the new variables. The local context the rest of
`mk_new_decl` runs in is the old one followed by let-declarations of new variables, whose
types and values refer only to variables of the context. -/
theorem mkNewDeclCode_closed (hw : lctx.WellScoped) (hc : ctx.WellFormed lctx) (hlen : fvars.length = fvarVals.length)
    (hfresh : ∀ x ∈ fvars, lctx.findDecl x = none)
    (hvals : ∀ v ∈ fvarVals, (∀ y ∈ v.fvars, y ∈ ctx.vars) ∧ ∀ y ∈ (infer lctx v).fvars, y ∈ ctx.vars)
    {code : Expr} (hcode : ∀ y ∈ code.fvars, y ∈ ctx.vars ∨ y ∈ fvars) :
    ∃ r l, mkNewDeclCode infer isIrrelevant lctx ctx fvars fvarVals code = some (r, lctx ++ l) ∧ r.hasFVar = false ∧
      ∀ d ∈ l, d.fvarId ∈ fvars ∧ (∀ y ∈ d.type.fvars, y ∈ ctx.vars) ∧
        ∀ v, d.value = some v → ∀ y ∈ v.fvars, y ∈ ctx.vars := by
  have hmap : (fvars.zip fvarVals).map Prod.fst = fvars := List.map_fst_zip _ _ hlen.le
  generalize hb : bindMaskFVars (infer lctx) isIrrelevant (fvars.zip fvarVals) code [] lctx = b
  obtain ⟨code', lets, lctx'⟩ := b
  obtain ⟨hc', l, rfl, hlets, hd⟩ := bindMaskFVars_spec (S := (· ∈ ctx.vars)) hb
    (fun p hp => hvals p.2 (List.of_mem_zip hp).2) fun y hy => (hcode y hy).imp_right fun h => .inr (by rwa [hmap])
  -- each let-variable is found among the new declarations
  have hfind : ∀ x ∈ lets, ∃ d, (lctx ++ l).findDecl x = some d ∧ d ∈ l := fun x hx => by
    obtain ⟨d, hdl, rfl⟩ := (hlets x hx).resolve_left (List.not_mem_nil _)
    rw [findDecl_append_of_none l (hfresh _ (hmap ▸ (hd d hdl).1))]
    obtain ⟨d', hd'⟩ := Option.isSome_iff_exists.1 (List.find?_isSome.2 ⟨d, hdl, beq_self_eq_true _⟩ :
      (l.find? (·.fvarId == d.fvarId)).isSome)
    exact ⟨d', hd', List.mem_of_find?_eq_some hd'⟩
  obtain ⟨m, hm⟩ := Option.isSome_iff_exists.1 (@mkLambda_isSome (lctx ++ l) lets code' fun x hx => by
    obtain ⟨d, hd', -⟩ := hfind x hx; simp [hd'])
  have hmv : ∀ y ∈ m.fvars, y ∈ ctx.vars := by
    refine fvars_abstractSpecCtxAux [] (fun ys x zs hxs => ?_) (fun y hy => ?_) hm
    · obtain ⟨d, hd', hdl⟩ := hfind x (List.mem_reverse.1 (hxs ▸ List.mem_append_right _ (List.mem_cons_self _ _)))
      exact ⟨d, hd', fun y hy => .inl ((hd d hdl).2.1 y hy), fun v hv y hy => .inl ((hd d hdl).2.2 v hv y hy)⟩
    · obtain ⟨hy, hny⟩ := mem_fvars_abstract.1 hy
      exact (hc' y hy).resolve_right hny
  have hvars : ∀ x ∈ ctx.vars, (lctx.findDecl x).isSome := fun x hx => by
    obtain ⟨d, hd', -⟩ := hc.deps x hx; simp [hd']
  obtain ⟨r, hr, hrf⟩ := abstractSpecCtx_closed hw hc hmv
  refine ⟨r, l, ?_, hrf, fun d hd' => ⟨hmap ▸ (hd d hd').1, (hd d hd').2⟩⟩
  simp only [mkNewDeclCode, hb, hm, Option.bind_eq_bind, Option.some_bind, abstractSpecCtx_append l hvars hc.params_sub, hr]
  rfl

end NewDeclCode

/-! ## The mask of `specialize` -/

/-- The mask's variables are the next names of the generator, one for each fixed position,
each with the argument there as its value. -/
theorem mkSpecMask_spec : ∀ {ps : List (Bool × Expr)} {n : Nat} {mask : List (Option Expr)} {fvars : List Nat}
    {vals : List Expr}, mkSpecMask ps n = (mask, fvars, vals) →
    fvars = List.range' n fvars.length ∧ fvars.length = vals.length ∧ mask.length = ps.length ∧
      (∀ b ∈ mask, b = none ∨ ∃ x ∈ fvars, b = some (fvar x)) ∧ ∀ v ∈ vals, (true, v) ∈ ps
  | [], n, mask, fvars, vals, h => by
    simp only [mkSpecMask, Prod.mk.injEq] at h
    obtain ⟨rfl, rfl, rfl⟩ := h
    simp
  | (true, a) :: ps, n, mask, fvars, vals, h => by
    simp only [mkSpecMask] at h
    generalize hr : mkSpecMask ps (n + 1) = r at h
    obtain ⟨m, fs, vs⟩ := r
    simp only [Prod.mk.injEq] at h
    obtain ⟨rfl, rfl, rfl⟩ := h
    obtain ⟨h₁, h₂, h₃, h₄, h₅⟩ := mkSpecMask_spec hr
    refine ⟨by rw [List.length_cons, List.range'_succ, ← h₁], by simp [h₂], by simp [h₃],
      List.forall_mem_cons.2 ⟨.inr ⟨n, List.mem_cons_self _ _, rfl⟩,
        fun b hb => (h₄ b hb).imp_right fun ⟨x, hx, e⟩ => ⟨x, List.mem_cons_of_mem _ hx, e⟩⟩,
      List.forall_mem_cons.2 ⟨List.mem_cons_self _ _, fun v hv => List.mem_cons_of_mem _ (h₅ v hv)⟩⟩
  | (false, a) :: ps, n, mask, fvars, vals, h => by
    simp only [mkSpecMask] at h
    generalize hr : mkSpecMask ps n = r at h
    obtain ⟨m, fs, vs⟩ := r
    simp only [Prod.mk.injEq] at h
    obtain ⟨rfl, rfl, rfl⟩ := h
    obtain ⟨h₁, h₂, h₃, h₄, h₅⟩ := mkSpecMask_spec hr
    exact ⟨h₁, h₂, by simp [h₃], List.forall_mem_cons.2 ⟨.inl rfl, h₄⟩, fun v hv => List.mem_cons_of_mem _ (h₅ v hv)⟩

theorem exists_getD_of_mem_zip {bmask : Array Bool} {args : List Expr} {v : Expr}
    (h : (true, v) ∈ bmask.toList.zip args) : ∃ i, bmask.getD i false = true ∧ args[i]? = some v := by
  obtain ⟨i, hi, he⟩ := List.mem_iff_getElem.1 h
  rw [List.getElem_zip] at he
  obtain ⟨h₁, h₂⟩ := Prod.mk.inj he
  have hi' : i < bmask.size := by simpa using (List.lt_length_left_of_zip hi)
  refine ⟨i, ?_, by rw [← h₂, List.getElem?_eq_getElem]⟩
  rw [Array.getD_eq_get?, Array.getElem?_eq_getElem hi', Array.getElem_eq_getElem_toList, h₁]
  rfl

/-! ## The types `infer` gives -/

/-- Specification: `y` is a free variable of `e`, or of the type of the declaration
of a variable reached so. -/
inductive TypeReach (lctx : LocalCtx) (e : Expr) : Nat → Prop
  | fvar {y : Nat} : y ∈ e.fvars → TypeReach lctx e y
  | type {x y : Nat} {d : LocalDecl} : TypeReach lctx e x → lctx.findDecl x = some d → y ∈ d.type.fvars →
      TypeReach lctx e y

/-- A well-formed context holds what the types of its variables reach. -/
theorem TypeReach.mem_vars {lctx : LocalCtx} {ctx : SpecCtx} {e : Expr} {y : Nat} (hc : ctx.WellFormed lctx)
    (he : ∀ y ∈ e.fvars, y ∈ ctx.vars) (h : TypeReach lctx e y) : y ∈ ctx.vars := by
  induction h with
  | fvar hy => exact he _ hy
  | type _ hd hy ih =>
    obtain ⟨d', hd', ht, -⟩ := hc.deps _ ih
    obtain rfl := Option.some.inj (hd.symm.trans hd')
    exact ht _ hy

/-! ## The state between steps -/

/-- Specification: what the pass keeps of its state between steps, a well-scoped local
context whose names are all below the name generator's. -/
structure SpecState.Good (st : SpecState) : Prop where
  wellScoped : st.lctx.WellScoped
  fresh : ∀ d ∈ st.lctx, d.fvarId < st.ngen

theorem SpecState.Good.ngen_not_mem {st : SpecState} (h : st.Good) : st.ngen ∉ st.lctx.map LocalDecl.fvarId :=
  fun hm => by obtain ⟨d, hd, e⟩ := List.mem_map.1 hm; exact absurd (h.fresh d hd) (by omega)

/-- Specification: what a step of the pass does to the rest of its state: the name generator
only advances, and every declaration added to `m_new_decls` is closed. -/
structure Walk (st st' : SpecState) : Prop where
  ngen_le : st.ngen ≤ st'.ngen
  newDecls : ∃ ds, st'.newDecls = st.newDecls ++ ds ∧ ∀ d ∈ ds, d.code.hasFVar = false

theorem Walk.refl (st : SpecState) : Walk st st := ⟨le_rfl, [], by simp, by simp⟩

theorem Walk.trans {a b c : SpecState} (h₁ : Walk a b) (h₂ : Walk b c) : Walk a c := by
  obtain ⟨ds₁, e₁, c₁⟩ := h₁.newDecls
  obtain ⟨ds₂, e₂, c₂⟩ := h₂.newDecls
  exact ⟨h₁.ngen_le.trans h₂.ngen_le, ds₁ ++ ds₂, by rw [e₂, e₁, List.append_assoc],
    fun d hd => (List.mem_append.1 hd).elim (c₁ d) (c₂ d)⟩

theorem SpecState.Good.of_walk {st st' : SpecState} (h : st.Good) (hl : st'.lctx = st.lctx) (hw : Walk st st') :
    st'.Good :=
  ⟨hl ▸ h.wellScoped, fun d hd => (h.fresh d (hl ▸ hd)).trans_le hw.ngen_le⟩

/-- The state in which `mk_new_decl` visits the new code is good: declarations under names
below the generator's, whose types and values refer only to declared variables, at the end of
a good state's local context. -/
theorem SpecState.Good.append {st : SpecState} (h : st.Good) {l : LocalCtx} {n : Nat} (hn : st.ngen ≤ n)
    (hl : ∀ d ∈ l, d.fvarId < n ∧ (∀ y ∈ d.type.fvars, y ∈ st.lctx.map LocalDecl.fvarId) ∧
      ∀ v, d.value = some v → ∀ y ∈ v.fvars, y ∈ st.lctx.map LocalDecl.fvarId) :
    ({ st with ngen := n, lctx := st.lctx ++ l } : SpecState).Good :=
  ⟨h.wellScoped.append fun d hd => (hl d hd).2,
    fun d hd => (List.mem_append.1 hd).elim (fun hd => (h.fresh d hd).trans_le hn) fun hd => (hl d hd).1⟩

/-- Specification: what the pass does to the global cache: `m_new_decls` only grows, and every
entry added names one of its declarations. -/
structure CacheWalk (st st' : SpecState) : Prop where
  newDecls : ∃ ds, st'.newDecls = st.newDecls ++ ds
  named : ∀ p ∈ st'.gcache, p ∈ st.gcache ∨ p.2 ∈ st'.newDecls.map CompDecl.name

theorem CacheWalk.of_eq {st st' : SpecState} (hn : st'.newDecls = st.newDecls) (hg : st'.gcache = st.gcache) :
    CacheWalk st st' :=
  ⟨⟨[], by simp [hn]⟩, fun _ hp => .inl (hg ▸ hp)⟩

theorem CacheWalk.trans {a b c : SpecState} (h₁ : CacheWalk a b) (h₂ : CacheWalk b c) : CacheWalk a c := by
  obtain ⟨ds₁, e₁⟩ := h₁.newDecls
  obtain ⟨ds₂, e₂⟩ := h₂.newDecls
  refine ⟨⟨ds₁ ++ ds₂, by rw [e₂, e₁, List.append_assoc]⟩, fun p hp => ?_⟩
  refine (h₂.named p hp).elim (fun hp => (h₁.named p hp).imp_right fun hn => ?_) .inr
  rw [e₂, List.map_append]
  exact List.mem_append_left _ hn

/-- Pushing a declaration to `m_new_decls` keeps every entry named. -/
theorem cacheWalk_push (st : SpecState) (lctx : LocalCtx) (d : CompDecl) :
    CacheWalk st { st with lctx := lctx, newDecls := st.newDecls ++ [d] } :=
  ⟨⟨[d], rfl⟩, fun _ hp => .inl hp⟩

/-- Specification: what the closedness of the pass assumes of the environment, the type
checker and the simplifier. -/
structure ClosedOracles (stage1 : Nat → Bool → Option Expr) (infer : LocalCtx → Expr → Expr)
    (csimp : Expr → Expr) (etaExpand : Nat → Expr → Expr × Nat) : Prop where
  /-- Every stage-one definition is closed. -/
  stage1_closed : ∀ g u code, stage1 g u = some code → code.fvars = []
  /-- The type `infer` gives an expression refers only to variables reached from the
  expression's through the types of their declarations. -/
  infer_reach : ∀ lctx a y, y ∈ (infer lctx a).fvars → TypeReach lctx a y
  /-- `csimp` keeps code closed. -/
  csimp_closed : ∀ e, e.fvars = [] → (csimp e).fvars = []
  /-- `eta_expand_specialization` keeps code closed, and takes names from the generator only
  forward. -/
  etaExpand_closed : ∀ n e, e.fvars = [] → (etaExpand n e).1.fvars = [] ∧ n ≤ (etaExpand n e).2

/-- Specification: what `visit` does, as a property of a visitor `v`. From a good state, on
code whose free variables lie in a set `S` of declared variables closed under their
declarations, it restores the local context, steps as `Walk` says, and returns code whose free
variables lie in `S`. With `S` the declared variables the result is declared; with `S` empty,
closed code stays closed. -/
def VisitWalks (v : Expr → SpecState → Option (Expr × SpecState)) : Prop :=
  ∀ ⦃e st r st'⦄, v e st = some (r, st') → st.Good → ∀ S : Nat → Prop, st.lctx.DepClosed S →
    (∀ y, S y → y ∈ st.lctx.map LocalDecl.fvarId) → (∀ y ∈ e.fvars, S y) →
    st'.lctx = st.lctx ∧ Walk st st' ∧ ∀ y ∈ r.fvars, S y

/-- Specification: `n` is made by `mk_spec_name` from an index in `[lo, hi)`. -/
def SpecNameIn (mkSpecName : Nat → Nat → Nat) (lo hi n : Nat) : Prop :=
  ∃ c i, lo ≤ i ∧ i < hi ∧ n = mkSpecName c i

/-- Specification: what a run does to the names of `m_new_decls`: `m_next_idx` only advances,
and the declarations added have distinct names, each made by `mk_spec_name` from an index the
run took. -/
structure NameWalk (mkSpecName : Nat → Nat → Nat) (st st' : SpecState) : Prop where
  nextIdx_le : st.nextIdx ≤ st'.nextIdx
  added : ∃ ds, st'.newDecls = st.newDecls ++ ds ∧ (ds.map CompDecl.name).Nodup ∧
    ∀ d ∈ ds, SpecNameIn mkSpecName st.nextIdx st'.nextIdx d.name

section Names

variable {mkSpecName : Nat → Nat → Nat}

theorem SpecNameIn.mono {lo hi lo' hi' n : Nat} (h : SpecNameIn mkSpecName lo hi n) (hlo : lo' ≤ lo) (hhi : hi ≤ hi') :
    SpecNameIn mkSpecName lo' hi' n :=
  have ⟨c, i, h₁, h₂, e⟩ := h
  ⟨c, i, hlo.trans h₁, h₂.trans_le hhi, e⟩

/-- When `mk_spec_name` tells indices apart, names made from indices in ranges one before the
other differ. -/
theorem SpecNameIn.ne (hinj : ∀ c i c' i', mkSpecName c i = mkSpecName c' i' → i = i') {lo hi lo' hi' n n' : Nat}
    (h : SpecNameIn mkSpecName lo hi n) (h' : SpecNameIn mkSpecName lo' hi' n') (hle : hi ≤ lo') : n ≠ n' := by
  obtain ⟨c, i, -, hi, rfl⟩ := h
  obtain ⟨c', i', hi', -, rfl⟩ := h'
  intro e
  have := hinj _ _ _ _ e
  omega

theorem disjoint_names {l₁ l₂ : List CompDecl} (h : ∀ d₁ ∈ l₁, ∀ d₂ ∈ l₂, d₁.name ≠ d₂.name) :
    (l₁.map CompDecl.name).Disjoint (l₂.map CompDecl.name) := fun _ hn₁ hn₂ => by
  obtain ⟨d₁, hd₁, rfl⟩ := List.mem_map.1 hn₁
  obtain ⟨d₂, hd₂, e⟩ := List.mem_map.1 hn₂
  exact h d₁ hd₁ d₂ hd₂ e.symm

theorem NameWalk.of_eq {st st' : SpecState} (hi : st'.nextIdx = st.nextIdx) (hn : st'.newDecls = st.newDecls) :
    NameWalk mkSpecName st st' :=
  ⟨hi.ge, [], by simp [hn], List.nodup_nil, nofun⟩

theorem NameWalk.trans (hinj : ∀ c i c' i', mkSpecName c i = mkSpecName c' i' → i = i') {a b c : SpecState}
    (h₁ : NameWalk mkSpecName a b) (h₂ : NameWalk mkSpecName b c) : NameWalk mkSpecName a c := by
  obtain ⟨ds₁, e₁, n₁, m₁⟩ := h₁.added
  obtain ⟨ds₂, e₂, n₂, m₂⟩ := h₂.added
  refine ⟨h₁.nextIdx_le.trans h₂.nextIdx_le, ds₁ ++ ds₂, by rw [e₂, e₁, List.append_assoc], ?_, fun d hd => ?_⟩
  · rw [List.map_append, List.nodup_append]
    exact ⟨n₁, n₂, disjoint_names fun x hx y hy => (m₁ x hx).ne hinj (m₂ y hy) le_rfl⟩
  · rcases List.mem_append.1 hd with hd | hd
    · exact (m₁ d hd).mono le_rfl h₂.nextIdx_le
    · exact (m₂ d hd).mono h₁.nextIdx_le le_rfl

end Names

/-! ## `mk_new_decl` runs -/

section NewDecl

variable {stage1 : Nat → Bool → Option Expr} {infer : LocalCtx → Expr → Expr}
  {isIrrelevant : LocalCtx → Expr → Bool} {csimp : Expr → Expr} {etaExpand : Nat → Expr → Expr × Nat}
  {v : Expr → SpecState → Option (Expr × SpecState)} {ctx : SpecCtx} {fvars : List Nat} {fvarVals : List Expr}

/-- What `mk_new_decl` does after its assertion: it visits the eta-expanded, simplified code
in the local context of the let-declarations, then restores the local context and pushes the
declaration. -/
theorem mkNewDecl_eq {d : CompDecl} {st st' : SpecState} {code : Expr} {lctx : LocalCtx}
    (hm : mkNewDeclCode infer isIrrelevant st.lctx ctx fvars fvarVals d.code = some (code, lctx))
    (h : mkNewDecl infer isIrrelevant csimp etaExpand v ctx fvars fvarVals d st = some st') :
    ∃ r s, v (csimp (etaExpand st.ngen code).1) { st with ngen := (etaExpand st.ngen code).2, lctx := lctx } =
      some (r, s) ∧ st' = { s with lctx := st.lctx, newDecls := s.newDecls ++ [⟨d.name, r⟩] } := by
  simp only [mkNewDecl, hm, Option.bind_eq_bind, Option.some_bind] at h
  generalize hp : etaExpand st.ngen code = p at h
  obtain ⟨c', n'⟩ := p
  obtain ⟨⟨r, s⟩, hv, h⟩ := Option.bind_eq_some.1 h
  exact ⟨r, s, hv, (Option.some.inj h).symm⟩

/-- One `mk_new_decl`, from a good state, with a visitor that meets `VisitWalks`: the local
context is restored, the name generator only advances, and every declaration the nested visit
adds is closed, as is the new one. -/
theorem mkNewDecl_walk (ho : ClosedOracles stage1 infer csimp etaExpand) (hv : VisitWalks v) {d : CompDecl}
    {st st' : SpecState} (hg : st.Good) (hc : ctx.WellFormed st.lctx) (hlen : fvars.length = fvarVals.length)
    (hnew : ∀ x ∈ fvars, st.lctx.findDecl x = none ∧ x < st.ngen)
    (hvals : ∀ v ∈ fvarVals, (∀ y ∈ v.fvars, y ∈ ctx.vars) ∧ ∀ y ∈ (infer st.lctx v).fvars, y ∈ ctx.vars)
    (hcode : ∀ y ∈ d.code.fvars, y ∈ ctx.vars ∨ y ∈ fvars)
    (h : mkNewDecl infer isIrrelevant csimp etaExpand v ctx fvars fvarVals d st = some st') :
    st'.lctx = st.lctx ∧ Walk st st' := by
  obtain ⟨code, l, hm, hcl, hl⟩ := mkNewDeclCode_closed isIrrelevant hg.wellScoped hc hlen
    (fun x hx => (hnew x hx).1) hvals hcode
  obtain ⟨r, s, hrun, rfl⟩ := mkNewDecl_eq hm h
  obtain ⟨heta, hn⟩ := ho.etaExpand_closed st.ngen code ((hasFVar_eq_false_iff _).1 hcl)
  -- the let-declarations refer to declared variables, under new names below the generator's
  have hdecl : ∀ y ∈ ctx.vars, y ∈ st.lctx.map LocalDecl.fvarId := fun y hy => by
    obtain ⟨d, hd, -⟩ := hc.deps y hy
    exact List.mem_map.2 ⟨d, List.mem_of_find?_eq_some hd, LocalCtx.fvarId_of_findDecl hd⟩
  have hgood := hg.append hn fun d' hd' => ⟨(hnew _ (hl d' hd').1).2.trans_le hn,
    fun y hy => hdecl y ((hl d' hd').2.1 y hy), fun w hw y hy => hdecl y ((hl d' hd').2.2 w hw y hy)⟩
  -- the visit of closed code, with the empty set
  obtain ⟨-, hw, hr⟩ := hv hrun hgood (fun _ => False) (LocalCtx.depClosed_empty _) (fun _ h => h.elim)
    (by rw [ho.csimp_closed _ heta]; exact fun _ h => nomatch h)
  obtain ⟨ds, hds, hdcl⟩ := hw.newDecls
  refine ⟨rfl, hn.trans hw.ngen_le, ds ++ [⟨d.name, r⟩], by simp [hds], fun d' hd' => ?_⟩
  rcases List.mem_append.1 hd' with hd' | hd'
  · exact hdcl d' hd'
  · rw [List.mem_singleton.1 hd']
    exact (hasFVar_eq_false_iff _).2 (List.eq_nil_iff_forall_not_mem.2 hr)

/-- The loop over `m_pre_decls`, as `mkNewDecl_walk`: each `mk_new_decl` starts where the one
before left the state. -/
theorem mkNewDecls_walk (ho : ClosedOracles stage1 infer csimp etaExpand) (hv : VisitWalks v)
    (hlen : fvars.length = fvarVals.length) : ∀ {ds : List CompDecl} {st st' : SpecState}, st.Good →
      ctx.WellFormed st.lctx → (∀ x ∈ fvars, st.lctx.findDecl x = none ∧ x < st.ngen) →
      (∀ v ∈ fvarVals, (∀ y ∈ v.fvars, y ∈ ctx.vars) ∧ ∀ y ∈ (infer st.lctx v).fvars, y ∈ ctx.vars) →
      (∀ d ∈ ds, ∀ y ∈ d.code.fvars, y ∈ ctx.vars ∨ y ∈ fvars) →
      mkNewDecls infer isIrrelevant csimp etaExpand v ctx fvars fvarVals ds st = some st' →
      st'.lctx = st.lctx ∧ Walk st st'
  | [], _, _, _, _, _, _, _, h => by cases h; exact ⟨rfl, .refl _⟩
  | d :: _, st, _, hg, hc, hnew, hvals, hcode, h => by
    obtain ⟨s, h₁, h₂⟩ := Option.bind_eq_some.1 h
    obtain ⟨hl₁, hw₁⟩ := mkNewDecl_walk ho hv hg hc hlen hnew hvals (hcode d (List.mem_cons_self _ _)) h₁
    obtain ⟨hl₂, hw₂⟩ := mkNewDecls_walk ho hv hlen (hg.of_walk hl₁ hw₁) (by rwa [hl₁])
      (fun x hx => ⟨hl₁ ▸ (hnew x hx).1, (hnew x hx).2.trans_le hw₁.ngen_le⟩) (by rwa [hl₁])
      (fun d' hd' => hcode d' (List.mem_cons_of_mem _ hd')) h₂
    exact ⟨hl₂.trans hl₁, hw₁.trans hw₂⟩

/-- One `mk_new_decl`, with a visitor whose runs meet `CacheWalk`, meets it, and adds the
declaration of its name. -/
theorem mkNewDecl_cacheWalk (hv : ∀ ⦃e st r st'⦄, v e st = some (r, st') → CacheWalk st st') {d : CompDecl}
    {st st' : SpecState} (h : mkNewDecl infer isIrrelevant csimp etaExpand v ctx fvars fvarVals d st = some st') :
    CacheWalk st st' ∧ d.name ∈ st'.newDecls.map CompDecl.name := by
  obtain ⟨⟨code, lctx⟩, hm, -⟩ := Option.bind_eq_some.1 h
  obtain ⟨r, s, hrun, rfl⟩ := mkNewDecl_eq hm h
  have h₀ : CacheWalk st { st with ngen := (etaExpand st.ngen code).2, lctx := lctx } := .of_eq rfl rfl
  exact ⟨(h₀.trans (hv hrun)).trans (cacheWalk_push s st.lctx _), by simp⟩

/-- The loop over `m_pre_decls` meets `CacheWalk`, and adds a declaration of each
pre-declaration's name. -/
theorem mkNewDecls_cacheWalk (hv : ∀ ⦃e st r st'⦄, v e st = some (r, st') → CacheWalk st st') :
    ∀ {ds : List CompDecl} {st st' : SpecState},
      mkNewDecls infer isIrrelevant csimp etaExpand v ctx fvars fvarVals ds st = some st' →
      CacheWalk st st' ∧ ∀ d ∈ ds, d.name ∈ st'.newDecls.map CompDecl.name
  | [], _, _, h => by cases h; exact ⟨.of_eq rfl rfl, by simp⟩
  | _ :: _, _, _, h => by
    obtain ⟨s, h₁, h₂⟩ := Option.bind_eq_some.1 h
    obtain ⟨hc₁, hn₁⟩ := mkNewDecl_cacheWalk hv h₁
    obtain ⟨hc₂, hn₂⟩ := mkNewDecls_cacheWalk hv h₂
    obtain ⟨ds', e⟩ := hc₂.newDecls
    refine ⟨hc₁.trans hc₂, List.forall_mem_cons.2 ⟨?_, hn₂⟩⟩
    rw [e, List.map_append]
    exact List.mem_append_left _ hn₁

/-- The loop over `m_pre_decls`, with a visitor whose runs meet `NameWalk`, from a state whose
`m_next_idx` is past the indices of the pre-declarations' names: the names it adds are
distinct, each a pre-declaration's or made from an index the loop took. -/
theorem mkNewDecls_names {mkSpecName : Nat → Nat → Nat} (hinj : ∀ c i c' i', mkSpecName c i = mkSpecName c' i' → i = i')
    (hv : ∀ ⦃e st r st'⦄, v e st = some (r, st') → NameWalk mkSpecName st st') {lo : Nat} :
    ∀ {ds : List CompDecl} {st st' : SpecState},
      mkNewDecls infer isIrrelevant csimp etaExpand v ctx fvars fvarVals ds st = some st' →
      (ds.map CompDecl.name).Nodup → (∀ d ∈ ds, SpecNameIn mkSpecName lo st.nextIdx d.name) →
      st.nextIdx ≤ st'.nextIdx ∧ ∃ ds', st'.newDecls = st.newDecls ++ ds' ∧ (ds'.map CompDecl.name).Nodup ∧
        ∀ d ∈ ds', d.name ∈ ds.map CompDecl.name ∨ SpecNameIn mkSpecName st.nextIdx st'.nextIdx d.name
  | [], _, _, h, _, _ => by cases h; exact ⟨le_rfl, [], by simp, List.nodup_nil, nofun⟩
  | d :: ds, st, st', h, hnd, hpre => by
    obtain ⟨s, h₁, h₂⟩ := Option.bind_eq_some.1 h
    obtain ⟨⟨code, lctx⟩, hm, -⟩ := Option.bind_eq_some.1 h₁
    obtain ⟨r, s₀, hrun, rfl⟩ := mkNewDecl_eq hm h₁
    -- the nested visit, then the push of `d`, whose name comes before the indices the visit takes
    obtain ⟨hle₀, dn, e₀, n₀, m₀⟩ := hv hrun
    obtain ⟨hd, hnd⟩ := List.nodup_cons.1 hnd
    have hdn : SpecNameIn mkSpecName lo st.nextIdx d.name := hpre d (List.mem_cons_self _ _)
    -- the rest of the loop
    obtain ⟨hle, dr, e, nr, mr⟩ := mkNewDecls_names hinj hv h₂ hnd
      fun d' hd' => (hpre d' (List.mem_cons_of_mem _ hd')).mono le_rfl hle₀
    have hfirst : ∀ x ∈ dn ++ [⟨d.name, r⟩], x.name = d.name ∨ SpecNameIn mkSpecName st.nextIdx s₀.nextIdx x.name :=
      fun x hx => (List.mem_append.1 hx).elim (fun hx => .inr (m₀ x hx)) fun hx => .inl (by rw [List.mem_singleton.1 hx])
    refine ⟨hle₀.trans hle, dn ++ [⟨d.name, r⟩] ++ dr, by simp [e, e₀], ?_, fun x hx => ?_⟩
    · rw [List.map_append]
      refine List.nodup_append.2 ⟨?_, nr, disjoint_names fun x hx y hy => ?_⟩
      · rw [List.map_append]
        refine List.nodup_append.2 ⟨n₀, List.nodup_singleton _, disjoint_names fun x hx y hy => ?_⟩
        rw [List.mem_singleton.1 hy]
        exact (hdn.ne hinj (m₀ x hx) le_rfl).symm
      rcases hfirst x hx with h | h <;> rcases mr y hy with h' | h'
      · exact fun e => hd (h ▸ e ▸ h')
      · exact h ▸ hdn.ne hinj h' hle₀
      · obtain ⟨z, hz, e⟩ := List.mem_map.1 h'
        exact e ▸ ((hpre z (List.mem_cons_of_mem _ hz)).ne hinj h le_rfl).symm
      · exact h.ne hinj h' le_rfl
    · rcases List.mem_append.1 hx with hx | hx
      · rcases hfirst x hx with e | h
        · exact .inl (e ▸ List.mem_map_of_mem _ (List.mem_cons_self _ _))
        · exact .inr (h.mono le_rfl hle)
      · rcases mr x hx with h | h
        · exact .inl (List.mem_cons_of_mem _ h)
        · exact .inr (h.mono hle₀ le_rfl)

end NewDecl

/-! ## `specialize` runs -/

section Runs

variable {isCasesOn : Nat → Option (Nat × Nat)} {ext : SpecInfoMap} {hasAttr : Nat → Bool}
  {mutualDecls : List Nat} {stage1 : Nat → Bool → Option Expr} {mkSpecName : Nat → Nat → Nat}
  {whnf : LocalCtx → Expr → Expr} {isConstructorApp : Expr → Bool} {infer : LocalCtx → Expr → Expr}
  {isIrrelevant : LocalCtx → Expr → Bool} {csimp : Expr → Expr} {etaExpand : Nat → Expr → Expr × Nat}
  {v : Expr → SpecState → Option (Expr × SpecState)}

/-- The runs of `specialize` that return, with the guards each passes: not a candidate; a hit
in the global cache; a miss where `spec_preprocess` returns none; a miss where it succeeds,
with a declaration made by `mk_new_decl` for each pre-declaration and the key cached. -/
theorem specialize_cases {fuel c : Nat} {u : Bool} {args : List Expr} {st st' : SpecState} {r : Option Expr}
    (h : specialize isCasesOn ext hasAttr mutualDecls stage1 mkSpecName whnf isConstructorApp infer isIrrelevant
      csimp etaExpand v fuel c u args st = some (r, st')) :
    ∃ kinds, getArgKinds ext c = some kinds ∧
      (isSpecializeCandidate st.lctx (whnf st.lctx) isConstructorApp fuel kinds (hasAttr c) args = some false ∧
          r = none ∧ st' = st ∨
        ∃ ctx mask fvars fvarVals key,
          isSpecializeCandidate st.lctx (whnf st.lctx) isConstructorApp fuel kinds (hasAttr c) args = some true ∧
          specializeInitDeps st.lctx fuel kinds (hasAttr c) args = some ctx ∧
          mkSpecMask ((getBoolMask kinds args.length (hasAttr c)).toList.zip args) st.ngen = (mask, fvars, fvarVals) ∧
          gcacheKey st.lctx fuel (.const c u) (getBoolMask kinds args.length (hasAttr c)) args = some key ∧
          ((∃ n, key.bind (fun k => st.gcache.lookup k) = some n ∧
              r = some (specCall n ctx.params (getBoolMask kinds args.length (hasAttr c)).toList args) ∧
              st' = { st with ngen := st.ngen + fvars.length }) ∨
            key.bind (fun k => st.gcache.lookup k) = none ∧
            ((∃ pst, r = none ∧ st' = { st with ngen := pst.ngen, nextIdx := pst.nextIdx } ∧
                specPreprocess isCasesOn ext hasAttr mutualDecls ctx.params stage1 mkSpecName fuel c u mask
                  ⟨[], [], st.nextIdx, st.lctx, st.ngen + fvars.length⟩ = some (none, pst)) ∨
              ∃ n pst st₁, r = some (specCall n ctx.params (getBoolMask kinds args.length (hasAttr c)).toList args) ∧
                st' = { st₁ with gcache := (key.map fun k => (k, n)).toList ++ st₁.gcache } ∧
                specPreprocess isCasesOn ext hasAttr mutualDecls ctx.params stage1 mkSpecName fuel c u mask
                  ⟨[], [], st.nextIdx, st.lctx, st.ngen + fvars.length⟩ = some (some n, pst) ∧
                mkNewDecls infer isIrrelevant csimp etaExpand v ctx fvars fvarVals pst.preDecls
                  { st with ngen := pst.ngen, nextIdx := pst.nextIdx } = some st₁))) := by
  have hres : ∀ {r' : Option Expr} {s : SpecState}, some (r', s) = some (r, st') → r' = r ∧ s = st' :=
    fun h => Prod.mk.inj (Option.some.inj h)
  simp only [specialize] at h
  split at h
  · cases h
  · rename_i kinds hk
    refine ⟨kinds, hk, ?_⟩
    split at h
    · cases h
    · obtain ⟨rfl, rfl⟩ := hres h
      exact .inl ⟨‹_›, rfl, rfl⟩
    · rename_i hcand
      split at h
      · cases h
      · rename_i ctx hctx
        generalize mkSpecMask ((getBoolMask kinds args.length (hasAttr c)).toList.zip args) st.ngen = m at h ⊢
        obtain ⟨mask, fvars, fvarVals⟩ := m
        split at h
        · cases h
        · rename_i key hkey
          refine .inr ⟨ctx, mask, fvars, fvarVals, key, hcand, hctx, rfl, hkey, ?_⟩
          split at h
          · obtain ⟨rfl, rfl⟩ := hres h
            exact .inl ⟨_, ‹_›, rfl, rfl⟩
          · refine .inr ⟨‹_›, ?_⟩
            split at h
            · cases h
            · rename_i pst hpre
              obtain ⟨rfl, rfl⟩ := hres h
              exact .inl ⟨pst, rfl, rfl, hpre⟩
            · rename_i n pst hpre
              split at h
              · cases h
              · rename_i st₁ hds
                obtain ⟨rfl, rfl⟩ := hres h
                exact .inr ⟨n, pst, st₁, rfl, rfl, hpre, hds⟩

/-- What `mk_new_decl` gets on a cache miss where `spec_preprocess` succeeds: a well-formed
context; the mask's variables, one per value, undeclared and below the name generator's; values
that refer, with their types, only to the context; and copies that refer only to the parameters
and to the mask's variables. -/
theorem newDecl_inputs (ho : ClosedOracles stage1 infer csimp etaExpand) {fuel c : Nat} {u : Bool}
    {args : List Expr} {st : SpecState} {kinds : List SpecArgKind} {ctx : SpecCtx} {mask : List (Option Expr)}
    {fvars : List Nat} {fvarVals : List Expr} {n : Nat} {pst : PreState} (hg : st.Good)
    (hctx : specializeInitDeps st.lctx fuel kinds (hasAttr c) args = some ctx)
    (hmask : mkSpecMask ((getBoolMask kinds args.length (hasAttr c)).toList.zip args) st.ngen = (mask, fvars, fvarVals))
    (hpre : specPreprocess isCasesOn ext hasAttr mutualDecls ctx.params stage1 mkSpecName fuel c u mask
      ⟨[], [], st.nextIdx, st.lctx, st.ngen + fvars.length⟩ = some (some n, pst)) :
    ctx.WellFormed st.lctx ∧ fvars.length = fvarVals.length ∧ st.ngen ≤ pst.ngen ∧
      (∀ x ∈ fvars, st.lctx.findDecl x = none ∧ x < pst.ngen) ∧
      (∀ v ∈ fvarVals, (∀ y ∈ v.fvars, y ∈ ctx.vars) ∧ ∀ y ∈ (infer st.lctx v).fvars, y ∈ ctx.vars) ∧
      ∀ d ∈ pst.preDecls, ∀ y ∈ d.code.fvars, y ∈ ctx.vars ∨ y ∈ fvars := by
  obtain ⟨hc, hfix⟩ := specializeInitDeps_wellFormed hctx
  obtain ⟨hrange, hlen, -, hmaskfv, hvals⟩ := mkSpecMask_spec hmask
  have hle := (specPreprocess_advances hpre).1
  refine ⟨hc, hlen, (Nat.le_add_right _ _).trans hle, fun x hx => ?_, fun v hv => ?_, ?_⟩
  · -- the mask's variables are the generator's next names
    have hx := List.mem_range'_1.1 (hrange ▸ hx : x ∈ List.range' st.ngen fvars.length)
    exact ⟨List.find?_eq_none.2 fun d hd => by have := hg.fresh d hd; simp only [beq_iff_eq]; omega,
      hx.2.trans_le hle⟩
  · -- the values are fixed arguments, which refer, and whose types refer, only to the context
    obtain ⟨i, hi, ha⟩ := exists_getD_of_mem_zip (hvals v hv)
    have hvv := hfix i hi v ha
    exact ⟨hvv, fun y hy => (ho.infer_reach _ v y hy).mem_vars hc hvv⟩
  · -- the copies refer only to the parameters and to the mask's variables
    obtain ⟨ds₀, hds₀, hscope⟩ := (specPreprocess_scoped ho.stage1_closed (fun b hb => .inr hb) hpre).preDecls
      fun d hd => (hg.fresh d hd).trans_le (Nat.le_add_right _ _)
    intro d hd y hy
    rw [hds₀, List.nil_append] at hd
    rcases hscope d hd y hy with hy | hy
    · exact .inl (hc.params_sub y hy)
    · rcases hmaskfv _ hy with h | ⟨x, hx, e⟩
      · cases h
      · cases e; exact .inr hx

/-- The call `specialize` returns refers to the parameters and to the free variables of the
arguments. -/
theorem mem_fvars_specCall {n : Nat} {params : List Nat} {bmask : List Bool} {args : List Expr} {y : Nat}
    (h : y ∈ (specCall n params bmask args).fvars) : y ∈ params ∨ ∃ a ∈ args, y ∈ a.fvars := by
  simp only [specCall, fvars_mkAppN, fvars, List.nil_append, List.mem_flatMap, List.mem_append, List.mem_map] at h
  obtain ⟨a, ha | ha, hy⟩ := h
  · obtain ⟨x, hx, rfl⟩ := ha
    exact .inl (List.mem_singleton.1 hy ▸ hx)
  · simp only [unfixedArgs, List.mem_append, List.mem_filterMap] at ha
    refine .inr ⟨a, ?_, hy⟩
    rcases ha with ⟨p, hp, hpa⟩ | ha
    · split_ifs at hpa
      exact Option.some.inj hpa ▸ (List.of_mem_zip hp).2
    · exact List.mem_of_mem_drop ha

/-- One call of `specialize`, from a good state, with a visitor that meets `VisitWalks`: the
local context is as it was, the name generator only advances, and every declaration added is
closed, those of the nested visits included; the call returned refers only to variables of
every set closed under the declarations that holds the arguments'. -/
theorem specialize_walk (ho : ClosedOracles stage1 infer csimp etaExpand) (hv : VisitWalks v)
    {fuel c : Nat} {u : Bool} {args : List Expr} {st st' : SpecState} {r : Option Expr} (hg : st.Good)
    (h : specialize isCasesOn ext hasAttr mutualDecls stage1 mkSpecName whnf isConstructorApp infer isIrrelevant
      csimp etaExpand v fuel c u args st = some (r, st')) :
    st'.lctx = st.lctx ∧ Walk st st' ∧ ∀ S : Nat → Prop, st.lctx.DepClosed S → (∀ a ∈ args, ∀ y ∈ a.fvars, S y) →
      ∀ e ∈ r, ∀ y ∈ e.fvars, S y := by
  obtain ⟨kinds, -, ⟨-, rfl, rfl⟩ | ⟨ctx, mask, fvars, fvarVals, key, -, hctx, hmask, -, hr⟩⟩ := specialize_cases h
  · exact ⟨rfl, .refl _, fun _ _ _ => nofun⟩
  -- the call refers to the parameters, which the context holds, and to the arguments
  have hcall : ∀ n, ∀ S : Nat → Prop, st.lctx.DepClosed S → (∀ a ∈ args, ∀ y ∈ a.fvars, S y) →
      ∀ e ∈ some (specCall n ctx.params (getBoolMask kinds args.length (hasAttr c)).toList args), ∀ y ∈ e.fvars, S y :=
    fun n S hS hargs e he y hy => by
      obtain rfl := Option.mem_some_iff.1 he
      rcases mem_fvars_specCall hy with hy | ⟨a, ha, hya⟩
      · exact specializeInitDeps_vars_sub hS hctx hargs y ((specializeInitDeps_wellFormed hctx).1.params_sub y hy)
      · exact hargs a ha y hya
  rcases hr with ⟨n, -, rfl, rfl⟩ | ⟨-, ⟨pst, rfl, rfl, hpre⟩ | ⟨n, pst, st₁, rfl, rfl, hpre, hds⟩⟩
  · exact ⟨rfl, ⟨Nat.le_add_right _ _, [], by simp, by simp⟩, hcall n⟩
  · exact ⟨rfl, ⟨(Nat.le_add_right _ _).trans (specPreprocess_advances hpre).1, [], by simp, by simp⟩,
      fun _ _ _ => nofun⟩
  · obtain ⟨hc, hlen, hle, hnew, hvals, hcode⟩ := newDecl_inputs ho hg hctx hmask hpre
    have hw₀ : Walk st { st with ngen := pst.ngen, nextIdx := pst.nextIdx } := ⟨hle, [], by simp, by simp⟩
    have hg₀ : ({ st with ngen := pst.ngen, nextIdx := pst.nextIdx } : SpecState).Good := hg.of_walk rfl hw₀
    obtain ⟨hl, hw⟩ := mkNewDecls_walk ho hv hlen hg₀ hc hnew hvals hcode hds
    exact ⟨hl, ⟨(hw₀.trans hw).ngen_le, (hw₀.trans hw).newDecls⟩, hcall n⟩

/-- What a run of `specialize` does to the global cache, with a visitor whose runs do the same:
`m_new_decls` only grows, and the entry a miss adds names one of the declarations
`mk_new_decl` adds, the specialization of the call itself. -/
theorem specialize_gcache (hv : ∀ ⦃e st r st'⦄, v e st = some (r, st') → CacheWalk st st') {fuel c : Nat}
    {u : Bool} {args : List Expr} {st st' : SpecState} {r : Option Expr}
    (h : specialize isCasesOn ext hasAttr mutualDecls stage1 mkSpecName whnf isConstructorApp infer isIrrelevant
      csimp etaExpand v fuel c u args st = some (r, st')) :
    CacheWalk st st' := by
  obtain ⟨kinds, -, ⟨-, -, rfl⟩ | ⟨ctx, mask, fvars, fvarVals, key, -, -, -, -, hr⟩⟩ := specialize_cases h
  · exact .of_eq rfl rfl
  rcases hr with ⟨n, -, -, rfl⟩ | ⟨-, ⟨pst, -, rfl, -⟩ | ⟨n, pst, st₁, -, rfl, hpre, hds⟩⟩
  · exact .of_eq rfl rfl
  · exact .of_eq rfl rfl
  obtain ⟨hcw, hnames⟩ := mkNewDecls_cacheWalk hv hds
  have h₀ : CacheWalk st { st with ngen := pst.ngen, nextIdx := pst.nextIdx } := .of_eq rfl rfl
  refine (h₀.trans hcw).trans ⟨⟨[], by simp⟩, fun p hp => ?_⟩
  rcases List.mem_append.1 hp with hp | hp
  · -- the entry of the call: its name is that of a pre-declaration, which `mk_new_decl` adds
    obtain ⟨k, -, rfl⟩ : ∃ k, key = some k ∧ p = (k, n) := by cases key <;> simp_all
    obtain ⟨d, hd, rfl⟩ := List.mem_map.1 ((specPreprocess_name_mem hpre).resolve_left nofun)
    exact .inr (hnames d hd)
  · exact .inl hp

/-- What a run of `specialize` does to the names of `m_new_decls`, with a visitor whose runs
do the same and a `mk_spec_name` that tells indices apart: every declaration added has a name
of its own, made from an index the run took. -/
theorem specialize_names (hinj : ∀ c i c' i', mkSpecName c i = mkSpecName c' i' → i = i')
    (hv : ∀ ⦃e st r st'⦄, v e st = some (r, st') → NameWalk mkSpecName st st') {fuel c : Nat} {u : Bool}
    {args : List Expr} {st st' : SpecState} {r : Option Expr}
    (h : specialize isCasesOn ext hasAttr mutualDecls stage1 mkSpecName whnf isConstructorApp infer isIrrelevant
      csimp etaExpand v fuel c u args st = some (r, st')) :
    NameWalk mkSpecName st st' := by
  obtain ⟨kinds, -, ⟨-, -, rfl⟩ | ⟨ctx, mask, fvars, fvarVals, key, -, -, -, -, hr⟩⟩ := specialize_cases h
  · exact .of_eq rfl rfl
  rcases hr with ⟨n, -, -, rfl⟩ | ⟨-, ⟨pst, -, rfl, hpre⟩ | ⟨n, pst, st₁, -, rfl, hpre, hds⟩⟩
  · exact .of_eq rfl rfl
  · exact ⟨(specPreprocess_advances hpre).2.2, [], by simp, List.nodup_nil, nofun⟩
  -- the pre-declarations' names come from the indices `spec_preprocess` took
  have hle := (specPreprocess_advances hpre).2.2
  obtain ⟨hnd, hpn⟩ := specPreprocess_preDecl_names hinj rfl rfl hpre
  have hpn : ∀ d ∈ pst.preDecls, SpecNameIn mkSpecName st.nextIdx pst.nextIdx d.name := hpn
  obtain ⟨hle', ds, e, hnd', hm⟩ := mkNewDecls_names hinj hv hds hnd hpn
  refine ⟨hle.trans hle', ds, e, hnd', fun d hd => ?_⟩
  rcases hm d hd with h | h
  · obtain ⟨p, hp, e⟩ := List.mem_map.1 h
    exact e ▸ (hpn p hp).mono le_rfl hle'
  · exact h.mono hle le_rfl

end Runs

end Compiler

end Lean4Core
