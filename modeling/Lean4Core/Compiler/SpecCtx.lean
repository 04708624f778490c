import Lean4Core.Compiler.Specialize

/-!
# The context of a specialization

`dep_collector`, `specialize_init_deps`, `abstract_spec_ctx` and the assertion that closes
`mk_new_decl` (`specialize.cpp`, `unnamed/part_003`, lines 531–690 and 875–931). The
collector gathers the free variables that the fixed arguments of a call depend on
(`m_vars`), through the types of variables and the values of let-variables, and chooses the
ones the specialization lambda-abstracts (`m_params`): every variable without a value, and a
let-variable that is no join point when it occurs under a binder, so that the specialized code
does not recompute it; the other let-variables are let-bound inside the specialization.
`abstract_spec_ctx` then binds every variable of `m_vars` around the specialized code, the
last one innermost, each binder's type and value abstracted over the variables before it, and
`mk_new_decl` asserts that what it gets has no free variable.

Main results:
- `collect_grows`: a run of the collector keeps its bookkeeping invariant (`DepState.Inv`)
  and leaves every variable it adds with its dependencies collected (`DepState.Grows`);
- `collect_isSome`: in a well-scoped local context the collector returns, for enough fuel,
  on every expression whose free variables are declared;
- `abstractSpecCtx_closed`: for a well-formed context, abstraction closes every code whose
  free variables the context holds;
- `specialization_closed`: together, `lean_assert(!has_fvar(code))` in `mk_new_decl` holds;
- `specialization_params_order`: the abstraction binds the context's variables in order, and
  the ones it binds with a lambda are exactly its parameters, in order: the arguments that
  `specialize` passes to the new declaration line up with its binders.
-/

namespace Lean4Core

namespace Compiler

open Expr

namespace LocalCtx

/-- Specification: every declaration's type and value refer only to declarations
made before it, as in a local context that `mk_local_decl` builds. -/
structure WellScoped (lctx : LocalCtx) : Prop where
  types : ∀ j (hj : j < lctx.length), ∀ x ∈ lctx[j].type.fvars, lctx.index x < j
  values : lctx.LetValuesEarlier

end LocalCtx

variable (lctx : LocalCtx)

/-! ## The collector's bookkeeping -/

namespace DepState

/-- Specification: the bookkeeping of a `dep_collector`. -/
structure Inv (st : DepState) : Prop where
  /-- `m_vars` holds the visited variables, in either position, ... -/
  mem_vars : ∀ y, y ∈ st.vars ↔ y ∈ st.visitedNotInBinder ∨ y ∈ st.visitedInBinder
  /-- ... each once. -/
  nodup_vars : st.vars.Nodup
  /-- `m_params` holds the declared variables without a value, and the let-variables that are
  no join point and were met under a binder, ... -/
  mem_params : ∀ y, y ∈ st.params ↔ y ∈ st.vars ∧ ∃ d, lctx.findDecl y = some d ∧
    (d.value = none ∨ (y ∈ st.visitedInBinder ∧ d.isJoinPoint = false))
  /-- ... each once. -/
  nodup_params : st.params.Nodup

theorem inv_empty : Inv lctx {} := ⟨by simp, List.nodup_nil, by simp, List.nodup_nil⟩

/-- Specification: what the specialized code needs of the variable `x` is in
`m_vars`: `x` is declared, and the variables of its type and, unless `x` is
lambda-abstracted, those of its value are collected. -/
def DepsCollected (st : DepState) (x : Nat) : Prop :=
  ∃ d, lctx.findDecl x = some d ∧ (∀ y ∈ d.type.fvars, y ∈ st.vars) ∧
    (x ∉ st.params → ∀ v, d.value = some v → ∀ y ∈ v.fvars, y ∈ st.vars)

/-- What a run of the collector from `st` to `st'` guarantees: the invariant, nothing visited
or collected forgotten, and the dependencies of every variable it adds collected. -/
structure Grows (st st' : DepState) : Prop where
  inv : Inv lctx st'
  vars_sub : ∀ y ∈ st.vars, y ∈ st'.vars
  inBinder_sub : ∀ y ∈ st.visitedInBinder, y ∈ st'.visitedInBinder
  collected : ∀ y ∈ st'.vars, y ∉ st.vars → DepsCollected lctx st' y

variable {lctx}

theorem Inv.mem_vars_of_visited {st : DepState} (hi : Inv lctx st) {b : Bool} {x : Nat}
    (hx : x ∈ if b then st.visitedInBinder else st.visitedNotInBinder) : x ∈ st.vars := by
  cases b <;> simp_all [hi.mem_vars]

theorem Inv.params_sub {st : DepState} (hi : Inv lctx st) {y : Nat} (hy : y ∈ st.params) :
    y ∈ st.vars :=
  ((hi.mem_params y).1 hy).1

/-- Parameters are never dropped: a run only adds variables and visits. -/
theorem Inv.params_mono {st st' : DepState} (hi : Inv lctx st) (hi' : Inv lctx st')
    (hv : ∀ y ∈ st.vars, y ∈ st'.vars) (hb : ∀ y ∈ st.visitedInBinder, y ∈ st'.visitedInBinder)
    {y : Nat} (hy : y ∈ st.params) : y ∈ st'.params := by
  obtain ⟨hy, d, hd, hval⟩ := (hi.mem_params y).1 hy
  exact (hi'.mem_params y).2 ⟨hv y hy, d, hd, hval.imp_right fun h => ⟨hb y h.1, h.2⟩⟩

theorem DepsCollected.mono {st st' : DepState} {x : Nat} (h : DepsCollected lctx st x)
    (hv : ∀ y ∈ st.vars, y ∈ st'.vars) (hp : ∀ y ∈ st.params, y ∈ st'.params) :
    DepsCollected lctx st' x := by
  obtain ⟨d, hd, ht, hval⟩ := h
  exact ⟨d, hd, fun y hy => hv y (ht y hy),
    fun hx v hvd y hy => hv y (hval (fun h => hx (hp x h)) v hvd y hy)⟩

theorem Grows.refl {st : DepState} (hi : Inv lctx st) : Grows lctx st st :=
  ⟨hi, fun _ => id, fun _ => id, fun _ h h' => absurd h h'⟩

theorem Grows.trans {st₁ st₂ st₃ : DepState} (h₁ : Grows lctx st₁ st₂)
    (h₂ : Grows lctx st₂ st₃) : Grows lctx st₁ st₃ := by
  refine ⟨h₂.inv, fun y hy => h₂.vars_sub y (h₁.vars_sub y hy),
    fun y hy => h₂.inBinder_sub y (h₁.inBinder_sub y hy), fun y hy hn => ?_⟩
  by_cases h : y ∈ st₂.vars
  · exact (h₁.collected y h hn).mono h₂.vars_sub
      fun z hz => h₁.inv.params_mono h₂.inv h₂.vars_sub h₂.inBinder_sub hz
  · exact h₂.collected y hy h

end DepState

open DepState

variable {lctx}

/-- The step of the collector. When `collect_fvar` meets `x` for the first time in its
position, `x` becomes visited there and is a variable, no other variable is added, and the
value left to collect is `x`'s own unless `x` has become a parameter. -/
theorem markFVar_spec {b : Bool} {x : Nat} {d : LocalDecl} {st : DepState} (hi : Inv lctx st)
    (hd : lctx.findDecl x = some d) (hx : x ∉ if b then st.visitedInBinder else st.visitedNotInBinder) :
    Inv lctx (markFVar b x d st).1 ∧ (∀ y, y ∈ (markFVar b x d st).1.vars ↔ y ∈ st.vars ∨ y = x) ∧
    (∀ y ∈ st.visitedInBinder, y ∈ (markFVar b x d st).1.visitedInBinder) ∧
    (x ∉ (markFVar b x d st).1.params → (markFVar b x d st).2 = d.value) := by
  have hv := hi.mem_vars
  have hp := hi.mem_params
  cases b with
  | false =>
    simp only [Bool.false_eq_true, if_false] at hx
    by_cases hib : x ∈ st.visitedInBinder
    · simp only [markFVar, Bool.not_false, if_true, hib]
      refine ⟨⟨fun y => ?_, hi.nodup_vars, hp, hi.nodup_params⟩, fun y => ?_, fun _ => id, fun _ => trivial⟩
      · by_cases e : y = x <;> simp [hv, e, hib]
      · by_cases e : y = x <;> simp [hv, e, hib]
    · have hxv : x ∉ st.vars := by simp [hv, hx, hib]
      have hxp : x ∉ st.params := fun h => hxv (hi.params_sub h)
      simp only [markFVar, Bool.not_false, if_true, hib, if_false]
      refine ⟨⟨fun y => ?_, ?_, fun y => ?_, ?_⟩, fun y => by simp, fun _ => id, fun _ => trivial⟩
      · by_cases e : y = x <;> simp [hv, e]
      · simpa [List.nodup_append] using ⟨hi.nodup_vars, hxv⟩
      · by_cases e : y = x
        · subst e; cases h : d.value <;> simp [hd, h, hib, hxp]
        · cases d.value <;> simp [hp, e]
      · cases d.value
        · simpa [List.nodup_append] using ⟨hi.nodup_params, hxp⟩
        · exact hi.nodup_params
  | true =>
    simp only [if_true] at hx
    by_cases hnib : x ∈ st.visitedNotInBinder
    · have hxv : x ∈ st.vars := by simp [hv, hnib]
      have hxp : x ∈ st.params ↔ d.value = none := by simp [hp, hxv, hd, hx]
      simp only [markFVar, Bool.not_true, Bool.false_eq_true, if_false, hnib, if_true]
      split_ifs with hadd
      · simp only [Bool.and_eq_true, Option.isSome_iff_ne_none, Bool.not_eq_true'] at hadd
        refine ⟨⟨fun y => ?_, hi.nodup_vars, fun y => ?_, ?_⟩, fun y => ?_, fun _ => List.mem_cons_of_mem _,
          fun h => absurd (List.mem_append_right _ (List.mem_singleton_self x)) h⟩
        · by_cases e : y = x <;> simp [hv, e, hnib]
        · by_cases e : y = x
          · subst e; simp [hxv, hd, hadd.2]
          · simp [hp, e]
        · simpa [List.nodup_append] using ⟨hi.nodup_params, fun h => hadd.1 (hxp.1 h)⟩
        · by_cases e : y = x <;> simp [e, hxv]
      · simp only [Bool.and_eq_true, Option.isSome_iff_ne_none, Bool.not_eq_true', not_and,
          Bool.not_eq_false] at hadd
        refine ⟨⟨fun y => ?_, hi.nodup_vars, fun y => ?_, hi.nodup_params⟩, fun y => ?_,
          fun _ => List.mem_cons_of_mem _, fun _ => rfl⟩
        · by_cases e : y = x <;> simp [hv, e, hnib]
        · by_cases e : y = x
          · subst e
            by_cases hn : d.value = none
            · simp [hxp.2 hn, hxv, hd, hn]
            · simp [hxp, hn, hd, hadd hn]
          · simp [hp, e]
        · by_cases e : y = x <;> simp [e, hxv]
    · have hxv : x ∉ st.vars := by simp [hv, hx, hnib]
      have hxp : x ∉ st.params := fun h => hxv (hi.params_sub h)
      simp only [markFVar, Bool.not_true, Bool.false_eq_true, if_false, hnib]
      split_ifs with hadd
      · refine ⟨⟨fun y => ?_, ?_, fun y => ?_, ?_⟩, fun y => by simp, fun _ => List.mem_cons_of_mem _,
          fun h => absurd (List.mem_append_right _ (List.mem_singleton_self x)) h⟩
        · by_cases e : y = x <;> simp [hv, e]
        · simpa [List.nodup_append] using ⟨hi.nodup_vars, hxv⟩
        · by_cases e : y = x
          · subst e
            simp only [Bool.or_eq_true, Option.isNone_iff_eq_none, Bool.not_eq_true'] at hadd
            simp [hd, hadd]
          · simp [hp, e]
        · simpa [List.nodup_append] using ⟨hi.nodup_params, hxp⟩
      · simp only [Bool.or_eq_true, Option.isNone_iff_eq_none, Bool.not_eq_true', not_or,
          Bool.not_eq_false] at hadd
        refine ⟨⟨fun y => ?_, ?_, fun y => ?_, hi.nodup_params⟩, fun y => by simp,
          fun _ => List.mem_cons_of_mem _, fun _ => rfl⟩
        · by_cases e : y = x <;> simp [hv, e]
        · simpa [List.nodup_append] using ⟨hi.nodup_vars, hxv⟩
        · by_cases e : y = x
          · subst e; simp [hd, hadd, hxp]
          · simp [hp, e]

/-- Two runs in sequence: what each collects, the composite collects. -/
theorem grows_seq {st s₁ st' : DepState} {P₁ P₂ : Nat → Prop}
    (h₁ : Grows lctx st s₁ ∧ ∀ y, P₁ y → y ∈ s₁.vars) (h₂ : Grows lctx s₁ st' ∧ ∀ y, P₂ y → y ∈ st'.vars) :
    Grows lctx st st' ∧ ∀ y, P₁ y ∨ P₂ y → y ∈ st'.vars :=
  ⟨h₁.1.trans h₂.1, fun y hy => hy.elim (fun hy => h₂.1.vars_sub y (h₁.2 y hy)) (h₂.2 y)⟩

/-- The run of the collector. Over `e`, it keeps the invariant, collects every free variable
of `e`, and collects the dependencies of every variable it adds. -/
theorem collect_grows : ∀ {fuel : Nat} {e : Expr} {b : Bool} {st st' : DepState},
    collect lctx fuel e b st = some st' → Inv lctx st →
    Grows lctx st st' ∧ ∀ y ∈ e.fvars, y ∈ st'.vars
  | 0, _, _, _, _, h, _ => by simp [collect] at h
  | fuel + 1, e, b, st, st', h, hi => by
    by_cases hf : e.hasFVar = false
    · obtain rfl : st = st' := by simpa [collect, hf] using h
      exact ⟨Grows.refl hi, by simp [(hasFVar_eq_false_iff e).1 hf]⟩
    simp only [Bool.not_eq_false] at hf
    cases e with
    | fvar x =>
      simp only [collect, hf, Bool.not_true, Bool.false_eq_true, if_false] at h
      by_cases hvis : x ∈ if b then st.visitedInBinder else st.visitedNotInBinder
      · rw [if_pos hvis] at h
        cases h
        exact ⟨Grows.refl hi, by simpa [fvars] using hi.mem_vars_of_visited hvis⟩
      rw [if_neg hvis] at h
      obtain ⟨d, hd, h⟩ := Option.bind_eq_some.1 h
      obtain ⟨hi₁, hv₁, hb₁, hval₁⟩ := markFVar_spec hi hd hvis
      generalize markFVar b x d st = p at h hi₁ hv₁ hb₁ hval₁
      obtain ⟨st₁, v⟩ := p
      dsimp only at h hi₁ hv₁ hb₁ hval₁
      obtain ⟨st₂, h₂, h⟩ := Option.bind_eq_some.1 h
      obtain ⟨g₂, ht⟩ := collect_grows h₂ hi₁
      have hrun : Grows lctx st₂ st' ∧ ∀ w, v = some w → ∀ y ∈ w.fvars, y ∈ st'.vars := by
        cases v with
        | none => cases h; exact ⟨Grows.refl g₂.inv, fun _ h => nomatch h⟩
        | some w =>
          obtain ⟨g₃, hw⟩ := collect_grows h g₂.inv
          exact ⟨g₃, fun _ h => Option.some.inj h ▸ hw⟩
      have g := g₂.trans hrun.1
      have hx : DepsCollected lctx st' x := by
        refine ⟨d, hd, fun y hy => hrun.1.vars_sub y (ht y hy), fun hxp w hw => ?_⟩
        refine hrun.2 w ((hval₁ fun h => hxp ?_).trans hw)
        exact hi₁.params_mono g.inv g.vars_sub g.inBinder_sub h
      refine ⟨⟨g.inv, fun y hy => g.vars_sub y ((hv₁ y).2 (.inl hy)),
        fun y hy => g.inBinder_sub y (hb₁ y hy), fun y hy hn => ?_⟩, ?_⟩
      · by_cases h₁ : y ∈ st₁.vars
        · obtain rfl := ((hv₁ y).1 h₁).resolve_left hn
          exact hx
        · exact g.collected y hy h₁
      · simpa [fvars] using g.vars_sub x ((hv₁ x).2 (.inr rfl))
    | app f a =>
      obtain ⟨s₁, h₁, h₂⟩ := Option.bind_eq_some.1 (by simpa [collect, hf] using h)
      obtain ⟨g, hm⟩ := grows_seq (collect_grows h₁ hi) (collect_grows h₂ (collect_grows h₁ hi).1.inv)
      exact ⟨g, fun y hy => hm y (by simpa [fvars, or_comm] using hy)⟩
    | lam d b' | forallE d b' =>
      obtain ⟨s₁, h₁, h₂⟩ := Option.bind_eq_some.1 (by simpa [collect, hf] using h)
      obtain ⟨g, hm⟩ := grows_seq (collect_grows h₁ hi) (collect_grows h₂ (collect_grows h₁ hi).1.inv)
      exact ⟨g, fun y hy => hm y (by simpa [fvars] using hy)⟩
    | letE t v b' =>
      obtain ⟨s₂, h₁, h₃⟩ := Option.bind_eq_some.1 (by simpa [collect, hf] using h)
      obtain ⟨s₁, h₁, h₂⟩ := Option.bind_eq_some.1 h₁
      have g₁ := collect_grows h₁ hi
      have g₂ := grows_seq g₁ (collect_grows h₂ g₁.1.inv)
      obtain ⟨g, hm⟩ := grows_seq g₂ (collect_grows h₃ g₂.1.inv)
      exact ⟨g, fun y hy => hm y (by simpa [fvars, or_assoc] using hy)⟩
    | mdata e | proj _ e =>
      have h : collect lctx fuel e b st = some st' := by simpa [collect, hf] using h
      have g := collect_grows h hi
      exact g
    | bvar _ | sort _ | const _ _ | lit _ => simp [hasFVar] at hf

/-- A run of the collector per argument, as the loop of `specialize_init_deps` makes them. -/
theorem foldlM_collect_grows (fuel : Nat) (arg : Nat → Expr) : ∀ {L : List Nat} {st st' : DepState},
    L.foldlM (fun st i => collect lctx fuel (arg i) false st) st = some st' → Inv lctx st →
    Grows lctx st st' ∧ ∀ i ∈ L, ∀ y ∈ (arg i).fvars, y ∈ st'.vars
  | [], st, st', h, hi => by cases h; exact ⟨Grows.refl hi, by simp⟩
  | i :: L, st, st', h, hi => by
    obtain ⟨s₁, h₁, h₂⟩ := Option.bind_eq_some.1 h
    have g₁ := collect_grows h₁ hi
    have g₂ := foldlM_collect_grows fuel arg h₂ g₁.1.inv
    refine ⟨g₁.1.trans g₂.1, fun j hj y hy => ?_⟩
    rcases List.mem_cons.1 hj with rfl | hj
    · exact g₂.1.vars_sub y (g₁.2 y hy)
    · exact g₂.2 j hj y hy

/-- The positions whose arguments `specialize_init_deps` collects are those `get_bool_mask`
sets. -/
theorem specializeInitDepsAux_eq_foldlM (fuel : Nat) (kinds : List SpecArgKind) (hasAttr : Bool)
    (args : List Expr) :
    specializeInitDepsAux lctx fuel hasAttr (kinds.zip args).reverse false {} =
      ((List.range (kinds.zip args).length).reverse.filter
          (fixedAt (kinds.take args.length) hasAttr false)).foldlM
        (fun st i => collect lctx fuel (args.getD i placeholder) false st) {} := by
  rw [specializeInitDepsAux_eq lctx (args.getD · placeholder) fuel hasAttr _
    (fun i h => by dsimp only; rw [List.getD_eq_getElem _ _ (List.lt_length_right_of_zip h)]; simp),
    map_fst_zip_eq_take]

theorem mem_filter_fixedAt_of_getBoolMask {kinds : List SpecArgKind} {hasAttr : Bool}
    {args : List Expr} {i : Nat} (hi : (getBoolMask kinds args.length hasAttr).getD i false = true) :
    i ∈ (List.range (kinds.zip args).length).reverse.filter (fixedAt (kinds.take args.length) hasAttr false) := by
  rw [getBoolMask, getD_toBoolMask] at hi
  have hlt : i < (kinds.zip args).length := by
    by_contra h
    rw [fixedAt_of_length_le (by simp at h ⊢; omega)] at hi
    exact Bool.false_ne_true hi
  exact List.mem_filter.2 ⟨by simpa using hlt, hi⟩

/-- What `specialize_init_deps` returns: a run of the collector from the empty state, over
every argument the mask fixes, with both lists sorted. -/
theorem specializeInitDeps_grows {fuel : Nat} {kinds : List SpecArgKind} {hasAttr : Bool}
    {args : List Expr} {ctx : SpecCtx} (h : specializeInitDeps lctx fuel kinds hasAttr args = some ctx) :
    ∃ st, Grows lctx {} st ∧ ctx = ⟨lctx.sortFVars st.vars, lctx.sortFVars st.params⟩ ∧
      ∀ i, (getBoolMask kinds args.length hasAttr).getD i false = true →
        ∀ a, args[i]? = some a → ∀ y ∈ a.fvars, y ∈ st.vars := by
  obtain ⟨st, hst, rfl⟩ := Option.map_eq_some'.1 h
  rw [specializeInitDepsAux_eq_foldlM] at hst
  obtain ⟨g, hm⟩ := foldlM_collect_grows fuel _ hst (inv_empty lctx)
  refine ⟨st, g, rfl, fun i hi a ha y hy => hm i (mem_filter_fixedAt_of_getBoolMask hi) y ?_⟩
  rwa [List.getD_eq_getElem?_getD, ha, Option.getD_some]

/-! ## The collector returns -/

theorem bind_isSome {α β : Type} {x : Option α} {f : α → Option β} (hx : x.isSome)
    (hf : ∀ a, (f a).isSome) : (x.bind f).isSome := by
  obtain ⟨a, rfl⟩ := Option.isSome_iff_exists.1 hx
  exact hf a

theorem markFVar_snd (b : Bool) (x : Nat) (d : LocalDecl) (st : DepState) :
    (markFVar b x d st).2 = none ∨ (markFVar b x d st).2 = d.value := by
  unfold markFVar
  split_ifs <;> dsimp only <;> split_ifs <;> simp

/-- In a well-scoped context, the collector returns, for enough fuel, from every state, on an
expression whose free variables are declared before position `B`: by induction on `B`, as the
collector only follows a variable to the type and value of its declaration, which refer to
earlier declarations. -/
theorem collect_isSome (hw : lctx.WellScoped) : ∀ B (e : Expr), B ≤ lctx.length →
    (∀ x ∈ e.fvars, lctx.index x < B) →
    ∃ N, ∀ fuel, N ≤ fuel → ∀ b st, (collect lctx fuel e b st).isSome := by
  intro B
  induction B with
  | zero =>
    intro e _ he
    have hf : e.hasFVar = false := (hasFVar_eq_false_iff e).2 <|
      List.eq_nil_iff_forall_not_mem.2 fun x hx => Nat.not_lt_zero _ (he x hx)
    exact ⟨1, fun fuel hN b st => by
      obtain ⟨fuel, rfl⟩ : ∃ f, fuel = f + 1 := ⟨fuel - 1, by omega⟩
      simp [collect, hf]⟩
  | succ B ihB =>
    intro e hB he
    induction e with
    | fvar x =>
      have hx : lctx.index x < lctx.length := by simpa [fvars] using (he x (by simp [fvars])).trans_le hB
      have hxB : lctx.index x ≤ B := Nat.lt_succ_iff.1 (he x (by simp [fvars]))
      have hd : lctx.findDecl x = some lctx[lctx.index x] := by
        rw [lctx.findDecl_eq_getElem? x, List.getElem?_eq_getElem hx]
      obtain ⟨Nt, hNt⟩ := ihB lctx[lctx.index x].type (by omega)
        fun y hy => (hw.types _ hx y hy).trans_le hxB
      have hv : ∃ N, ∀ fuel, N ≤ fuel → ∀ w, lctx[lctx.index x].value = some w →
          ∀ b st, (collect lctx fuel w b st).isSome := by
        cases hval : lctx[lctx.index x].value with
        | none => exact ⟨0, fun _ _ _ h => nomatch h⟩
        | some w =>
          obtain ⟨Nv, hNv⟩ := ihB w (by omega) fun y hy => (hw.values _ hx w hval y hy).trans_le hxB
          exact ⟨Nv, fun fuel hN w' h => Option.some.inj h ▸ hNv fuel hN⟩
      obtain ⟨Nv, hNv⟩ := hv
      refine ⟨max Nt Nv + 1, fun fuel hN b st => ?_⟩
      obtain ⟨fuel, rfl⟩ : ∃ f, fuel = f + 1 := ⟨fuel - 1, by omega⟩
      have hN : max Nt Nv ≤ fuel := by omega
      simp only [collect, hasFVar, Bool.not_true, Bool.false_eq_true, if_false]
      by_cases hvis : x ∈ if b then st.visitedInBinder else st.visitedNotInBinder
      · rw [if_pos hvis]; rfl
      rw [if_neg hvis, hd, Option.bind_eq_bind, Option.some_bind]
      generalize hm : markFVar b x lctx[lctx.index x] st = p
      obtain ⟨st₁, v⟩ := p
      obtain ⟨st₂, h₂⟩ := Option.isSome_iff_exists.1 (hNt fuel (by omega) b st₁)
      simp only [h₂, Option.some_bind]
      have hv : v = none ∨ v = lctx[lctx.index x].value := by
        simpa [hm] using markFVar_snd b x lctx[lctx.index x] st
      cases v with
      | none => rfl
      | some w => exact hNv fuel (by omega) w (hv.resolve_left nofun).symm b st₂
    | app f a ihf iha =>
      obtain ⟨Nf, hNf⟩ := ihf fun x hx => he x (List.mem_append_left _ hx)
      obtain ⟨Na, hNa⟩ := iha fun x hx => he x (List.mem_append_right _ hx)
      refine ⟨max Nf Na + 1, fun fuel hN b st => ?_⟩
      obtain ⟨fuel, rfl⟩ : ∃ f, fuel = f + 1 := ⟨fuel - 1, by omega⟩
      simp only [collect]
      split_ifs
      · rfl
      · exact bind_isSome (hNa fuel (by omega) b st) fun s => hNf fuel (by omega) b s
    | lam d b' ihd ihb | forallE d b' ihd ihb =>
      obtain ⟨Nd, hNd⟩ := ihd fun x hx => he x (List.mem_append_left _ hx)
      obtain ⟨Nb, hNb⟩ := ihb fun x hx => he x (List.mem_append_right _ hx)
      refine ⟨max Nd Nb + 1, fun fuel hN b st => ?_⟩
      obtain ⟨fuel, rfl⟩ : ∃ f, fuel = f + 1 := ⟨fuel - 1, by omega⟩
      simp only [collect]
      split_ifs
      · rfl
      · exact bind_isSome (hNd fuel (by omega) b st) fun s => hNb fuel (by omega) true s
    | letE t v b' iht ihv ihb =>
      obtain ⟨Nt, hNt⟩ := iht fun x hx => he x (by simp [fvars, hx])
      obtain ⟨Nv, hNv⟩ := ihv fun x hx => he x (by simp [fvars, hx])
      obtain ⟨Nb, hNb⟩ := ihb fun x hx => he x (by simp [fvars, hx])
      refine ⟨max Nt (max Nv Nb) + 1, fun fuel hN b st => ?_⟩
      obtain ⟨fuel, rfl⟩ : ∃ f, fuel = f + 1 := ⟨fuel - 1, by omega⟩
      simp only [collect]
      split_ifs
      · rfl
      · exact bind_isSome (bind_isSome (hNt fuel (by omega) b st) fun s => hNv fuel (by omega) b s)
          fun s => hNb fuel (by omega) b s
    | mdata e ih | proj _ e ih =>
      obtain ⟨N, hN⟩ := ih he
      refine ⟨N + 1, fun fuel hN' b st => ?_⟩
      obtain ⟨fuel, rfl⟩ : ∃ f, fuel = f + 1 := ⟨fuel - 1, by omega⟩
      simp only [collect]
      split_ifs
      · rfl
      · exact hN fuel (by omega) b st
    | bvar _ | sort _ | const _ _ | lit _ =>
      exact ⟨1, fun fuel hN b st => by
        obtain ⟨fuel, rfl⟩ : ∃ f, fuel = f + 1 := ⟨fuel - 1, by omega⟩
        simp [collect, hasFVar]⟩

theorem foldlM_collect_isSome (fuel : Nat) (arg : Nat → Expr) :
    ∀ {L : List Nat}, (∀ i ∈ L, ∀ st, (collect lctx fuel (arg i) false st).isSome) →
      ∀ st, (L.foldlM (fun st i => collect lctx fuel (arg i) false st) st).isSome
  | [], _, _ => rfl
  | i :: _, h, st => bind_isSome (h i (List.mem_cons_self _ _) st) fun s =>
      foldlM_collect_isSome fuel arg (fun j hj => h j (List.mem_cons_of_mem _ hj)) s

/-- A bound on the fuel that serves every expression of a list. -/
theorem exists_fuel_forall_mem {P : Expr → Nat → Prop} :
    ∀ l : List Expr, (∀ a ∈ l, ∃ N, ∀ fuel, N ≤ fuel → P a fuel) →
      ∃ N, ∀ fuel, N ≤ fuel → ∀ a ∈ l, P a fuel
  | [], _ => ⟨0, fun _ _ _ h => nomatch h⟩
  | a :: l, h => by
    obtain ⟨Na, hNa⟩ := h a (List.mem_cons_self _ _)
    obtain ⟨Nl, hNl⟩ := exists_fuel_forall_mem l fun b hb => h b (List.mem_cons_of_mem _ hb)
    refine ⟨max Na Nl, fun fuel hN b hb => ?_⟩
    rcases List.mem_cons.1 hb with rfl | hb
    exacts [hNa fuel (by omega), hNl fuel (by omega) b hb]

/-- In a well-scoped context, `specialize_init_deps` returns, for enough fuel, on every call
whose arguments have their free variables declared. -/
theorem specializeInitDeps_isSome (hw : lctx.WellScoped) (kinds : List SpecArgKind) (hasAttr : Bool)
    (args : List Expr) (hdecl : ∀ a ∈ args, ∀ x ∈ a.fvars, (lctx.findDecl x).isSome) :
    ∃ N, ∀ fuel, N ≤ fuel → (specializeInitDeps lctx fuel kinds hasAttr args).isSome := by
  obtain ⟨N, hN⟩ := exists_fuel_forall_mem (P := fun a fuel => ∀ b st, (collect lctx fuel a b st).isSome)
    (placeholder :: args) fun a ha => collect_isSome hw _ a le_rfl fun x hx => by
      rcases List.mem_cons.1 ha with rfl | ha
      · simp [placeholder, fvars] at hx
      · exact LocalCtx.index_lt_length_of_findDecl (hdecl a ha x hx)
  refine ⟨N, fun fuel hf => ?_⟩
  rw [specializeInitDeps, Option.isSome_map', specializeInitDepsAux_eq_foldlM]
  refine foldlM_collect_isSome fuel _ (fun i _ st => hN fuel hf _ ?_ false st) {}
  rw [List.getD_eq_getElem?_getD]
  cases h : args[i]? with
  | none => exact List.mem_cons_self _ _
  | some a => exact List.mem_cons_of_mem _ (List.mem_iff_getElem?.2 ⟨i, h⟩)

/-! ## The context a specialization gets -/

namespace SpecCtx

/-- Specification: what `specialize` relies on in the context it abstracts. -/
structure WellFormed (lctx : LocalCtx) (ctx : SpecCtx) : Prop where
  /-- Both lists are in the order of the local context, ... -/
  sorted_vars : ctx.vars.Sorted fun x y => lctx.index x ≤ lctx.index y
  sorted_params : ctx.params.Sorted fun x y => lctx.index x ≤ lctx.index y
  /-- ... without repetition. -/
  nodup_vars : ctx.vars.Nodup
  nodup_params : ctx.params.Nodup
  /-- The lambda-abstracted variables are variables, and include those without a value. -/
  params_sub : ∀ x ∈ ctx.params, x ∈ ctx.vars
  param_of_value_none : ∀ x ∈ ctx.vars, ∀ d, lctx.findDecl x = some d → d.value = none → x ∈ ctx.params
  /-- No join point is lambda-abstracted. -/
  no_join_point : ∀ x ∈ ctx.params, ∀ d, lctx.findDecl x = some d → d.value ≠ none →
    d.isJoinPoint = false
  /-- Every variable is declared, and the variables of its type and, unless it is
  lambda-abstracted, those of its value are variables. -/
  deps : ∀ x ∈ ctx.vars, ∃ d, lctx.findDecl x = some d ∧ (∀ y ∈ d.type.fvars, y ∈ ctx.vars) ∧
    (x ∉ ctx.params → ∀ v, d.value = some v → ∀ y ∈ v.fvars, y ∈ ctx.vars)

end SpecCtx

/-- `specialize_init_deps` builds a well-formed context that holds every free variable of every
argument the mask fixes. -/
theorem specializeInitDeps_wellFormed {fuel : Nat} {kinds : List SpecArgKind} {hasAttr : Bool}
    {args : List Expr} {ctx : SpecCtx} (h : specializeInitDeps lctx fuel kinds hasAttr args = some ctx) :
    ctx.WellFormed lctx ∧ ∀ i, (getBoolMask kinds args.length hasAttr).getD i false = true →
      ∀ a, args[i]? = some a → ∀ y ∈ a.fvars, y ∈ ctx.vars := by
  obtain ⟨st, g, rfl, hm⟩ := specializeInitDeps_grows h
  have hp := g.inv.mem_params
  refine ⟨⟨lctx.sorted_sortFVars _, lctx.sorted_sortFVars _, lctx.nodup_sortFVars g.inv.nodup_vars,
    lctx.nodup_sortFVars g.inv.nodup_params, fun x hx => ?_, fun x hx d hd hn => ?_,
    fun x hx d hd hn => ?_, fun x hx => ?_⟩, fun i hi a ha y hy => ?_⟩
  · simpa using g.inv.params_sub (by simpa using hx)
  · simpa [hp, hd, hn] using hx
  · obtain ⟨-, d', hd', hval⟩ := (hp x).1 (by simpa using hx)
    obtain rfl := Option.some.inj (hd'.symm.trans hd)
    exact (hval.resolve_left hn).2
  · obtain ⟨d, hd, ht, hv⟩ := g.collected x (by simpa using hx) (by simp)
    exact ⟨d, hd, fun y hy => by simpa using ht y hy,
      fun hxp v hval y hy => by simpa using hv (by simpa using hxp) v hval y hy⟩
  · simpa using hm i hi a ha y hy

/-! ## Abstraction -/

variable (lctx)

/-- `letvars_in_params`: the parameters that are let-variables; `none` where
`get_local_decl` throws. -/
def letVarsInParams : List Nat → Option (List Nat)
  | [] => some []
  | x :: xs => do
    let d ← lctx.findDecl x
    let rest ← letVarsInParams xs
    pure (if d.value.isSome then x :: rest else rest)

/-- The loop of `abstract_spec_ctx` over `m_vars`, from the last variable to the first: `xs`
holds the variables still to bind, last first, and each is abstracted over those after it in
`xs`, which are bound outside it. -/
def abstractSpecCtxAux (letVars : List Nat) : List Nat → Expr → Option Expr
  | [], r => some r
  | x :: xs, r => do
    let decl ← lctx.findDecl x
    let type := decl.type.abstract xs.reverse
    match decl.value with
    | some v =>
      if x ∈ letVars then abstractSpecCtxAux letVars xs (.lam type r)
      else abstractSpecCtxAux letVars xs (.letE type (v.abstract xs.reverse) r)
    | none => abstractSpecCtxAux letVars xs (.lam type r)

/-- `abstract_spec_ctx`: the code with every variable of `m_vars` bound around it, by a lambda
for a parameter or a variable without a value, by a let for any other let-variable. -/
def abstractSpecCtx (ctx : SpecCtx) (code : Expr) : Option Expr := do
  let letVars ← letVarsInParams lctx ctx.params
  abstractSpecCtxAux lctx letVars ctx.vars.reverse (code.abstract ctx.vars)

/-- Specification: the variables `xs`, last first, can each be bound over those
after it: each is declared, and the free variables of its type and, when it is let-bound, of
its value are bound outside it. -/
def BindsClosed (letVars : List Nat) : List Nat → Prop
  | [] => True
  | x :: xs => (∃ d, lctx.findDecl x = some d ∧ (∀ y ∈ d.type.fvars, y ∈ xs) ∧
      (x ∉ letVars → ∀ v, d.value = some v → ∀ y ∈ v.fvars, y ∈ xs)) ∧ BindsClosed letVars xs

variable {lctx}

theorem letVarsInParams_spec : ∀ {params : List Nat}, (∀ x ∈ params, (lctx.findDecl x).isSome) →
    ∃ lv, letVarsInParams lctx params = some lv ∧
      ∀ x, x ∈ lv ↔ x ∈ params ∧ ∃ d, lctx.findDecl x = some d ∧ d.value.isSome
  | [], _ => ⟨[], rfl, by simp⟩
  | x :: xs, h => by
    obtain ⟨d, hd⟩ := Option.isSome_iff_exists.1 (h x (List.mem_cons_self _ _))
    obtain ⟨lv, hlv, hmem⟩ := letVarsInParams_spec fun y hy => h y (List.mem_cons_of_mem _ hy)
    refine ⟨if d.value.isSome then x :: lv else lv, by simp [letVarsInParams, hd, hlv], fun y => ?_⟩
    by_cases e : y = x
    · subst e; split_ifs with hv <;> simp [hd, hv, hmem]
    · split_ifs <;> simp [e, hmem]

theorem fvars_abstract_eq_nil {e : Expr} (xs : List Nat) (h : ∀ y ∈ e.fvars, y ∈ xs) :
    (e.abstract xs).fvars = [] := by
  simpa [abstract, fvars_abstractAt, List.filter_eq_nil_iff] using h

/-- The loop binds every variable around a closed body into a closed term. -/
theorem abstractSpecCtxAux_closed (letVars : List Nat) : ∀ {xs : List Nat} {r : Expr},
    BindsClosed lctx letVars xs → r.fvars = [] →
    ∃ r', abstractSpecCtxAux lctx letVars xs r = some r' ∧ r'.fvars = []
  | [], r, _, hr => ⟨r, rfl, hr⟩
  | x :: xs, r, ⟨⟨d, hd, ht, hv⟩, hxs⟩, hr => by
    have htype := fvars_abstract_eq_nil xs.reverse fun y hy => List.mem_reverse.2 (ht y hy)
    simp only [abstractSpecCtx, abstractSpecCtxAux, hd, Option.bind_eq_bind, Option.some_bind]
    cases hval : d.value with
    | none => exact abstractSpecCtxAux_closed letVars hxs (by simp [fvars, htype, hr])
    | some v =>
      dsimp only
      split_ifs with hx
      · exact abstractSpecCtxAux_closed letVars hxs (by simp [fvars, htype, hr])
      · have hval := fvars_abstract_eq_nil xs.reverse fun y hy =>
          List.mem_reverse.2 (hv hx v hval y hy)
        exact abstractSpecCtxAux_closed letVars hxs (by simp [fvars, htype, hval, hr])

/-- The loop adds no free variable outside `S` when the body has none and each variable's
type and kept let-value refer only to `S` and to the variables bound outside it. -/
theorem fvars_abstractSpecCtxAux {S : Nat → Prop} (letVars : List Nat) : ∀ {xs : List Nat} {r r' : Expr},
    (∀ ys x zs, xs = ys ++ x :: zs → ∃ d, lctx.findDecl x = some d ∧ (∀ y ∈ d.type.fvars, S y ∨ y ∈ zs) ∧
      ∀ v, d.value = some v → ∀ y ∈ v.fvars, S y ∨ y ∈ zs) →
    (∀ y ∈ r.fvars, S y) → abstractSpecCtxAux lctx letVars xs r = some r' → ∀ y ∈ r'.fvars, S y
  | [], r, r', _, hr, h => Option.some.inj h ▸ hr
  | x :: xs, r, r', hxs, hr, h => by
    obtain ⟨d, hd, ht, hv⟩ := hxs [] x xs rfl
    have hrest : ∀ ys x' zs, xs = ys ++ x' :: zs → ∃ d, lctx.findDecl x' = some d ∧
        (∀ y ∈ d.type.fvars, S y ∨ y ∈ zs) ∧ ∀ v, d.value = some v → ∀ y ∈ v.fvars, S y ∨ y ∈ zs :=
      fun ys x' zs e => hxs (x :: ys) x' zs (by simp [e])
    have hab : ∀ e : Expr, (∀ y ∈ e.fvars, S y ∨ y ∈ xs) → ∀ y ∈ (e.abstract xs.reverse).fvars, S y :=
      fun e he y hy => (he y (mem_fvars_abstract.1 hy).1).resolve_right (by simpa using (mem_fvars_abstract.1 hy).2)
    have hlam : ∀ y ∈ (lam (d.type.abstract xs.reverse) r).fvars, S y := fun y hy =>
      (List.mem_append.1 hy).elim (hab _ ht y) (hr y)
    simp only [abstractSpecCtxAux, hd, Option.bind_eq_bind, Option.some_bind] at h
    cases hval : d.value with
    | none =>
      simp only [hval] at h
      exact fvars_abstractSpecCtxAux letVars hrest hlam h
    | some v =>
      simp only [hval] at h
      split_ifs at h
      · exact fvars_abstractSpecCtxAux letVars hrest hlam h
      · refine fvars_abstractSpecCtxAux letVars hrest (fun y hy => ?_) h
        rcases List.mem_append.1 hy with hy | hy
        · exact (List.mem_append.1 hy).elim (hab _ ht y) (hab _ (hv v hval) y)
        · exact hr y hy

/-- Binding a list, last first, over the variables before each. -/
theorem bindsClosed_reverse {letVars : List Nat} : ∀ {vars : List Nat},
    (∀ i (hi : i < vars.length), ∃ d, lctx.findDecl vars[i] = some d ∧
      (∀ y ∈ d.type.fvars, y ∈ vars.take i) ∧
      (vars[i] ∉ letVars → ∀ v, d.value = some v → ∀ y ∈ v.fvars, y ∈ vars.take i)) →
    BindsClosed lctx letVars vars.reverse := by
  intro vars
  induction vars using List.reverseRecOn with
  | nil => intro _; trivial
  | append_singleton l x ih =>
    intro h
    rw [List.reverse_append, List.reverse_singleton, List.singleton_append]
    refine ⟨?_, ih fun i hi => ?_⟩
    · obtain ⟨d, hd, ht, hv⟩ := h l.length (by simp)
      simp only [List.getElem_concat_length, List.take_left'] at hd ht hv
      exact ⟨d, hd, fun y hy => List.mem_reverse.2 (ht y hy),
        fun hx v hval y hy => List.mem_reverse.2 (hv hx v hval y hy)⟩
    · obtain ⟨d, hd, ht, hv⟩ := h i (by simp; omega)
      rw [List.getElem_append_left hi, List.take_append_of_le_length hi.le] at *
      exact ⟨d, hd, ht, hv⟩

/-- In a list sorted by `f`, an element below the `i`-th one comes before it. -/
theorem mem_take_of_sorted {f : Nat → Nat} {l : List Nat} (hs : l.Sorted fun a b => f a ≤ f b)
    {i : Nat} (hi : i < l.length) {y : Nat} (hy : y ∈ l) (hlt : f y < f l[i]) : y ∈ l.take i := by
  obtain ⟨j, hj, rfl⟩ := List.mem_iff_getElem.1 hy
  rcases Nat.lt_or_ge j i with hji | hji
  · exact List.mem_take_iff_getElem.2 ⟨j, by simp; omega, rfl⟩
  · rcases Nat.lt_or_eq_of_le hji with hji | rfl
    · exact absurd (hs.rel_get_of_lt (a := ⟨i, hi⟩) (b := ⟨j, hj⟩) hji) (by simpa using hlt)
    · exact absurd hlt (lt_irrefl _)

theorem getElem_index_of_findDecl {x : Nat} {d : LocalDecl} (h : lctx.findDecl x = some d) :
    ∃ hx : lctx.index x < lctx.length, lctx[lctx.index x] = d := by
  rw [LocalCtx.findDecl_eq_getElem?] at h
  exact ⟨(List.getElem?_eq_some_iff.1 h).1, (List.getElem?_eq_some_iff.1 h).2⟩

/-- `abstract_spec_ctx` closes the code of a well-formed context in a well-scoped local
context: sorted by position, each variable's type and kept let-value refer to variables
before it. -/
theorem abstractSpecCtx_closed (hw : lctx.WellScoped) {ctx : SpecCtx} (hc : ctx.WellFormed lctx)
    {code : Expr} (hcode : ∀ y ∈ code.fvars, y ∈ ctx.vars) :
    ∃ r, abstractSpecCtx lctx ctx code = some r ∧ r.hasFVar = false := by
  have hdecl : ∀ x ∈ ctx.params, (lctx.findDecl x).isSome := fun x hx => by
    obtain ⟨d, hd, -⟩ := hc.deps x (hc.params_sub x hx)
    simp [hd]
  obtain ⟨lv, hlv, hmem⟩ := letVarsInParams_spec hdecl
  have hb : BindsClosed lctx lv ctx.vars.reverse := bindsClosed_reverse fun i hi => by
    obtain ⟨d, hd, ht, hv⟩ := hc.deps _ (List.getElem_mem hi)
    obtain ⟨hx, hxd⟩ := getElem_index_of_findDecl hd
    refine ⟨d, hd, fun y hy => mem_take_of_sorted hc.sorted_vars hi (ht y hy)
      (hw.types _ hx y (hxd ▸ hy)), fun hlx v hval y hy => ?_⟩
    have hp : ctx.vars[i] ∉ ctx.params := fun h => hlx ((hmem _).2 ⟨h, d, hd, by simp [hval]⟩)
    exact mem_take_of_sorted hc.sorted_vars hi (hv hp v hval y hy)
      (hw.values _ hx v (hxd ▸ hval) y hy)
  obtain ⟨r, hr, hf⟩ := abstractSpecCtxAux_closed lv hb (fvars_abstract_eq_nil _ hcode)
  exact ⟨r, by simp [abstractSpecCtx, hlv, hr], (hasFVar_eq_false_iff r).2 hf⟩

/-! ## The specialized code is closed -/

/-- `lean_assert(!has_fvar(code))` in `mk_new_decl` holds. In a well-scoped local context,
for a call whose arguments have their free variables declared, `specialize_init_deps`
returns, for enough fuel, a well-formed context: sorted, without repetition, closed under
the types of its variables and the values of those it does not lambda-abstract, and
abstracting no join point. `abstract_spec_ctx` then closes every code whose free variables
are free variables of the arguments the mask fixes. -/
theorem specialization_closed (hw : lctx.WellScoped) (kinds : List SpecArgKind) (hasAttr : Bool)
    (args : List Expr) (hdecl : ∀ a ∈ args, ∀ x ∈ a.fvars, (lctx.findDecl x).isSome) :
    ∃ N, ∀ fuel, N ≤ fuel → ∃ ctx, specializeInitDeps lctx fuel kinds hasAttr args = some ctx ∧
      ctx.WellFormed lctx ∧
      ∀ code : Expr, (∀ y ∈ code.fvars, ∃ i a, (getBoolMask kinds args.length hasAttr).getD i false = true ∧
          args[i]? = some a ∧ y ∈ a.fvars) →
        ∃ r, abstractSpecCtx lctx ctx code = some r ∧ r.hasFVar = false := by
  obtain ⟨N, hN⟩ := specializeInitDeps_isSome hw kinds hasAttr args hdecl
  refine ⟨N, fun fuel hf => ?_⟩
  obtain ⟨ctx, hctx⟩ := Option.isSome_iff_exists.1 (hN fuel hf)
  obtain ⟨hc, hm⟩ := specializeInitDeps_wellFormed hctx
  refine ⟨ctx, hctx, hc, fun code hcode => abstractSpecCtx_closed hw hc fun y hy => ?_⟩
  obtain ⟨i, a, hi, ha, hy⟩ := hcode y hy
  exact hm i hi a ha y hy

/-- A type `α`, a variable `x : α` and a let-variable `y : α := x`. -/
def aliasCtx : LocalCtx :=
  [⟨0, false, .sort false, none⟩, ⟨1, false, .fvar 0, none⟩, ⟨2, false, .fvar 0, some (.fvar 1)⟩]

/-- An instance argument `y` is fixed; the specialization abstracts `α` and `x` and let-binds
`y`. -/
theorem specialization_closed_aliasCtx : aliasCtx.WellScoped ∧
    ∃ N, ∀ fuel, N ≤ fuel → ∃ ctx, specializeInitDeps aliasCtx fuel [.fixedInst] false [.fvar 2] = some ctx ∧
      ctx.WellFormed aliasCtx ∧
      ∀ code : Expr, (∀ y ∈ code.fvars, ∃ i a, (getBoolMask [.fixedInst] 1 false).getD i false = true ∧
          [Expr.fvar 2][i]? = some a ∧ y ∈ a.fvars) →
        ∃ r, abstractSpecCtx aliasCtx ctx code = some r ∧ r.hasFVar = false :=
  have hw : aliasCtx.WellScoped := ⟨by decide, by decide⟩
  ⟨hw, specialization_closed hw [.fixedInst] false [.fvar 2] (by decide)⟩

/-! ## The binders and the call agree

`specialize` calls the new declaration on `ctx.m_params` first, in their order. The binders
that `abstract_spec_ctx` puts around the code take them in that order: its lambdas bind,
outermost first, exactly the variables of `ctx.m_params`, the other binders being lets. -/

/-- The binders around a body, outermost first: a lambda of a type, or a let of a type and a
value. -/
def wrapBinders : List (Expr × Option Expr) → Expr → Expr
  | [], r => r
  | (t, none) :: bs, r => .lam t (wrapBinders bs r)
  | (t, some v) :: bs, r => .letE t v (wrapBinders bs r)

theorem wrapBinders_append (bs : List (Expr × Option Expr)) (b : Expr × Option Expr) (r : Expr) :
    wrapBinders (bs ++ [b]) r = wrapBinders bs (wrapBinders [b] r) := by
  induction bs with
  | nil => rfl
  | cons b' bs ih => obtain ⟨t, _ | v⟩ := b' <;> simp [wrapBinders, ih]

/-- The loop of `abstract_spec_ctx` wraps the body in one binder per variable, a lambda for a
variable without a value or in `letVars`. -/
theorem abstractSpecCtxAux_binders (letVars : List Nat) : ∀ {xs : List Nat} {r r' : Expr},
    abstractSpecCtxAux lctx letVars xs r = some r' →
    ∃ bs : List (Expr × Option Expr), r' = wrapBinders bs r ∧
      bs.map (fun b => b.2.isNone) = xs.reverse.map fun x => (lctx.letValue x).isNone || decide (x ∈ letVars)
  | [], r, r', h => ⟨[], (Option.some.inj h).symm, rfl⟩
  | x :: xs, r, r', h => by
    obtain ⟨d, hd, h⟩ := Option.bind_eq_some.1 h
    have hlv : lctx.letValue x = d.value := by simp [LocalCtx.letValue, hd]
    cases hval : d.value with
    | none =>
      simp only [hval] at h
      obtain ⟨bs, rfl, hbs⟩ := abstractSpecCtxAux_binders letVars h
      exact ⟨bs ++ [(_, none)], by rw [wrapBinders_append]; rfl, by simp [hbs, hlv, hval]⟩
    | some v =>
      simp only [hval] at h
      split_ifs at h with hx
      · obtain ⟨bs, rfl, hbs⟩ := abstractSpecCtxAux_binders letVars h
        exact ⟨bs ++ [(_, none)], by rw [wrapBinders_append]; rfl, by simp [hbs, hlv, hval, hx]⟩
      · obtain ⟨bs, rfl, hbs⟩ := abstractSpecCtxAux_binders letVars h
        exact ⟨bs ++ [(_, some _)], by rw [wrapBinders_append]; rfl, by simp [hbs, hlv, hval, hx]⟩

theorem filterMap_zip_eq_filter {f : Nat → Bool} {g : Expr × Option Expr → Bool} :
    ∀ (xs : List Nat) (bs : List (Expr × Option Expr)), bs.map g = xs.map f →
      (xs.zip bs).filterMap (fun p => if g p.2 then some p.1 else none) = xs.filter f
  | [], _, _ => rfl
  | _ :: _, [], h => nomatch h
  | x :: xs, b :: bs, h => by
    obtain ⟨hb, h⟩ := List.cons.inj h
    by_cases hx : f x <;> simp [List.filter_cons, hb, hx, filterMap_zip_eq_filter xs bs h]

/-- A list sorted by `f` without repetition, `f` telling its elements apart, is sorted strictly. -/
theorem sorted_lt_of_sorted_le {f : Nat → Nat} {l : List Nat} (hl : l.Sorted fun a b => f a ≤ f b)
    (hn : l.Nodup) (hinj : ∀ x ∈ l, ∀ y ∈ l, f x = f y → x = y) : l.Sorted fun a b => f a < f b :=
  (hl.and hn).imp_of_mem fun ha hb h => lt_of_le_of_ne h.1 fun e => h.2 (hinj _ ha _ hb e)

/-- Two sublists sorted by one order are equal when they have the same elements. -/
theorem filter_mem_eq_of_sorted {f : Nat → Nat} {l m : List Nat} (hl : l.Sorted fun a b => f a ≤ f b)
    (hm : m.Sorted fun a b => f a ≤ f b) (hln : l.Nodup) (hmn : m.Nodup) (hsub : ∀ x ∈ m, x ∈ l)
    (hinj : ∀ x ∈ l, ∀ y ∈ l, f x = f y → x = y) : l.filter (fun x => decide (x ∈ m)) = m := by
  have : IsAntisymm Nat fun a b => f a < f b := ⟨fun _ _ h₁ h₂ => absurd (h₁.trans h₂) (lt_irrefl _)⟩
  refine List.eq_of_perm_of_sorted ((List.perm_ext_iff_of_nodup (hln.filter _) hmn).2 fun x => ?_)
    (sorted_lt_of_sorted_le (hl.filter _) (hln.filter _) fun x hx y hy =>
      hinj x (List.mem_of_mem_filter hx) y (List.mem_of_mem_filter hy))
    (sorted_lt_of_sorted_le hm hmn fun x hx y hy => hinj x (hsub x hx) y (hsub y hy))
  simpa using fun hx => hsub x hx

/-- In a well-formed context, the lambdas that `abstract_spec_ctx` makes bind, outermost
first, exactly `ctx.m_params`. -/
theorem abstractSpecCtx_binders {ctx : SpecCtx} (hc : ctx.WellFormed lctx) {code r : Expr}
    (hr : abstractSpecCtx lctx ctx code = some r) :
    ∃ bs : List (Expr × Option Expr), r = wrapBinders bs (code.abstract ctx.vars) ∧
      bs.length = ctx.vars.length ∧
      (ctx.vars.zip bs).filterMap (fun p => if p.2.2.isNone then some p.1 else none) = ctx.params := by
  obtain ⟨lv, hlv, h⟩ := Option.bind_eq_some.1 hr
  obtain ⟨bs, rfl, hbs⟩ := abstractSpecCtxAux_binders lv h
  have hdecl : ∀ x ∈ ctx.params, (lctx.findDecl x).isSome := fun x hx => by
    obtain ⟨d, hd, -⟩ := hc.deps x (hc.params_sub x hx)
    simp [hd]
  obtain ⟨lv', hlv', hmem⟩ := letVarsInParams_spec hdecl
  obtain rfl := Option.some.inj (hlv.symm.trans hlv')
  rw [List.reverse_reverse] at hbs
  refine ⟨bs, rfl, by simpa using congrArg List.length hbs, ?_⟩
  rw [filterMap_zip_eq_filter _ _ hbs]
  have hlam : ∀ x ∈ ctx.vars,
      ((lctx.letValue x).isNone || decide (x ∈ lv)) = decide (x ∈ ctx.params) := fun x hx => by
    obtain ⟨d, hd, -⟩ := hc.deps x hx
    cases hval : d.value with
    | none => simp [LocalCtx.letValue, hd, hval, hc.param_of_value_none x hx d hd hval]
    | some v => simp [LocalCtx.letValue, hd, hval, hmem]
  rw [List.filter_congr hlam]
  refine filter_mem_eq_of_sorted hc.sorted_vars hc.sorted_params hc.nodup_vars hc.nodup_params
    hc.params_sub fun x hx y hy e => ?_
  obtain ⟨d, hd, -⟩ := hc.deps x hx
  obtain ⟨d', hd', -⟩ := hc.deps y hy
  exact LocalCtx.eq_of_index_eq hd hd' e

/-- The call and the declaration agree. For every context that `specialize_init_deps`
returns and every code that `abstract_spec_ctx` closes with it, the result is the code under
one binder per variable of `ctx.m_vars`, and its lambdas bind, outermost first, exactly the
variables of `ctx.m_params`, in the order in which `specialize` passes them to the new
declaration; the other variables are let-bound. -/
theorem specialization_params_order {fuel : Nat} {kinds : List SpecArgKind} {hasAttr : Bool}
    {args : List Expr} {ctx : SpecCtx} (h : specializeInitDeps lctx fuel kinds hasAttr args = some ctx)
    {code r : Expr} (hr : abstractSpecCtx lctx ctx code = some r) :
    ∃ bs : List (Expr × Option Expr), r = wrapBinders bs (code.abstract ctx.vars) ∧
      bs.length = ctx.vars.length ∧
      (ctx.vars.zip bs).filterMap (fun p => if p.2.2.isNone then some p.1 else none) = ctx.params :=
  abstractSpecCtx_binders (specializeInitDeps_wellFormed h).1 hr

/-- With `α` and `x` lambda-abstracted and `y` let-bound: the lambdas bind `α` and `x`. -/
theorem specialization_params_order_aliasCtx :
    specializeInitDeps aliasCtx 10 [.fixedInst] false [.fvar 2] = some ⟨[0, 1, 2], [0, 1]⟩ ∧
    abstractSpecCtx aliasCtx ⟨[0, 1, 2], [0, 1]⟩ (.app (.const 7 false) (.fvar 2)) =
      some (.lam (.sort false) (.lam (.bvar 0) (.letE (.bvar 1) (.bvar 0) (.app (.const 7 false) (.bvar 0))))) ∧
    ∃ bs : List (Expr × Option Expr),
      Expr.lam (.sort false) (.lam (.bvar 0) (.letE (.bvar 1) (.bvar 0) (.app (.const 7 false) (.bvar 0)))) =
        wrapBinders bs ((Expr.app (.const 7 false) (.fvar 2)).abstract [0, 1, 2]) ∧ bs.length = 3 ∧
      ([0, 1, 2].zip bs).filterMap (fun p => if p.2.2.isNone then some p.1 else none) = [0, 1] :=
  have h : specializeInitDeps aliasCtx 10 [.fixedInst] false [.fvar 2] = some ⟨[0, 1, 2], [0, 1]⟩ := by decide
  have hr : abstractSpecCtx aliasCtx ⟨[0, 1, 2], [0, 1]⟩ (.app (.const 7 false) (.fvar 2)) =
      some (.lam (.sort false) (.lam (.bvar 0) (.letE (.bvar 1) (.bvar 0) (.app (.const 7 false) (.bvar 0))))) := by
    decide
  ⟨h, hr, specialization_params_order h hr⟩

/-! ## Sets closed under the declarations

The specialized code refers only to what the collector reaches from the fixed arguments:
every set of variables that holds the arguments' free variables and, with each variable, those
of its declaration's type and value, holds the context. -/

namespace LocalCtx

/-- Specification: `S` holds, with each of its declared variables, the free
variables of the declaration's type and value. -/
def DepClosed (lctx : LocalCtx) (S : Nat → Prop) : Prop :=
  ∀ x d, S x → lctx.findDecl x = some d → (∀ y ∈ d.type.fvars, S y) ∧ ∀ v, d.value = some v → ∀ y ∈ v.fvars, S y

theorem index_lt_length_iff {lctx : LocalCtx} {x : Nat} :
    lctx.index x < lctx.length ↔ x ∈ lctx.map LocalDecl.fvarId := by
  simp [LocalCtx.index, List.findIdx_lt_length]

/-- In a well-scoped context, the declared variables are closed under their declarations. -/
theorem WellScoped.depClosed {lctx : LocalCtx} (hw : lctx.WellScoped) :
    lctx.DepClosed (· ∈ lctx.map LocalDecl.fvarId) := fun x d _ hd => by
  obtain ⟨hx, rfl⟩ := getElem_index_of_findDecl hd
  exact ⟨fun y hy => index_lt_length_iff.1 ((hw.types _ hx y hy).trans hx),
    fun v hv y hy => index_lt_length_iff.1 ((hw.values _ hx v hv y hy).trans hx)⟩

theorem depClosed_empty (lctx : LocalCtx) : lctx.DepClosed fun _ => False := fun _ _ h => h.elim

end LocalCtx

theorem markFVar_fst_vars (b : Bool) (x : Nat) (d : LocalDecl) (st : DepState) :
    (markFVar b x d st).1.vars = st.vars ∨ (markFVar b x d st).1.vars = st.vars ++ [x] := by
  unfold markFVar
  split_ifs <;> dsimp only <;> split_ifs <;> simp

/-- The collector adds only variables of a set closed under the declarations that holds the
expression's free variables. -/
theorem collect_vars_sub {S : Nat → Prop} (hS : lctx.DepClosed S) : ∀ {fuel : Nat} {e : Expr} {b : Bool}
    {st st' : DepState}, collect lctx fuel e b st = some st' → (∀ y ∈ e.fvars, S y) →
    (∀ y ∈ st.vars, S y) → ∀ y ∈ st'.vars, S y
  | 0, _, _, _, _, h, _, _ => by simp [collect] at h
  | fuel + 1, e, b, st, st', h, he, hst => by
    by_cases hf : e.hasFVar = false
    · obtain rfl : st = st' := by simpa [collect, hf] using h
      exact hst
    simp only [Bool.not_eq_false] at hf
    cases e with
    | fvar x =>
      simp only [collect, hf, Bool.not_true, Bool.false_eq_true, if_false] at h
      have hx : S x := he x (List.mem_singleton_self x)
      by_cases hvis : x ∈ if b then st.visitedInBinder else st.visitedNotInBinder
      · rw [if_pos hvis] at h
        cases h; exact hst
      rw [if_neg hvis] at h
      obtain ⟨d, hd, h⟩ := Option.bind_eq_some.1 h
      obtain ⟨hty, hval⟩ := hS x d hx hd
      have h₁ : ∀ y ∈ (markFVar b x d st).1.vars, S y := fun y hy => by
        rcases markFVar_fst_vars b x d st with e | e <;> rw [e] at hy
        · exact hst y hy
        · exact (List.mem_append.1 hy).elim (hst y) fun hy => List.mem_singleton.1 hy ▸ hx
      have hv := markFVar_snd b x d st
      generalize markFVar b x d st = p at h h₁ hv
      obtain ⟨st₁, v⟩ := p
      obtain ⟨st₂, h₂, h⟩ := Option.bind_eq_some.1 h
      have h₂' := collect_vars_sub hS h₂ hty h₁
      cases v with
      | none => cases h; exact h₂'
      | some w => exact collect_vars_sub hS h (hval w (hv.resolve_left nofun).symm) h₂'
    | app e₁ e₂ | lam e₁ e₂ | forallE e₁ e₂ =>
      obtain ⟨s₁, h₁, h₂⟩ := Option.bind_eq_some.1 (by simpa [collect, hf] using h)
      exact collect_vars_sub hS h₂ (fun y hy => he y (by simp [fvars, hy]))
        (collect_vars_sub hS h₁ (fun y hy => he y (by simp [fvars, hy])) hst)
    | letE t v b' =>
      obtain ⟨s₂, h₁, h₃⟩ := Option.bind_eq_some.1 (by simpa [collect, hf] using h)
      obtain ⟨s₁, h₁, h₂⟩ := Option.bind_eq_some.1 h₁
      refine collect_vars_sub hS h₃ (fun y hy => he y (by simp [fvars, hy])) ?_
      exact collect_vars_sub hS h₂ (fun y hy => he y (by simp [fvars, hy]))
        (collect_vars_sub hS h₁ (fun y hy => he y (by simp [fvars, hy])) hst)
    | mdata e | proj _ e =>
      exact collect_vars_sub hS (show collect lctx fuel e b st = some st' by simpa [collect, hf] using h) he hst
    | bvar _ | sort _ | const _ _ | lit _ => simp [hasFVar] at hf

/-- The context `specialize_init_deps` builds lies in every set closed under the declarations
that holds the free variables of the arguments. -/
theorem specializeInitDeps_vars_sub {S : Nat → Prop} (hS : lctx.DepClosed S) {fuel : Nat}
    {kinds : List SpecArgKind} {hasAttr : Bool} {args : List Expr} {ctx : SpecCtx}
    (h : specializeInitDeps lctx fuel kinds hasAttr args = some ctx) (hargs : ∀ a ∈ args, ∀ y ∈ a.fvars, S y) :
    ∀ y ∈ ctx.vars, S y := by
  obtain ⟨st, hst, rfl⟩ := Option.map_eq_some'.1 h
  rw [specializeInitDepsAux_eq_foldlM] at hst
  have harg : ∀ i, ∀ y ∈ (args.getD i placeholder).fvars, S y := fun i y hy => by
    rw [List.getD_eq_getElem?_getD] at hy
    cases ha : args[i]? with
    | none => simp [ha, placeholder, fvars] at hy
    | some a => exact hargs a (List.mem_iff_getElem?.2 ⟨i, ha⟩) y (by simpa [ha] using hy)
  have hfold : ∀ (L : List Nat) (s s' : DepState),
      L.foldlM (fun st i => collect lctx fuel (args.getD i placeholder) false st) s = some s' →
      (∀ y ∈ s.vars, S y) → ∀ y ∈ s'.vars, S y := by
    intro L
    induction L with
    | nil => intro s s' h hs; cases h; exact hs
    | cons i L ih =>
      intro s s' h hs
      obtain ⟨s₁, h₁, h₂⟩ := Option.bind_eq_some.1 h
      exact ih s₁ s' h₂ (collect_vars_sub hS h₁ (harg i) hs)
  exact fun y hy => hfold _ _ _ hst (fun _ h => nomatch h) y (by simpa using hy)

end Compiler

end Lean4Core
