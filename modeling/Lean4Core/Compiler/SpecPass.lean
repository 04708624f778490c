import Mathlib.Data.Nat.Pairing
import Lean4Core.Compiler.SpecVisit

/-!
# The specializer's pass

`specialize_core` (`specialize.cpp`, `unnamed/part_003`, lines 1110–1122) runs `visit` on one
declaration from a fresh `specialize_fn`, and `specialize` of a block (lines 1124–1133)
updates the spec info of the block, then runs `specialize_core` on each declaration in turn,
threading the extension's global cache through.

Main results:
- `specializeDecls_closed`: under `ClosedOracles`, on a block of closed declarations, every
  declaration the pass returns is closed: the specializations, those made while visiting the
  code of other specializations included, and the block's own declarations with their new
  code;
- `specializeDecls_nodup`: the declarations the pass returns have distinct names, when
  `mk_spec_name` tells base names and indices apart and makes no name of the block;
- `specializeDecls_gcache`: every entry the pass adds to the global cache names a declaration
  it returns.
-/

namespace Lean4Core

namespace Compiler

open Expr

/-! ## The driver -/

section Driver

variable (isCasesOn : Nat → Option (Nat × Nat)) (binder : CompDecl → Nat → HeaderBinder)
  (hasAttr hasNospecialize isInstance : Nat → Bool) (stage1 : Nat → Bool → Option Expr)
  (mkSpecName : Nat → Nat → Nat → Nat) (whnf : LocalCtx → Expr → Expr) (isConstructorApp : Expr → Bool)
  (infer : LocalCtx → Expr → Expr) (isIrrelevant : LocalCtx → Expr → Bool) (csimp : Expr → Expr)
  (etaExpand : Nat → Expr → Expr × Nat) (isJoinPointName : Expr → Bool)

/-- `specialize_core`: a fresh `specialize_fn` for `d` visits its code, from an empty local
context, with `m_next_idx` at one and `d` as the base name `mk_spec_name` puts in each new
name (`mkSpecName fn base idx`). Returns the global cache and `m_new_decls` followed by `d`
with its new code. -/
def specializeCore (ext : SpecInfoMap) (fuel : Nat) (gcache : List (Expr × Nat)) (d : CompDecl) :
    Option (List (Expr × Nat) × List CompDecl) :=
  (visit isCasesOn ext hasAttr hasNospecialize isInstance stage1 (fun c i => mkSpecName c d.name i) whnf
      isConstructorApp infer isIrrelevant csimp etaExpand isJoinPointName fuel d.code ⟨0, [], 1, gcache, []⟩).map
    fun p => (p.2.gcache, p.2.newDecls ++ [⟨d.name, p.1⟩])

/-- The loop of `specialize` over the block: `specialize_core` of each declaration in order,
the global cache threaded through, the results appended. -/
def specializeLoop (ext : SpecInfoMap) (fuel : Nat) :
    List CompDecl → List (Expr × Nat) → Option (List (Expr × Nat) × List CompDecl)
  | [], gcache => some (gcache, [])
  | d :: ds, gcache => do
    let (gcache, new) ← specializeCore isCasesOn hasAttr hasNospecialize isInstance stage1 mkSpecName whnf
      isConstructorApp infer isIrrelevant csimp etaExpand isJoinPointName ext fuel gcache d
    let (gcache, rest) ← specializeLoop ext fuel ds gcache
    pure (gcache, new ++ rest)

/-- `specialize` of a block: `update_spec_info`, then the loop. Returns the extension (its
spec info and global cache) and the declarations. -/
def specializeDecls (fuel : Nat) (ext : SpecInfoMap) (gcache : List (Expr × Nat)) (ds : List CompDecl) :
    Option (SpecInfoMap × List (Expr × Nat) × List CompDecl) :=
  (specializeLoop isCasesOn hasAttr hasNospecialize isInstance stage1 mkSpecName whnf isConstructorApp infer
      isIrrelevant csimp etaExpand isJoinPointName (updateSpecInfoExt isCasesOn binder ext ds) fuel ds gcache).map
    fun p => (updateSpecInfoExt isCasesOn binder ext ds, p)

end Driver

/-! ## The pass -/

section Pass

variable {isCasesOn : Nat → Option (Nat × Nat)} {binder : CompDecl → Nat → HeaderBinder}
  {hasAttr hasNospecialize isInstance : Nat → Bool} {stage1 : Nat → Bool → Option Expr}
  {mkSpecName : Nat → Nat → Nat → Nat} {whnf : LocalCtx → Expr → Expr} {isConstructorApp : Expr → Bool}
  {infer : LocalCtx → Expr → Expr} {isIrrelevant : LocalCtx → Expr → Bool} {csimp : Expr → Expr}
  {etaExpand : Nat → Expr → Expr × Nat} {isJoinPointName : Expr → Bool}

/-- The state `specialize_core` starts from is good. -/
theorem good_init (gcache : List (Expr × Nat)) : (⟨0, [], 1, gcache, []⟩ : SpecState).Good :=
  ⟨⟨fun _ hj => absurd hj (Nat.not_lt_zero _), fun _ hj => absurd hj (Nat.not_lt_zero _)⟩, nofun⟩

/-- `specialize_core` of a closed declaration returns closed declarations: those `visit` adds,
and the declaration with its new code, which `visit` keeps closed. -/
theorem specializeCore_closed (ho : ClosedOracles stage1 infer csimp etaExpand) {ext : SpecInfoMap} {fuel : Nat}
    {gcache : List (Expr × Nat)} {d : CompDecl} {r : List (Expr × Nat) × List CompDecl}
    (hd : d.code.hasFVar = false)
    (h : specializeCore isCasesOn hasAttr hasNospecialize isInstance stage1 mkSpecName whnf isConstructorApp infer
      isIrrelevant csimp etaExpand isJoinPointName ext fuel gcache d = some r) :
    ∀ d' ∈ r.2, d'.code.hasFVar = false := by
  obtain ⟨⟨code, st⟩, h₁, rfl⟩ := Option.map_eq_some'.1 h
  obtain ⟨-, hw, hr⟩ := (visit_spec runRel_true fuel).walks ho h₁ (good_init gcache) (fun _ => False)
    (LocalCtx.depClosed_empty _) (fun _ h => h.elim) (by simp [(hasFVar_eq_false_iff _).1 hd])
  obtain ⟨ds, hds, hcl⟩ := hw.newDecls
  intro d' hd'
  rw [hds, List.nil_append, List.mem_append, List.mem_singleton] at hd'
  rcases hd' with hd' | rfl
  · exact hcl d' hd'
  · exact (hasFVar_eq_false_iff _).2 (List.eq_nil_iff_forall_not_mem.2 hr)

/-- The loop of `specialize` returns what `specialize_core` returns for each declaration of the
block, in order, concatenated. -/
theorem specializeLoop_flatten {ext : SpecInfoMap} {fuel : Nat} :
    ∀ {ds : List CompDecl} {gcache : List (Expr × Nat)} {r : List (Expr × Nat) × List CompDecl},
      specializeLoop isCasesOn hasAttr hasNospecialize isInstance stage1 mkSpecName whnf isConstructorApp infer
        isIrrelevant csimp etaExpand isJoinPointName ext fuel ds gcache = some r →
      ∃ parts, List.Forall₂ (fun d part => ∃ g g', specializeCore isCasesOn hasAttr hasNospecialize isInstance stage1
        mkSpecName whnf isConstructorApp infer isIrrelevant csimp etaExpand isJoinPointName ext fuel g d =
          some (g', part)) ds parts ∧ r.2 = parts.flatten
  | [], _, _, h => ⟨[], .nil, by rw [← Option.some.inj h]; rfl⟩
  | d :: ds, gcache, r, h => by
    obtain ⟨⟨g₁, new⟩, h₁, h⟩ := Option.bind_eq_some.1 h
    obtain ⟨⟨g₂, rest⟩, h₂, h⟩ := Option.bind_eq_some.1 h
    obtain rfl := Option.some.inj h
    obtain ⟨parts, hp, hr⟩ := specializeLoop_flatten h₂
    exact ⟨new :: parts, .cons ⟨gcache, g₁, h₁⟩ hp, congrArg (new ++ ·) hr⟩

/-- `specialize` of a block returns what `specialize_core` returns for each declaration, in the
extension with the block's spec info. -/
theorem specializeDecls_flatten {fuel : Nat} {ext : SpecInfoMap} {gcache : List (Expr × Nat)} {ds : List CompDecl}
    {r : SpecInfoMap × List (Expr × Nat) × List CompDecl}
    (h : specializeDecls isCasesOn binder hasAttr hasNospecialize isInstance stage1 mkSpecName whnf isConstructorApp
      infer isIrrelevant csimp etaExpand isJoinPointName fuel ext gcache ds = some r) :
    ∃ ext' parts, List.Forall₂ (fun d part => ∃ g g', specializeCore isCasesOn hasAttr hasNospecialize isInstance
      stage1 mkSpecName whnf isConstructorApp infer isIrrelevant csimp etaExpand isJoinPointName ext' fuel g d =
        some (g', part)) ds parts ∧ r.2.2 = parts.flatten := by
  obtain ⟨p, h₁, rfl⟩ := Option.map_eq_some'.1 h
  exact ⟨_, specializeLoop_flatten h₁⟩

/-- `specialize` of a block keeps code closed: under `ClosedOracles`, on closed declarations,
every declaration it returns is closed, the specializations it makes, those made while
visiting the code of other specializations, and the block's own declarations alike. -/
theorem specializeDecls_closed (ho : ClosedOracles stage1 infer csimp etaExpand) {fuel : Nat} {ext : SpecInfoMap}
    {gcache : List (Expr × Nat)} {ds : List CompDecl} {r : SpecInfoMap × List (Expr × Nat) × List CompDecl}
    (hds : ∀ d ∈ ds, d.code.hasFVar = false)
    (h : specializeDecls isCasesOn binder hasAttr hasNospecialize isInstance stage1 mkSpecName whnf isConstructorApp
      infer isIrrelevant csimp etaExpand isJoinPointName fuel ext gcache ds = some r) :
    ∀ d ∈ r.2.2, d.code.hasFVar = false := by
  obtain ⟨ext', parts, hp, hr⟩ := specializeDecls_flatten h
  rw [hr]
  clear hr h
  induction hp with
  | nil => simp
  | cons hc _ ih =>
    obtain ⟨g, g', hc⟩ := hc
    intro d' hd'
    rcases List.mem_append.1 hd' with hd' | hd'
    · exact specializeCore_closed ho (hds _ (List.mem_cons_self _ _)) hc d' hd'
    · exact ih (fun d hd => hds d (List.mem_cons_of_mem _ hd)) d' hd'

/-- `main α x := f x x` (`7`), a call of `f` (`5`) of the block `[f, g]` of `swapExt`. -/
def pairMain : CompDecl :=
  ⟨7, .lam (.sort false) (.lam (.bvar 0) (.app (.app (.const 5 false) (.bvar 0)) (.bvar 0)))⟩

/-- What `specialize` makes of `[pairMain]`: the spec info of `main` in front, no entry in the
global cache (the fixed argument `x` is a free variable), the two specializations of
`pairResult`, then `main α x := f' α x`. -/
def pairPass : SpecInfoMap × List (Expr × Nat) × List CompDecl :=
  ((7, ⟨[7], [0, 0]⟩) :: swapExt, [], pairResult.newDecls ++
    [⟨7, .lam (.sort false) (.lam (.bvar 0) (.app (.app (.const 1000 false) (.bvar 1)) (.bvar 0)))⟩])

theorem specializeDecls_closed_pair :
    ClosedOracles swapStage1 pairInfer id (fun n e => (e, n)) ∧ (∀ d ∈ [pairMain], d.code.hasFVar = false) ∧
    specializeDecls (fun _ => none) (fun _ _ => .other) (fun _ => false) (fun _ => false) (fun _ => false) swapStage1
      (fun _ _ i => 999 + i) (fun _ e => e) (fun _ => true) pairInfer (fun _ _ => false) id (fun n e => (e, n))
      (fun _ => false) 6 swapExt [] [pairMain] = some pairPass ∧
    ∀ d ∈ pairPass.2.2, d.code.hasFVar = false :=
  have h : specializeDecls (fun _ => none) (fun _ _ => .other) (fun _ => false) (fun _ => false) (fun _ => false)
      swapStage1 (fun _ _ i => 999 + i) (fun _ e => e) (fun _ => true) pairInfer (fun _ _ => false) id
      (fun n e => (e, n)) (fun _ => false) 6 swapExt [] [pairMain] = some pairPass := by decide
  ⟨pairOracles, by decide, h, specializeDecls_closed pairOracles (by decide) h⟩

/-- The names `specialize_core` of `d` returns are distinct, when `mk_spec_name` tells indices
apart and makes no name of `d`'s: `d`'s own, and names made by `mk_spec_name` with `d` as the
base name. -/
theorem specializeCore_names {ext : SpecInfoMap} {fuel : Nat} {gcache : List (Expr × Nat)} {d : CompDecl}
    {r : List (Expr × Nat) × List CompDecl}
    (hinj : ∀ c i c' i', mkSpecName c d.name i = mkSpecName c' d.name i' → i = i')
    (hd : ∀ c i, mkSpecName c d.name i ≠ d.name)
    (h : specializeCore isCasesOn hasAttr hasNospecialize isInstance stage1 mkSpecName whnf isConstructorApp infer
      isIrrelevant csimp etaExpand isJoinPointName ext fuel gcache d = some r) :
    (r.2.map CompDecl.name).Nodup ∧ ∀ x ∈ r.2, x.name = d.name ∨ ∃ c i, x.name = mkSpecName c d.name i := by
  obtain ⟨⟨code, st⟩, h₁, rfl⟩ := Option.map_eq_some'.1 h
  obtain ⟨ds, hds, hnd, hm⟩ := ((visit_spec (runRel_nameWalk hinj) fuel).rel h₁).added
  rw [List.nil_append] at hds
  show ((st.newDecls ++ [CompDecl.mk d.name code]).map CompDecl.name).Nodup ∧
    ∀ x ∈ st.newDecls ++ [CompDecl.mk d.name code], _
  rw [hds, List.map_append, List.nodup_append]
  refine ⟨⟨hnd, List.nodup_singleton _, disjoint_names fun x hx y hy => ?_⟩, fun x hx => ?_⟩
  · obtain ⟨c, i, -, -, e⟩ := hm x hx
    rw [List.mem_singleton.1 hy, e]
    exact hd c i
  · rcases List.mem_append.1 hx with hx | hx
    · obtain ⟨c, i, -, -, e⟩ := hm x hx
      exact .inr ⟨c, i, e⟩
    · exact .inl (by rw [List.mem_singleton.1 hx])

/-- `specialize` of a block gives every declaration it returns a name of its own, when the
block's names are distinct, `mk_spec_name` tells base names and indices apart, and it makes no
name of the block: `m_next_idx` gives each specialization made for one declaration its own
index, nested ones included, and the base name keeps those of different declarations apart. -/
theorem specializeDecls_nodup (hinj : ∀ c b i c' b' i', mkSpecName c b i = mkSpecName c' b' i' → b = b' ∧ i = i')
    {fuel : Nat} {ext : SpecInfoMap} {gcache : List (Expr × Nat)} {ds : List CompDecl}
    {r : SpecInfoMap × List (Expr × Nat) × List CompDecl} (hds : (ds.map CompDecl.name).Nodup)
    (hblock : ∀ c b i, mkSpecName c b i ∉ ds.map CompDecl.name)
    (h : specializeDecls isCasesOn binder hasAttr hasNospecialize isInstance stage1 mkSpecName whnf isConstructorApp
      infer isIrrelevant csimp etaExpand isJoinPointName fuel ext gcache ds = some r) :
    (r.2.2.map CompDecl.name).Nodup := by
  obtain ⟨ext', parts, hp, hr⟩ := specializeDecls_flatten h
  rw [hr]
  clear hr h
  -- the names of each part: those of its declaration, and specialization names made from it
  suffices (parts.flatten.map CompDecl.name).Nodup ∧ ∀ y ∈ parts.flatten, ∃ d' ∈ ds,
      y.name = d'.name ∨ ∃ c i, y.name = mkSpecName c d'.name i from this.1
  induction hp with
  | nil => simp
  | @cons d part ds parts hc _ ih =>
    obtain ⟨g, g', hc⟩ := hc
    obtain ⟨hd, hds'⟩ := List.nodup_cons.1 hds
    obtain ⟨hn, hm⟩ := specializeCore_names (fun c i c' i' e => (hinj _ _ _ _ _ _ e).2)
      (fun c i e => hblock c d.name i (by rw [e]; exact List.mem_cons_self _ _)) hc
    obtain ⟨ihn, ihm⟩ := ih hds' fun c b i h => hblock c b i (List.mem_cons_of_mem _ h)
    rw [List.flatten_cons, List.map_append, List.nodup_append]
    refine ⟨⟨hn, ihn, disjoint_names fun x hx y hy => ?_⟩, fun y hy => ?_⟩
    · obtain ⟨d', hd', hy⟩ := ihm y hy
      have hd'n : d'.name ∈ ds.map CompDecl.name := List.mem_map_of_mem _ hd'
      rcases hm x hx with hx | ⟨c, i, hx⟩ <;> rcases hy with hy | ⟨c', i', hy⟩ <;> rw [hx, hy] <;> intro e
      · exact hd (by rw [e]; exact hd'n)
      · exact hblock c' d'.name i' (by rw [← e]; exact List.mem_cons_self _ _)
      · exact hblock c d.name i (by rw [e]; exact List.mem_cons_of_mem _ hd'n)
      · exact hd (by rw [(hinj _ _ _ _ _ _ e).1]; exact hd'n)
    · rcases List.mem_append.1 hy with hy | hy
      · exact ⟨d, List.mem_cons_self _ _, hm y hy⟩
      · obtain ⟨d', hd', h⟩ := ihm y hy
        exact ⟨d', List.mem_cons_of_mem _ hd', h⟩

/-- `main` (`7`) and a copy of it (`8`), each specialized on its own: names made by
`Nat.pair` from the base name and the index, past the block's. -/
def twoPass : SpecInfoMap × List (Expr × Nat) × List CompDecl :=
  ((8, ⟨[7, 8], [0, 0]⟩) :: (7, ⟨[7, 8], [0, 0]⟩) :: swapExt, [],
    [⟨1058, pairCopy 1057⟩, ⟨1057, pairCopy 1058⟩,
      ⟨7, .lam (.sort false) (.lam (.bvar 0) (.app (.app (.const 1057 false) (.bvar 1)) (.bvar 0)))⟩,
      ⟨1074, pairCopy 1073⟩, ⟨1073, pairCopy 1074⟩,
      ⟨8, .lam (.sort false) (.lam (.bvar 0) (.app (.app (.const 1073 false) (.bvar 1)) (.bvar 0)))⟩])

theorem specializeDecls_nodup_two :
    (∀ _c b i _c' b' i' : Nat, Nat.pair b i + 1000 = Nat.pair b' i' + 1000 → b = b' ∧ i = i') ∧
    ([pairMain, ⟨8, pairMain.code⟩].map CompDecl.name).Nodup ∧
    (∀ _c b i : Nat, Nat.pair b i + 1000 ∉ [pairMain, ⟨8, pairMain.code⟩].map CompDecl.name) ∧
    specializeDecls (fun _ => none) (fun _ _ => .other) (fun _ => false) (fun _ => false) (fun _ => false) swapStage1
      (fun _ b i => Nat.pair b i + 1000) (fun _ e => e) (fun _ => true) pairInfer (fun _ _ => false) id
      (fun n e => (e, n)) (fun _ => false) 6 swapExt [] [pairMain, ⟨8, pairMain.code⟩] = some twoPass ∧
    (twoPass.2.2.map CompDecl.name).Nodup :=
  have hinj : ∀ _c b i _c' b' i' : Nat, Nat.pair b i + 1000 = Nat.pair b' i' + 1000 → b = b' ∧ i = i' :=
    fun _ _ _ _ _ _ e => Nat.pair_eq_pair.1 (Nat.add_right_cancel e)
  have hblock : ∀ _c b i : Nat, Nat.pair b i + 1000 ∉ [pairMain, ⟨8, pairMain.code⟩].map CompDecl.name :=
    fun _ _ _ h => by simp [pairMain] at h
  have h : specializeDecls (fun _ => none) (fun _ _ => .other) (fun _ => false) (fun _ => false) (fun _ => false)
      swapStage1 (fun _ b i => Nat.pair b i + 1000) (fun _ e => e) (fun _ => true) pairInfer (fun _ _ => false) id
      (fun n e => (e, n)) (fun _ => false) 6 swapExt [] [pairMain, ⟨8, pairMain.code⟩] = some twoPass := by decide
  ⟨hinj, by decide, hblock, h, specializeDecls_nodup hinj (by decide) hblock h⟩

/-- Every entry that `specialize_core` adds to the global cache names a declaration it
returns. -/
theorem specializeCore_gcache {ext : SpecInfoMap} {fuel : Nat} {gcache : List (Expr × Nat)} {d : CompDecl}
    {r : List (Expr × Nat) × List CompDecl}
    (h : specializeCore isCasesOn hasAttr hasNospecialize isInstance stage1 mkSpecName whnf isConstructorApp infer
      isIrrelevant csimp etaExpand isJoinPointName ext fuel gcache d = some r) :
    ∀ p ∈ r.1, p ∈ gcache ∨ p.2 ∈ r.2.map CompDecl.name := by
  obtain ⟨⟨code, st⟩, h₁, rfl⟩ := Option.map_eq_some'.1 h
  have hg := ((visit_spec runRel_cacheWalk fuel).rel h₁).named
  exact fun p hp => (hg p hp).imp_right fun hn => by rw [List.map_append]; exact List.mem_append_left _ hn

/-- The loop of `specialize`, as `specializeCore_gcache`, the cache threaded through. -/
theorem specializeLoop_gcache {ext : SpecInfoMap} {fuel : Nat} :
    ∀ {ds : List CompDecl} {gcache : List (Expr × Nat)} {r : List (Expr × Nat) × List CompDecl},
      specializeLoop isCasesOn hasAttr hasNospecialize isInstance stage1 mkSpecName whnf isConstructorApp infer
        isIrrelevant csimp etaExpand isJoinPointName ext fuel ds gcache = some r →
      ∀ p ∈ r.1, p ∈ gcache ∨ p.2 ∈ r.2.map CompDecl.name
  | [], _, _, h => by rw [← Option.some.inj h]; exact fun p hp => .inl hp
  | d :: ds, gcache, r, h => by
    obtain ⟨⟨g₁, new⟩, h₁, h⟩ := Option.bind_eq_some.1 h
    obtain ⟨⟨g₂, rest⟩, h₂, h⟩ := Option.bind_eq_some.1 h
    obtain rfl := Option.some.inj h
    intro p hp
    simp only [List.map_append, List.mem_append]
    rcases specializeLoop_gcache h₂ p hp with hp | hp
    · exact (specializeCore_gcache h₁ p hp).imp_right .inl
    · exact .inr (.inr hp)

/-- Every entry that `specialize` of a block adds to the global cache names one of the
declarations it returns: a later call that hits the entry calls a declaration that exists. -/
theorem specializeDecls_gcache {fuel : Nat} {ext : SpecInfoMap} {gcache : List (Expr × Nat)} {ds : List CompDecl}
    {r : SpecInfoMap × List (Expr × Nat) × List CompDecl}
    (h : specializeDecls isCasesOn binder hasAttr hasNospecialize isInstance stage1 mkSpecName whnf isConstructorApp
      infer isIrrelevant csimp etaExpand isJoinPointName fuel ext gcache ds = some r) :
    ∀ p ∈ r.2.1, p ∈ gcache ∨ p.2 ∈ r.2.2.map CompDecl.name := by
  obtain ⟨p, h₁, rfl⟩ := Option.map_eq_some'.1 h
  exact specializeLoop_gcache h₁

/-- `f` (`20`) and `h` (`21`), each alone in its block, each with an instance parameter. -/
def nestExt : SpecInfoMap :=
  [(20, ⟨[20], toSpecArgKinds [.fixedInst]⟩), (21, ⟨[21], toSpecArgKinds [.fixedInst]⟩)]

/-- `f x := h x` and `h x := x`. -/
def nestStage1 (c : Nat) (_ : Bool) : Option Expr :=
  if c = 20 then some (.lam (.sort false) (.app (.const 21 false) (.bvar 0)))
  else if c = 21 then some (.lam (.sort false) (.bvar 0)) else none

/-- What `specialize` makes of `main := f c` (`8`, `c` the constant `30`): `f' := let x := c; h'`
(`1000`), where `h'` (`1001`) is the specialization of `h` on `c` that the visit of the code of
`f'` makes; the global cache holds the entry of `h c`, added during `mk_new_decl` of `f'`, and
then that of `f c`. -/
def nestPass : SpecInfoMap × List (Expr × Nat) × List CompDecl :=
  ((8, ⟨[8], []⟩) :: nestExt,
    [(.app (.const 20 false) (.const 30 false), 1000), (.app (.const 21 false) (.const 30 false), 1001)],
    [⟨1001, .letE (.sort false) (.const 30 false) (.letE (.sort false) (.bvar 0) (.bvar 0))⟩,
      ⟨1000, .letE (.sort false) (.const 30 false) (.const 1001 false)⟩, ⟨8, .const 1000 false⟩])

theorem specializeDecls_gcache_nest :
    specializeDecls (fun _ => none) (fun _ _ => .other) (fun _ => false) (fun _ => false) (fun _ => false) nestStage1
      (fun _ _ i => 999 + i) (fun _ e => e) (fun _ => true) pairInfer (fun _ _ => false) id (fun n e => (e, n))
      (fun _ => false) 6 nestExt [] [⟨8, .app (.const 20 false) (.const 30 false)⟩] = some nestPass ∧
    ∀ p ∈ nestPass.2.1, p ∈ ([] : List (Expr × Nat)) ∨ p.2 ∈ nestPass.2.2.map CompDecl.name :=
  have h : specializeDecls (fun _ => none) (fun _ _ => .other) (fun _ => false) (fun _ => false) (fun _ => false)
      nestStage1 (fun _ _ i => 999 + i) (fun _ e => e) (fun _ => true) pairInfer (fun _ _ => false) id
      (fun n e => (e, n)) (fun _ => false) 6 nestExt [] [⟨8, .app (.const 20 false) (.const 30 false)⟩] =
      some nestPass := by
    decide
  ⟨h, specializeDecls_gcache h⟩

end Pass

end Compiler

end Lean4Core
