import Lean4Core.Compiler.Specialize

/-!
# Which parameters a mutual block keeps fixed

`update_spec_info` (`specialize.cpp`, `unnamed/part_003`, lines 168–293) records the kind of
each header parameter of each declaration of a mutual block; `get_bool_mask` later turns
these kinds into the mask of the arguments a specialization fixes. The first phase classifies
a parameter by its binder and its type: an instance, a type or a proof (or a function that
returns a type), a function, or anything else. The second phase walks every body of the
block with `update_info_buffer` and marks `Other` each parameter to which a call of its
declaration passes nothing, or something that is not a free variable. Every header variable
is instantiated with the one free variable `_x.1`, so what counts is only that a call passes
some header variable, not which one.

The walk looks through lambdas, into the value and then the body of each let, into the minor
premises of each `casesOn` application, and at the head of every other application, and
nowhere else: `Reaches` says so declaratively.

The buffer is then recorded in the `m_spec_info` map of the specializer's extension, each
kind boxed as a scalar, and `get_arg_kinds` reads it back from there.

Main results:
- `lookup_updateInfoBuffer_visitMinors`: after the walk of `e`, a position of an entry is
  `Other` exactly when it was, or when a call that the walk reaches in `e` breaks it; every
  other position keeps its kind, and the walk keeps the names of the buffer;
- `getArgKinds_updateSpecInfo`: for a block with distinct names, the kinds read back for a
  declaration are those of the first phase, except at the positions that a call reached
  from some body of the block breaks, which are `Other`;
- `getArgKinds_updateSpecInfo_perm`: these kinds do not depend on the order of the
  declarations;
- `getBoolMask_breaks`: the specializer never fixes an argument that a call of the block
  breaks.
-/

namespace Lean4Core

namespace Compiler

open Expr

/-- `comp_decl`: a declaration of a mutual block, its name and its code. -/
structure CompDecl where
  name : Nat
  code : Expr
  deriving DecidableEq, Repr

/-- `spec_info_buffer`: for each declaration of the block, in order, its name and the kinds
of its header parameters. -/
abbrev InfoBuffer := List (Nat × List SpecArgKind)

/-! ## The walk over a body -/

/-- The test of `update_info_buffer` at position `i` of a call: `i >= args.size()` or
`!is_fvar(args[i])`. -/
def breaks (args : List Expr) (i : Nat) : Bool := !(args[i]?.any isFVar)

/-- The kinds with every position where `p` holds marked `Other`. -/
def markWhere (p : Nat → Bool) (ks : List SpecArgKind) : List SpecArgKind :=
  ks.mapIdx fun i k => if p i then .other else k

/-- The loop over `info_buffer` for a call of `c` on `args`: it marks the positions of the
first entry named `c` that the call breaks. -/
def markCall (c : Nat) (args : List Expr) : InfoBuffer → InfoBuffer
  | [] => []
  | (n, ks) :: buf =>
    if n = c then (n, markWhere (breaks args) ks) :: buf else (n, ks) :: markCall c args buf

/- `isCasesOn c` is the range of the minor premises of `c` when `c` is a `casesOn` recursor
(`is_cases_on_recursor`, `get_cases_on_minors_range`), and `none` otherwise. -/
variable (isCasesOn : Nat → Option (Nat × Nat))

section Walk

/- The names of the declarations of the block. -/
variable (S : List Nat)

mutual

/-- `update_info_buffer`. -/
def updateInfoBuffer : Expr → InfoBuffer → InfoBuffer
  | lam _ b, buf => updateInfoBuffer b buf
  | letE _ v b, buf => updateInfoBuffer b (updateInfoBuffer v buf)
  | app f a, buf =>
    match (app f a).getAppFn with
    | const c _ =>
      match isCasesOn c with
      | some (lo, hi) =>
        let buf := visitMinors lo hi f buf
        if lo ≤ f.getAppNumArgs ∧ f.getAppNumArgs < hi then updateInfoBuffer a buf else buf
      | none => if c ∈ S then markCall c (app f a).getAppArgs buf else buf
    | _ => buf
  | _, buf => buf

/-- The loop of `update_info_buffer` over the minor premises `args[i]`, `lo ≤ i < hi`, of a
`casesOn` application, for the arguments of the spine `e`, first to last. The source reads
`args[i]` for every `i` of the range; the model reads only the arguments there are. -/
def visitMinors (lo hi : Nat) : Expr → InfoBuffer → InfoBuffer
  | app f a, buf =>
    let buf := visitMinors lo hi f buf
    if lo ≤ f.getAppNumArgs ∧ f.getAppNumArgs < hi then updateInfoBuffer a buf else buf
  | _, buf => buf

end

end Walk

/-! ## The two phases of `update_spec_info` -/

/-- What the first phase learns of a header binder: that it is instance-implicit, or else
the shape of its type in weak head normal form, which the type checker computes (`pi` records
whether the telescope of the type ends in a sort). -/
inductive HeaderBinder where
  | instImplicit
  | sortOrProp
  | pi (returnsSort : Bool)
  | other
  deriving DecidableEq, Repr

/-- The kind the first phase gives a header binder. -/
def HeaderBinder.kind : HeaderBinder → SpecArgKind
  | instImplicit => .fixedInst
  | sortOrProp => .fixedNeutral
  | pi true => .fixedNeutral
  | pi false => .fixedHO
  | other => .fixed

/-- The number of header lambdas of a declaration's code. -/
def headerSize : Expr → Nat
  | lam _ b => headerSize b + 1
  | _ => 0

/-- The code under the header lambdas. -/
def stripHeader : Expr → Expr
  | lam _ b => stripHeader b
  | e => e

/-- `_x.1`, the free variable that the second phase puts for every header variable: the
counter `i` that names them is never incremented. -/
def headerVar : Nat := 1

/-- The body that the second phase walks: the code under its header, with the header
variables instantiated. -/
def headerBody (code : Expr) : Expr :=
  (stripHeader code).instantiateRev (List.replicate (headerSize code) headerVar)

/- `binder d i` is what the first phase learns of the `i`-th header binder of `d`. -/
variable (binder : CompDecl → Nat → HeaderBinder)

/-- The buffer that `update_spec_info` computes, before it records its entries. -/
def updateSpecInfo (ds : List CompDecl) : InfoBuffer :=
  ds.foldl (fun buf d => updateInfoBuffer isCasesOn (ds.map CompDecl.name) (headerBody d.code) buf)
    (ds.map fun d => (d.name, (List.range (headerSize d.code)).map fun i => (binder d i).kind))

/-! ## The extension

`update_spec_info` records each entry of its buffer in the `m_spec_info` map of the
specializer's extension, the kinds boxed as scalars (`to_spec_arg_kinds`), and
`get_arg_kinds` reads them back (`to_buffer`). -/

/-- The scalar that boxes a kind, its position in `spec_arg_kind`. -/
def SpecArgKind.box : SpecArgKind → Nat
  | .fixed => 0
  | .fixedNeutral => 1
  | .fixedHO => 2
  | .fixedInst => 3
  | .other => 4

/-- `to_spec_arg_kind`, a `static_cast` of the unboxed scalar; the model reads a scalar past
the last kind as `Other`. -/
def toSpecArgKind : Nat → SpecArgKind
  | 0 => .fixed
  | 1 => .fixedNeutral
  | 2 => .fixedHO
  | 3 => .fixedInst
  | _ => .other

/-- `to_spec_arg_kinds`: the list of boxed kinds, built from the last. -/
def toSpecArgKinds (ks : List SpecArgKind) : List Nat := ks.foldr (fun k r => k.box :: r) []

/-- `to_buffer`. -/
def toBuffer (ks : List Nat) : List SpecArgKind := ks.map toSpecArgKind

/-- `spec_info`: the names of the mutual block and the boxed kinds. -/
structure SpecInfo where
  mutualDecls : List Nat
  argKinds : List Nat
  deriving DecidableEq, Repr

/-- `m_spec_info`, the latest insertion first. -/
abbrev SpecInfoMap := List (Nat × SpecInfo)

/-- The last loop of `update_spec_info`: each entry of the buffer inserted in order. -/
def insertSpecInfos (mutualDecls : List Nat) (buf : InfoBuffer) (ext : SpecInfoMap) : SpecInfoMap :=
  buf.foldl (fun ext e => (e.1, ⟨mutualDecls, toSpecArgKinds e.2⟩) :: ext) ext

/-- `update_spec_info`, on the `m_spec_info` map of the extension. -/
def updateSpecInfoExt (ext : SpecInfoMap) (ds : List CompDecl) : SpecInfoMap :=
  insertSpecInfos (ds.map CompDecl.name) (updateSpecInfo isCasesOn binder ds) ext

/-- `get_arg_kinds`; `none` where the source asserts that the declaration has a `spec_info`. -/
def getArgKinds (ext : SpecInfoMap) (fn : Nat) : Option (List SpecArgKind) :=
  (ext.lookup fn).map fun si => toBuffer si.argKinds

/-! ## What the walk reaches -/

/-- Specification: the expressions that `update_info_buffer` looks at when it walks
`e`: `e` itself, the body of a lambda, the value and the body of a let, and each argument in
the minor-premise range of a `casesOn` application, transitively. -/
inductive Reaches : Expr → Expr → Prop
  | refl (e : Expr) : Reaches e e
  | lam {d b e' : Expr} : Reaches b e' → Reaches (.lam d b) e'
  | letValue {t v b e' : Expr} : Reaches v e' → Reaches (.letE t v b) e'
  | letBody {t v b e' : Expr} : Reaches b e' → Reaches (.letE t v b) e'
  | minor {e a e' : Expr} {c : Nat} {u : Bool} {lo hi i : Nat} : e.getAppFn = .const c u →
      isCasesOn c = some (lo, hi) → lo ≤ i → i < hi → e.getAppArgs[i]? = some a →
      Reaches a e' → Reaches e e'

/-- Specification: `e` is a call of `c`, which is no `casesOn`, that breaks
position `i`. -/
def BreaksAt (e : Expr) (c i : Nat) : Prop :=
  e.getAppArgs ≠ [] ∧ (∃ u, e.getAppFn = .const c u) ∧ isCasesOn c = none ∧
    breaks e.getAppArgs i = true

section Walk

variable (S : List Nat)

/-- Specification: position `i` of `n`, a declaration of the block, is broken by a
call that the walk of `e` reaches. -/
def Broken (e : Expr) (n i : Nat) : Prop :=
  n ∈ S ∧ ∃ e', Reaches isCasesOn e e' ∧ BreaksAt isCasesOn e' n i

/-- Position `i` of `n` is broken by a call reached from a minor premise among the arguments
of the spine `e`. -/
def BrokenInMinors (lo hi : Nat) (e : Expr) (n i : Nat) : Prop :=
  ∃ j a, lo ≤ j ∧ j < hi ∧ e.getAppArgs[j]? = some a ∧ Broken isCasesOn S a n i

/-! ### Marking -/

theorem markWhere_markWhere (p q : Nat → Bool) (ks : List SpecArgKind) :
    markWhere q (markWhere p ks) = markWhere (fun i => p i || q i) ks := by
  simp only [markWhere, List.mapIdx_mapIdx]
  congr 1; funext i k
  by_cases hp : p i <;> by_cases hq : q i <;> simp [hp, hq]

theorem markWhere_congr {p q : Nat → Bool} (h : ∀ i, p i = q i) : markWhere p = markWhere q := by
  rw [funext h]

@[simp] theorem markWhere_false : markWhere (fun _ => false) = id := by
  funext ks; apply List.ext_getElem <;> simp [markWhere]

theorem markWhere_map_range (p : Nat → Bool) (m : Nat) (f : Nat → SpecArgKind) :
    markWhere p ((List.range m).map f) = (List.range m).map fun i => if p i then .other else f i := by
  apply List.ext_getElem <;> simp [markWhere]

theorem lookup_markCall (c : Nat) (args : List Expr) (buf : InfoBuffer) (n : Nat) :
    (markCall c args buf).lookup n =
      if n = c then (buf.lookup n).map (markWhere (breaks args)) else buf.lookup n := by
  induction buf with
  | nil => simp [markCall]
  | cons p buf ih =>
    obtain ⟨m, ks⟩ := p
    by_cases hm : m = c
    · subst hm; by_cases hn : n = m <;> simp [markCall, lookup_cons_ite, hn]
    · by_cases hn : n = m <;> simp [markCall, lookup_cons_ite, hm, hn, ih]

/-! ### What each node of the walk breaks -/

variable {isCasesOn S}

/-- A node that the walk does not enter and that is no call breaks nothing. -/
theorem not_broken_of_leaf {e : Expr} (hl : ∀ d b, e ≠ .lam d b) (ht : ∀ t v b, e ≠ .letE t v b)
    (hc : ∀ c u, e.getAppFn = .const c u → e.getAppArgs = []) (n i : Nat) :
    ¬ Broken isCasesOn S e n i := by
  rintro ⟨-, e', hr, hb⟩
  cases hr with
  | refl => exact hb.1 (hc _ _ hb.2.1.choose_spec)
  | lam => exact hl _ _ rfl
  | letValue | letBody => exact ht _ _ _ rfl
  | minor hf _ _ _ ha => simp [hc _ _ hf] at ha

theorem broken_lam {d b : Expr} {n i : Nat} :
    Broken isCasesOn S (.lam d b) n i ↔ Broken isCasesOn S b n i := by
  refine ⟨fun ⟨hS, e', hr, hb⟩ => ?_, fun ⟨hS, e', hr, hb⟩ => ⟨hS, e', .lam hr, hb⟩⟩
  cases hr with
  | refl => exact absurd hb.1 (by simp [getAppArgs])
  | lam hr => exact ⟨hS, e', hr, hb⟩
  | minor hf => simp [getAppFn] at hf

theorem broken_letE {t v b : Expr} {n i : Nat} :
    Broken isCasesOn S (.letE t v b) n i ↔ Broken isCasesOn S v n i ∨ Broken isCasesOn S b n i := by
  constructor
  · rintro ⟨hS, e', hr, hb⟩
    cases hr with
    | refl => exact absurd hb.1 (by simp [getAppArgs])
    | letValue hr => exact .inl ⟨hS, e', hr, hb⟩
    | letBody hr => exact .inr ⟨hS, e', hr, hb⟩
    | minor hf => simp [getAppFn] at hf
  · rintro (⟨hS, e', hr, hb⟩ | ⟨hS, e', hr, hb⟩)
    exacts [⟨hS, e', .letValue hr, hb⟩, ⟨hS, e', .letBody hr, hb⟩]

/-- A `casesOn` application breaks what its minor premises break. -/
theorem broken_casesOn {e : Expr} {c : Nat} {u : Bool} {lo hi : Nat} (hf : e.getAppFn = .const c u)
    (hc : isCasesOn c = some (lo, hi)) (hl : ∀ d b, e ≠ .lam d b) (ht : ∀ t v b, e ≠ .letE t v b)
    {n i : Nat} : Broken isCasesOn S e n i ↔ BrokenInMinors isCasesOn S lo hi e n i := by
  constructor
  · rintro ⟨hS, e', hr, hb⟩
    cases hr with
    | refl =>
      obtain ⟨u', hu'⟩ := hb.2.1
      obtain ⟨rfl, -⟩ := Expr.const.inj (hf.symm.trans hu')
      exact absurd (hc.symm.trans hb.2.2.1) (by simp)
    | lam => exact absurd rfl (hl _ _)
    | letValue | letBody => exact absurd rfl (ht _ _ _)
    | minor hf' hc' hlo hhi ha hr =>
      obtain ⟨rfl, -⟩ := Expr.const.inj (hf.symm.trans hf')
      obtain ⟨rfl, rfl⟩ := Prod.mk.inj (Option.some.inj (hc.symm.trans hc'))
      exact ⟨_, _, hlo, hhi, ha, hS, e', hr, hb⟩
  · rintro ⟨j, a, hlo, hhi, ha, hS, e', hr, hb⟩
    exact ⟨hS, e', .minor hf hc hlo hhi ha hr, hb⟩

/-- Any other application of a constant is a call, and breaks what it breaks itself. -/
theorem broken_call {f a : Expr} {c : Nat} {u : Bool} (hf : (Expr.app f a).getAppFn = .const c u)
    (hc : isCasesOn c = none) {n i : Nat} :
    Broken isCasesOn S (.app f a) n i ↔ n ∈ S ∧ n = c ∧ breaks (Expr.app f a).getAppArgs i := by
  constructor
  · rintro ⟨hS, e', hr, hb⟩
    cases hr with
    | refl =>
      obtain ⟨u', hu'⟩ := hb.2.1
      obtain ⟨rfl, -⟩ := Expr.const.inj (hf.symm.trans hu')
      exact ⟨hS, rfl, hb.2.2.2⟩
    | minor hf' hc' =>
      obtain ⟨rfl, -⟩ := Expr.const.inj (hf.symm.trans hf')
      exact absurd (hc.symm.trans hc') (by simp)
  · rintro ⟨hS, rfl, hb⟩
    exact ⟨hS, _, .refl _, by simp, ⟨u, hf⟩, hc, hb⟩

theorem brokenInMinors_app {lo hi : Nat} {f a : Expr} {n i : Nat} :
    BrokenInMinors isCasesOn S lo hi (.app f a) n i ↔ BrokenInMinors isCasesOn S lo hi f n i ∨
      ((lo ≤ f.getAppNumArgs ∧ f.getAppNumArgs < hi) ∧ Broken isCasesOn S a n i) := by
  constructor
  · rintro ⟨j, a', hlo, hhi, ha, hb⟩
    rw [getAppArgs_app, List.getElem?_append] at ha
    split at ha
    · exact .inl ⟨j, a', hlo, hhi, ha, hb⟩
    · rename_i hj
      simp only [length_getAppArgs, not_lt] at hj
      have h0 : j - f.getAppNumArgs = 0 := by
        by_contra h0
        rw [List.getElem?_eq_none_iff.2 (by simp; omega)] at ha
        exact Option.noConfusion ha
      obtain rfl : a = a' := by simpa [h0] using ha
      exact .inr ⟨⟨by omega, by omega⟩, hb⟩
  · rintro (⟨j, a', hlo, hhi, ha, hb⟩ | ⟨⟨hlo, hhi⟩, hb⟩)
    · exact ⟨j, a', hlo, hhi, by simp [List.getElem?_append_left (List.getElem?_eq_some_iff.1 ha).1, ha], hb⟩
    · exact ⟨f.getAppNumArgs, a, hlo, hhi, by simp, hb⟩

theorem not_brokenInMinors_of_getAppArgs {lo hi : Nat} {e : Expr} (h : e.getAppArgs = []) (n i : Nat) :
    ¬ BrokenInMinors isCasesOn S lo hi e n i := by
  rintro ⟨j, a, -, -, ha, -⟩; simp [h] at ha

/-! ### The walk marks what it breaks -/

variable (isCasesOn S)

theorem updateInfoBuffer_casesOn {f a : Expr} {c : Nat} {u : Bool} {lo hi : Nat}
    (hf : (Expr.app f a).getAppFn = .const c u) (hc : isCasesOn c = some (lo, hi)) (buf : InfoBuffer) :
    updateInfoBuffer isCasesOn S (.app f a) buf = visitMinors isCasesOn S lo hi (.app f a) buf := by
  simp only [getAppFn_app] at hf
  simp [updateInfoBuffer, visitMinors, hf, hc]

open Classical in
/-- Both functions of the walk, by one induction on the expression: each position of an
entry ends `Other` exactly where it was or where a call that the walk reaches breaks it. -/
theorem lookup_updateInfoBuffer_visitMinors (e : Expr) :
    (∀ buf n, (updateInfoBuffer isCasesOn S e buf).lookup n =
      (buf.lookup n).map (markWhere fun i => decide (Broken isCasesOn S e n i))) ∧
    (∀ lo hi buf n, (visitMinors isCasesOn S lo hi e buf).lookup n =
      (buf.lookup n).map (markWhere fun i => decide (BrokenInMinors isCasesOn S lo hi e n i))) := by
  induction e with
  | lam d b _ ihb =>
    refine ⟨fun buf n => ?_, fun lo hi buf n => ?_⟩
    · simp only [updateInfoBuffer, ihb.1, broken_lam]
    · simp [visitMinors, not_brokenInMinors_of_getAppArgs, getAppArgs]
  | letE t v b _ ihv ihb =>
    refine ⟨fun buf n => ?_, fun lo hi buf n => ?_⟩
    · simp only [updateInfoBuffer, ihv.1, ihb.1, Option.map_map, Function.comp_def,
        markWhere_markWhere, broken_letE, Bool.decide_or]
    · simp [visitMinors, not_brokenInMinors_of_getAppArgs, getAppArgs]
  | app f a ihf iha =>
    have hvm : ∀ lo hi buf n, (visitMinors isCasesOn S lo hi (.app f a) buf).lookup n =
        (buf.lookup n).map (markWhere fun i => decide (BrokenInMinors isCasesOn S lo hi (.app f a) n i)) := by
      intro lo hi buf n
      simp only [visitMinors, brokenInMinors_app]
      split_ifs with hr
      · simp only [iha.1, ihf.2, Option.map_map, Function.comp_def, markWhere_markWhere, hr,
          true_and, Bool.decide_or]
      · simp only [ihf.2, hr, false_and, or_false]
    refine ⟨fun buf n => ?_, hvm⟩
    cases hfn : (Expr.app f a).getAppFn with
    | const c u =>
      cases hc : isCasesOn c with
      | some r =>
        obtain ⟨lo, hi⟩ := r
        rw [updateInfoBuffer_casesOn isCasesOn S hfn hc, hvm]
        simp only [broken_casesOn hfn hc (fun _ _ h => nomatch h) (fun _ _ _ h => nomatch h)]
      | none =>
        simp only [getAppFn_app] at hfn
        simp only [broken_call (getAppFn_app f a ▸ hfn) hc]
        by_cases hS : c ∈ S
        · by_cases hn : n = c
          · subst hn; simp [updateInfoBuffer, hfn, hc, hS, lookup_markCall]
          · simp [updateInfoBuffer, hfn, hc, hS, lookup_markCall, hn]
        · by_cases hn : n = c
          · subst hn; simp [updateInfoBuffer, hfn, hc, hS]
          · simp [updateInfoBuffer, hfn, hc, hS, hn]
    | _ =>
      simp only [getAppFn_app] at hfn
      have hnb : ∀ n i, ¬ Broken isCasesOn S (.app f a) n i :=
        not_broken_of_leaf (fun _ _ h => nomatch h) (fun _ _ _ h => nomatch h)
          (fun c u h => by simp [hfn] at h)
      simp [updateInfoBuffer, hfn, hnb]
  | _ =>
    exact ⟨fun buf n => by simp [updateInfoBuffer, not_broken_of_leaf, getAppArgs],
      fun lo hi buf n => by simp [visitMinors, not_brokenInMinors_of_getAppArgs, getAppArgs]⟩

theorem keys_markCall (c : Nat) (args : List Expr) (buf : InfoBuffer) :
    (markCall c args buf).map Prod.fst = buf.map Prod.fst := by
  induction buf with
  | nil => rfl
  | cons p buf ih => obtain ⟨n, ks⟩ := p; by_cases h : n = c <;> simp [markCall, h, ih]

/-- The walk keeps the names of the buffer, in order. -/
theorem keys_updateInfoBuffer_visitMinors (e : Expr) :
    (∀ buf, (updateInfoBuffer isCasesOn S e buf).map Prod.fst = buf.map Prod.fst) ∧
    (∀ lo hi buf, (visitMinors isCasesOn S lo hi e buf).map Prod.fst = buf.map Prod.fst) := by
  induction e with
  | lam _ _ _ ihb => exact ⟨fun buf => ihb.1 buf, fun _ _ _ => rfl⟩
  | letE _ _ _ _ ihv ihb => exact ⟨fun buf => (ihb.1 _).trans (ihv.1 buf), fun _ _ _ => rfl⟩
  | app f a ihf iha =>
    have hvm : ∀ lo hi buf, (visitMinors isCasesOn S lo hi (.app f a) buf).map Prod.fst =
        buf.map Prod.fst := fun lo hi buf => by
      simp only [visitMinors]; split_ifs <;> simp [iha.1, ihf.2]
    refine ⟨fun buf => ?_, hvm⟩
    simp only [updateInfoBuffer]
    split
    · split
      · exact hvm _ _ buf
      · split_ifs <;> simp [keys_markCall]
    · rfl
  | _ => exact ⟨fun _ => rfl, fun _ _ _ => rfl⟩

theorem keys_foldl_updateInfoBuffer (L : List CompDecl) (buf : InfoBuffer) :
    (L.foldl (fun buf d => updateInfoBuffer isCasesOn S (headerBody d.code) buf) buf).map Prod.fst =
      buf.map Prod.fst := by
  induction L generalizing buf with
  | nil => rfl
  | cons d L ih => rw [List.foldl_cons, ih, (keys_updateInfoBuffer_visitMinors isCasesOn S _).1]

open Classical in
theorem lookup_foldl_updateInfoBuffer (L : List CompDecl) (buf : InfoBuffer) (n : Nat) :
    (L.foldl (fun buf d => updateInfoBuffer isCasesOn S (headerBody d.code) buf) buf).lookup n =
      (buf.lookup n).map
        (markWhere fun i => decide (∃ d ∈ L, Broken isCasesOn S (headerBody d.code) n i)) := by
  induction L generalizing buf with
  | nil => simp
  | cons d L ih =>
    simp only [List.foldl_cons, ih, (lookup_updateInfoBuffer_visitMinors isCasesOn S _).1,
      Option.map_map, Function.comp_def, markWhere_markWhere, List.mem_cons, or_and_right, exists_or,
      exists_eq_left, Bool.decide_or]

end Walk

/-! ## The kinds recorded for a block -/

variable {isCasesOn}

open Classical in
/-- Each entry of `update_spec_info`'s buffer holds the first phase's kinds, with `Other` at
every position that a call reached from some body of the block breaks. -/
theorem lookup_updateSpecInfo (ds : List CompDecl) (n : Nat) :
    (updateSpecInfo isCasesOn binder ds).lookup n =
      ((ds.map fun d => (d.name, (List.range (headerSize d.code)).map fun i => (binder d i).kind)).lookup n).map
        (markWhere fun i => decide (∃ d ∈ ds, Broken isCasesOn (ds.map CompDecl.name) (headerBody d.code) n i)) :=
  lookup_foldl_updateInfoBuffer isCasesOn _ ds _ n

theorem keys_updateSpecInfo (ds : List CompDecl) :
    (updateSpecInfo isCasesOn binder ds).map Prod.fst = ds.map CompDecl.name := by
  rw [updateSpecInfo, keys_foldl_updateInfoBuffer]; simp [Function.comp_def]

theorem lookup_name_map {ds : List CompDecl} (hnd : (ds.map CompDecl.name).Nodup) {d : CompDecl}
    (hd : d ∈ ds) (g : CompDecl → List SpecArgKind) : (ds.map fun d => (d.name, g d)).lookup d.name = some (g d) :=
  (lookup_eq_some_iff (by simpa [Function.comp_def] using hnd) _ _).2 (List.mem_map_of_mem _ hd)

open Classical in
/-- The buffer of a block with distinct names: for each declaration, the first phase's kinds
with `Other` exactly where a call reached from some body breaks the parameter. -/
theorem updateSpecInfo_lookup (ds : List CompDecl) (hnd : (ds.map CompDecl.name).Nodup)
    (d : CompDecl) (hd : d ∈ ds) :
    (updateSpecInfo isCasesOn binder ds).lookup d.name =
      some ((List.range (headerSize d.code)).map fun i =>
        if ∃ d' ∈ ds, ∃ e, Reaches isCasesOn (headerBody d'.code) e ∧ BreaksAt isCasesOn e d.name i
        then .other else (binder d i).kind) := by
  rw [lookup_updateSpecInfo, lookup_name_map hnd hd, Option.map_some', markWhere_map_range]
  simp [Broken, List.mem_map_of_mem CompDecl.name hd]

/-- With distinct names, the buffer does not depend on the order of the declarations. -/
theorem updateSpecInfo_perm {ds ds' : List CompDecl} (hp : ds.Perm ds')
    (hnd : (ds.map CompDecl.name).Nodup) (n : Nat) :
    (updateSpecInfo isCasesOn binder ds').lookup n = (updateSpecInfo isCasesOn binder ds).lookup n := by
  rw [lookup_updateSpecInfo, lookup_updateSpecInfo,
    lookup_congr_perm (hp.map _).symm (by simpa [Function.comp_def] using (hp.map _).nodup_iff.1 hnd)]
  have hS : ∀ {n}, n ∈ ds'.map CompDecl.name ↔ n ∈ ds.map CompDecl.name := (hp.map _).mem_iff.symm
  congr 1
  exact markWhere_congr fun i => decide_eq_decide.2 ⟨fun ⟨d, hd, h⟩ => ⟨d, hp.mem_iff.2 hd, hS.1 h.1, h.2⟩,
    fun ⟨d, hd, h⟩ => ⟨d, hp.mem_iff.1 hd, hS.2 h.1, h.2⟩⟩

/-! ### Reading the kinds back -/

@[simp] theorem toSpecArgKind_box (k : SpecArgKind) : toSpecArgKind k.box = k := by
  cases k <;> rfl

/-- The boxed kinds read back are the kinds. -/
@[simp] theorem toBuffer_toSpecArgKinds (ks : List SpecArgKind) : toBuffer (toSpecArgKinds ks) = ks := by
  induction ks with
  | nil => rfl
  | cons k ks ih => simpa [toBuffer, toSpecArgKinds] using ih

theorem lookup_map_snd {γ : Type} (buf : InfoBuffer) (g : List SpecArgKind → γ) (n : Nat) :
    (buf.map fun e => (e.1, g e.2)).lookup n = (buf.lookup n).map g := by
  induction buf with
  | nil => rfl
  | cons e buf ih => obtain ⟨m, ks⟩ := e; by_cases h : n = m <;> simp [lookup_cons_ite, h, ih]

theorem insertSpecInfos_eq (mutualDecls : List Nat) (buf : InfoBuffer) (ext : SpecInfoMap) :
    insertSpecInfos mutualDecls buf ext =
      (buf.map fun e => (e.1, (⟨mutualDecls, toSpecArgKinds e.2⟩ : SpecInfo))).reverse ++ ext := by
  induction buf generalizing ext with
  | nil => rfl
  | cons e buf ih => simp [insertSpecInfos] at ih ⊢; simp [ih]

/-- The extension after the insertions: an entry of the buffer, whose names are distinct,
shadows the older ones. -/
theorem lookup_insertSpecInfos (mutualDecls : List Nat) {buf : InfoBuffer} (hnd : (buf.map Prod.fst).Nodup)
    (ext : SpecInfoMap) (n : Nat) :
    (insertSpecInfos mutualDecls buf ext).lookup n =
      ((buf.lookup n).map fun ks => ⟨mutualDecls, toSpecArgKinds ks⟩).or (ext.lookup n) := by
  rw [insertSpecInfos_eq, List.lookup_append, ← lookup_congr_perm (List.reverse_perm _).symm
    (by simpa [Function.comp_def] using hnd), lookup_map_snd buf fun ks => (⟨mutualDecls, toSpecArgKinds ks⟩ : SpecInfo)]

/-- `update_spec_info` on a block with distinct names records the block's entries over the
older ones. -/
theorem lookup_updateSpecInfoExt (ext : SpecInfoMap) {ds : List CompDecl} (hnd : (ds.map CompDecl.name).Nodup)
    (n : Nat) :
    (updateSpecInfoExt isCasesOn binder ext ds).lookup n =
      (((updateSpecInfo isCasesOn binder ds).lookup n).map fun ks => ⟨ds.map CompDecl.name, toSpecArgKinds ks⟩).or
        (ext.lookup n) :=
  lookup_insertSpecInfos _ ((keys_updateSpecInfo binder ds).symm ▸ hnd) ext n

open Classical in
/-- What the specializer reads back for a declaration of a block with distinct names once
`update_spec_info` has run, whatever the extension held before: the block's names as its
mutual declarations, and as the kinds of its parameters those of the first phase, except that
a parameter is `Other` exactly when some body of the block reaches, through lambdas, let
values and bodies and the minor premises of `casesOn` applications, a call of the declaration
that passes it nothing or something other than a header variable. -/
theorem getArgKinds_updateSpecInfo (ext : SpecInfoMap) (ds : List CompDecl)
    (hnd : (ds.map CompDecl.name).Nodup) (d : CompDecl) (hd : d ∈ ds) :
    ((updateSpecInfoExt isCasesOn binder ext ds).lookup d.name).map SpecInfo.mutualDecls =
      some (ds.map CompDecl.name) ∧
    getArgKinds (updateSpecInfoExt isCasesOn binder ext ds) d.name =
      some ((List.range (headerSize d.code)).map fun i =>
        if ∃ d' ∈ ds, ∃ e, Reaches isCasesOn (headerBody d'.code) e ∧ BreaksAt isCasesOn e d.name i
        then .other else (binder d i).kind) := by
  simp [getArgKinds, lookup_updateSpecInfoExt binder ext hnd, updateSpecInfo_lookup binder ds hnd d hd]

/-- `f x y := g x 0`, in a block with `g`. -/
def pingDecl : CompDecl :=
  ⟨10, .lam (.sort false) (.lam (.sort false) (.app (.app (.const 11 false) (.bvar 1)) (.lit 0)))⟩

/-- `g x y := f x y`, in a block with `f`. -/
def pongDecl : CompDecl :=
  ⟨11, .lam (.sort false) (.lam (.sort false) (.app (.app (.const 10 false) (.bvar 1)) (.bvar 0)))⟩

def pingPong : List CompDecl := [pingDecl, pongDecl]

example : getArgKinds (updateSpecInfoExt (fun _ => none) (fun _ _ => .instImplicit) [] pingPong) 11 =
    some [.fixedInst, .other] := by decide

open Classical in
theorem getArgKinds_updateSpecInfo_pingPong : (pingPong.map CompDecl.name).Nodup ∧ pongDecl ∈ pingPong ∧
    ((updateSpecInfoExt (fun _ => none) (fun _ _ => .instImplicit) [] pingPong).lookup 11).map
      SpecInfo.mutualDecls = some [10, 11] ∧
    getArgKinds (updateSpecInfoExt (fun _ => none) (fun _ _ => .instImplicit) [] pingPong) 11 =
      some ((List.range 2).map fun i =>
        if ∃ d' ∈ pingPong, ∃ e, Reaches (fun _ => none) (headerBody d'.code) e ∧
          BreaksAt (fun _ => none) e 11 i
        then .other else .fixedInst) :=
  ⟨by decide, by decide,
    getArgKinds_updateSpecInfo (fun _ _ => .instImplicit) [] pingPong (by decide) pongDecl (by decide)⟩

/-- The kinds the specializer reads back do not depend on the order in which the block lists
its declarations (the recorded list of mutual declarations does). -/
theorem getArgKinds_updateSpecInfo_perm (ext : SpecInfoMap) {ds ds' : List CompDecl} (hp : ds.Perm ds')
    (hnd : (ds.map CompDecl.name).Nodup) (n : Nat) :
    getArgKinds (updateSpecInfoExt isCasesOn binder ext ds') n =
      getArgKinds (updateSpecInfoExt isCasesOn binder ext ds) n := by
  simp only [getArgKinds, lookup_updateSpecInfoExt binder ext ((hp.map _).nodup_iff.1 hnd),
    lookup_updateSpecInfoExt binder ext hnd, updateSpecInfo_perm binder hp hnd]
  cases (updateSpecInfo isCasesOn binder ds).lookup n <;> simp

theorem getArgKinds_updateSpecInfo_perm_pingPong : pingPong.Perm pingPong.reverse ∧
    (pingPong.map CompDecl.name).Nodup ∧
    ∀ n, getArgKinds (updateSpecInfoExt (fun _ => none) (fun _ _ => .instImplicit) [] pingPong.reverse) n =
      getArgKinds (updateSpecInfoExt (fun _ => none) (fun _ _ => .instImplicit) [] pingPong) n :=
  ⟨(List.reverse_perm _).symm, by decide,
    getArgKinds_updateSpecInfo_perm (fun _ _ => .instImplicit) [] (List.reverse_perm _).symm (by decide)⟩

/-! ## The mask never fixes a broken parameter -/

theorem getD_markWhere_of {p : Nat → Bool} {i : Nat} (hp : p i = true) (ks : List SpecArgKind) :
    (markWhere p ks).getD i .other = .other := by
  rw [List.getD_eq_getElem?_getD, markWhere, List.getElem?_mapIdx]
  cases ks[i]? <;> simp [hp]

theorem fixedAt_take_of_getD_other {kinds : List SpecArgKind} {i : Nat}
    (h : kinds.getD i .other = .other) (m : Nat) (hasAttr fi : Bool) :
    fixedAt (kinds.take m) hasAttr fi i = false := by
  have : (kinds.take m).getD i .other = .other := by
    rw [List.getD_eq_getElem?_getD, List.getElem?_take] at *
    split_ifs <;> simp [h]
  rw [fixedAt, this]

/-- The specializer never fixes an argument that a call of its block breaks: if some body of
a block with distinct names reaches a call of `d` that passes nothing, or something other
than a header variable, at position `i`, then once `update_spec_info` has run, the mask that
`get_bool_mask` computes from the kinds `get_arg_kinds` reads for `d` leaves `i` unset, for
every call of `d`, whatever its number of arguments and whether `d` has `@[specialize]`. -/
theorem getBoolMask_breaks (ext : SpecInfoMap) (ds : List CompDecl) (hnd : (ds.map CompDecl.name).Nodup)
    (d d' : CompDecl) (hd : d ∈ ds) (hd' : d' ∈ ds) (e : Expr) (i : Nat)
    (hr : Reaches isCasesOn (headerBody d'.code) e) (hb : BreaksAt isCasesOn e d.name i) :
    ∃ kinds, getArgKinds (updateSpecInfoExt isCasesOn binder ext ds) d.name = some kinds ∧
      ∀ argsSize hasAttr, (getBoolMask kinds argsSize hasAttr).getD i false = false := by
  simp only [getArgKinds, lookup_updateSpecInfoExt binder ext hnd, lookup_updateSpecInfo, lookup_name_map hnd hd,
    Option.map_some', Option.or_some, toBuffer_toSpecArgKinds, Option.some.injEq, exists_eq_left']
  intro argsSize hasAttr
  rw [getBoolMask, getD_toBoolMask]
  refine fixedAt_take_of_getD_other (getD_markWhere_of ?_ _) _ _ _
  simpa using ⟨d', hd', List.mem_map_of_mem CompDecl.name hd, e, hr, hb⟩

/-- The call `g x 0` in the body of `f` breaks the second parameter of `g`. -/
theorem getBoolMask_breaks_pingPong : BreaksAt (fun _ => none) (headerBody pingDecl.code) 11 1 ∧
    ∃ kinds, getArgKinds (updateSpecInfoExt (fun _ => none) (fun _ _ => .instImplicit) [] pingPong) 11 =
      some kinds ∧ ∀ argsSize hasAttr, (getBoolMask kinds argsSize hasAttr).getD 1 false = false :=
  have hb : BreaksAt (fun _ => none) (headerBody pingDecl.code) 11 1 := ⟨by decide, ⟨false, rfl⟩, rfl, rfl⟩
  ⟨hb, getBoolMask_breaks (fun _ _ => .instImplicit) [] pingPong (by decide) pongDecl pingDecl
    (by decide) (by decide) _ 1 (.refl _) hb⟩

end Compiler

end Lean4Core
