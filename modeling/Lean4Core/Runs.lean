import Lean4Core.Import.Extensions

/-!
# Runs of the environment API

An environment is created by `mkEmptyEnvironment` or `importModules` over a runtime whose
registry no longer changes (registration is over once environments exist), and then goes
through any sequence of the API's operations (`Step`): `Environment.add`, `switch`,
`markQuotInit`, raw slot writes (`EnvExtension.setState`, `modifyState`, and through them
the C++ `set_extension_core`), and `addEntry` and `forceState` of a registered persistent
extension. `EnvReachable` collects every environment of such a run; which slots raw writes
may touch is a parameter: each result names the slots it allows them.

Main results:
- `extension_slots`: in every reachable environment there is one slot per registration,
  and reads and writes of registered extensions, typed or through the C++ accessors,
  touch their own slot and no other.
- `persistent_cache_invariant`: a registered persistent extension's computed state is
  always the fold of its imported state with its entries, so that `getState` returns that
  fold whatever `forceState` and `getState` calls came between the `addEntry` calls.
- `importModules_getModuleEntries`: after an import and along every run from it, an
  extension's entries of module `i` are what module `i` holds for it, so module positions
  mean the same in the declaration indexes and in every extension.
- `find_runDeclOps`: the declaration index is a last-write-wins map across any number of
  stage switches.
-/

namespace Lean4Core

open StateCast

section Runs

variable {Name ConstantInfo Ω E S ε : Type} [DecidableEq Name] [Hashable Name] [QuickLt Name]
  [HasName ConstantInfo Name] [StateCast (PersistentEnvExtensionState E S) Ω]

/-- One operation of the API. Raw slot writes go to slots that `raw` admits; `addEntry` and
`forceState` go through a registered persistent extension. -/
inductive Step (rt : Runtime Name Ω E S) (raw : Nat → Prop) :
    Environment Name ConstantInfo Ω → Environment Name ConstantInfo Ω → Prop
  | add (env : Environment Name ConstantInfo Ω) (cinfo : ConstantInfo) : Step rt raw env (env.add cinfo)
  | switch (env : Environment Name ConstantInfo Ω) : Step rt raw env env.switch
  | markQuotInit (env : Environment Name ConstantInfo Ω) : Step rt raw env env.markQuotInit
  | setState {σ : Type} [StateCast σ Ω] (ext : EnvExtension σ) (env : Environment Name ConstantInfo Ω)
      (s : σ) : raw ext.idx → Step rt raw env (ext.setState env s)
  | modifyState {σ : Type} [StateCast σ Ω] (ext : EnvExtension σ)
      (env : Environment Name ConstantInfo Ω) (f : σ → σ) :
      raw ext.idx → Step rt raw env (ext.modifyState env f)
  | addEntry (p : PersistentEnvExtension Name E S) (env : Environment Name ConstantInfo Ω) (a : E) :
      p ∈ rt.persistentEnvExtensions.toList → Step rt raw env (p.addEntry env a)
  | forceState (p : PersistentEnvExtension Name E S) (env : Environment Name ConstantInfo Ω) :
      p ∈ rt.persistentEnvExtensions.toList → Step rt raw env (p.forceState env)

/-- The environments of a run over `rt`: created by `mkEmptyEnvironment` or by
`importModules` (from the module store `load`, with the collaborator
`performModifications`), then changed by steps. -/
inductive EnvReachable (rt : Runtime Name Ω E S) (load : Name → Except ε (ModuleData Name ConstantInfo E))
    (performModifications : Environment Name ConstantInfo Ω → ByteArray →
      Except ε (Environment Name ConstantInfo Ω))
    (raw : Nat → Prop) : Environment Name ConstantInfo Ω → Prop
  | empty {env : Environment Name ConstantInfo Ω} (trustLevel : UInt32) :
      mkEmptyEnvironment trustLevel rt = .ok env rt → EnvReachable rt load performModifications raw env
  | imported {env : Environment Name ConstantInfo Ω} (fuel : Nat) (roots : List Name) (trustLevel : UInt32) :
      importModules load performModifications fuel roots trustLevel rt = some (.ok env) →
      EnvReachable rt load performModifications raw env
  | step {env env' : Environment Name ConstantInfo Ω} :
      EnvReachable rt load performModifications raw env → Step rt raw env env' →
      EnvReachable rt load performModifications raw env'

variable {rt : Runtime Name Ω E S} {raw : Nat → Prop}
  {load : Name → Except ε (ModuleData Name ConstantInfo E)}
  {performModifications : Environment Name ConstantInfo Ω → ByteArray →
    Except ε (Environment Name ConstantInfo Ω)}

/-- A step whose raw write one predicate admits, a weaker one admits too. -/
theorem Step.mono {raw' : Nat → Prop} (himp : ∀ i, raw i → raw' i)
    {env env' : Environment Name ConstantInfo Ω} (h : Step rt raw env env') : Step rt raw' env env' := by
  cases h with
  | add env c => exact .add env c
  | switch env => exact .switch env
  | markQuotInit env => exact .markQuotInit env
  | setState ext env s h => exact .setState ext env s (himp _ h)
  | modifyState ext env f h => exact .modifyState ext env f (himp _ h)
  | addEntry p env a hp => exact .addEntry p env a hp
  | forceState p env hp => exact .forceState p env hp

/-- What a step does to the declaration map and the imports: `add` inserts a declaration
under its name, `switch` switches, and no other step touches either. -/
theorem Step.constants_cases {env env' : Environment Name ConstantInfo Ω}
    (h : Step rt raw env env') :
    env'.imports = env.imports ∧
      ((∃ c, env'.constants = env.constants.insert (HasName.name c) c) ∨
        env'.constants = env.constants.switch ∨ env'.constants = env.constants) := by
  cases h with
  | add env c => exact ⟨rfl, .inl ⟨c, rfl⟩⟩
  | switch env => exact ⟨rfl, .inr (.inl rfl)⟩
  | _ => exact ⟨rfl, .inr (.inr rfl)⟩

/-! ## The number of slots -/

theorem Step.size_eq {env env' : Environment Name ConstantInfo Ω} (h : Step rt raw env env') :
    env'.extensions.size = env.extensions.size := by
  cases h <;> simp [PersistentEnvExtension.addEntry, PersistentEnvExtension.forceState]

/-- Every environment of a run has one slot per registered extension. -/
theorem EnvReachable.size_eq (hperf : KeepsExtensionsSize performModifications)
    {env : Environment Name ConstantInfo Ω} (h : EnvReachable rt load performModifications raw env) :
    env.extensions.size = rt.envExtensions.size := by
  induction h with
  | empty _ h => simp [mkEmptyEnvironment_ok h]
  | imported _ _ _ h =>
    obtain ⟨_, mods, haux, -⟩ := importModules_ok h
    exact importModules_inv (fun env => env.extensions.size = rt.envExtensions.size)
      (fun env b env' hb h => (hperf env b env' hb).trans h) haux h
      (by simp [mkImportedEnvironment])
  | step _ hs ih => exact hs.size_eq.trans ih

variable [Inhabited Ω]

/-- Extension-slot isolation: in every environment of a run there is one slot per
registration; writing a registered extension's slot is read back by it and by no other
registered extension, `modifyState` is a read followed by a write, and the same holds of
the C++ accessors at registered indexes. -/
theorem extension_slots (hperf : KeepsExtensionsSize performModifications)
    {env : Environment Name ConstantInfo Ω}
    (henv : EnvReachable rt load performModifications (fun _ => True) env) :
    env.extensions.size = rt.envExtensions.size ∧
    (∀ {σ : Type} [StateCast σ Ω] (e : EnvExtension σ) (s : σ), rt.Registered e →
      e.getState (e.setState env s) = s) ∧
    (∀ {σ τ : Type} [StateCast σ Ω] [StateCast τ Ω] (e₁ : EnvExtension σ) (e₂ : EnvExtension τ)
      (s : τ), rt.Registered e₁ → rt.Registered e₂ → e₁.idx ≠ e₂.idx →
      e₁.getState (e₂.setState env s) = e₁.getState env) ∧
    (∀ {σ : Type} [StateCast σ Ω] (e : EnvExtension σ) (f : σ → σ), rt.Registered e →
      e.modifyState env f = e.setState env (f (e.getState env))) ∧
    (∀ (i j : Nat) (x y s : Ω), rt.Registered (⟨i, x⟩ : EnvExtension Ω) →
      rt.Registered (⟨j, y⟩ : EnvExtension Ω) → ∀ env',
      setCPPExtensionState rt env i s = some env' →
      getCPPExtensionState rt env' j = if i = j then some s else getCPPExtensionState rt env j) := by
  have hsize := henv.size_eq hperf
  refine ⟨hsize, fun e s he => ?_, fun e₁ e₂ s _ _ hne => ?_, fun e f _ => ?_, ?_⟩
  · exact EnvExtension.getState_setState _ _ _ (hsize ▸ he.1)
  · exact EnvExtension.getState_setState_of_ne _ _ _ _ (Ne.symm hne)
  · exact EnvExtension.modifyState_eq_setState _ _ _
  · rintro i j x y s hi hj env' henv'
    simp only [setCPPExtensionState, getCPPExtensionState, hi.getD_idx, hj.getD_idx,
      Option.some.injEq] at henv' ⊢
    subst henv'
    split
    · subst_vars
      exact congrArg some (EnvExtension.getState_setState _ _ _ (hsize ▸ hi.1))
    · exact congrArg some (EnvExtension.getState_setState_of_ne _ _ _ _ (by simpa using ‹i ≠ j›))

theorem extension_slots_sampleRun :
    sampleRun.extensions.size = sampleRuntime.envExtensions.size ∧
    (∀ {σ : Type} [StateCast σ (PersistentEnvExtensionState Nat Nat)] (e : EnvExtension σ) (s : σ),
      sampleRuntime.Registered e → e.getState (e.setState sampleRun s) = s) ∧
    (∀ {σ τ : Type} [StateCast σ (PersistentEnvExtensionState Nat Nat)]
      [StateCast τ (PersistentEnvExtensionState Nat Nat)] (e₁ : EnvExtension σ)
      (e₂ : EnvExtension τ) (s : τ), sampleRuntime.Registered e₁ → sampleRuntime.Registered e₂ →
      e₁.idx ≠ e₂.idx → e₁.getState (e₂.setState sampleRun s) = e₁.getState sampleRun) ∧
    (∀ {σ : Type} [StateCast σ (PersistentEnvExtensionState Nat Nat)] (e : EnvExtension σ)
      (f : σ → σ), sampleRuntime.Registered e →
      e.modifyState sampleRun f = e.setState sampleRun (f (e.getState sampleRun))) ∧
    (∀ (i j : Nat) (x y s : PersistentEnvExtensionState Nat Nat),
      sampleRuntime.Registered (⟨i, x⟩ : EnvExtension _) →
      sampleRuntime.Registered (⟨j, y⟩ : EnvExtension _) → ∀ env',
      setCPPExtensionState sampleRuntime sampleRun i s = some env' →
      getCPPExtensionState sampleRuntime env' j =
        if i = j then some s else getCPPExtensionState sampleRuntime sampleRun j) :=
  extension_slots
    (fun _ _ _ h => by cases h; rfl :
      KeepsExtensionsSize fun env _ => (.ok env : Except String (Environment Nat Nat _)))
    (.step (.step (.step (.empty 0 rfl) (.addEntry _ _ 3 (List.mem_singleton_self _)))
      (.forceState _ _ (List.mem_singleton_self _))) (.addEntry _ _ 4 (List.mem_singleton_self _)) :
      EnvReachable sampleRuntime sampleStore (fun env _ => .ok env) (fun _ => True) sampleRun)

/-! ## The cache of a persistent extension -/

section Cache

open PersistentEnvExtension

variable {X : PersistentEnvExtension Name E S}

omit [HasName ConstantInfo Name] in
/-- An update of a registered persistent extension's slot keeps a property of `X`'s state
if the update keeps it on `X`'s own slot: the registry gives distinct extensions distinct
slots. -/
theorem getState_modifyState_inv (P : PersistentEnvExtensionState E S → Prop) (hrt : rt.Wf)
    (hX : X ∈ rt.persistentEnvExtensions.toList) {p : PersistentEnvExtension Name E S}
    (hp : p ∈ rt.persistentEnvExtensions.toList)
    (g : PersistentEnvExtension Name E S → PersistentEnvExtensionState E S →
      PersistentEnvExtensionState E S) (hg : ∀ s, P s → P (g X s))
    {env : Environment Name ConstantInfo Ω} (h : P (X.toEnvExtension.getState env)) :
    P (X.toEnvExtension.getState (p.toEnvExtension.modifyState env (g p))) := by
  by_cases he : p.idx = X.idx
  · obtain rfl := hrt.eq_of_idx_eq hp hX he
    rw [EnvExtension.getState_modifyState_self]
    split
    · exact hg _ h
    · exact h
  · rwa [EnvExtension.getState_modifyState_of_ne _ _ _ _ he]

/-- A property of `X`'s state that `X`'s `addEntry` and `forceState` updates keep, every step
keeps when raw writes stay off `X`'s slot: those updates are the only steps that write
`X`'s slot. -/
theorem Step.getState_inv (P : PersistentEnvExtensionState E S → Prop)
    (hadd : ∀ a s, P s → P (X.addEntryAux a s))
    (hforce : ∀ s, P s → P { s with state := some (X.forceStateAux s) })
    (hrt : rt.Wf) (hX : X ∈ rt.persistentEnvExtensions.toList)
    {env env' : Environment Name ConstantInfo Ω} (h : Step rt (· ≠ X.idx) env env')
    (hp : P (X.toEnvExtension.getState env)) : P (X.toEnvExtension.getState env') := by
  cases h with
  | add | switch | markQuotInit => exact hp
  | setState ext env s hne => rwa [EnvExtension.getState_setState_of_ne _ _ _ _ hne]
  | modifyState ext env f hne => rwa [EnvExtension.getState_modifyState_of_ne _ _ _ _ hne]
  | addEntry p env a hp' =>
    exact getState_modifyState_inv P hrt hX hp' (fun p => p.addEntryAux a) (hadd a) hp
  | forceState p env hp' =>
    exact getState_modifyState_inv P hrt hX hp'
      (fun p s => { s with state := some (p.forceStateAux s) }) hforce hp

/-- `X`'s cache invariant holds in every environment of a run whose raw writes stay off
`X`'s slot. -/
theorem EnvReachable.cacheOk (hrt : rt.Wf) (hX : X ∈ rt.persistentEnvExtensions.toList)
    (hperf : KeepsPersistentStates rt performModifications) {env : Environment Name ConstantInfo Ω}
    (h : EnvReachable rt load performModifications (· ≠ X.idx) env) :
    CacheOk X.addEntryFn (X.toEnvExtension.getState env) := by
  induction h with
  | empty _ h =>
    obtain ⟨s, hs⟩ := hrt.initial_fresh X hX
    rw [(hrt.persistent_registered X hX).getState_of_initial (mkEmptyEnvironment_ok h), hs]
    rintro d ⟨⟩
    rfl
  | imported _ roots trustLevel h =>
    obtain ⟨_, mods, haux, -⟩ := importModules_ok h
    exact importModules_inv (fun env => CacheOk X.addEntryFn (X.toEnvExtension.getState env))
      (fun env b env' hb h => by dsimp only; rwa [hperf env b env' hb X hX]) haux h
      (getState_mkImportedEnvironment hrt hX roots trustLevel mods).2.2
  | step _ hs ih =>
    exact hs.getState_inv _ (fun a _ h => h.addEntryAux X a) (fun _ h => h.force X) hrt hX ih

/-- The persistent-extension cache invariant over whole runs: in every environment reached
from a new or imported one by declarations, switches, `addEntry` and `forceState` of any
registered persistent extension and raw writes to other slots, a computed state of `X` is
the fold of its imported state with its entries, oldest first, and `getState` returns that
fold, whether it reads the cache or refolds the newest-first entry list. -/
theorem persistent_cache_invariant (hrt : rt.Wf) (hX : X ∈ rt.persistentEnvExtensions.toList)
    (hperf : KeepsPersistentStates rt performModifications) {env : Environment Name ConstantInfo Ω}
    (henv : EnvReachable rt load performModifications (· ≠ X.idx) env) :
    let s := X.toEnvExtension.getState env
    (∀ d, s.state = some d →
      d = List.foldl (fun acc a => X.addEntryFn false acc a) s.importedState.get s.entries.reverse) ∧
    X.getState env =
      List.foldl (fun acc a => X.addEntryFn false acc a) s.importedState.get s.entries.reverse :=
  have hok := henv.cacheOk hrt hX hperf
  ⟨hok, forceStateAux_eq X hok⟩

theorem persistent_cache_invariant_sampleRun :
    let s := sampleExt.toEnvExtension.getState sampleRun
    (∀ d, s.state = some d →
      d = List.foldl (fun acc a => sampleExt.addEntryFn false acc a) s.importedState.get
        s.entries.reverse) ∧
    sampleExt.getState sampleRun =
      List.foldl (fun acc a => sampleExt.addEntryFn false acc a) s.importedState.get
        s.entries.reverse :=
  persistent_cache_invariant
    (Runtime.Reachable.setInitializing false
      (.registerPersistentEnvExtension sampleDescr (.init true))).wf
    (List.mem_singleton_self _)
    (fun _ _ _ h _ _ => by cases h; rfl :
      KeepsPersistentStates sampleRuntime fun env _ => (.ok env : Except String (Environment Nat Nat _)))
    (.step (.step (.step (.empty 0 rfl) (.addEntry _ _ 3 (List.mem_singleton_self _)))
      (.forceState _ _ (List.mem_singleton_self _))) (.addEntry _ _ 4 (List.mem_singleton_self _)) :
      EnvReachable sampleRuntime sampleStore (fun env _ => .ok env) (· ≠ sampleExt.idx) sampleRun)

example : sampleExt.getState sampleRun = 7 := rfl

end Cache

/-! ## Imported entries over a run -/

section ImportedEntries

variable {X : PersistentEnvExtension Name E S}

/-- Per-module entry slots line up with module positions: after an import that read the
modules `mods`, and along every run from it whose raw writes stay off `X`'s slot,
`getModuleEntries X` at position `i` is module `i`'s entries for `X`, and empty past the
last module. Only `X`'s own `addEntry` and `forceState` write its slot, and both keep the
imported entries. -/
theorem importModules_getModuleEntries (hrt : rt.Wf) (hX : X ∈ rt.persistentEnvExtensions.toList)
    (hperf : KeepsPersistentStates rt performModifications) {fuel : Nat} {roots : List Name}
    {trustLevel : UInt32} {visited : NameSet Name} {mods : Array (ModuleData Name ConstantInfo E)}
    {env e : Environment Name ConstantInfo Ω}
    (haux : importModulesAux load fuel roots (∅, #[]) = some (.ok (visited, mods)))
    (h : importModules load performModifications fuel roots trustLevel rt = some (.ok env))
    (hrun : Relation.ReflTransGen (Step rt (· ≠ X.idx)) env e) (i : Nat) :
    X.getModuleEntries e i = if hi : i < mods.size then getEntriesFor mods[i] X.name 0 else #[] := by
  have himp : (X.toEnvExtension.getState env).importedEntries =
      mods.map (getEntriesFor · X.name 0) :=
    importModules_inv (fun env => (X.toEnvExtension.getState env).importedEntries = _)
      (fun env b env' hb h => by dsimp only; rwa [hperf env b env' hb X hX]) haux h
      (importedEntries_mkImportedEnvironment hrt hX roots trustLevel mods)
  have hrun' : (X.toEnvExtension.getState e).importedEntries =
      mods.map (getEntriesFor · X.name 0) := by
    induction hrun with
    | refl => exact himp
    | tail _ hs ih =>
      exact hs.getState_inv (fun s => s.importedEntries = _) (fun a s h => by simpa using h)
        (fun _ h => h) hrt hX ih
  rw [PersistentEnvExtension.getModuleEntries, hrun']
  by_cases hi : i < mods.size <;> simp [Array.getD, hi]

theorem importModules_getModuleEntries_sample :
    sampleExt.getModuleEntries (sampleExt.addEntry (mkImportedEnvironment sampleRuntime [0] 0 sampleMods :
        Environment Nat Nat (PersistentEnvExtensionState Nat Nat)) 3) 1 =
      if hi : 1 < sampleMods.size then getEntriesFor sampleMods[1] sampleExt.name 0 else #[] :=
  importModules_getModuleEntries
    (Runtime.Reachable.setInitializing false
      (.registerPersistentEnvExtension sampleDescr (.init true))).wf
    (List.mem_singleton_self _) (fun _ _ _ h _ _ => by cases h; rfl)
    (rfl : importModulesAux sampleStore 4 [0] (∅, #[]) =
      some (.ok (((∅ : NameSet Nat).insert 0).insert 1, sampleMods)))
    (rfl : importModules sampleStore (fun env _ => .ok env) 4 [0] 0 sampleRuntime = some (.ok _))
    (.single (.addEntry _ _ 3 (List.mem_singleton_self _))) 1

end ImportedEntries

end Runs

/-! ## The declaration index over a run -/

section Declarations

variable {Name ConstantInfo Ω : Type} [DecidableEq Name] [HasName ConstantInfo Name]

/-- The operations of a run that touch the declaration index. -/
inductive DeclOp (ConstantInfo : Type) where
  | add (cinfo : ConstantInfo)
  | switch

namespace DeclOp

def run [Hashable Name] [QuickLt Name] (env : Environment Name ConstantInfo Ω) : DeclOp ConstantInfo → Environment Name ConstantInfo Ω
  | add cinfo => env.add cinfo
  | switch => env.switch

/-- The declarations a run adds, in order. -/
def added : List (DeclOp ConstantInfo) → List ConstantInfo
  | [] => []
  | add cinfo :: ops => cinfo :: added ops
  | switch :: ops => added ops

end DeclOp

/-- Specification: the last declaration named `n` that a run adds. -/
def lastAdded (ops : List (DeclOp ConstantInfo)) (n : Name) : Option ConstantInfo :=
  (DeclOp.added ops).reverse.find? (HasName.name · == n)

@[simp] theorem lastAdded_nil (n : Name) : lastAdded ([] : List (DeclOp ConstantInfo)) n = none := rfl

theorem lastAdded_add (c : ConstantInfo) (ops : List (DeclOp ConstantInfo)) (n : Name) :
    lastAdded (.add c :: ops) n = (lastAdded ops n).or (if n = HasName.name c then some c else none) := by
  simp only [lastAdded, DeclOp.added, List.reverse_cons, List.find?_append, List.find?_singleton,
    beq_iff_eq, @eq_comm _ n]

@[simp] theorem lastAdded_switch (ops : List (DeclOp ConstantInfo)) (n : Name) :
    lastAdded (.switch :: ops) n = lastAdded ops n := rfl

variable [Hashable Name] [QuickLt Name]

/-- The declaration index is a last-write-wins map over any run of declarations and stage
switches: a name resolves to the last declaration of that name the run added, and to what
it resolved to before the run when the run added none. -/
theorem find_runDeclOps (h : StrictTotal (quickLt : Name → Name → Bool))
    (e0 : Environment Name ConstantInfo Ω) (ops : List (DeclOp ConstantInfo)) (n : Name) :
    (ops.foldl DeclOp.run e0).find n = (lastAdded ops n).or (e0.find n) ∧
      (ops.foldl DeclOp.run e0).contains n = ((ops.foldl DeclOp.run e0).find n).isSome := by
  refine ⟨?_, rfl⟩
  induction ops generalizing e0 with
  | nil => simp
  | cons op ops ih =>
    rw [List.foldl_cons, ih]
    cases op with
    | add c =>
      rw [lastAdded_add, Option.or_assoc]
      simp only [DeclOp.run, Environment.find, Environment.add, SMap.find_insert h]
      split <;> simp
    | switch => simp [DeclOp.run, Environment.find, Environment.switch]

theorem find_runDeclOps_sampleRun :
    let ops : List (DeclOp Nat) := [.add 5, .switch, .add 6, .add 5]
    (ops.foldl DeclOp.run sampleRun).find 5 = (lastAdded ops 5).or (sampleRun.find 5) ∧
      (ops.foldl DeclOp.run sampleRun).contains 5 = ((ops.foldl DeclOp.run sampleRun).find 5).isSome :=
  find_runDeclOps strictTotal_nat sampleRun [.add 5, .switch, .add 6, .add 5] 5

example : ([.add 5, .switch, .add 6, .add 5].foldl DeclOp.run sampleRun).find 6 = some 6 := rfl

end Declarations

/-! ## Runs as lists of operations -/

/-- The operations of `Step` as data, for the results that read what a run did. -/
inductive ApiOp (Name ConstantInfo Ω E S : Type) : Type 1 where
  | add (cinfo : ConstantInfo)
  | switch
  | markQuotInit
  | setState {σ : Type} [StateCast σ Ω] (ext : EnvExtension σ) (s : σ)
  | modifyState {σ : Type} [StateCast σ Ω] (ext : EnvExtension σ) (f : σ → σ)
  | addEntry (p : PersistentEnvExtension Name E S) (a : E)
  | forceState (p : PersistentEnvExtension Name E S)

namespace ApiOp

variable {Name ConstantInfo Ω E S : Type} [DecidableEq Name] [Hashable Name] [QuickLt Name]
  [HasName ConstantInfo Name] [StateCast (PersistentEnvExtensionState E S) Ω]

/-- The environment after the operation. -/
def run (env : Environment Name ConstantInfo Ω) :
    ApiOp Name ConstantInfo Ω E S → Environment Name ConstantInfo Ω
  | add cinfo => env.add cinfo
  | switch => env.switch
  | markQuotInit => env.markQuotInit
  | setState ext s => ext.setState env s
  | modifyState ext f => ext.modifyState env f
  | addEntry p a => p.addEntry env a
  | forceState p => p.forceState env

/-- The operations `Step` admits over `rt`: raw writes to slots that `raw` admits, and
`addEntry` and `forceState` of registered persistent extensions. -/
def Allowed (rt : Runtime Name Ω E S) (raw : Nat → Prop) : ApiOp Name ConstantInfo Ω E S → Prop
  | setState ext _ => raw ext.idx
  | modifyState ext _ => raw ext.idx
  | addEntry p _ => p ∈ rt.persistentEnvExtensions.toList
  | forceState p => p ∈ rt.persistentEnvExtensions.toList
  | add _ | switch | markQuotInit => True

variable {rt : Runtime Name Ω E S} {raw : Nat → Prop}

theorem step {op : ApiOp Name ConstantInfo Ω E S} (h : op.Allowed rt raw)
    (env : Environment Name ConstantInfo Ω) : Step rt raw env (op.run env) := by
  cases op with
  | add c => exact .add env c
  | switch => exact .switch env
  | markQuotInit => exact .markQuotInit env
  | setState ext s => exact .setState ext env s h
  | modifyState ext f => exact .modifyState ext env f h
  | addEntry p a => exact .addEntry p env a h
  | forceState p => exact .forceState p env h

/-- A list of admitted operations is a run of `Step`. -/
theorem reflTransGen_foldl_run {ops : List (ApiOp Name ConstantInfo Ω E S)}
    (h : ∀ op ∈ ops, op.Allowed rt raw) (env : Environment Name ConstantInfo Ω) :
    Relation.ReflTransGen (Step rt raw) env (ops.foldl run env) := by
  induction ops generalizing env with
  | nil => exact .refl
  | cons op ops ih =>
    exact .head (step (h op (List.mem_cons_self _ _)) env)
      (ih (fun o ho => h o (List.mem_cons_of_mem _ ho)) _)

/-- The operation on the declaration index, if it is one. -/
def declOp : ApiOp Name ConstantInfo Ω E S → Option (DeclOp ConstantInfo)
  | add cinfo => some (.add cinfo)
  | switch => some .switch
  | _ => none

/-- The entry the operation passes to `addEntry` of `X`, if it does; registered extensions
are told apart by their slots. -/
def entryFor (X : PersistentEnvExtension Name E S) : ApiOp Name ConstantInfo Ω E S → Option E
  | addEntry p a => if p.idx = X.idx then some a else none
  | _ => none

/-- The entries a run passes to `addEntry` of `X`, oldest first. -/
def addedEntries (X : PersistentEnvExtension Name E S) (ops : List (ApiOp Name ConstantInfo Ω E S)) :
    List E :=
  ops.filterMap (entryFor X)

end ApiOp

end Lean4Core
