import Lean4Core.Import.Load

/-!
# Persistent extensions after an import

What `setImportedEntries` and `finalizePersistentExtensions` leave in one registered
persistent extension's slot, and from it the state the extension reads after
`importModules`.

Both functions loop over the registered persistent extensions and update each one's slot
with `modifyState`. Because the registry gives the persistent extensions distinct slots
(`Runtime.Wf.idx_nodup`), an extension's state after such a loop is its own update applied
to its state before (`getState_iterateAux_modifyState`); every other update writes another
slot.

Main results:
- `getState_setImportedEntries`: one imported entry array per module, in module order.
- `getState_finalizePersistentExtensions`: the imported state is the fold of those arrays.
- `importModules_getState`: after a successful import, every registered persistent
  extension reads the fold of the entries of every module in order, starting from its
  initial state, lazy or not, and has no entries of its own.
-/

namespace Lean4Core

open StateCast

variable {Name ConstantInfo Ω E S ε : Type} [DecidableEq Name] [Hashable Name] [QuickLt Name]
  [StateCast (PersistentEnvExtensionState E S) Ω]

/-! ## Loops over the persistent extensions -/

section Loops

variable (g : PersistentEnvExtension Name E S → PersistentEnvExtensionState E S →
  PersistentEnvExtensionState E S)

@[simp] theorem size_iterateAux_modifyState (ps : List (PersistentEnvExtension Name E S))
    (i : Nat) (env : Environment Name ConstantInfo Ω) :
    (iterateAux (fun _ p env => p.toEnvExtension.modifyState env (g p)) i ps env).extensions.size =
      env.extensions.size := by
  induction ps generalizing i env with
  | nil => rfl
  | cons p ps ih => simp [ih]

variable [Inhabited Ω] {X : PersistentEnvExtension Name E S}

/-- Updates of other slots leave an extension's state. -/
theorem getState_iterateAux_modifyState_of_ne :
    ∀ (ps : List (PersistentEnvExtension Name E S)) (i : Nat) (env : Environment Name ConstantInfo Ω),
      (∀ p ∈ ps, p.idx ≠ X.idx) →
      X.toEnvExtension.getState
          (iterateAux (fun _ p env => p.toEnvExtension.modifyState env (g p)) i ps env) =
        X.toEnvExtension.getState env
  | [], _, _, _ => rfl
  | p :: ps, i, env, h => by
    rw [iterateAux_cons, getState_iterateAux_modifyState_of_ne ps (i + 1) _
        fun q hq => h q (List.mem_cons_of_mem _ hq),
      EnvExtension.modifyState_eq_setState,
      EnvExtension.getState_setState_of_ne _ _ _ _ (h p (List.mem_cons_self _ _))]

/-- In a loop over extensions with distinct slots, an extension's state is its own update
applied once. -/
theorem getState_iterateAux_modifyState :
    ∀ (ps : List (PersistentEnvExtension Name E S)) (i : Nat) (env : Environment Name ConstantInfo Ω),
      (ps.map (·.idx)).Nodup → X ∈ ps → X.idx < env.extensions.size →
      X.toEnvExtension.getState
          (iterateAux (fun _ p env => p.toEnvExtension.modifyState env (g p)) i ps env) =
        g X (X.toEnvExtension.getState env)
  | [], _, _, _, hX, _ => absurd hX (List.not_mem_nil _)
  | p :: ps, i, env, hnd, hX, hlt => by
    rw [List.map_cons, List.nodup_cons, List.mem_map] at hnd
    rw [iterateAux_cons]
    rcases List.mem_cons.1 hX with rfl | hX
    · rw [getState_iterateAux_modifyState_of_ne g ps (i + 1) _
          fun q hq he => hnd.1 ⟨q, hq, he⟩,
        EnvExtension.modifyState_eq_setState, EnvExtension.getState_setState _ _ _ hlt]
    · have hne : p.idx ≠ X.idx := fun he => hnd.1 ⟨X, hX, he.symm⟩
      rw [getState_iterateAux_modifyState ps (i + 1) _ hnd.2 hX (by simpa using hlt),
        EnvExtension.modifyState_eq_setState, EnvExtension.getState_setState_of_ne _ _ _ _ hne]

end Loops

/-! ## Imported entries and the imported state -/

section Import

variable {rt : Runtime Name Ω E S} {X : PersistentEnvExtension Name E S}

@[simp] theorem size_setImportedEntries (env : Environment Name ConstantInfo Ω)
    (mods : Array (ModuleData Name ConstantInfo E)) :
    (setImportedEntries rt env mods).extensions.size = env.extensions.size := by
  unfold setImportedEntries iterate
  rw [iterateAux_eq_foldl]
  induction mods.toList generalizing env with
  | nil => rfl
  | cons mod mods ih => rw [List.foldl_cons, ih]; exact size_iterateAux_modifyState _ _ _ _

@[simp] theorem size_finalizePersistentExtensions (env : Environment Name ConstantInfo Ω) :
    (finalizePersistentExtensions rt env).extensions.size = env.extensions.size :=
  size_iterateAux_modifyState _ _ _ _

variable [Inhabited Ω]

/-- After `setImportedEntries`, an extension's imported entries end with one array per
module, in module order. -/
theorem getState_setImportedEntries (hrt : rt.Wf) (hX : X ∈ rt.persistentEnvExtensions.toList)
    (env : Environment Name ConstantInfo Ω) (hlt : X.idx < env.extensions.size)
    (mods : Array (ModuleData Name ConstantInfo E)) :
    X.toEnvExtension.getState (setImportedEntries rt env mods) =
      { X.toEnvExtension.getState env with
        importedEntries := ⟨(X.toEnvExtension.getState env).importedEntries.toList ++
          mods.toList.map fun mod => getEntriesFor mod X.name 0⟩ } := by
  unfold setImportedEntries iterate
  rw [iterateAux_eq_foldl]
  induction mods.toList generalizing env with
  | nil => simp
  | cons mod mods ih =>
    rw [List.foldl_cons, ih]
    · rw [getState_iterateAux_modifyState
        (fun p s => { s with importedEntries := s.importedEntries.push (getEntriesFor mod p.name 0) })
        _ 0 env hrt.idx_nodup hX hlt]
      simp [Array.push]
    · simpa using hlt

theorem getState_finalizePersistentExtensions (hrt : rt.Wf)
    (hX : X ∈ rt.persistentEnvExtensions.toList) (env : Environment Name ConstantInfo Ω)
    (hlt : X.idx < env.extensions.size) :
    X.toEnvExtension.getState (finalizePersistentExtensions rt env) =
      let s := X.toEnvExtension.getState env
      let importedState := mkImportedStateThunk s.importedEntries
        X.initial.importedState.get X.addEntryFn
      { s with importedState := importedState, entries := [],
               state := if X.lazy then none else some importedState.get } :=
  getState_iterateAux_modifyState _ _ 0 env hrt.idx_nodup hX hlt

/-- The imported state folds the entries of every module in order. -/
theorem get_mkImportedStateThunk (entries : Array (Array E)) (initial : S)
    (addEntryFn : Bool → S → E → S) :
    (mkImportedStateThunk entries initial addEntryFn).get =
      (entries.toList.flatMap Array.toList).foldl (fun acc a => addEntryFn true acc a) initial := by
  show iterate entries initial _ = _
  simp only [iterate, iterateAux_eq_foldl, List.flatMap, List.foldl_flatten, List.foldl_map]

end Import

/-! ## After `importModules` -/

section ImportModules

variable [Inhabited Ω] [HasName ConstantInfo Name] {rt : Runtime Name Ω E S}
  {X : PersistentEnvExtension Name E S}

/-- In the environment built from the modules read, a registered persistent extension's
state holds one entry array per module, folded into its imported state, no entries of its
own, and a computed state only when it is that fold. -/
theorem getState_mkImportedEnvironment (hrt : rt.Wf) (hX : X ∈ rt.persistentEnvExtensions.toList)
    (modNames : List Name) (trustLevel : UInt32) (mods : Array (ModuleData Name ConstantInfo E)) :
    let s := X.toEnvExtension.getState
      (mkImportedEnvironment rt modNames trustLevel mods : Environment Name ConstantInfo Ω)
    s.entries = [] ∧
      X.forceStateAux s = (mods.toList.flatMap fun mod => (getEntriesFor mod X.name 0).toList).foldl
        (fun acc a => X.addEntryFn true acc a) X.initial.importedState.get ∧
      PersistentEnvExtension.CacheOk X.addEntryFn s := by
  have hreg := hrt.persistent_registered X hX
  obtain ⟨s₀, hs₀⟩ := hrt.initial_fresh X hX
  have hlt : X.idx < (mkInitialExtensionStates rt).size := by simpa using hreg.1
  simp only [mkImportedEnvironment]
  rw [getState_finalizePersistentExtensions hrt hX _ (by simpa using hlt),
    getState_setImportedEntries hrt hX _ hlt, hreg.getState_of_initial rfl]
  refine ⟨rfl, ?_, fun d hd => ?_⟩
  · simp only [PersistentEnvExtension.forceStateAux, get_mkImportedStateThunk, hs₀]
    cases X.lazy <;> simp [List.flatMap_map]
  · cases X.lazy <;> simp_all

/-- In the environment built from the modules read, a registered persistent extension's
imported entries are one array per module, in module order. -/
theorem importedEntries_mkImportedEnvironment (hrt : rt.Wf)
    (hX : X ∈ rt.persistentEnvExtensions.toList) (modNames : List Name) (trustLevel : UInt32)
    (mods : Array (ModuleData Name ConstantInfo E)) :
    (X.toEnvExtension.getState
      (mkImportedEnvironment rt modNames trustLevel mods : Environment Name ConstantInfo Ω)).importedEntries =
      mods.map fun mod => getEntriesFor mod X.name 0 := by
  have hreg := hrt.persistent_registered X hX
  obtain ⟨s₀, hs₀⟩ := hrt.initial_fresh X hX
  have hlt : X.idx < (mkInitialExtensionStates rt).size := by simpa using hreg.1
  simp only [mkImportedEnvironment]
  rw [getState_finalizePersistentExtensions hrt hX _ (by simpa using hlt),
    getState_setImportedEntries hrt hX _ hlt, hreg.getState_of_initial rfl, hs₀]
  apply Array.ext'
  simp

/-- Import aggregation: after a successful import, a registered persistent extension reads
the fold, from its initial state, of the entries every module read holds for it, module by
module and in order within a module, whether it is lazy or not, and has no entries of its
own. -/
theorem importModules_getState {load : Name → Except ε (ModuleData Name ConstantInfo E)}
    {performModifications : Environment Name ConstantInfo Ω → ByteArray →
      Except ε (Environment Name ConstantInfo Ω)}
    {fuel : Nat} {roots : List Name} {trustLevel : UInt32} {visited : NameSet Name}
    {mods : Array (ModuleData Name ConstantInfo E)} {env : Environment Name ConstantInfo Ω}
    (hrt : rt.Wf) (hX : X ∈ rt.persistentEnvExtensions.toList)
    (hperf : KeepsPersistentStates rt performModifications)
    (haux : importModulesAux load fuel roots (∅, #[]) = some (.ok (visited, mods)))
    (h : importModules load performModifications fuel roots trustLevel rt = some (.ok env)) :
    X.getState env = (mods.toList.flatMap fun mod => (getEntriesFor mod X.name 0).toList).foldl
        (fun acc a => X.addEntryFn true acc a) X.initial.importedState.get ∧
      X.getEntries env = [] := by
  refine importModules_inv (fun env => X.getState env = _ ∧ X.getEntries env = [])
    (fun env b env' hb => ?_) haux h ?_
  · simp only [PersistentEnvExtension.getState, PersistentEnvExtension.getEntries,
      hperf env b env' hb X hX]
    exact id
  · obtain ⟨hentries, hstate, -⟩ := getState_mkImportedEnvironment hrt hX roots trustLevel mods
    exact ⟨hstate, hentries⟩

theorem importModules_getState_sample :
    sampleExt.getState (mkImportedEnvironment sampleRuntime [0] 0 sampleMods :
        Environment Nat Nat (PersistentEnvExtensionState Nat Nat)) =
      (sampleMods.toList.flatMap fun mod => (getEntriesFor mod sampleExt.name 0).toList).foldl
        (fun acc a => sampleExt.addEntryFn true acc a) sampleExt.initial.importedState.get ∧
    sampleExt.getEntries (mkImportedEnvironment sampleRuntime [0] 0 sampleMods :
        Environment Nat Nat (PersistentEnvExtensionState Nat Nat)) = [] :=
  importModules_getState
    (Runtime.Reachable.setInitializing false
      (.registerPersistentEnvExtension sampleDescr (.init true))).wf
    (List.mem_singleton_self _) (fun _ _ _ h _ _ => by cases h; rfl)
    (rfl : importModulesAux sampleStore 4 [0] (∅, #[]) =
      some (.ok (((∅ : NameSet Nat).insert 0).insert 1, sampleMods)))
    (rfl : importModules sampleStore (fun env _ => .ok env) 4 [0] 0 sampleRuntime = some (.ok _))

end ImportModules

end Lean4Core
