import Lean4Core.Import.ModuleGraph

/-!
# Building the imported environment

`init/lean/environment.lean`, lines 348–409: `getEntriesFor`, `setImportedEntries`,
`mkImportedStateThunk`, `finalizePersistentExtensions` and `importModules`.

`importModules` walks the graph (`importModulesAux`, with its fuel), builds the two
declaration indexes from the modules read, gives every registered persistent extension one
array of imported entries per module, folds them into its imported state, and last runs
`performModifications` on each module's legacy data. That collaborator is a parameter; the
results about imported environments assume only what they need of it (`KeepsPersistentStates`,
`KeepsDeclarations`, `KeepsExtensionsSize`).

The extension loops update every registered persistent extension's slot through
`modifyState`; since the slots are distinct (`Runtime.Wf`), one extension's state after a
loop is its own update applied once (`getState_iterateAux_modifyState`).
-/

namespace Lean4Core

open StateCast

section Definitions

variable {Name ConstantInfo Ω E S ε : Type} [DecidableEq Name]

/-- The entries module `mod` holds for the extension named `extId`: the array of the first
pair with that name from position `i` on, or none. -/
def getEntriesFor (mod : ModuleData Name ConstantInfo E) (extId : Name) (i : Nat) : Array E :=
  if h : i < mod.entries.size then
    let curr := mod.entries[i]
    if curr.1 == extId then curr.2 else getEntriesFor mod extId (i + 1)
  else
    #[]
termination_by mod.entries.size - i

/-- `getEntriesFor` is the search, from position `i`, for the first pair with the name. -/
theorem getEntriesFor_eq (mod : ModuleData Name ConstantInfo E) (extId : Name) (i : Nat) :
    getEntriesFor mod extId i =
      (((mod.entries.toList.drop i).find? fun p => p.1 == extId).map Prod.snd).getD #[] := by
  unfold getEntriesFor
  split
  · rename_i h
    rw [List.drop_eq_getElem_cons (by simpa using h), List.find?_cons, Array.getElem_toList]
    split <;> simp_all [getEntriesFor_eq mod extId (i + 1)]
  · rw [List.drop_eq_nil_of_le (by simpa using Nat.le_of_not_lt ‹_›)]
    rfl
termination_by mod.entries.size - i

/-- The imported state of an extension: the entries of every module in order, each folded
in as imported. -/
def mkImportedStateThunk (entries : Array (Array E)) (initial : S) (addEntryFn : Bool → S → E → S) :
    Thunk S :=
  Thunk.mk fun _ =>
    iterate entries initial fun _ entries s =>
      iterate entries s fun _ entry s => addEntryFn true s entry

variable [Hashable Name] [QuickLt Name] [StateCast (PersistentEnvExtensionState E S) Ω]

/-- Give every registered persistent extension one array of imported entries per module. -/
def setImportedEntries (rt : Runtime Name Ω E S) (env : Environment Name ConstantInfo Ω)
    (mods : Array (ModuleData Name ConstantInfo E)) : Environment Name ConstantInfo Ω :=
  iterate mods env fun _ mod env =>
    iterate rt.persistentEnvExtensions env fun _ extDescr env =>
      let entries := getEntriesFor mod extDescr.name 0
      extDescr.toEnvExtension.modifyState env fun s =>
        { s with importedEntries := s.importedEntries.push entries }

/-- Fold each registered persistent extension's imported entries into its imported state,
computed now unless the extension is lazy. -/
def finalizePersistentExtensions (rt : Runtime Name Ω E S) (env : Environment Name ConstantInfo Ω) :
    Environment Name ConstantInfo Ω :=
  iterate rt.persistentEnvExtensions env fun _ extDescr env =>
    extDescr.toEnvExtension.modifyState env fun s =>
      let importedState := mkImportedStateThunk s.importedEntries
        extDescr.initial.importedState.get extDescr.addEntryFn
      { s with importedState := importedState, entries := [],
               state := if extDescr.lazy then none else some importedState.get }

variable [HasName ConstantInfo Name]

/-- The `const2ModIdx` of `importModules`: every declaration's name mapped to the position
of its module. -/
def mkConst2ModIdx (mods : Array (ModuleData Name ConstantInfo E)) : HashMap Name ModuleIdx :=
  iterate mods ∅ fun modIdx mod m =>
    iterate mod.constants m fun _ cinfo m => m.insert (HasName.name cinfo) modIdx

/-- The `constants` of `importModules`, before the switch: every declaration under its name. -/
def mkConstants (mods : Array (ModuleData Name ConstantInfo E)) : SMap Name ConstantInfo quickLt :=
  iterate mods ∅ fun _ mod cs =>
    iterate mod.constants cs fun _ cinfo cs => cs.insert (HasName.name cinfo) cinfo

/-- The environment of the modules `mods` read from the roots `modNames`, before the legacy
modifications run. -/
def mkImportedEnvironment (rt : Runtime Name Ω E S) (modNames : List Name) (trustLevel : UInt32)
    (mods : Array (ModuleData Name ConstantInfo E)) : Environment Name ConstantInfo Ω :=
  let env : Environment Name ConstantInfo Ω :=
    { const2ModIdx := mkConst2ModIdx mods,
      constants := (mkConstants mods).switch,
      extensions := mkInitialExtensionStates rt,
      quotInit := !modNames.isEmpty,
      trustLevel := trustLevel,
      imports := modNames.toArray }
  finalizePersistentExtensions rt (setImportedEntries rt env mods)

/-- `importModules`: `none` when the walk runs out of fuel. -/
def importModules (load : Name → Except ε (ModuleData Name ConstantInfo E))
    (performModifications : Environment Name ConstantInfo Ω → ByteArray →
      Except ε (Environment Name ConstantInfo Ω))
    (fuel : Nat) (modNames : List Name) (trustLevel : UInt32) (rt : Runtime Name Ω E S) :
    Option (Except ε (Environment Name ConstantInfo Ω)) :=
  match importModulesAux load fuel modNames (∅, #[]) with
  | none => none
  | some (.error e) => some (.error e)
  | some (.ok (_, mods)) =>
    some (miterate mods (mkImportedEnvironment rt modNames trustLevel mods) fun _ mod env =>
      performModifications env mod.serialized)

end Definitions

/-! ## What the extension loops leave alone -/

section Frame

variable {Name ConstantInfo Ω E S : Type} [DecidableEq Name] [Hashable Name] [QuickLt Name]
  [StateCast (PersistentEnvExtensionState E S) Ω]

/-- A loop of `modifyState` changes only the extension slots. -/
theorem iterateAux_modifyState_eq
    (g : PersistentEnvExtension Name E S → PersistentEnvExtensionState E S →
      PersistentEnvExtensionState E S) :
    ∀ (ps : List (PersistentEnvExtension Name E S)) (i : Nat) (env : Environment Name ConstantInfo Ω),
      iterateAux (fun _ p env => p.toEnvExtension.modifyState env (g p)) i ps env =
        { env with extensions :=
            (iterateAux (fun _ p env => p.toEnvExtension.modifyState env (g p)) i ps env).extensions }
  | [], _, _ => rfl
  | p :: ps, i, env => by
    rw [iterateAux_cons, iterateAux_modifyState_eq g ps (i + 1)]
    rfl

theorem setImportedEntries_eq (rt : Runtime Name Ω E S) (env : Environment Name ConstantInfo Ω)
    (mods : Array (ModuleData Name ConstantInfo E)) :
    setImportedEntries rt env mods =
      { env with extensions := (setImportedEntries rt env mods).extensions } := by
  unfold setImportedEntries iterate
  rw [iterateAux_eq_foldl]
  induction mods.toList generalizing env with
  | nil => rfl
  | cons mod mods ih => rw [List.foldl_cons, ih, iterateAux_modifyState_eq]

theorem finalizePersistentExtensions_eq (rt : Runtime Name Ω E S)
    (env : Environment Name ConstantInfo Ω) :
    finalizePersistentExtensions rt env =
      { env with extensions := (finalizePersistentExtensions rt env).extensions } :=
  iterateAux_modifyState_eq _ _ _ _

variable [HasName ConstantInfo Name]

@[simp] theorem const2ModIdx_mkImportedEnvironment (rt : Runtime Name Ω E S)
    (modNames : List Name) (trustLevel : UInt32) (mods : Array (ModuleData Name ConstantInfo E)) :
    (mkImportedEnvironment rt modNames trustLevel mods).const2ModIdx = mkConst2ModIdx mods := by
  rw [mkImportedEnvironment, finalizePersistentExtensions_eq, setImportedEntries_eq]

@[simp] theorem imports_mkImportedEnvironment (rt : Runtime Name Ω E S)
    (modNames : List Name) (trustLevel : UInt32) (mods : Array (ModuleData Name ConstantInfo E)) :
    (mkImportedEnvironment rt modNames trustLevel mods).imports = modNames.toArray := by
  rw [mkImportedEnvironment, finalizePersistentExtensions_eq, setImportedEntries_eq]

@[simp] theorem stage₁_mkConstants (mods : Array (ModuleData Name ConstantInfo E)) :
    (mkConstants mods).stage₁ = true :=
  iterateAux_inv (fun cs : SMap Name ConstantInfo quickLt => cs.stage₁ = true)
    (fun _ mod _ h => iterateAux_inv (fun cs : SMap Name ConstantInfo quickLt => cs.stage₁ = true)
      (fun _ _ _ h => by simpa using h) _ mod.constants.toList _ h) _ _ _ rfl

@[simp] theorem constants_mkImportedEnvironment (rt : Runtime Name Ω E S)
    (modNames : List Name) (trustLevel : UInt32) (mods : Array (ModuleData Name ConstantInfo E)) :
    (mkImportedEnvironment rt modNames trustLevel mods).constants = (mkConstants mods).switch := by
  rw [mkImportedEnvironment, finalizePersistentExtensions_eq, setImportedEntries_eq]

end Frame

/-! ## The collaborator -/

section Collaborator

variable {Name ConstantInfo Ω E S ε : Type} [DecidableEq Name] [Hashable Name] [QuickLt Name]

/-- `performModifications` leaves the states of the registered persistent extensions as
they are. -/
def KeepsPersistentStates [StateCast (PersistentEnvExtensionState E S) Ω] [Inhabited Ω]
    (rt : Runtime Name Ω E S)
    (performModifications : Environment Name ConstantInfo Ω → ByteArray →
      Except ε (Environment Name ConstantInfo Ω)) : Prop :=
  ∀ env b env', performModifications env b = .ok env' →
    ∀ p ∈ rt.persistentEnvExtensions.toList,
      p.toEnvExtension.getState env' = p.toEnvExtension.getState env

/-- `performModifications` leaves both declaration indexes as they are. -/
def KeepsDeclarations
    (performModifications : Environment Name ConstantInfo Ω → ByteArray →
      Except ε (Environment Name ConstantInfo Ω)) : Prop :=
  ∀ env b env', performModifications env b = .ok env' →
    ∀ c, env'.find c = env.find c ∧ env'.getModuleIdxFor c = env.getModuleIdxFor c

/-- `performModifications` adds no extension slot. -/
def KeepsExtensionsSize
    (performModifications : Environment Name ConstantInfo Ω → ByteArray →
      Except ε (Environment Name ConstantInfo Ω)) : Prop :=
  ∀ env b env', performModifications env b = .ok env' →
    env'.extensions.size = env.extensions.size

variable [StateCast (PersistentEnvExtensionState E S) Ω] [HasName ConstantInfo Name]
  {load : Name → Except ε (ModuleData Name ConstantInfo E)}
  {performModifications : Environment Name ConstantInfo Ω → ByteArray →
    Except ε (Environment Name ConstantInfo Ω)}

/-- A successful import walked the graph to a module list `mods`, and the legacy
modifications of `mods` turned the environment built from them into the result. -/
theorem importModules_ok {fuel : Nat} {modNames : List Name} {trustLevel : UInt32}
    {rt : Runtime Name Ω E S} {env : Environment Name ConstantInfo Ω}
    (h : importModules load performModifications fuel modNames trustLevel rt = some (.ok env)) :
    ∃ visited mods, importModulesAux load fuel modNames (∅, #[]) = some (.ok (visited, mods)) ∧
      miterate mods (mkImportedEnvironment rt modNames trustLevel mods)
        (fun _ mod env => performModifications env mod.serialized) = .ok env := by
  unfold importModules at h
  split at h
  · cases h
  · cases h
  · rename_i visited mods heq
    exact ⟨visited, mods, heq, Option.some.inj h⟩

/-- More fuel never changes the result of an import. -/
theorem importModules_mono {fuel fuel' : Nat} {modNames : List Name} {trustLevel : UInt32}
    {rt : Runtime Name Ω E S} {x : Except ε (Environment Name ConstantInfo Ω)}
    (h : importModules load performModifications fuel modNames trustLevel rt = some x)
    (hle : fuel ≤ fuel') :
    importModules load performModifications fuel' modNames trustLevel rt = some x := by
  unfold importModules at h ⊢
  rcases haux : importModulesAux load fuel modNames (∅, #[]) with _ | _ | ⟨_, _⟩ <;>
    rw [haux] at h
  · cases h
  all_goals rw [importModulesAux_mono haux hle]; exact h

/-- What every legacy modification keeps, the imported environment has if the environment
built from the modules has it. -/
theorem importModules_inv (P : Environment Name ConstantInfo Ω → Prop)
    (hP : ∀ env b env', performModifications env b = .ok env' → P env → P env')
    {fuel : Nat} {modNames : List Name} {trustLevel : UInt32} {rt : Runtime Name Ω E S}
    {visited : NameSet Name} {mods : Array (ModuleData Name ConstantInfo E)}
    {env : Environment Name ConstantInfo Ω}
    (haux : importModulesAux load fuel modNames (∅, #[]) = some (.ok (visited, mods)))
    (h : importModules load performModifications fuel modNames trustLevel rt = some (.ok env))
    (h₀ : P (mkImportedEnvironment rt modNames trustLevel mods)) : P env := by
  obtain ⟨_, mods', haux', hrun⟩ := importModules_ok h
  obtain ⟨-, rfl⟩ : visited = _ ∧ mods = mods' := by simpa [haux] using haux'
  exact miterateAux_inv P (fun _ mod env env' => hP env mod.serialized env') 0 _ _ _ hrun h₀

end Collaborator

/-! ## A sample import

One registered persistent extension that sums its entries, a store of two modules, `0`
importing `1`, which both declare `5`, and a short run from a new environment. The results
about environments are instantiated on them. -/

section Sample

/-- A persistent extension named `0` whose state is the sum of its entries. -/
def sampleDescr : PersistentEnvExtensionDescr Nat Nat Nat :=
  { name := 0, initState := 0, addEntryFn := fun _ s e => s + e }

/-- The extension `sampleDescr` registers, in slot `0`. -/
def sampleExt : PersistentEnvExtension Nat Nat Nat :=
  { idx := 0, initial := sampleDescr.initialState, name := 0,
    addEntryFn := sampleDescr.addEntryFn, toArrayFn := sampleDescr.toArrayFn, lazy := true }

/-- The runtime after registering `sampleDescr` and leaving initialization. -/
def sampleRuntime : Runtime Nat (PersistentEnvExtensionState Nat Nat) Nat Nat :=
  { initializing := false, envExtensions := #[⟨0, sampleDescr.initialState⟩],
    persistentEnvExtensions := #[sampleExt] }

/-- Module `0` imports module `1`; both declare `5`, and both hold entries for `sampleExt`. -/
def sampleStore : Nat → Except String (ModuleData Nat Nat Nat)
  | 0 => .ok ⟨#[1], #[5], #[(0, #[10])], .empty⟩
  | 1 => .ok ⟨#[], #[5, 6], #[(0, #[1, 2])], .empty⟩
  | _ => .error "no such module"

/-- The modules an import of `[0]` reads, dependencies first. -/
def sampleMods : Array (ModuleData Nat Nat Nat) :=
  #[⟨#[], #[5, 6], #[(0, #[1, 2])], .empty⟩, ⟨#[1], #[5], #[(0, #[10])], .empty⟩]

/-- A new environment over `sampleRuntime`. -/
def sampleEmptyEnv : Environment Nat Nat (PersistentEnvExtensionState Nat Nat) :=
  { const2ModIdx := ∅, constants := ∅, extensions := mkInitialExtensionStates sampleRuntime }

/-- The spec's run: `addEntry` of `3` to the summing extension, its state computed, then
`addEntry` of `4`. -/
def sampleRun : Environment Nat Nat (PersistentEnvExtensionState Nat Nat) :=
  sampleExt.addEntry (sampleExt.forceState (sampleExt.addEntry sampleEmptyEnv 3)) 4

end Sample

end Lean4Core
