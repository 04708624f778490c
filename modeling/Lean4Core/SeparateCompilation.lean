import Lean4Core.Import.Declarations
import Lean4Core.Runs

/-!
# Separate compilation

`init/lean/environment.lean`, lines 279–330: `mkModuleData`, which turns the current module
of an environment into module data, and the round trip through it. A module is compiled by
importing its imports, adding declarations and extension entries, and writing
`mkModuleData` of the result; a later import of that module must see the declarations and,
for extensions whose entries are stored as they are, the states the writer saw.

The writer reads the registry (`persistentEnvExtensionsRef`), each registered persistent
extension's entries of the current module, and the stage-2 tree of the declaration map,
which after an import holds exactly the declarations added since. The legacy modification
list of `modListExtension` is serialized by the collaborator `serializeModifications`;
`saveModuleData`, `findOLean` and `readModuleData` are the module store, which after the
write returns the data written under the new module's name.

Main results:
- `mkModuleData_ok`: the module data of an environment, field by field.
- `AfterImport.run`: what every run after an import keeps of it: the imports, the imported
  declarations below a tree of added ones, and each persistent extension's imported state
  and cache invariant.
- `mkModuleData_currentModule`: after an import and any run, the module data holds the
  roots as imports, for every name the last declaration the run added under it and nothing
  imported, in `quickLt` order, and each extension's entries of the run, oldest first.
- `importModules_mkModuleData`: the round trip, with the legacy modifications modelled as
  succeeding and leaving the declarations, the imports and the persistent states alone.
-/

namespace Lean4Core

open Relation StateCast

section ModuleData

variable {Name ConstantInfo Ω E S ε M : Type} [DecidableEq Name] [Hashable Name] [QuickLt Name]
  [StateCast (PersistentEnvExtensionState E S) Ω] [Inhabited Ω]

/-- `mkModuleData`: the imports, the declarations of the current module, each registered
persistent extension's entries of the current module, oldest first, and the serialized
legacy modifications. `Array.get` of the source returns the default extension out of range. -/
def mkModuleData [Inhabited Name] [Inhabited S] [StateCast (List M) Ω]
    (serializeModifications : List M → Except ε ByteArray)
    (modListExtension : EnvExtension (List M)) (rt : Runtime Name Ω E S)
    (env : Environment Name ConstantInfo Ω) : Except ε (ModuleData Name ConstantInfo E) := do
  let pExts := rt.persistentEnvExtensions
  let entries : Array (Name × Array E) := pExts.size.fold
    (fun i result =>
      let entryList := (pExts.getD i default).getEntries env
      let toArrayFn := (pExts.getD i default).toArrayFn
      let extName := (pExts.getD i default).name
      result.push (extName, toArrayFn entryList.reverse))
    #[]
  let bytes ← serializeModifications (modListExtension.getState env)
  pure { imports := env.imports,
         constants := env.constants.foldStage2 (fun cs _ c => cs.push c) #[],
         entries := entries,
         serialized := bytes }

variable [Inhabited Name] [Inhabited S] [StateCast (List M) Ω]
  {serializeModifications : List M → Except ε ByteArray} {modListExtension : EnvExtension (List M)}
  {rt : Runtime Name Ω E S}

/-- The module data of an environment: its imports, the values of the stage-2 tree in
order, one entry array per registered persistent extension in registration order, and the
serialized modifications. -/
theorem mkModuleData_ok {env : Environment Name ConstantInfo Ω} {d : ModuleData Name ConstantInfo E}
    (h : mkModuleData serializeModifications modListExtension rt env = .ok d) :
    d.imports = env.imports ∧
      d.constants.toList = env.constants.map₂.val.toList.map Prod.snd ∧
      d.entries.toList = rt.persistentEnvExtensions.toList.map
        (fun p => (p.name, p.toArrayFn (p.getEntries env).reverse)) ∧
      serializeModifications (modListExtension.getState env) = .ok d.serialized := by
  unfold mkModuleData at h
  cases hs : serializeModifications (modListExtension.getState env) with
  | error e => rw [hs] at h; cases h
  | ok bytes =>
    rw [hs] at h
    cases h
    refine ⟨rfl, by simp [SMap.toList_foldStage2_push], ?_, rfl⟩
    simp only [toList_fold_push, Array.toList_empty, List.nil_append]
    exact map_range_getD rt.persistentEnvExtensions default
      fun p : PersistentEnvExtension Name E S => (p.name, p.toArrayFn (p.getEntries env).reverse)

/-- A registered extension finds its own entries in the module data: the registry's names
are distinct. -/
theorem getEntriesFor_mkModuleData (hrt : rt.Wf) {X : PersistentEnvExtension Name E S}
    (hX : X ∈ rt.persistentEnvExtensions.toList) {env : Environment Name ConstantInfo Ω}
    {d : ModuleData Name ConstantInfo E}
    (h : mkModuleData serializeModifications modListExtension rt env = .ok d) :
    getEntriesFor d X.name 0 = X.toArrayFn (X.getEntries env).reverse := by
  rw [getEntriesFor_eq, List.drop_zero, (mkModuleData_ok h).2.2.1, List.find?_map]
  have hfind := find?_key_eq_some hrt.names_nodup hX
  simp only [Function.comp_def] at hfind ⊢
  rw [hfind]
  rfl

end ModuleData

/-! ## What a run after an import keeps -/

section AfterImport

variable {Name ConstantInfo Ω E S ε : Type} [DecidableEq Name] [HasName ConstantInfo Name]

/-- In an association list with distinct keys and every value under its own name, the last
value of a name is the one `lookup` finds. -/
theorem find?_reverse_map_snd {l : List (Name × ConstantInfo)} (hnd : (l.map Prod.fst).Nodup)
    (hname : ∀ p ∈ l, HasName.name p.2 = p.1) (c : Name) :
    (l.map Prod.snd).reverse.find? (fun ci => HasName.name ci == c) = l.lookup c := by
  induction l with
  | nil => rfl
  | cons p l ih =>
    obtain ⟨k, v⟩ := p
    rw [List.map_cons, List.nodup_cons] at hnd
    have hv : HasName.name v = k := hname _ (List.mem_cons_self _ _)
    rw [List.map_cons, List.reverse_cons, List.find?_append, lookup_cons_ite,
      ih hnd.2 fun p hp => hname p (List.mem_cons_of_mem _ hp)]
    by_cases hc : c = k
    · subst hc
      have : l.lookup c = none := List.lookup_eq_none_iff.2 fun p hp => by
        simpa using fun he : c = p.1 => hnd.1 (List.mem_map.2 ⟨p, hp, he.symm⟩)
      simp [this, hv]
    · simp [hc, hv, Ne.symm hc]

variable [Hashable Name] [QuickLt Name]

/-- The declaration map after an import of the modules `mods`: switched, with the imported
declarations in the hash map and every later declaration in the tree under its own name. -/
structure DeclsAfterImport (mods : Array (ModuleData Name ConstantInfo E))
    (cs : SMap Name ConstantInfo quickLt) : Prop where
  stage₂ : cs.stage₁ = false
  map₁_find : ∀ c, cs.map₁.find c = (lastDeclaring mods.toList 0 c).map Prod.snd
  names : ∀ p ∈ cs.map₂.val.toList, HasName.name p.2 = p.1

theorem declsAfterImport_mkConstants (mods : Array (ModuleData Name ConstantInfo E)) :
    DeclsAfterImport mods (mkConstants mods).switch := by
  have hleaf := (mkConstants mods).stage₁_empty (stage₁_mkConstants mods)
  refine ⟨SMap.stage₁_switch _, fun c => ?_, fun p hp => ?_⟩
  · rw [← find_mkConstants, SMap.find_of_stage₂ (SMap.stage₁_switch _), SMap.map₂_switch]
    simp [RBMap.find, hleaf, RBNode.find]
  · simp [hleaf] at hp

variable {mods : Array (ModuleData Name ConstantInfo E)} {cs : SMap Name ConstantInfo quickLt}

theorem DeclsAfterImport.insert (hst : StrictTotal (quickLt : Name → Name → Bool))
    (h : DeclsAfterImport mods cs) (ci : ConstantInfo) :
    DeclsAfterImport mods (cs.insert (HasName.name ci) ci) where
  stage₂ := by simpa using h.stage₂
  map₁_find := by simpa [SMap.map₁_insert_of_stage₂ h.stage₂] using h.map₁_find
  names p hp := by
    rw [SMap.map₂_insert_of_stage₂ h.stage₂, RBMap.toList_insert hst] at hp
    rcases RBNode.mem_insertKV hp with rfl | hp
    · rfl
    · exact h.names p hp

/-- After an import, a name resolves to its last added declaration, else to the last
imported one. -/
theorem DeclsAfterImport.find (hst : StrictTotal (quickLt : Name → Name → Bool))
    (h : DeclsAfterImport mods cs) (c : Name) :
    cs.find c = ((cs.map₂.val.toList.map Prod.snd).reverse.find? fun ci => HasName.name ci == c).or
      ((lastDeclaring mods.toList 0 c).map Prod.snd) := by
  rw [SMap.find_of_stage₂ h.stage₂, h.map₁_find, RBMap.find_eq_lookup hst,
    find?_reverse_map_snd (RBMap.nodup_keys hst _) h.names]

variable [StateCast (PersistentEnvExtensionState E S) Ω] [Inhabited Ω]

/-- The state an import leaves to a persistent extension: the fold of every module's
entries. -/
def importedFold (mods : Array (ModuleData Name ConstantInfo E)) (X : PersistentEnvExtension Name E S) :
    S :=
  (mods.toList.flatMap fun mod => (getEntriesFor mod X.name 0).toList).foldl
    (fun acc a => X.addEntryFn true acc a) X.initial.importedState.get

/-- What a run after an import of `roots`, which read `mods`, keeps of it: the imports, the
declaration map, and each registered persistent extension's imported state with its cache
invariant. -/
structure AfterImport (rt : Runtime Name Ω E S) (roots : List Name)
    (mods : Array (ModuleData Name ConstantInfo E)) (env : Environment Name ConstantInfo Ω) : Prop where
  imports : env.imports = roots.toArray
  decls : DeclsAfterImport mods env.constants
  importedState : ∀ X ∈ rt.persistentEnvExtensions.toList,
    (X.toEnvExtension.getState env).importedState.get = importedFold mods X
  cacheOk : ∀ X ∈ rt.persistentEnvExtensions.toList,
    PersistentEnvExtension.CacheOk X.addEntryFn (X.toEnvExtension.getState env)

variable {rt : Runtime Name Ω E S} {roots : List Name} {mods : Array (ModuleData Name ConstantInfo E)}

/-- What reads only the imports, the declarations and the persistent states carries over. -/
theorem AfterImport.congr {env env' : Environment Name ConstantInfo Ω}
    (h : AfterImport rt roots mods env) (himp : env'.imports = env.imports)
    (hc : env'.constants = env.constants)
    (hs : ∀ X ∈ rt.persistentEnvExtensions.toList,
      X.toEnvExtension.getState env' = X.toEnvExtension.getState env) :
    AfterImport rt roots mods env' where
  imports := himp.trans h.imports
  decls := hc ▸ h.decls
  importedState X hX := by rw [hs X hX]; exact h.importedState X hX
  cacheOk X hX := by rw [hs X hX]; exact h.cacheOk X hX

theorem afterImport_mkImportedEnvironment (hrt : rt.Wf) (trustLevel : UInt32) :
    AfterImport rt roots mods (mkImportedEnvironment rt roots trustLevel mods) where
  imports := imports_mkImportedEnvironment _ _ _ _
  decls := by rw [constants_mkImportedEnvironment]; exact declsAfterImport_mkConstants mods
  importedState X hX := by
    obtain ⟨hentries, hstate, hok⟩ := getState_mkImportedEnvironment hrt hX roots trustLevel mods
    rw [importedFold, ← hstate, PersistentEnvExtension.forceStateAux_eq X hok, hentries]
    rfl
  cacheOk X hX := (getState_mkImportedEnvironment hrt hX roots trustLevel mods).2.2

/-- What the module data of a run after an import assumes of `performModifications`: it
leaves the declaration map, the imports, the number of extension slots and every registered
persistent extension's state as they are. -/
structure KeepsCurrentModule (rt : Runtime Name Ω E S)
    (performModifications : Environment Name ConstantInfo Ω → ByteArray →
      Except ε (Environment Name ConstantInfo Ω)) : Prop where
  constants : ∀ env b env', performModifications env b = .ok env' → env'.constants = env.constants
  imports : ∀ env b env', performModifications env b = .ok env' → env'.imports = env.imports
  extensionsSize : KeepsExtensionsSize performModifications
  persistent : KeepsPersistentStates rt performModifications

/-- The model of the extern `performModifications` in the round trip: it succeeds, and it
leaves the declaration map, the imports and every registered persistent extension's state as
they are. It reaches the environment only through the exported API, and no exported
function writes the imports. -/
structure KeepsModule (rt : Runtime Name Ω E S)
    (performModifications : Environment Name ConstantInfo Ω → ByteArray →
      Except ε (Environment Name ConstantInfo Ω)) : Prop where
  ok : ∀ env b, ∃ env', performModifications env b = .ok env'
  constants : ∀ env b env', performModifications env b = .ok env' → env'.constants = env.constants
  imports : ∀ env b env', performModifications env b = .ok env' → env'.imports = env.imports
  persistent : KeepsPersistentStates rt performModifications

variable {load : Name → Except ε (ModuleData Name ConstantInfo E)}
  {performModifications : Environment Name ConstantInfo Ω → ByteArray →
    Except ε (Environment Name ConstantInfo Ω)}

theorem AfterImport.of_importModules (hrt : rt.Wf)
    (hconst : ∀ env b env', performModifications env b = .ok env' → env'.constants = env.constants)
    (himp : ∀ env b env', performModifications env b = .ok env' → env'.imports = env.imports)
    (hperf : KeepsPersistentStates rt performModifications)
    {fuel : Nat} {trustLevel : UInt32} {visited : NameSet Name} {env : Environment Name ConstantInfo Ω}
    (haux : importModulesAux load fuel roots (∅, #[]) = some (.ok (visited, mods)))
    (h : importModules load performModifications fuel roots trustLevel rt = some (.ok env)) :
    AfterImport rt roots mods env :=
  importModules_inv (AfterImport rt roots mods)
    (fun _ _ _ hb hi => hi.congr (himp _ _ _ hb) (hconst _ _ _ hb) (hperf _ _ _ hb))
    haux h (afterImport_mkImportedEnvironment hrt trustLevel)

theorem AfterImport.init (hrt : rt.Wf) (hperf : KeepsModule rt performModifications)
    {fuel : Nat} {trustLevel : UInt32} {visited : NameSet Name} {env : Environment Name ConstantInfo Ω}
    (haux : importModulesAux load fuel roots (∅, #[]) = some (.ok (visited, mods)))
    (h : importModules load performModifications fuel roots trustLevel rt = some (.ok env)) :
    AfterImport rt roots mods env :=
  .of_importModules hrt hperf.constants hperf.imports hperf.persistent haux h

/-- The slots of registered persistent extensions. -/
def PersistentSlot (rt : Runtime Name Ω E S) (i : Nat) : Prop :=
  ∃ p ∈ rt.persistentEnvExtensions.toList, p.idx = i

/-- One step whose raw writes stay off the persistent slots keeps what the import left. -/
theorem AfterImport.step (hst : StrictTotal (quickLt : Name → Name → Bool)) (hrt : rt.Wf)
    {env env' : Environment Name ConstantInfo Ω} (h : Step rt (¬ PersistentSlot rt ·) env env')
    (hi : AfterImport rt roots mods env) : AfterImport rt roots mods env' := by
  have hX : ∀ X ∈ rt.persistentEnvExtensions.toList, Step rt (· ≠ X.idx) env env' :=
    fun X hX => h.mono fun i hi he => hi ⟨X, hX, he.symm⟩
  obtain ⟨himp, hc⟩ := h.constants_cases
  refine ⟨himp.trans hi.imports, ?_, fun X hX' => ?_, fun X hX' => ?_⟩
  · rcases hc with ⟨ci, hc⟩ | hc | hc <;> rw [hc]
    · exact hi.decls.insert hst ci
    · rw [SMap.switch_of_stage₂ hi.decls.stage₂]; exact hi.decls
    · exact hi.decls
  · exact (hX X hX').getState_inv (fun s => s.importedState.get = importedFold mods X)
      (fun a s h => by simpa using h) (fun _ h => h) hrt hX' (hi.importedState X hX')
  · exact (hX X hX').getState_inv _ (fun a _ h => h.addEntryAux X a) (fun _ h => h.force X)
      hrt hX' (hi.cacheOk X hX')

/-- Every run after an import keeps what the import left. -/
theorem AfterImport.run (hst : StrictTotal (quickLt : Name → Name → Bool)) (hrt : rt.Wf)
    {env env' : Environment Name ConstantInfo Ω} (hi : AfterImport rt roots mods env)
    (h : ReflTransGen (Step rt (¬ PersistentSlot rt ·)) env env') : AfterImport rt roots mods env' := by
  induction h with
  | refl => exact hi
  | tail _ hs ih => exact ih.step hst hrt hs

end AfterImport

/-! ## The round trip -/

section RoundTrip

variable {Name ConstantInfo Ω E S ε M : Type} [DecidableEq Name] [QuickLt Name]
  {load : Name → Except ε (ModuleData Name ConstantInfo E)}

/-- Importing the written module `N` alone reads the modules the first import read, then
`N`: the walk from `N`'s imports never reaches `N`, and so reads what the first walk read. -/
theorem importModulesAux_writtenModule (hst : StrictTotal (quickLt : Name → Name → Bool))
    {fuel : Nat} {roots : List Name} {visited : NameSet Name}
    {mods : Array (ModuleData Name ConstantInfo E)} {N : Name} {d : ModuleData Name ConstantInfo E}
    (haux : importModulesAux load fuel roots (∅, #[]) = some (.ok (visited, mods)))
    (hN : ¬ Reach load roots N) (hd : d.imports.toList = roots) :
    ∃ t, importModulesAux (fun n => if n = N then .ok d else load n) (fuel + 1) [N] (∅, #[]) =
      some (.ok (t, mods.push d)) := by
  set load' : Name → Except ε (ModuleData Name ConstantInfo E) :=
    fun n => if n = N then .ok d else load n
  have hins : ∀ k, ((∅ : NameSet Name).insert N).contains k = true ↔
      k = N ∨ (∅ : NameSet Name).contains k = true := fun k => by
    rw [NameSet.contains_insert hst]
  obtain ⟨t, -, ht⟩ := importModulesAux_extend hst load' N (fun k hk => if_neg hk) hins
    (fun k hk hkN => hN ⟨k, hk, hkN⟩) haux
  rw [← hd] at ht
  exact ⟨t, by rw [importModulesAux_fresh (NameSet.contains_empty N) (if_pos rfl) ht,
    importModulesAux_nil]⟩

variable [Hashable Name] [HasName ConstantInfo Name] [StateCast (PersistentEnvExtensionState E S) Ω]
  [Inhabited Ω] [Inhabited Name] [Inhabited S] [StateCast (List M) Ω]
  {serializeModifications : List M → Except ε ByteArray} {modListExtension : EnvExtension (List M)}
  {rt : Runtime Name Ω E S}
  {performModifications : Environment Name ConstantInfo Ω → ByteArray →
    Except ε (Environment Name ConstantInfo Ω)}

/-- Separate compilation round trip: import `roots`, run any declarations, entries of
registered persistent extensions, state computations and raw writes to the other slots, and
write the module data `d` of the result as a module `N` that the roots do not reach. Then
importing `N` alone succeeds and gives back every declaration, and the state of every
registered persistent extension that stores its entries as they are and folds imported and
added entries alike. The legacy modifications succeed and leave the declarations, the
imports and the persistent states alone. -/
theorem importModules_mkModuleData (hst : StrictTotal (quickLt : Name → Name → Bool))
    (hrt : rt.Wf) (hperf : KeepsModule rt performModifications)
    {fuel : Nat} {roots : List Name} {trustLevel : UInt32} {e0 e : Environment Name ConstantInfo Ω}
    (h0 : importModules load performModifications fuel roots trustLevel rt = some (.ok e0))
    (hrun : ReflTransGen (Step rt (¬ PersistentSlot rt ·)) e0 e) {d : ModuleData Name ConstantInfo E}
    (hd : mkModuleData serializeModifications modListExtension rt e = .ok d)
    {N : Name} (hN : ¬ Reach load roots N) (trustLevel' : UInt32) :
    ∃ e', importModules (fun n => if n = N then .ok d else load n) performModifications (fuel + 1)
        [N] trustLevel' rt = some (.ok e') ∧
      (∀ c, e'.find c = e.find c) ∧
      ∀ X ∈ rt.persistentEnvExtensions.toList, X.toArrayFn = List.toArray →
        (∀ s a, X.addEntryFn true s a = X.addEntryFn false s a) → X.getState e' = X.getState e := by
  obtain ⟨_, mods, haux, -⟩ := importModules_ok h0
  have hi := (AfterImport.init hrt hperf haux h0).run hst hrt hrun
  obtain ⟨hdi, hdc, -, -⟩ := mkModuleData_ok hd
  obtain ⟨t, haux'⟩ := importModulesAux_writtenModule (d := d) hst haux hN
    (by simp [hdi, hi.imports])
  obtain ⟨e', he'⟩ := miterateAux_ok (fun _ mod env => hperf.ok env mod.serialized) 0
    (mods.push d).toList (mkImportedEnvironment rt [N] trustLevel' (mods.push d))
  have himport : importModules (fun n => if n = N then .ok d else load n) performModifications
      (fuel + 1) [N] trustLevel' rt = some (.ok e') := by
    simp only [importModules, haux', miterate, he']
  refine ⟨e', himport, fun c => ?_, fun X hX harr hbool => ?_⟩
  · have hfind := importModules_inv
      (fun env => ∀ c, env.find c = (lastDeclaring (mods.push d).toList 0 c).map Prod.snd)
      (fun env b env' hb h c => by simpa only [Environment.find, hperf.constants _ _ _ hb] using h c)
      haux' himport (fun c => by
        simpa only [Environment.find, constants_mkImportedEnvironment] using find_mkConstants _ c)
    rw [hfind c, Array.push_toList, lastDeclaring_append_singleton, Environment.find,
      hi.decls.find hst c, lastDecl, hdc]
  · have hstate := importModules_inv
      (fun env => X.toEnvExtension.getState env =
        X.toEnvExtension.getState (mkImportedEnvironment rt [N] trustLevel' (mods.push d)))
      (fun env b env' hb h => (hperf.persistent _ _ _ hb X hX).trans h) haux' himport rfl
    have hbool' : X.addEntryFn true = X.addEntryFn false := funext fun s => funext (hbool s)
    calc X.getState e'
        = ((mods.push d).toList.flatMap fun mod => (getEntriesFor mod X.name 0).toList).foldl
            (fun acc a => X.addEntryFn true acc a) X.initial.importedState.get := by
          rw [PersistentEnvExtension.getState, hstate,
            (getState_mkImportedEnvironment hrt hX [N] trustLevel' (mods.push d)).2.1]
      _ = (X.getEntries e).reverse.foldl (fun acc a => X.addEntryFn true acc a)
            (importedFold mods X) := by
          rw [Array.push_toList, List.flatMap_append, List.foldl_append, List.flatMap_cons,
            List.flatMap_nil, List.append_nil, getEntriesFor_mkModuleData hrt hX hd, harr]
          simp [importedFold]
      _ = X.getState e := by
          rw [PersistentEnvExtension.getState, PersistentEnvExtension.forceStateAux_eq X (hi.cacheOk X hX),
            hi.importedState X hX, hbool']
          rfl

end RoundTrip

/-! ## The module data of the current module -/

section CurrentModule

variable {Name ConstantInfo Ω E S ε M : Type} [DecidableEq Name] [Hashable Name] [QuickLt Name]
  [HasName ConstantInfo Name] [StateCast (PersistentEnvExtensionState E S) Ω]

/-- Over a run in stage 2, the declaration tree gets the declarations the run adds, in
order, each under its name: `switch` does nothing any more, and no other operation touches
the declaration map. -/
theorem map₂_foldl_run (hst : StrictTotal (quickLt : Name → Name → Bool)) :
    ∀ (ops : List (ApiOp Name ConstantInfo Ω E S)) (env : Environment Name ConstantInfo Ω),
      env.constants.stage₁ = false →
      (ops.foldl ApiOp.run env).constants.map₂.val.toList =
        (DeclOp.added (ops.filterMap ApiOp.declOp)).foldl
          (fun l c => RBNode.insertKV quickLt (HasName.name c) c l) env.constants.map₂.val.toList
  | [], _, _ => rfl
  | op :: ops, env, hs => by
    have hrest := map₂_foldl_run hst ops (op.run env)
    cases op with
    | add c =>
      rw [List.foldl_cons, hrest (by simpa [ApiOp.run, Environment.add] using hs)]
      simp [ApiOp.run, ApiOp.declOp, DeclOp.added, Environment.add, SMap.map₂_insert_of_stage₂ hs,
        RBMap.toList_insert hst]
    | switch =>
      rw [List.foldl_cons, hrest (SMap.stage₁_switch _)]
      simp [ApiOp.run, ApiOp.declOp, DeclOp.added, Environment.switch, SMap.switch_of_stage₂ hs]
    | markQuotInit => exact hrest hs
    | setState => exact hrest hs
    | modifyState => exact hrest hs
    | addEntry => exact hrest hs
    | forceState => exact hrest hs

variable [Inhabited Ω] {rt : Runtime Name Ω E S} {X : PersistentEnvExtension Name E S}

/-- One operation whose raw writes stay off the persistent slots adds to a registered
persistent extension's entries the entry it passes to that extension's `addEntry`, if any:
registered extensions have distinct slots. -/
theorem entries_run (hrt : rt.Wf) (hX : X ∈ rt.persistentEnvExtensions.toList)
    {op : ApiOp Name ConstantInfo Ω E S} (hop : op.Allowed rt (¬ PersistentSlot rt ·))
    {env : Environment Name ConstantInfo Ω} (hlt : X.idx < env.extensions.size) :
    (X.toEnvExtension.getState (op.run env)).entries =
      (op.entryFor X).toList ++ (X.toEnvExtension.getState env).entries := by
  cases op with
  | add | switch | markQuotInit => rfl
  | setState ext s =>
    rw [ApiOp.run, EnvExtension.getState_setState_of_ne _ _ _ _ fun he => hop ⟨X, hX, he.symm⟩]
    rfl
  | modifyState ext f =>
    rw [ApiOp.run, EnvExtension.getState_modifyState_of_ne _ _ _ _ fun he => hop ⟨X, hX, he.symm⟩]
    rfl
  | addEntry p a =>
    simp only [ApiOp.run, PersistentEnvExtension.addEntry, ApiOp.entryFor]
    split
    · obtain rfl := hrt.eq_of_idx_eq hop hX ‹_›
      simp [EnvExtension.getState_modifyState_self, hlt]
    · rw [EnvExtension.getState_modifyState_of_ne _ _ _ _ ‹_›]
      rfl
  | forceState p =>
    simp only [ApiOp.run, PersistentEnvExtension.forceState, ApiOp.entryFor]
    by_cases he : p.idx = X.idx
    · obtain rfl := hrt.eq_of_idx_eq hop hX he
      simp [EnvExtension.getState_modifyState_self, hlt]
    · rw [EnvExtension.getState_modifyState_of_ne _ _ _ _ he]
      rfl

/-- Over a run whose raw writes stay off the persistent slots, a registered persistent
extension's entries grow by the entries the run passes to its `addEntry`, newest first. -/
theorem entries_foldl_run (hrt : rt.Wf) (hX : X ∈ rt.persistentEnvExtensions.toList) :
    ∀ (ops : List (ApiOp Name ConstantInfo Ω E S)), (∀ op ∈ ops, op.Allowed rt (¬ PersistentSlot rt ·)) →
      ∀ env : Environment Name ConstantInfo Ω, X.idx < env.extensions.size →
      (X.toEnvExtension.getState (ops.foldl ApiOp.run env)).entries =
        (ApiOp.addedEntries X ops).reverse ++ (X.toEnvExtension.getState env).entries
  | [], _, _, _ => rfl
  | op :: ops, hops, env, hlt => by
    have hop := hops op (List.mem_cons_self _ _)
    rw [List.foldl_cons, entries_foldl_run hrt hX ops (fun o ho => hops o (List.mem_cons_of_mem _ ho))
      _ (by rwa [(ApiOp.step hop env).size_eq]), entries_run hrt hX hop hlt]
    simp only [ApiOp.addedEntries, List.filterMap_cons]
    cases op.entryFor X <;> simp

variable [Inhabited Name] [Inhabited S] [StateCast (List M) Ω]
  {serializeModifications : List M → Except ε ByteArray} {modListExtension : EnvExtension (List M)}
  {load : Name → Except ε (ModuleData Name ConstantInfo E)}
  {performModifications : Environment Name ConstantInfo Ω → ByteArray →
    Except ε (Environment Name ConstantInfo Ω)}

/-- Module data records exactly the current module. After an import of `roots` and any run
of declarations, switches, entries and state computations of registered persistent
extensions and raw writes to the other slots, the module data imports the roots; for every
name, the declarations it holds under that name are the last one the run added, or none
when the run added none, so no imported declaration is written again; their names increase
in `quickLt` order; and each registered persistent extension, in registration order, gives
its name and the entries the run passed to its `addEntry`, oldest first. -/
theorem mkModuleData_currentModule (hst : StrictTotal (quickLt : Name → Name → Bool))
    (hrt : rt.Wf) (hperf : KeepsCurrentModule rt performModifications)
    {fuel : Nat} {roots : List Name} {trustLevel : UInt32} {e0 : Environment Name ConstantInfo Ω}
    (h0 : importModules load performModifications fuel roots trustLevel rt = some (.ok e0))
    (ops : List (ApiOp Name ConstantInfo Ω E S))
    (hops : ∀ op ∈ ops, op.Allowed rt (¬ PersistentSlot rt ·)) {d : ModuleData Name ConstantInfo E}
    (hd : mkModuleData serializeModifications modListExtension rt (ops.foldl ApiOp.run e0) = .ok d) :
    d.imports = roots.toArray ∧
    (∀ n, d.constants.toList.filter (fun c => HasName.name c == n) =
      (lastAdded (ops.filterMap ApiOp.declOp) n).toList) ∧
    (d.constants.toList.map HasName.name).Pairwise (fun a b => quickLt a b = true) ∧
    d.entries.toList = rt.persistentEnvExtensions.toList.map
      fun X => (X.name, X.toArrayFn (ApiOp.addedEntries X ops)) := by
  obtain ⟨_, mods, haux, -⟩ := importModules_ok h0
  have hi := (AfterImport.of_importModules hrt hperf.constants hperf.imports hperf.persistent haux
    h0).run hst hrt (ApiOp.reflTransGen_foldl_run hops e0)
  have hc0 : e0.constants = (mkConstants mods).switch :=
    importModules_inv (fun env => env.constants = (mkConstants mods).switch)
      (fun env b env' hb h => (hperf.constants env b env' hb).trans h) haux h0
      (constants_mkImportedEnvironment _ _ _ _)
  have hsize : e0.extensions.size = rt.envExtensions.size :=
    importModules_inv (fun env => env.extensions.size = rt.envExtensions.size)
      (fun env b env' hb h => (hperf.extensionsSize env b env' hb).trans h) haux h0
      (by simp [mkImportedEnvironment])
  obtain ⟨hdi, hdc, hde, -⟩ := mkModuleData_ok hd
  obtain ⟨hsorted, hnames, hlookup⟩ := RBNode.foldl_insertKV hst
    (DeclOp.added (ops.filterMap ApiOp.declOp)) [] (List.Pairwise.nil) (fun _ h => nomatch h)
  have hmap := map₂_foldl_run hst ops e0 (by rw [hc0]; exact SMap.stage₁_switch _)
  rw [hc0, SMap.map₂_switch, (mkConstants mods).stage₁_empty (stage₁_mkConstants mods),
    RBNode.toList_leaf] at hmap
  rw [hmap] at hdc
  refine ⟨hdi.trans hi.imports, fun n => ?_, ?_, ?_⟩
  · rw [hdc, RBNode.filter_map_snd_eq_lookup hst hsorted hnames n, hlookup n, lastAdded]
    simp
  · set l := (DeclOp.added (ops.filterMap ApiOp.declOp)).foldl
      (fun l c => RBNode.insertKV quickLt (HasName.name c) c l) []
    have hkeys : l.map (HasName.name ∘ Prod.snd) = l.map Prod.fst := List.map_congr_left hnames
    rw [hdc, List.map_map, hkeys, List.pairwise_map]
    exact hsorted
  · rw [hde]
    refine List.map_congr_left fun X hX => ?_
    have hentries : (X.toEnvExtension.getState e0).entries = [] :=
      importModules_inv (fun env => (X.toEnvExtension.getState env).entries = [])
        (fun env b env' hb h => by dsimp only; rwa [hperf.persistent env b env' hb X hX]) haux h0
        (getState_mkImportedEnvironment hrt hX roots trustLevel mods).1
    rw [PersistentEnvExtension.getEntries, entries_foldl_run hrt hX ops hops e0
      (hsize ▸ (hrt.persistent_registered X hX).1), hentries, List.append_nil, List.reverse_reverse]

end CurrentModule

/-! ## The round trip on the sample store -/

section Sample

/-- From `0`, the sample store reaches modules `0` and `1`, and no other. -/
theorem reach_sampleStore {k : Nat} (h : Reach sampleStore [0] k) : k = 0 ∨ k = 1 := by
  obtain ⟨r, hr, hrk⟩ := h
  obtain rfl := List.mem_singleton.1 hr
  induction hrk with
  | refl => exact .inl rfl
  | tail _ hab ih =>
    obtain ⟨mod, hmod, hb⟩ := hab
    rcases ih with rfl | rfl <;> simp only [sampleStore, Except.ok.injEq] at hmod <;> subst hmod <;>
      simp_all

/-- The legacy modification list, of units, kept as a count in an extension slot. -/
instance : StateCast (List Unit) (PersistentEnvExtensionState Nat Nat) where
  toState l := { importedEntries := #[], importedState := Thunk.pure l.length }
  ofState s := List.replicate s.importedState.get ()
  ofState_toState _ := (List.eq_replicate_iff.2 ⟨rfl, fun _ _ => rfl⟩).symm

/-- A modification-list extension past the registered slots. -/
def sampleModList : EnvExtension (List Unit) := ⟨1, []⟩

theorem importModules_mkModuleData_sample :
    let e := (sampleExt.addEntry (mkImportedEnvironment sampleRuntime [0] 0 sampleMods) 3).add 7
    ∃ e', importModules (fun n => if n = 2 then .ok ⟨#[0], #[7], #[(0, #[3])], .empty⟩ else sampleStore n)
        (fun env _ => .ok env) (4 + 1) [2] 0 sampleRuntime = some (.ok e') ∧
      (∀ c, e'.find c = e.find c) ∧
      ∀ X ∈ sampleRuntime.persistentEnvExtensions.toList, X.toArrayFn = List.toArray →
        (∀ s a, X.addEntryFn true s a = X.addEntryFn false s a) → X.getState e' = X.getState e :=
  importModules_mkModuleData strictTotal_nat
    (Runtime.Reachable.setInitializing false
      (.registerPersistentEnvExtension sampleDescr (.init true))).wf
    ⟨fun env _ => ⟨env, rfl⟩, fun _ _ _ h => by cases h; rfl, fun _ _ _ h => by cases h; rfl,
      fun _ _ _ h _ _ => by cases h; rfl⟩
    (rfl : importModules sampleStore (fun env _ => .ok env) 4 [0] 0 sampleRuntime = some (.ok _))
    (.tail (.single (.addEntry _ _ 3 (List.mem_singleton_self _))) (.add _ 7))
    (rfl : mkModuleData (fun _ => .ok .empty) sampleModList sampleRuntime _ = .ok _)
    (fun h => by simpa using reach_sampleStore h) 0

theorem mkModuleData_currentModule_sample :
    let ops : List (ApiOp Nat Nat (PersistentEnvExtensionState Nat Nat) Nat Nat) :=
      [.add 7, .addEntry sampleExt 3, .add 6]
    let d : ModuleData Nat Nat Nat := ⟨#[0], #[6, 7], #[(0, #[3])], .empty⟩
    d.imports = [0].toArray ∧
    (∀ n, d.constants.toList.filter (fun c => HasName.name c == n) =
      (lastAdded (ops.filterMap ApiOp.declOp) n).toList) ∧
    (d.constants.toList.map HasName.name).Pairwise (fun a b => quickLt a b = true) ∧
    d.entries.toList = sampleRuntime.persistentEnvExtensions.toList.map
      fun X => (X.name, X.toArrayFn (ApiOp.addedEntries X ops)) :=
  mkModuleData_currentModule strictTotal_nat
    (Runtime.Reachable.setInitializing false
      (.registerPersistentEnvExtension sampleDescr (.init true))).wf
    ⟨fun _ _ _ h => by cases h; rfl, fun _ _ _ h => by cases h; rfl, fun _ _ _ h => by cases h; rfl,
      fun _ _ _ h _ _ => by cases h; rfl⟩
    (rfl : importModules sampleStore (fun env _ => .ok env) 4 [0] 0 sampleRuntime = some (.ok _))
    [.add 7, .addEntry sampleExt 3, .add 6] (fun op hop => by
      simp only [List.mem_cons, List.not_mem_nil, or_false] at hop
      rcases hop with rfl | rfl | rfl
      exacts [trivial, List.mem_singleton_self _, trivial])
    (rfl : mkModuleData (fun _ => .ok .empty) sampleModList sampleRuntime _ = .ok _)

end Sample

end Lean4Core
