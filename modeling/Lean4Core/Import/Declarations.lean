import Lean4Core.Import.Load

/-!
# The two declaration indexes after an import

`importModules` builds two indexes from the modules it read, in two separate loops over the
modules and their declarations: `const2ModIdx` maps a name to the position of its module
(`HashMap.insert`), and `constants` maps it to the declaration (`SMap.insert` in stage 1,
then `switch`). Both loops are last-write-wins folds over the same sequence of
declarations, so both answer from the last module that declares a name
(`lastDeclaring`): its position and its last declaration of the name.

The stage-1 staged map needs no assumption on `Name.quickLt`, so neither do these results.

Main results:
- `find_mkConst2ModIdx`, `find_mkConstants`: both indexes through `lastDeclaring`.
- `importModules_moduleIdx`: after a successful import, `getModuleIdxFor` names the last
  module that declares a name, `find` returns that module's last declaration of it, and
  the two indexes know the same names.
-/

namespace Lean4Core

variable {Name ConstantInfo E : Type} [DecidableEq Name] [HasName ConstantInfo Name]

/-! ## Last-write-wins folds -/

/-- A fold of insertions into a map that is last-write-wins while an invariant `P` holds
answers from the last inserted element with the key, or else from the map it started
from. -/
theorem find_foldl_insert {M K V A : Type} [DecidableEq K] (ins : M → K → V → M)
    (fnd : M → K → Option V) (P : M → Prop) (hP : ∀ m k v, P m → P (ins m k v))
    (hlaw : ∀ m k k' v, P m → fnd (ins m k v) k' = if k' = k then some v else fnd m k')
    (key : A → K) (val : A → V) (c : K) :
    ∀ (l : List A) (m : M), P m →
      P (l.foldl (fun m a => ins m (key a) (val a)) m) ∧
      fnd (l.foldl (fun m a => ins m (key a) (val a)) m) c =
        ((l.reverse.find? fun a => key a == c).map val).or (fnd m c)
  | [], _, hm => ⟨hm, rfl⟩
  | a :: l, m, hm => by
    obtain ⟨hP', hfind⟩ := find_foldl_insert ins fnd P hP hlaw key val c l _ (hP m (key a) (val a) hm)
    refine ⟨hP', ?_⟩
    rw [List.foldl_cons, hfind, hlaw _ _ _ _ hm, List.reverse_cons, List.find?_append]
    by_cases hc : key a = c
    · cases h : l.reverse.find? fun a => key a == c <;> simp [hc]
    · cases h : l.reverse.find? fun a => key a == c <;> simp [hc, Ne.symm hc]

/-! ## The last module that declares a name -/

/-- The last declaration named `c` in `mod`. -/
def lastDecl (mod : ModuleData Name ConstantInfo E) (c : Name) : Option ConstantInfo :=
  mod.constants.toList.reverse.find? fun ci => HasName.name ci == c

/-- The position, counted from `i`, of the last module of the list that declares `c`,
with that module's last declaration named `c`. -/
def lastDeclaring : List (ModuleData Name ConstantInfo E) → Nat → Name → Option (Nat × ConstantInfo)
  | [], _, _ => none
  | mod :: mods, i, c => (lastDeclaring mods (i + 1) c).or ((lastDecl mod c).map (i, ·))

theorem lastDecl_isSome_iff (mod : ModuleData Name ConstantInfo E) (c : Name) :
    (lastDecl mod c).isSome ↔ ∃ ci ∈ mod.constants.toList, HasName.name ci = c := by
  simp [lastDecl, List.find?_isSome]

theorem lastDecl_eq_none_iff (mod : ModuleData Name ConstantInfo E) (c : Name) :
    lastDecl mod c = none ↔ ∀ ci ∈ mod.constants.toList, HasName.name ci ≠ c := by
  simp [lastDecl]

theorem lastDeclaring_succ (c : Name) :
    ∀ (mods : List (ModuleData Name ConstantInfo E)) (i : Nat),
      lastDeclaring mods (i + 1) c = (lastDeclaring mods i c).map fun p => (p.1 + 1, p.2)
  | [], _ => rfl
  | mod :: mods, i => by
    simp only [lastDeclaring, lastDeclaring_succ c mods (i + 1)]
    cases lastDeclaring mods (i + 1) c <;> cases lastDecl mod c <;> rfl

theorem lastDeclaring_eq_none_iff (c : Name) :
    ∀ mods : List (ModuleData Name ConstantInfo E),
      lastDeclaring mods 0 c = none ↔ ∀ j (hj : j < mods.length), lastDecl mods[j] c = none
  | [] => by simp [lastDeclaring]
  | mod :: mods => by
    rw [lastDeclaring, lastDeclaring_succ, Option.or_eq_none, Option.map_eq_none',
      Option.map_eq_none', lastDeclaring_eq_none_iff c mods]
    constructor
    · rintro ⟨h, h0⟩ (_ | j) hj
      · exact h0
      · exact h j (by simpa using hj)
    · intro h
      exact ⟨fun j hj => h (j + 1) (by simpa using hj), h 0 (by simp)⟩

/-- The last module that declares `c` is at position `i` with last declaration `ci`
exactly when module `i` declares `c`, last as `ci`, and no later module declares it. -/
theorem lastDeclaring_eq_some_iff (c : Name) (ci : ConstantInfo) :
    ∀ (mods : List (ModuleData Name ConstantInfo E)) (i : Nat),
      lastDeclaring mods 0 c = some (i, ci) ↔
        ∃ hi : i < mods.length, lastDecl mods[i] c = some ci ∧
          ∀ j (hj : j < mods.length), i < j → lastDecl mods[j] c = none
  | [], i => by simp [lastDeclaring]
  | mod :: mods, i => by
    rw [lastDeclaring, lastDeclaring_succ]
    cases hrest : lastDeclaring mods 0 c with
    | none =>
      have hnone := (lastDeclaring_eq_none_iff c mods).1 hrest
      simp only [Option.map_none', Option.none_or]
      constructor
      · intro h
        obtain ⟨a, ha, he⟩ := Option.map_eq_some'.1 h
        cases he
        refine ⟨by simp, by simpa using ha, fun j hj hij => ?_⟩
        obtain ⟨j, rfl⟩ : ∃ k, j = k + 1 := ⟨j - 1, by omega⟩
        simpa using hnone j (by simpa using hj)
      · rintro ⟨hi, hci, -⟩
        cases i with
        | zero => simp_all
        | succ i => simp [hnone i (by simpa using hi)] at hci
    | some p =>
      obtain ⟨i', ci'⟩ := p
      obtain ⟨hi', hci', hlater⟩ := (lastDeclaring_eq_some_iff c ci' mods i').1 hrest
      simp only [Option.map_some', Option.or_some, Option.some.injEq, Prod.mk.injEq]
      constructor
      · rintro ⟨rfl, rfl⟩
        exact ⟨by simpa using hi', by simpa using hci', fun j hj hij => by
          obtain ⟨j, rfl⟩ : ∃ k, j = k + 1 := ⟨j - 1, by omega⟩
          simpa using hlater j (by simpa using hj) (by omega)⟩
      · rintro ⟨hi, hci, hlater'⟩
        cases i with
        | zero =>
          have := hlater' (i' + 1) (by simpa using hi') (by omega)
          simp [hci'] at this
        | succ i =>
          have := (lastDeclaring_eq_some_iff c ci mods i).2
            ⟨by simpa using hi, by simpa using hci, fun j hj hij => by
              simpa using hlater' (j + 1) (by simpa using hj) (by omega)⟩
          obtain ⟨rfl, rfl⟩ := Prod.mk.inj (Option.some.inj (hrest.symm.trans this))
          exact ⟨rfl, rfl⟩

/-- `lastDeclaring_eq_some_iff` for the modules of an array, with "no later module declares
`c`" spelled out. -/
theorem lastDeclaring_toList_eq_some_iff (c : Name) (ci : ConstantInfo)
    (mods : Array (ModuleData Name ConstantInfo E)) (i : Nat) :
    lastDeclaring mods.toList 0 c = some (i, ci) ↔
      ∃ hi : i < mods.size, lastDecl mods[i] c = some ci ∧
        ∀ j (hj : j < mods.size), i < j → ∀ ci ∈ mods[j].constants.toList, HasName.name ci ≠ c := by
  simp only [lastDeclaring_eq_some_iff, ← lastDecl_eq_none_iff]
  rfl

/-- The last module of a list ending in `d` that declares a name is `d`, if `d` declares
it. -/
theorem lastDeclaring_append_singleton (c : Name) (d : ModuleData Name ConstantInfo E) :
    ∀ (mods : List (ModuleData Name ConstantInfo E)) (i : Nat),
      (lastDeclaring (mods ++ [d]) i c).map Prod.snd =
        (lastDecl d c).or ((lastDeclaring mods i c).map Prod.snd)
  | [], i => by cases h : lastDecl d c <;> simp [lastDeclaring, h]
  | mod :: mods, i => by
    have ih := lastDeclaring_append_singleton c d mods (i + 1)
    simp only [List.cons_append, lastDeclaring]
    cases h₁ : lastDeclaring (mods ++ [d]) (i + 1) c <;> cases h₂ : lastDeclaring mods (i + 1) c <;>
      cases h₃ : lastDecl d c <;> simp_all

/-! ## The two indexes -/

section Indexes

variable [Hashable Name]

/-- The module-index map answers with the position of the last module declaring a name. -/
theorem find_mkConst2ModIdx (mods : Array (ModuleData Name ConstantInfo E)) (c : Name) :
    (mkConst2ModIdx mods).find c = (lastDeclaring mods.toList 0 c).map Prod.fst := by
  suffices ∀ (l : List (ModuleData Name ConstantInfo E)) (i : Nat) (m : HashMap Name ModuleIdx),
      (iterateAux (fun modIdx mod m =>
          iterate mod.constants m fun _ cinfo m => m.insert (HasName.name cinfo) modIdx) i l m).find c =
        ((lastDeclaring l i c).map Prod.fst).or (m.find c) by
    simpa using this mods.toList 0 ∅
  intro l
  induction l with
  | nil => intro _ _; rfl
  | cons mod l ih =>
    intro i m
    rw [iterateAux_cons, ih, iterate, iterateAux_eq_foldl,
      (find_foldl_insert HashMap.insert HashMap.find (fun _ => True) (fun _ _ _ _ => trivial)
        (fun m k k' v _ => HashMap.find_insert m k k' v) HasName.name (fun _ => i) c
        mod.constants.toList m trivial).2, lastDeclaring]
    cases lastDeclaring l (i + 1) c <;> cases h : mod.constants.toList.reverse.find? _ <;>
      simp [lastDecl, h]

variable [QuickLt Name]

/-- The declaration map, after the switch, answers with the last declaration of the last
module declaring a name. -/
theorem find_mkConstants (mods : Array (ModuleData Name ConstantInfo E)) (c : Name) :
    (mkConstants mods).switch.find c = (lastDeclaring mods.toList 0 c).map Prod.snd := by
  suffices ∀ (l : List (ModuleData Name ConstantInfo E)) (i : Nat)
      (cs : SMap Name ConstantInfo quickLt), cs.stage₁ = true →
      (iterateAux (fun _ mod cs =>
          iterate mod.constants cs fun _ cinfo cs => cs.insert (HasName.name cinfo) cinfo) i l cs).find c =
        ((lastDeclaring l i c).map Prod.snd).or (cs.find c) by
    simpa using this mods.toList 0 ∅ rfl
  intro l
  induction l with
  | nil => intro _ _ _; rfl
  | cons mod l ih =>
    intro i cs hcs
    have hfold := find_foldl_insert SMap.insert SMap.find (fun cs => cs.stage₁ = true)
      (fun m k v h => by simpa using h) (fun m k k' v h => SMap.find_insert_of_stage₁ h k k' v)
      HasName.name (fun ci => ci) c mod.constants.toList cs hcs
    rw [iterateAux_cons, ih _ _ (by simpa [iterate, iterateAux_eq_foldl] using hfold.1), iterate,
      iterateAux_eq_foldl, hfold.2, lastDeclaring]
    cases lastDeclaring l (i + 1) c <;> cases h : mod.constants.toList.reverse.find? _ <;>
      simp [lastDecl, h]

end Indexes

/-! ## After `importModules` -/

section ImportModules

variable {Ω S ε : Type} [Hashable Name] [QuickLt Name] [StateCast (PersistentEnvExtensionState E S) Ω]

/-- Module-index map and declaration index agree after an import: `getModuleIdxFor` gives
position `i` exactly when module `i` declares the name and no later module does, `find`
then gives module `i`'s last declaration of it, and the two indexes know the same names. -/
theorem importModules_moduleIdx {load : Name → Except ε (ModuleData Name ConstantInfo E)}
    {performModifications : Environment Name ConstantInfo Ω → ByteArray →
      Except ε (Environment Name ConstantInfo Ω)}
    {fuel : Nat} {roots : List Name} {trustLevel : UInt32} {rt : Runtime Name Ω E S}
    {visited : NameSet Name} {mods : Array (ModuleData Name ConstantInfo E)}
    {env : Environment Name ConstantInfo Ω}
    (hperf : KeepsDeclarations performModifications)
    (haux : importModulesAux load fuel roots (∅, #[]) = some (.ok (visited, mods)))
    (h : importModules load performModifications fuel roots trustLevel rt = some (.ok env))
    (c : Name) :
    (∀ i, env.getModuleIdxFor c = some i → i < mods.size) ∧
    (∀ i (hi : i < mods.size), env.getModuleIdxFor c = some i ↔
      (∃ ci ∈ mods[i].constants.toList, HasName.name ci = c) ∧
        ∀ j (hj : j < mods.size), i < j → ∀ ci ∈ mods[j].constants.toList, HasName.name ci ≠ c) ∧
    (∀ i (hi : i < mods.size), env.getModuleIdxFor c = some i →
      env.find c = mods[i].constants.toList.reverse.find? fun ci => HasName.name ci == c) ∧
    (env.getModuleIdxFor c = none ↔ env.find c = none) := by
  obtain ⟨hidx, hfind⟩ : env.getModuleIdxFor c = (lastDeclaring mods.toList 0 c).map Prod.fst ∧
      env.find c = (lastDeclaring mods.toList 0 c).map Prod.snd := by
    refine importModules_inv (fun env => env.getModuleIdxFor c = _ ∧ env.find c = _)
      (fun env b env' hb h => ?_) haux h ⟨?_, ?_⟩
    · exact ⟨(hperf env b env' hb c).2.trans h.1, (hperf env b env' hb c).1.trans h.2⟩
    · simp [Environment.getModuleIdxFor, find_mkConst2ModIdx]
    · simp only [Environment.find, constants_mkImportedEnvironment]
      exact find_mkConstants mods c
  have hsome : ∀ i, env.getModuleIdxFor c = some i ↔
      ∃ ci, lastDeclaring mods.toList 0 c = some (i, ci) := fun i => by
    simp [hidx]
  refine ⟨fun i hi => ?_, fun i hi => ?_, fun i hi hi' => ?_, ?_⟩
  · obtain ⟨ci, hp⟩ := (hsome i).1 hi
    exact ((lastDeclaring_toList_eq_some_iff c ci mods i).1 hp).1
  · rw [hsome, ← lastDecl_isSome_iff, Option.isSome_iff_exists]
    simp only [lastDeclaring_toList_eq_some_iff]
    constructor
    · rintro ⟨ci, _, hci, hlater⟩
      exact ⟨⟨ci, hci⟩, hlater⟩
    · rintro ⟨⟨ci, hci⟩, hlater⟩
      exact ⟨ci, hi, hci, hlater⟩
  · obtain ⟨ci, hp⟩ := (hsome i).1 hi'
    rw [hfind, hp]
    exact ((lastDeclaring_toList_eq_some_iff c ci mods i).1 hp).2.1.symm
  · rw [hidx, hfind]
    simp

theorem importModules_moduleIdx_sample :
    let env : Environment Nat Nat (PersistentEnvExtensionState Nat Nat) :=
      mkImportedEnvironment sampleRuntime [0] 0 sampleMods
    (∀ i, env.getModuleIdxFor 5 = some i → i < sampleMods.size) ∧
    (∀ i (hi : i < sampleMods.size), env.getModuleIdxFor 5 = some i ↔
      (∃ ci ∈ sampleMods[i].constants.toList, HasName.name ci = 5) ∧
        ∀ j (hj : j < sampleMods.size), i < j →
          ∀ ci ∈ sampleMods[j].constants.toList, HasName.name ci ≠ 5) ∧
    (∀ i (hi : i < sampleMods.size), env.getModuleIdxFor 5 = some i →
      env.find 5 = sampleMods[i].constants.toList.reverse.find? fun ci => HasName.name ci == 5) ∧
    (env.getModuleIdxFor 5 = none ↔ env.find 5 = none) :=
  importModules_moduleIdx (fun _ _ _ h _ => by cases h; exact ⟨rfl, rfl⟩)
    (rfl : importModulesAux sampleStore 4 [0] (∅, #[]) =
      some (.ok (((∅ : NameSet Nat).insert 0).insert 1, sampleMods)))
    (rfl : importModules sampleStore (fun env _ => .ok env) 4 [0] 0 sampleRuntime = some (.ok _)) 5

end ImportModules

end Lean4Core
