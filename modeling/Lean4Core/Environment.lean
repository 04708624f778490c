import Lean4Core.Data.SMap

/-!
# Environments and extension states

`init/lean/environment.lean`, lines 13–205: the `Environment` record, its declaration
operations, raw extensions (`EnvExtension`) and persistent extensions
(`PersistentEnvExtension`).

The environment stores one opaque object per registered extension (`EnvExtensionState`,
a `NonScalar`); each extension reads and writes its slot through `unsafeCast`. Here the
slot type is a parameter `Ω`, and `StateCast σ Ω` is that cast seen from a state type `σ`:
at run time both directions are the identity on the object, which is what
`ofState_toState` says. The erased extensions of the registry and of the C++ API use the
identity cast `StateCast Ω Ω`.

The name type, with `Name.hash` (`Hashable`), `Name.quickLt` (`QuickLt`) and the
declaration type with `ConstantInfo.name` (`HasName`) are parameters: the environment does
not look into them.

The lemmas are one per operation: what each does to the extension array
(`getState_setState`, `modifyState_eq_setState`, ...), and what `addEntry`, `forceState`
and `getState` do to a persistent extension's state.
-/

namespace Lean4Core

/-- `ConstantInfo.name`: the one field of a declaration the environment reads. -/
class HasName (ConstantInfo : Type) (Name : outParam Type) where
  name : ConstantInfo → Name

/-- `unsafeCast` between an extension's state type `σ` and the opaque slot type `Ω`. -/
class StateCast (σ Ω : Type) where
  toState : σ → Ω
  ofState : Ω → σ
  ofState_toState : ∀ s, ofState (toState s) = s

/-- The erased extensions (`EnvExtension EnvExtensionState`) read their slot as it is. -/
instance (Ω : Type) : StateCast Ω Ω := ⟨id, id, fun _ => rfl⟩

attribute [simp] StateCast.ofState_toState

/-- Natural numbers as declarations named by themselves, to instantiate the model. -/
instance : HasName Nat Nat := ⟨id⟩

/-- Positions in the list of imported modules. -/
abbrev ModuleIdx := Nat

structure Environment (Name ConstantInfo Ω : Type) [DecidableEq Name] [Hashable Name]
    [QuickLt Name] where
  const2ModIdx : HashMap Name ModuleIdx
  constants : SMap Name ConstantInfo quickLt
  extensions : Array Ω
  trustLevel : UInt32 := 0
  quotInit : Bool := false
  imports : Array Name := #[]

namespace Environment

variable {Name ConstantInfo Ω : Type} [DecidableEq Name] [Hashable Name] [QuickLt Name]

def add [HasName ConstantInfo Name] (env : Environment Name ConstantInfo Ω)
    (cinfo : ConstantInfo) : Environment Name ConstantInfo Ω :=
  { env with constants := env.constants.insert (HasName.name cinfo) cinfo }

def find (env : Environment Name ConstantInfo Ω) (n : Name) : Option ConstantInfo :=
  env.constants.find n

def contains (env : Environment Name ConstantInfo Ω) (n : Name) : Bool :=
  (env.constants.find n).isSome

/-- Switch the environment to "shared" mode. -/
def switch (env : Environment Name ConstantInfo Ω) : Environment Name ConstantInfo Ω :=
  { env with constants := env.constants.switch }

def markQuotInit (env : Environment Name ConstantInfo Ω) : Environment Name ConstantInfo Ω :=
  { env with quotInit := true }

def isQuotInit (env : Environment Name ConstantInfo Ω) : Bool := env.quotInit

def getTrustLevel (env : Environment Name ConstantInfo Ω) : UInt32 := env.trustLevel

def getModuleIdxFor (env : Environment Name ConstantInfo Ω) (c : Name) : Option ModuleIdx :=
  env.const2ModIdx.find c

@[simp] theorem extensions_add [HasName ConstantInfo Name] (env : Environment Name ConstantInfo Ω)
    (c : ConstantInfo) : (env.add c).extensions = env.extensions := rfl

@[simp] theorem extensions_switch (env : Environment Name ConstantInfo Ω) :
    env.switch.extensions = env.extensions := rfl

@[simp] theorem extensions_markQuotInit (env : Environment Name ConstantInfo Ω) :
    env.markQuotInit.extensions = env.extensions := rfl

@[simp] theorem constants_markQuotInit (env : Environment Name ConstantInfo Ω) :
    env.markQuotInit.constants = env.constants := rfl

end Environment

/-- A raw environment extension: its slot and its initial state. -/
structure EnvExtension (σ : Type) where
  idx : Nat
  initial : σ

namespace EnvExtension

open StateCast

variable {Name ConstantInfo Ω σ : Type} [DecidableEq Name] [Hashable Name] [QuickLt Name]
  [StateCast σ Ω]

def setState (ext : EnvExtension σ) (env : Environment Name ConstantInfo Ω) (s : σ) :
    Environment Name ConstantInfo Ω :=
  { env with extensions := env.extensions.setD ext.idx (toState s) }

def getState [Inhabited Ω] (ext : EnvExtension σ) (env : Environment Name ConstantInfo Ω) : σ :=
  ofState (env.extensions.getD ext.idx default)

def modifyState (ext : EnvExtension σ) (env : Environment Name ConstantInfo Ω) (f : σ → σ) :
    Environment Name ConstantInfo Ω :=
  { env with extensions := env.extensions.modify ext.idx fun s => toState (f (ofState s)) }

@[simp] theorem size_setState (ext : EnvExtension σ) (env : Environment Name ConstantInfo Ω)
    (s : σ) : (ext.setState env s).extensions.size = env.extensions.size := by
  simp [setState]

@[simp] theorem size_modifyState (ext : EnvExtension σ) (env : Environment Name ConstantInfo Ω)
    (f : σ → σ) : (ext.modifyState env f).extensions.size = env.extensions.size := by
  simp [modifyState]

/-- A write of one slot changes that slot, when it exists, and no other. -/
theorem extensions_getD_setState (ext : EnvExtension σ) (env : Environment Name ConstantInfo Ω)
    (s : σ) (j : Nat) (d : Ω) :
    (ext.setState env s).extensions.getD j d =
      if ext.idx = j ∧ j < env.extensions.size then toState s else env.extensions.getD j d :=
  getD_setD _ _ _ _ _

/-- `modifyState` is `setState` of the function applied to the slot's state. -/
theorem modifyState_eq_setState [Inhabited Ω] (ext : EnvExtension σ)
    (env : Environment Name ConstantInfo Ω) (f : σ → σ) :
    ext.modifyState env f = ext.setState env (f (ext.getState env)) := by
  simp only [modifyState, setState, getState, modify_eq_setD _ _ _ default]

theorem getState_setState [Inhabited Ω] (ext : EnvExtension σ)
    (env : Environment Name ConstantInfo Ω) (s : σ) (h : ext.idx < env.extensions.size) :
    ext.getState (ext.setState env s) = s := by
  rw [getState, extensions_getD_setState]; simp [h]

/-- Another slot is not touched by a write. -/
theorem getState_setState_of_ne [Inhabited Ω] {τ : Type} [StateCast τ Ω] (ext : EnvExtension σ)
    (ext' : EnvExtension τ) (env : Environment Name ConstantInfo Ω) (s : τ)
    (h : ext'.idx ≠ ext.idx) :
    ext.getState (ext'.setState env s) = ext.getState env := by
  rw [getState, getState, extensions_getD_setState]; simp [h]

/-- A write of a slot that does not exist changes nothing. -/
theorem getState_modifyState_self [Inhabited Ω] (ext : EnvExtension σ)
    (env : Environment Name ConstantInfo Ω) (f : σ → σ) :
    ext.getState (ext.modifyState env f) =
      if ext.idx < env.extensions.size then f (ext.getState env) else ext.getState env := by
  rw [modifyState_eq_setState, getState, extensions_getD_setState]
  by_cases h : ext.idx < env.extensions.size <;> simp [h, getState]

theorem getState_modifyState_of_ne [Inhabited Ω] {τ : Type} [StateCast τ Ω] (ext : EnvExtension σ)
    (ext' : EnvExtension τ) (env : Environment Name ConstantInfo Ω) (f : τ → τ)
    (h : ext'.idx ≠ ext.idx) :
    ext.getState (ext'.modifyState env f) = ext.getState env := by
  rw [modifyState_eq_setState, getState_setState_of_ne _ _ _ _ h]

end EnvExtension

/-! ## Persistent extensions -/

structure PersistentEnvExtensionState (α σ : Type) where
  /-- Entries per imported module. -/
  importedEntries : Array (Array α)
  /-- State after processing all entries in `importedEntries`. -/
  importedState : Thunk σ
  /-- Entries defined in the current module, newest first. -/
  entries : List α := []
  /-- State after processing `importedEntries` and `entries`, when computed. -/
  state : Option σ := none

instance {α σ : Type} [Inhabited σ] : Inhabited (PersistentEnvExtensionState α σ) :=
  ⟨{ importedEntries := #[], importedState := Thunk.pure default }⟩

/-- An extension with support for storing and retrieving entries from a module file:
`α` is the entry type, `σ` the state. (The source's `someVal` field is read by no
function of the environment and is left out.) -/
structure PersistentEnvExtension (Name α σ : Type) extends EnvExtension (PersistentEnvExtensionState α σ) where
  name : Name
  addEntryFn : Bool → σ → α → σ
  toArrayFn : List α → Array α
  lazy : Bool

/-- The source's default extension, in slot `0`, as `Array.get` returns it out of range. -/
instance {Name α σ : Type} [Inhabited Name] [Inhabited σ] : Inhabited (PersistentEnvExtension Name α σ) :=
  ⟨{ idx := 0, initial := default, name := default, addEntryFn := fun _ s _ => s,
     toArrayFn := List.toArray, lazy := true }⟩

namespace PersistentEnvExtension

section StateOps

variable {Name α σ : Type}

/-- The state update of `addEntry`. -/
def addEntryAux (ext : PersistentEnvExtension Name α σ) (a : α)
    (s : PersistentEnvExtensionState α σ) : PersistentEnvExtensionState α σ :=
  let entries := a :: s.entries
  match s.state with
  | none => { s with entries := entries }
  | some d => { s with entries := entries, state := some (ext.addEntryFn false d a) }

def forceStateAux (ext : PersistentEnvExtension Name α σ) (s : PersistentEnvExtensionState α σ) :
    σ :=
  match s.state with
  | some d => d
  | none => s.entries.foldr (fun a s => ext.addEntryFn false s a) s.importedState.get

@[simp] theorem importedState_addEntryAux (ext : PersistentEnvExtension Name α σ) (a : α)
    (s : PersistentEnvExtensionState α σ) :
    (ext.addEntryAux a s).importedState = s.importedState := by
  unfold addEntryAux; split <;> rfl

@[simp] theorem importedEntries_addEntryAux (ext : PersistentEnvExtension Name α σ) (a : α)
    (s : PersistentEnvExtensionState α σ) :
    (ext.addEntryAux a s).importedEntries = s.importedEntries := by
  unfold addEntryAux; split <;> rfl

@[simp] theorem entries_addEntryAux (ext : PersistentEnvExtension Name α σ) (a : α)
    (s : PersistentEnvExtensionState α σ) :
    (ext.addEntryAux a s).entries = a :: s.entries := by
  unfold addEntryAux; split <;> rfl

/-! ### The cached state -/

/-- The cache invariant of a persistent extension state: a computed `state` is the fold of
the imported state with the current entries, oldest first. -/
def CacheOk (addEntryFn : Bool → σ → α → σ) (s : PersistentEnvExtensionState α σ) : Prop :=
  ∀ d, s.state = some d →
    d = List.foldl (fun acc a => addEntryFn false acc a) s.importedState.get s.entries.reverse

/-- Under the invariant, the state `forceStateAux` returns is that fold, whether it is read
from the cache or refolded from the newest-first entry list. -/
theorem forceStateAux_eq (ext : PersistentEnvExtension Name α σ)
    {s : PersistentEnvExtensionState α σ} (h : CacheOk ext.addEntryFn s) :
    ext.forceStateAux s =
      List.foldl (fun acc a => ext.addEntryFn false acc a) s.importedState.get s.entries.reverse := by
  unfold forceStateAux
  split
  · exact h _ ‹_›
  · rw [List.foldl_reverse]

/-- `addEntry` advances a computed state by one fold step, which keeps the invariant. -/
theorem CacheOk.addEntryAux (ext : PersistentEnvExtension Name α σ) (a : α)
    {s : PersistentEnvExtensionState α σ} (h : CacheOk ext.addEntryFn s) :
    CacheOk ext.addEntryFn (ext.addEntryAux a s) := by
  unfold PersistentEnvExtension.addEntryAux
  split
  · intro d hd; simp_all
  · rename_i d hs
    intro d' hd'
    simp only [Option.some.injEq] at hd'
    simp [← hd', h d hs]

theorem CacheOk.force (ext : PersistentEnvExtension Name α σ)
    {s : PersistentEnvExtensionState α σ} (h : CacheOk ext.addEntryFn s) :
    CacheOk ext.addEntryFn { s with state := some (ext.forceStateAux s) } := by
  rintro d ⟨⟩
  exact forceStateAux_eq ext h

end StateOps

variable {Name ConstantInfo Ω α σ : Type} [DecidableEq Name] [Hashable Name] [QuickLt Name]
  [StateCast (PersistentEnvExtensionState α σ) Ω] [Inhabited Ω]

def getEntries (ext : PersistentEnvExtension Name α σ) (env : Environment Name ConstantInfo Ω) :
    List α :=
  (ext.toEnvExtension.getState env).entries

def getModuleEntries (ext : PersistentEnvExtension Name α σ)
    (env : Environment Name ConstantInfo Ω) (m : ModuleIdx) : Array α :=
  (ext.toEnvExtension.getState env).importedEntries.getD m #[]

def addEntry (ext : PersistentEnvExtension Name α σ) (env : Environment Name ConstantInfo Ω)
    (a : α) : Environment Name ConstantInfo Ω :=
  ext.toEnvExtension.modifyState env (ext.addEntryAux a)

def forceState (ext : PersistentEnvExtension Name α σ) (env : Environment Name ConstantInfo Ω) :
    Environment Name ConstantInfo Ω :=
  ext.toEnvExtension.modifyState env fun s => { s with state := some (ext.forceStateAux s) }

def getState (ext : PersistentEnvExtension Name α σ) (env : Environment Name ConstantInfo Ω) : σ :=
  ext.forceStateAux (ext.toEnvExtension.getState env)

end PersistentEnvExtension

end Lean4Core
