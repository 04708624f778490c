import Lean4Core.Environment

/-!
# The extension registry

`init/lean/environment.lean`, lines 107–261: the global arrays of registered extensions
(`envExtensionsRef`, `persistentEnvExtensionsRef`), the two registration functions,
`mkEmptyEnvironment`, and the C++ accessors.

The IO actions are state-passing functions on a `Runtime`, which holds the two arrays and
the runtime's `IO.initializing` flag. A call returns an `EStateM.Result`, so a call that
throws also returns the state it leaves behind. Persistent extensions are registered at the
erased entry and state types `E` and `S` (the source's `EnvExtensionEntry` and
`EnvExtensionState`), since that is how the registry stores them; the user error strings are
the source's.

Main results:
- `Runtime.Wf`: slot `i` of the registry is extension `i`, persistent names and slots are
  distinct, and each persistent extension's slot holds its initial state.
- `Runtime.Reachable.wf`: every runtime reached by any history of registrations, with any
  flag, each call succeeding or failing, satisfies `Runtime.Wf`.
- `registerEnvExtension_error`, `registerPersistentEnvExtension_error`: a failing call
  leaves the runtime unchanged.
- `registry_invariant`: the two together, over every registration history.
- `Runtime.Registered.getState_of_initial`: a new environment holds every registered
  extension's initial state in its slot.
-/

namespace Lean4Core

open StateCast

instance {σ : Type} [Inhabited σ] : Inhabited (EnvExtension σ) := ⟨{ idx := 0, initial := default }⟩

/-- The process state that registration reads and writes. -/
structure Runtime (Name Ω E S : Type) where
  /-- `IO.initializing`: true while the module initializers run. -/
  initializing : Bool
  /-- `envExtensionsRef`. -/
  envExtensions : Array (EnvExtension Ω) := #[]
  /-- `persistentEnvExtensionsRef`. -/
  persistentEnvExtensions : Array (PersistentEnvExtension Name E S) := #[]

/-- The state a call leaves behind, whether it returned or threw. -/
def stateOf {ε σ α : Type} : EStateM.Result ε σ α → σ
  | .ok _ s => s
  | .error _ s => s

@[simp] theorem stateOf_ok {ε σ α : Type} (a : α) (s : σ) :
    stateOf (.ok a s : EStateM.Result ε σ α) = s := rfl

@[simp] theorem stateOf_error {ε σ α : Type} (e : ε) (s : σ) :
    stateOf (.error e s : EStateM.Result ε σ α) = s := rfl

structure PersistentEnvExtensionDescr (Name α σ : Type) where
  name : Name
  initState : σ
  addEntryFn : Bool → σ → α → σ
  toArrayFn : List α → Array α := fun as => as.toArray
  lazy : Bool := true

section Registration

variable {Name Ω E S : Type}

/-- Register a raw extension: its slot is the current number of registrations. -/
def registerEnvExtension {σ : Type} [StateCast σ Ω] (initState : σ) :
    EStateM String (Runtime Name Ω E S) (EnvExtension σ) := fun rt =>
  if rt.initializing then
    let idx := rt.envExtensions.size
    .ok { idx := idx, initial := initState }
      { rt with envExtensions := rt.envExtensions.push { idx := idx, initial := toState initState } }
  else
    .error "Failed to register environment, extensions can only be registered during initialization" rt

/-- The initial state of a persistent extension: nothing imported, nothing added, and the
state computed. -/
def PersistentEnvExtensionDescr.initialState (descr : PersistentEnvExtensionDescr Name E S) :
    PersistentEnvExtensionState E S :=
  { importedEntries := #[], importedState := Thunk.pure descr.initState, entries := [],
    state := some descr.initState }

variable [DecidableEq Name] [ToString Name] [StateCast (PersistentEnvExtensionState E S) Ω]

/-- Register a persistent extension under a fresh name. (`\x27` is the quote character of the
source's message.) -/
def registerPersistentEnvExtension (descr : PersistentEnvExtensionDescr Name E S) :
    EStateM String (Runtime Name Ω E S) (PersistentEnvExtension Name E S) := fun rt =>
  if rt.persistentEnvExtensions.any (fun ext => ext.name == descr.name) then
    .error ("invalid environment extension, \x27" ++ toString descr.name ++
      "\x27 has already been used") rt
  else
    match registerEnvExtension descr.initialState rt with
    | .ok ext rt' =>
      let pExt : PersistentEnvExtension Name E S :=
        { toEnvExtension := ext, name := descr.name, addEntryFn := descr.addEntryFn,
          toArrayFn := descr.toArrayFn, lazy := descr.lazy }
      .ok pExt { rt' with persistentEnvExtensions := rt'.persistentEnvExtensions.push pExt }
    | .error e rt' => .error e rt'

end Registration

/-! ## Registration, one call at a time -/

section RegistrationSpec

variable {Name Ω E S σ : Type} [StateCast σ Ω]

theorem registerEnvExtension_of_initializing {rt : Runtime Name Ω E S} (initState : σ)
    (h : rt.initializing = true) :
    registerEnvExtension initState rt =
      .ok { idx := rt.envExtensions.size, initial := initState }
        { rt with envExtensions :=
            rt.envExtensions.push ⟨rt.envExtensions.size, toState initState⟩ } := by
  simp [registerEnvExtension, h]

theorem registerEnvExtension_of_not_initializing {rt : Runtime Name Ω E S} (initState : σ)
    (h : rt.initializing = false) :
    registerEnvExtension (E := E) (S := S) initState rt =
      .error "Failed to register environment, extensions can only be registered during initialization" rt := by
  simp [registerEnvExtension, h]

/-- A failed raw registration leaves the runtime as it was. -/
theorem registerEnvExtension_error {rt rt' : Runtime Name Ω E S} {initState : σ} {e : String}
    (h : registerEnvExtension initState rt = .error e rt') : rt' = rt := by
  cases hi : rt.initializing
  · rw [registerEnvExtension_of_not_initializing _ hi] at h
    cases h; rfl
  · rw [registerEnvExtension_of_initializing _ hi] at h
    cases h

variable [DecidableEq Name] [ToString Name] [StateCast (PersistentEnvExtensionState E S) Ω]

/-- A failed persistent registration (a used name, or a failure inside
`registerEnvExtension`) leaves the runtime as it was. -/
theorem registerPersistentEnvExtension_error {rt rt' : Runtime Name Ω E S}
    {descr : PersistentEnvExtensionDescr Name E S} {e : String}
    (h : registerPersistentEnvExtension descr rt = .error e rt') : rt' = rt := by
  unfold registerPersistentEnvExtension at h
  split at h
  · cases h; rfl
  · split at h
    · cases h
    · rename_i heq
      cases h
      exact registerEnvExtension_error heq

end RegistrationSpec

/-! ## Environments of a runtime -/

section Creation

variable {Name ConstantInfo Ω E S : Type}

/-- The slots of a new environment: every registered extension's initial state. -/
def mkInitialExtensionStates (rt : Runtime Name Ω E S) : Array Ω :=
  rt.envExtensions.map (·.initial)

@[simp] theorem size_mkInitialExtensionStates (rt : Runtime Name Ω E S) :
    (mkInitialExtensionStates rt).size = rt.envExtensions.size := by
  simp [mkInitialExtensionStates]

variable [DecidableEq Name] [Hashable Name] [QuickLt Name]

def mkEmptyEnvironment (trustLevel : UInt32 := 0) :
    EStateM String (Runtime Name Ω E S) (Environment Name ConstantInfo Ω) := fun rt =>
  if rt.initializing then
    .error "Environment objects cannot be created during initialization" rt
  else
    .ok { const2ModIdx := ∅, constants := ∅, trustLevel := trustLevel,
          extensions := mkInitialExtensionStates rt } rt

/-! ### The C++ API -/

/-- `register_extension_core`: `unsafeIO` turns a thrown error into `none`; the
registration itself stays. -/
def registerCPPExtension (initial : Ω) (rt : Runtime Name Ω E S) : Option Nat × Runtime Name Ω E S :=
  match registerEnvExtension initial rt with
  | .ok ext rt' => (some ext.idx, rt')
  | .error _ rt' => (none, rt')

/-- `set_extension_core`: the registry's extension at `idx`; out of range, `Array.get`
returns the default extension, of slot 0. -/
def setCPPExtensionState [Inhabited Ω] (rt : Runtime Name Ω E S)
    (env : Environment Name ConstantInfo Ω) (idx : Nat) (s : Ω) :
    Option (Environment Name ConstantInfo Ω) :=
  some ((rt.envExtensions.getD idx default).setState env s)

def getCPPExtensionState [Inhabited Ω] (rt : Runtime Name Ω E S)
    (env : Environment Name ConstantInfo Ω) (idx : Nat) : Option Ω :=
  some ((rt.envExtensions.getD idx default).getState env)

end Creation

/-! ## The registry invariant -/

namespace Runtime

variable {Name Ω E S : Type}

/-- A typed extension is registered in `rt` when its slot exists and holds the erased
extension that registration pushed. -/
def Registered {σ : Type} [StateCast σ Ω] (rt : Runtime Name Ω E S) (ext : EnvExtension σ) :
    Prop :=
  ∃ h : ext.idx < rt.envExtensions.size,
    rt.envExtensions[ext.idx] = { idx := ext.idx, initial := toState ext.initial }

section Registered

variable {rt rt' : Runtime Name Ω E S}

theorem Registered.of_push {σ : Type} [StateCast σ Ω] {ext : EnvExtension σ} {x : EnvExtension Ω}
    (h : rt.Registered ext) (hx : rt'.envExtensions = rt.envExtensions.push x) :
    rt'.Registered ext := by
  obtain ⟨hlt, heq⟩ := h
  refine ⟨by simp only [hx, Array.size_push]; omega, ?_⟩
  simp only [hx, Array.getElem_push, hlt, dif_pos, heq]

/-- What `registerEnvExtension` returns is registered. -/
theorem registered_of_registerEnvExtension {σ : Type} [StateCast σ Ω] {initState : σ}
    {ext : EnvExtension σ} (h : Lean4Core.registerEnvExtension initState rt = .ok ext rt') :
    rt'.Registered ext := by
  cases hi : rt.initializing
  · rw [registerEnvExtension_of_not_initializing _ hi] at h; cases h
  · rw [registerEnvExtension_of_initializing _ hi] at h
    cases h
    exact ⟨by simp, by simp⟩

/-- The C++ accessors find a registered erased extension at its index. -/
theorem Registered.getD_idx [Inhabited Ω] {ext : EnvExtension Ω} (h : rt.Registered ext) :
    rt.envExtensions.getD ext.idx default = ext := by
  obtain ⟨hlt, heq⟩ := h
  simp [Array.getD, hlt, heq]
  rfl

end Registered

variable [StateCast (PersistentEnvExtensionState E S) Ω]

/-- The registry invariant: slot `i` holds extension `i`; persistent extensions have
distinct names and distinct slots, and each is registered with an initial state that has
nothing imported or added and its state computed. -/
structure Wf (rt : Runtime Name Ω E S) : Prop where
  idx_eq : ∀ i (h : i < rt.envExtensions.size), rt.envExtensions[i].idx = i
  names_nodup : (rt.persistentEnvExtensions.toList.map (·.name)).Nodup
  persistent_registered : ∀ p ∈ rt.persistentEnvExtensions.toList, rt.Registered p.toEnvExtension
  idx_nodup : (rt.persistentEnvExtensions.toList.map (·.idx)).Nodup
  initial_fresh : ∀ p ∈ rt.persistentEnvExtensions.toList, ∃ s : S,
    p.initial = { importedEntries := #[], importedState := Thunk.pure s, entries := [],
                  state := some s }

/-- Two registered persistent extensions in one slot are one extension. -/
theorem Wf.eq_of_idx_eq {rt : Runtime Name Ω E S} (hw : rt.Wf) {p q : PersistentEnvExtension Name E S}
    (hp : p ∈ rt.persistentEnvExtensions.toList) (hq : q ∈ rt.persistentEnvExtensions.toList)
    (h : p.idx = q.idx) : p = q :=
  List.inj_on_of_nodup_map hw.idx_nodup hp hq h

/-! ### Preservation, one call at a time -/

section Preservation

variable {rt : Runtime Name Ω E S}

theorem Wf.push_envExtension (hw : rt.Wf) (x : Ω) :
    Wf { rt with envExtensions := rt.envExtensions.push ⟨rt.envExtensions.size, x⟩ } where
  idx_eq i h := by
    simp only [Array.getElem_push]
    split
    · exact hw.idx_eq i _
    · simp only [Array.size_push] at h ⊢; omega
  names_nodup := hw.names_nodup
  persistent_registered p hp := (hw.persistent_registered p hp).of_push rfl
  idx_nodup := hw.idx_nodup
  initial_fresh := hw.initial_fresh

/-- A persistent extension in a fresh slot under a fresh name keeps the invariant. -/
theorem Wf.push_persistent (hw : rt.Wf) (p : PersistentEnvExtension Name E S)
    (hidx : p.idx = rt.envExtensions.size)
    (hname : ∀ q ∈ rt.persistentEnvExtensions.toList, q.name ≠ p.name)
    (hinit : ∃ s : S, p.initial = { importedEntries := #[], importedState := Thunk.pure s,
                                    entries := [], state := some s }) :
    Wf { rt with envExtensions := rt.envExtensions.push ⟨p.idx, toState p.initial⟩,
                 persistentEnvExtensions := rt.persistentEnvExtensions.push p } where
  idx_eq := (hidx ▸ hw.push_envExtension (toState p.initial)).idx_eq
  names_nodup := by
    simp only [Array.push_toList, List.map_append, List.map_cons, List.map_nil,
      List.nodup_append, List.nodup_singleton, List.disjoint_singleton, List.mem_map]
    exact ⟨hw.names_nodup, trivial, fun ⟨q, hq, he⟩ => hname q hq he⟩
  persistent_registered q hq := by
    simp only [Array.push_toList, List.mem_append, List.mem_singleton] at hq
    rcases hq with hq | rfl
    · exact (hw.persistent_registered q hq).of_push rfl
    · exact ⟨by simp [hidx], by simp [hidx]⟩
  idx_nodup := by
    simp only [Array.push_toList, List.map_append, List.map_cons, List.map_nil,
      List.nodup_append, List.nodup_singleton, List.disjoint_singleton, List.mem_map]
    refine ⟨hw.idx_nodup, trivial, fun ⟨q, hq, he⟩ => ?_⟩
    have := (hw.persistent_registered q hq).1
    omega
  initial_fresh q hq := by
    simp only [Array.push_toList, List.mem_append, List.mem_singleton] at hq
    rcases hq with hq | rfl
    · exact hw.initial_fresh q hq
    · exact hinit

theorem Wf.registerEnvExtension {σ : Type} [StateCast σ Ω] (hw : rt.Wf) (initState : σ) :
    Wf (stateOf (Lean4Core.registerEnvExtension initState rt)) := by
  cases hi : rt.initializing
  · rw [registerEnvExtension_of_not_initializing _ hi]; exact hw
  · rw [registerEnvExtension_of_initializing _ hi]; exact hw.push_envExtension _

end Preservation

variable [DecidableEq Name] [ToString Name]

/-- Every runtime that a history of registrations reaches from process start. The flag may
change between calls in any way. -/
inductive Reachable : Runtime Name Ω E S → Prop
  | init (b : Bool) : Reachable { initializing := b }
  | setInitializing {rt} (b : Bool) : Reachable rt → Reachable { rt with initializing := b }
  | registerEnvExtension {rt} {σ : Type} [StateCast σ Ω] (initState : σ) :
      Reachable rt → Reachable (stateOf (Lean4Core.registerEnvExtension initState rt))
  | registerPersistentEnvExtension {rt} (descr : PersistentEnvExtensionDescr Name E S) :
      Reachable rt → Reachable (stateOf (Lean4Core.registerPersistentEnvExtension descr rt))

section Histories

variable {rt : Runtime Name Ω E S}

theorem Wf.registerPersistentEnvExtension (hw : rt.Wf) (descr : PersistentEnvExtensionDescr Name E S) :
    Wf (stateOf (Lean4Core.registerPersistentEnvExtension descr rt)) := by
  unfold Lean4Core.registerPersistentEnvExtension
  split
  · exact hw
  · rename_i hfresh
    cases hi : rt.initializing
    · simp only [registerEnvExtension_of_not_initializing _ hi, stateOf_error]; exact hw
    · simp only [registerEnvExtension_of_initializing _ hi, stateOf_ok]
      refine hw.push_persistent
        { toEnvExtension := ⟨_, descr.initialState⟩, name := descr.name,
          addEntryFn := descr.addEntryFn, toArrayFn := descr.toArrayFn, lazy := descr.lazy }
        rfl (fun q hq he => hfresh ?_) ⟨descr.initState, rfl⟩
      rw [← Array.any_toList, List.any_eq_true]
      exact ⟨q, hq, by simp [he]⟩

/-- The registry invariant holds after every history of registrations. -/
theorem Reachable.wf (h : rt.Reachable) : rt.Wf := by
  induction h with
  | init b => exact ⟨fun i h => absurd h (by simp), List.nodup_nil, nofun, List.nodup_nil, nofun⟩
  | setInitializing b _ ih =>
    exact ⟨ih.idx_eq, ih.names_nodup, ih.persistent_registered, ih.idx_nodup, ih.initial_fresh⟩
  | registerEnvExtension initState _ ih => exact ih.registerEnvExtension initState
  | registerPersistentEnvExtension descr _ ih => exact ih.registerPersistentEnvExtension descr

end Histories

end Runtime

/-! ## New environments -/

section NewEnvironment

variable {Name ConstantInfo Ω E S : Type} [DecidableEq Name] [Hashable Name] [QuickLt Name]
  {rt : Runtime Name Ω E S}

theorem mkEmptyEnvironment_of_not_initializing (trustLevel : UInt32)
    (h : rt.initializing = false) :
    (mkEmptyEnvironment trustLevel rt : EStateM.Result String _ (Environment Name ConstantInfo Ω)) =
      .ok { const2ModIdx := ∅, constants := ∅, trustLevel := trustLevel,
            extensions := mkInitialExtensionStates rt } rt := by
  simp [mkEmptyEnvironment, h]

theorem mkEmptyEnvironment_ok {trustLevel : UInt32} {env : Environment Name ConstantInfo Ω}
    (h : mkEmptyEnvironment trustLevel rt = .ok env rt) :
    env.extensions = mkInitialExtensionStates rt := by
  unfold mkEmptyEnvironment at h
  split at h
  · cases h
  · cases h; rfl

/-- A registered extension reads its initial state from fresh slots. -/
theorem Runtime.Registered.getState_of_initial {σ : Type} [StateCast σ Ω] [Inhabited Ω]
    {ext : EnvExtension σ} (h : rt.Registered ext) {env : Environment Name ConstantInfo Ω}
    (he : env.extensions = mkInitialExtensionStates rt) : ext.getState env = ext.initial := by
  obtain ⟨hlt, heq⟩ := h
  simp [EnvExtension.getState, he, mkInitialExtensionStates, Array.getD, hlt, heq]

end NewEnvironment

/-! ## The registry over every history -/

section Invariant

variable {Name Ω E S : Type} [StateCast (PersistentEnvExtensionState E S) Ω] [DecidableEq Name]
  [ToString Name]

theorem registry_invariant :
    (∀ rt : Runtime Name Ω E S, rt.Reachable → rt.Wf) ∧
    (∀ {σ : Type} [StateCast σ Ω] (initState : σ) (rt rt' : Runtime Name Ω E S) (e : String),
      registerEnvExtension initState rt = .error e rt' → rt' = rt) ∧
    (∀ (descr : PersistentEnvExtensionDescr Name E S) (rt rt' : Runtime Name Ω E S) (e : String),
      registerPersistentEnvExtension descr rt = .error e rt' → rt' = rt) :=
  ⟨fun _ h => h.wf, fun _ _ _ _ h => registerEnvExtension_error h,
    fun _ _ _ _ h => registerPersistentEnvExtension_error h⟩

end Invariant

/-- A persistent extension named `0` that counts its entries. -/
def regDescr : PersistentEnvExtensionDescr Nat Nat Nat := ⟨0, 0, fun _ s _ => s + 1, fun as => as.toArray, true⟩

/-- A runtime reached by registering `regDescr` during initialization: it satisfies the
invariant, and a registration after initialization and a second registration of the name `0`
both fail and leave it as it is. -/
theorem registry_invariant_regDescr :
    let rt : Runtime Nat (PersistentEnvExtensionState Nat Nat) Nat Nat :=
      stateOf (registerPersistentEnvExtension regDescr { initializing := true })
    rt.Reachable ∧ rt.Wf ∧
    (∃ e rt', registerEnvExtension regDescr.initialState { rt with initializing := false } = .error e rt' ∧
      rt' = { rt with initializing := false }) ∧
    ∃ e rt', registerPersistentEnvExtension regDescr rt = .error e rt' ∧ rt' = rt :=
  have hr : (stateOf (registerPersistentEnvExtension regDescr { initializing := true }) :
      Runtime Nat (PersistentEnvExtensionState Nat Nat) Nat Nat).Reachable :=
    .registerPersistentEnvExtension regDescr (.init true)
  have hused : registerPersistentEnvExtension regDescr
      (stateOf (registerPersistentEnvExtension regDescr { initializing := true }) :
        Runtime Nat (PersistentEnvExtensionState Nat Nat) Nat Nat) =
      .error "invalid environment extension, \x270\x27 has already been used"
        (stateOf (registerPersistentEnvExtension regDescr { initializing := true })) := by
    simp [registerPersistentEnvExtension, registerEnvExtension, regDescr, Array.any_eq_true]; rfl
  ⟨hr, registry_invariant.1 _ hr, ⟨_, _, rfl, registry_invariant.2.1 regDescr.initialState _ _ _ rfl⟩,
    ⟨_, _, hused, registry_invariant.2.2 _ _ _ _ hused⟩⟩

end Lean4Core
