import Lean4Core.Basic

/-!
# Key-value maps (`kvmap`)

`init/lean/kvmap.lean` (`unnamed/part_001`): the map of typed option values that the C++
side manipulates, kept as an association list because `rbmap` is written in Lean.
`find_core` returns the value of the first entry with the key; `insert_core` replaces the
value of the first entry with the key in place, or appends a new entry at the end. The
typed getters and setters read and write one constructor of `data_value` each.

Main results:
- `findCore_insertCore`: the list is a finite map: an inserted value is read back, and
  every other key keeps its value;
- `nodup_keys_insertCore`: insertion keeps the keys distinct;
- `getAs_setAs`, `getAs_insert_of_ne`: a typed getter reads back what its setter wrote, and
  an insertion leaves every getter of another key alone;
- `kvmap_finite_map`: these laws for `find` and `insert` and the four typed pairs.
-/

namespace Lean4Core

/-- `data_value`. -/
inductive DataValue (Name : Type) where
  | ofString (v : String)
  | ofNat (v : Nat)
  | ofBool (v : Bool)
  | ofName (v : Name)
  deriving DecidableEq, Repr

/-- `kvmap`. -/
structure KVMap (Name : Type) where
  entries : List (Name × DataValue Name) := []
  deriving DecidableEq, Repr

namespace KVMap

variable {Name : Type} [DecidableEq Name]

def findCore : List (Name × DataValue Name) → Name → Option (DataValue Name)
  | [], _ => none
  | (k, v) :: m, k' => if k = k' then some v else findCore m k'

def find (m : KVMap Name) (k : Name) : Option (DataValue Name) := findCore m.entries k

def insertCore : List (Name × DataValue Name) → Name → DataValue Name → List (Name × DataValue Name)
  | [], k', v' => [(k', v')]
  | (k, v) :: m, k', v' => if k = k' then (k, v') :: m else (k, v) :: insertCore m k' v'

def insert (m : KVMap Name) (k : Name) (v : DataValue Name) : KVMap Name := ⟨insertCore m.entries k v⟩

def contains (m : KVMap Name) (n : Name) : Bool := (m.find n).isSome

/-! ## The typed getters and setters

Each `get_*` matches the value at the key against one constructor, and each `set_*`
inserts a value made by that constructor. -/

/-- A typed getter: the value at `k`, read through `sel`, which accepts one constructor. -/
def getAs {α : Type} (sel : DataValue Name → Option α) (m : KVMap Name) (k : Name) : Option α :=
  match m.find k with
  | some d => sel d
  | none => none

/-- A typed setter: `k` set to the value the constructor `mk` makes. -/
def setAs {α : Type} (mk : α → DataValue Name) (m : KVMap Name) (k : Name) (v : α) : KVMap Name :=
  m.insert k (mk v)

def getString (m : KVMap Name) (k : Name) : Option String :=
  m.getAs (fun | .ofString v => some v | _ => none) k

def getNat (m : KVMap Name) (k : Name) : Option Nat :=
  m.getAs (fun | .ofNat v => some v | _ => none) k

def getBool (m : KVMap Name) (k : Name) : Option Bool :=
  m.getAs (fun | .ofBool v => some v | _ => none) k

def getName (m : KVMap Name) (k : Name) : Option Name :=
  m.getAs (fun | .ofName v => some v | _ => none) k

def setString (m : KVMap Name) (k : Name) (v : String) : KVMap Name := m.setAs .ofString k v

def setNat (m : KVMap Name) (k : Name) (v : Nat) : KVMap Name := m.setAs .ofNat k v

def setBool (m : KVMap Name) (k : Name) (v : Bool) : KVMap Name := m.setAs .ofBool k v

def setName (m : KVMap Name) (k : Name) (v : Name) : KVMap Name := m.setAs .ofName k v

/-! ## A finite map -/

theorem findCore_insertCore (l : List (Name × DataValue Name)) (k k' : Name) (v : DataValue Name) :
    findCore (insertCore l k v) k' = if k = k' then some v else findCore l k' := by
  induction l with
  | nil => simp [insertCore, findCore]
  | cons p l ih =>
    obtain ⟨k₀, v₀⟩ := p
    by_cases h₀ : k₀ = k
    · subst h₀
      by_cases e : k₀ = k' <;> simp [insertCore, findCore, e]
    · by_cases e : k₀ = k'
      · subst e; simp [insertCore, findCore, h₀, Ne.symm h₀]
      · simp [insertCore, findCore, h₀, e, ih]

theorem mem_keys_insertCore (l : List (Name × DataValue Name)) (k x : Name) (v : DataValue Name) :
    x ∈ (insertCore l k v).map Prod.fst ↔ x = k ∨ x ∈ l.map Prod.fst := by
  induction l with
  | nil => simp [insertCore]
  | cons p l ih =>
    obtain ⟨k₀, v₀⟩ := p
    by_cases h₀ : k₀ = k
    · subst h₀; simp [insertCore, or_self_left]
    · simp only [insertCore, h₀, if_false, List.map_cons, List.mem_cons, ih]
      tauto

theorem nodup_keys_insertCore {l : List (Name × DataValue Name)} (hl : (l.map Prod.fst).Nodup)
    (k : Name) (v : DataValue Name) : ((insertCore l k v).map Prod.fst).Nodup := by
  induction l with
  | nil => simp [insertCore]
  | cons p l ih =>
    obtain ⟨k₀, v₀⟩ := p
    rw [List.map_cons, List.nodup_cons] at hl
    by_cases h₀ : k₀ = k
    · simpa [insertCore, h₀] using hl
    · simp only [insertCore, h₀, if_false, List.map_cons, List.nodup_cons, mem_keys_insertCore,
        false_or]
      exact ⟨hl.1, ih hl.2⟩

theorem find_insert (m : KVMap Name) (k k' : Name) (v : DataValue Name) :
    (m.insert k v).find k' = if k = k' then some v else m.find k' :=
  findCore_insertCore m.entries k k' v

/-- A typed getter reads back what the setter of its constructor wrote. -/
theorem getAs_setAs {α : Type} {sel : DataValue Name → Option α} {mk : α → DataValue Name}
    (hsel : ∀ v, sel (mk v) = some v) (m : KVMap Name) (k : Name) (v : α) :
    (m.setAs mk k v).getAs sel k = some v := by
  simp [getAs, setAs, find_insert, hsel]

/-- An insertion leaves every typed getter of another key alone. -/
theorem getAs_insert_of_ne {α : Type} (sel : DataValue Name → Option α) (m : KVMap Name)
    {k k' : Name} (h : k ≠ k') (d : DataValue Name) : (m.insert k d).getAs sel k' = m.getAs sel k' := by
  simp [getAs, find_insert, h]

/-- `kvmap` is a finite map. `find` after `insert` reads the inserted value at its key and
the old value elsewhere; `insert` keeps the keys distinct; each typed getter reads back
what its setter wrote; and since every setter inserts, a setter on `k` leaves every getter
of another key as it was. -/
theorem kvmap_finite_map (m : KVMap Name) (k k' : Name) (v : DataValue Name) :
    (m.insert k v).find k' = (if k = k' then some v else m.find k') ∧
    ((m.entries.map Prod.fst).Nodup → ((m.insert k v).entries.map Prod.fst).Nodup) ∧
    (∀ s, (m.setString k s).getString k = some s) ∧ (∀ n, (m.setNat k n).getNat k = some n) ∧
    (∀ b, (m.setBool k b).getBool k = some b) ∧ (∀ x, (m.setName k x).getName k = some x) ∧
    (k ≠ k' → (m.insert k v).getString k' = m.getString k' ∧ (m.insert k v).getNat k' = m.getNat k' ∧
      (m.insert k v).getBool k' = m.getBool k' ∧ (m.insert k v).getName k' = m.getName k') :=
  ⟨find_insert m k k' v, fun h => nodup_keys_insertCore h k v,
    fun s => getAs_setAs (fun _ => by rfl) m k s, fun n => getAs_setAs (fun _ => by rfl) m k n,
    fun b => getAs_setAs (fun _ => by rfl) m k b, fun x => getAs_setAs (fun _ => by rfl) m k x,
    fun h => ⟨getAs_insert_of_ne _ m h v, getAs_insert_of_ne _ m h v,
      getAs_insert_of_ne _ m h v, getAs_insert_of_ne _ m h v⟩⟩

theorem kvmap_finite_map_sample :
    let m : KVMap Nat := ⟨[(1, .ofNat 3), (2, .ofString "x")]⟩
    (m.entries.map Prod.fst).Nodup ∧ ((m.insert 2 (.ofBool true)).entries.map Prod.fst).Nodup ∧
      (2 : Nat) ≠ 1 ∧ (m.insert 2 (.ofBool true)).getNat 1 = some 3 := by
  intro m
  have h := kvmap_finite_map m 2 1 (.ofBool true)
  have hn : (m.entries.map Prod.fst).Nodup := by decide
  exact ⟨hn, h.2.1 hn, by decide, (h.2.2.2.2.2.2 (by decide)).2.1.trans rfl⟩

end KVMap

end Lean4Core
