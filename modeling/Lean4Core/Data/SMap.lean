import Lean4Core.Data.HashMap

/-!
# Staged maps (`SMap`)

The declaration index of an environment. In stage 1 insertions go into a hash map; after
the one-way `switch` they go into a red-black tree, and lookups try the tree before the
hash map. The definitions follow the compiled `SMap.insert`, `SMap.find` and
`SMap.switch` at `Environment.add`, `Environment.find` and `Environment.switch`.

The API only switches once the tree is still empty, so the structure carries that fact
(`stage₁ = true → map₂` is the empty tree). With it, the staged map is a last-write-wins
finite map across the switch: `find_insert`, `find_switch`, `find_empty`.
-/

namespace Lean4Core

structure SMap (α β : Type) (lt : α → α → Bool) [DecidableEq α] [Hashable α] where
  stage₁ : Bool := true
  map₁ : HashMap α β := ∅
  map₂ : RBMap α β lt := ∅
  /-- Stage 1 never touches the tree. -/
  stage₁_empty : stage₁ = true → map₂.val = .leaf := by intro; rfl

namespace SMap

variable {α β : Type} {lt : α → α → Bool} [DecidableEq α] [Hashable α]

def empty : SMap α β lt := {}

instance : EmptyCollection (SMap α β lt) := ⟨empty⟩

def insert (m : SMap α β lt) (k : α) (v : β) : SMap α β lt :=
  match m with
  | ⟨true, m₁, m₂, h⟩ => ⟨true, m₁.insert k v, m₂, h⟩
  | ⟨false, m₁, m₂, _⟩ => ⟨false, m₁, m₂.insert k v, nofun⟩

def find (m : SMap α β lt) (k : α) : Option β :=
  match m with
  | ⟨true, m₁, _, _⟩ => m₁.find k
  | ⟨false, m₁, m₂, _⟩ => (m₂.find k).orElse fun _ => m₁.find k

/-- Leave stage 1; later insertions go into the tree. -/
def switch (m : SMap α β lt) : SMap α β lt :=
  if m.stage₁ then { m with stage₁ := false, stage₁_empty := nofun } else m

/-- Fold over the entries inserted after the switch, in tree order. -/
def foldStage2 {σ : Type} (f : σ → α → β → σ) (s : σ) (m : SMap α β lt) : σ :=
  m.map₂.fold f s

@[simp] theorem find_empty (k : α) : (∅ : SMap α β lt).find k = none :=
  HashMap.find_empty k

/-- The staged map is last-write-wins in either stage. -/
theorem find_insert (h : StrictTotal lt) (m : SMap α β lt) (k k' : α) (v : β) :
    (m.insert k v).find k' = if k' = k then some v else m.find k' := by
  obtain ⟨_ | _, m₁, m₂, _⟩ := m
  · simp only [insert, find, RBMap.find_insert h]
    split <;> rfl
  · simp only [insert, find, HashMap.find_insert]

@[simp] theorem stage₁_insert (m : SMap α β lt) (k : α) (v : β) :
    (m.insert k v).stage₁ = m.stage₁ := by
  obtain ⟨_ | _, m₁, m₂, _⟩ := m <;> rfl

@[simp] theorem stage₁_emptyCollection : (∅ : SMap α β lt).stage₁ = true := rfl

/-- In stage 1 the staged map is its hash map, last-write-wins with no assumption on the
order. -/
theorem find_insert_of_stage₁ {m : SMap α β lt} (hm : m.stage₁ = true) (k k' : α) (v : β) :
    (m.insert k v).find k' = if k' = k then some v else m.find k' := by
  obtain ⟨_ | _, m₁, m₂, _⟩ := m
  · cases hm
  · simp only [insert, find, HashMap.find_insert]

@[simp] theorem find_switch (m : SMap α β lt) (k : α) : m.switch.find k = m.find k := by
  obtain ⟨_ | _, m₁, m₂, hm⟩ := m
  · rfl
  · simp [switch, find, RBMap.find, hm rfl, RBNode.find]

@[simp] theorem stage₁_switch (m : SMap α β lt) : m.switch.stage₁ = false := by
  unfold switch; split <;> simp_all

@[simp] theorem map₁_switch (m : SMap α β lt) : m.switch.map₁ = m.map₁ := by
  unfold switch; split <;> rfl

@[simp] theorem map₂_switch (m : SMap α β lt) : m.switch.map₂ = m.map₂ := by
  unfold switch; split <;> rfl

/-! ### After the switch -/

section Stage₂

variable {m : SMap α β lt} (hm : m.stage₁ = false)
include hm

theorem find_of_stage₂ (k : α) : m.find k = (m.map₂.find k).or (m.map₁.find k) := by
  obtain ⟨_ | _, m₁, m₂, _⟩ := m
  · simp only [find]; cases m₂.find k <;> rfl
  · cases hm

theorem map₁_insert_of_stage₂ (k : α) (v : β) : (m.insert k v).map₁ = m.map₁ := by
  obtain ⟨_ | _, m₁, m₂, _⟩ := m
  · rfl
  · cases hm

theorem map₂_insert_of_stage₂ (k : α) (v : β) : (m.insert k v).map₂ = m.map₂.insert k v := by
  obtain ⟨_ | _, m₁, m₂, _⟩ := m
  · rfl
  · cases hm

theorem switch_of_stage₂ : m.switch = m := by
  simp [switch, hm]

end Stage₂

/-- The stage-2 fold that pushes every value lists the tree's values in order. -/
theorem toList_foldStage2_push (m : SMap α β lt) (acc : Array β) :
    (m.foldStage2 (fun cs _ c => cs.push c) acc).toList = acc.toList ++ m.map₂.val.toList.map Prod.snd := by
  rw [foldStage2, RBMap.fold, RBNode.fold_eq_foldl]
  induction m.map₂.val.toList generalizing acc with
  | nil => simp
  | cons p l ih => simp [ih]

end SMap

end Lean4Core
