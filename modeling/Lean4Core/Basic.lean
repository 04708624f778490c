import Mathlib.Data.List.Sort
import Mathlib.Data.List.Perm.Basic
import Mathlib.Logic.Relation
import Mathlib.Tactic.Tauto
import Mathlib.Tactic.SplitIfs
import Mathlib.Tactic.Set
import Mathlib.Data.Option.Basic

/-!
# Shared vocabulary

The two name primitives the environment code calls but that are defined outside the
modelled sources, and the core-library iterators (`Array.iterate`, `Array.miterate`,
`Nat.fold`) the environment code is written with.

* `QuickLt` is `Name.quickLt`, the order of every name tree (`NameSet`, the second stage
  of the declaration map). The results about name trees assume it is a strict total
  order whose incomparable pairs are equal; `StrictTotal` states exactly that, and is a
  hypothesis only of the lemmas that need it.
* `Name.hash` is the `Hashable` instance of the name type; the name type itself is a
  parameter with decidable equality (`Name.DecidableEq`).
-/

namespace Lean4Core

/-- `Name.quickLt`, the order of the name-keyed red-black trees. -/
class QuickLt (α : Type) where
  quickLt : α → α → Bool

export QuickLt (quickLt)

/-- A Boolean order is strict and total, and two keys neither of which is below the other
are equal: what `RBNode.ins` and `RBNode.find` assume of their comparison. -/
structure StrictTotal {α : Type} (lt : α → α → Bool) : Prop where
  irrefl : ∀ a, lt a a = false
  trans : ∀ a b c, lt a b = true → lt b c = true → lt a c = true
  eq_of_incomparable : ∀ a b, lt a b = false → lt b a = false → a = b

namespace StrictTotal

variable {α : Type} {lt : α → α → Bool} (h : StrictTotal lt)
include h

theorem asymm {a b : α} (hab : lt a b = true) : lt b a = false := by
  cases hba : lt b a
  · rfl
  · simpa [h.irrefl] using h.trans a b a hab hba

theorem ne_of_lt {a b : α} (hab : lt a b = true) : a ≠ b := by
  rintro rfl; simp [h.irrefl] at hab

end StrictTotal

/-- Natural numbers ordered by `<` serve as a concrete name type for instances of the
model. -/
instance : QuickLt Nat := ⟨fun a b => decide (a < b)⟩

theorem strictTotal_nat : StrictTotal (quickLt : Nat → Nat → Bool) where
  irrefl a := by simp [quickLt]
  trans a b c := by simp only [quickLt, decide_eq_true_eq]; omega
  eq_of_incomparable a b := by simp only [quickLt, decide_eq_false_iff_not]; omega

/-! ## Lists -/

section Lists

variable {α : Type}

/-- The first components of a zip are the first list cut to the length of the second. -/
theorem map_fst_zip_eq_take {β : Type} : ∀ (l₁ : List α) (l₂ : List β),
    (l₁.zip l₂).map Prod.fst = l₁.take l₂.length
  | [], _ => by simp
  | _ :: _, [] => rfl
  | a :: l₁, _ :: l₂ => by simp [map_fst_zip_eq_take l₁ l₂]

/-- Where an element of `L₁ ++ m :: L₂` can stand: in `L₁`, at `m`, or in `L₂`. -/
theorem append_cons_eq_append_cons {L₁ L₂ A B : List α} {m x : α}
    (h : L₁ ++ m :: L₂ = A ++ x :: B) :
    (∃ B', L₁ = A ++ x :: B') ∨ (A = L₁ ∧ x = m ∧ B = L₂) ∨
      (∃ A', A = L₁ ++ m :: A' ∧ L₂ = A' ++ x :: B) := by
  rcases List.append_eq_append_iff.1 h with ⟨a', rfl, h1⟩ | ⟨c', rfl, h1⟩
  · rcases List.cons_eq_append_iff.1 h1 with ⟨rfl, h2⟩ | ⟨a'', rfl, rfl⟩
    · cases h2; exact .inr (.inl ⟨by simp, rfl, rfl⟩)
    · exact .inr (.inr ⟨a'', rfl, rfl⟩)
  · rcases List.cons_eq_append_iff.1 h1 with ⟨rfl, h2⟩ | ⟨c'', rfl, rfl⟩
    · cases h2; exact .inr (.inl ⟨by simp, rfl, rfl⟩)
    · exact .inl ⟨c'', rfl⟩

/-- A count under a stronger predicate is smaller when some member meets only the weaker one. -/
theorem countP_lt_countP {p q : α → Bool} {l : List α} (hle : ∀ x ∈ l, q x = true → p x = true)
    {a : α} (ha : a ∈ l) (hp : p a = true) (hq : q a = false) : l.countP q < l.countP p := by
  induction l with
  | nil => cases ha
  | cons b l ih =>
    have hle' : ∀ x ∈ l, q x = true → p x = true := fun x hx => hle x (List.mem_cons_of_mem _ hx)
    have hmono := List.countP_mono_left hle'
    have hb := hle b (List.mem_cons_self _ _)
    simp only [List.countP_cons]
    rcases List.mem_cons.1 ha with rfl | ha
    · rw [if_pos hp, if_neg (by simp [hq])]; omega
    · have := ih hle' ha
      cases hqb : q b <;> cases hpb : p b <;> simp_all; omega

/-- In a list whose elements have distinct keys, the search by an element's key finds it. -/
theorem find?_key_eq_some {β : Type} [DecidableEq β] {f : α → β} {l : List α} {x : α}
    (hnd : (l.map f).Nodup) (hx : x ∈ l) : l.find? (fun y => f y == f x) = some x := by
  induction l with
  | nil => cases hx
  | cons a l ih =>
    rw [List.map_cons, List.nodup_cons] at hnd
    rcases List.mem_cons.1 hx with rfl | hx
    · simp
    · have hne : f a ≠ f x := fun he => hnd.1 (he ▸ List.mem_map_of_mem f hx)
      simp [hne, ih hnd.2 hx]

end Lists

/-! ## Association lists -/

section Lookup

variable {α β : Type} [DecidableEq α]

/-- `List.lookup` on a cons, as an `if` on the decidable equality of the keys. -/
theorem lookup_cons_ite (l : List (α × β)) (k k' : α) (v : β) :
    ((k, v) :: l).lookup k' = if k' = k then some v else l.lookup k' := by
  rw [List.lookup_cons]
  by_cases e : k' = k
  · simp [e]
  · simp [e, beq_eq_false_iff_ne.2 e]

/-- With distinct keys, `lookup` finds exactly the entries of the list. -/
theorem lookup_eq_some_iff {l : List (α × β)} (hnd : (l.map Prod.fst).Nodup) (a : α) (b : β) :
    l.lookup a = some b ↔ (a, b) ∈ l := by
  induction l with
  | nil => simp
  | cons p l ih =>
    obtain ⟨k, v⟩ := p
    simp only [List.map_cons, List.nodup_cons, List.mem_map] at hnd
    rw [lookup_cons_ite, List.mem_cons]
    by_cases e : a = k
    · subst e
      have : (a, b) ∉ l := fun h => hnd.1 ⟨_, h, rfl⟩
      simp [this, eq_comm]
    · simp [e, ih hnd.2]

/-- With distinct keys, `lookup` does not see the order of the entries. -/
theorem lookup_congr_perm {l l' : List (α × β)} (hp : l.Perm l') (hnd : (l.map Prod.fst).Nodup)
    (a : α) : l.lookup a = l'.lookup a := by
  have hnd' : (l'.map Prod.fst).Nodup := (hp.map _).nodup_iff.mp hnd
  apply Option.ext; intro b
  rw [Option.mem_def, Option.mem_def, lookup_eq_some_iff hnd, lookup_eq_some_iff hnd', hp.mem_iff]

end Lookup

section FlatMap

variable {γ δ : Type}

theorem perm_append_middle (A X B : List δ) : (A ++ (X ++ B)).Perm (X ++ (A ++ B)) := by
  simpa [List.append_assoc] using (@List.perm_append_comm _ A X).append_right B

/-- Flattening a list with one element singled out. -/
theorem flatMap_perm_getElem {l : List γ} {i : Nat} (h : i < l.length) (f : γ → List δ) :
    (l.flatMap f).Perm (f l[i] ++ (l.eraseIdx i).flatMap f) := by
  conv_lhs => rw [← List.take_append_drop i l, ← List.getElem_cons_drop l i h]
  rw [List.eraseIdx_eq_take_drop_succ]
  simpa only [List.flatMap_append, List.flatMap_cons] using perm_append_middle _ _ _

/-- Flattening a list after replacing one element. -/
theorem flatMap_set_perm {l : List γ} {i : Nat} (h : i < l.length) (x : γ) (f : γ → List δ) :
    ((l.set i x).flatMap f).Perm (f x ++ (l.eraseIdx i).flatMap f) := by
  rw [List.set_eq_take_append_cons_drop, if_pos h, List.eraseIdx_eq_take_drop_succ]
  simpa only [List.flatMap_append, List.flatMap_cons] using perm_append_middle _ _ _

end FlatMap

/-! ## Arrays with natural-number indices

`Array.get`, `Array.set` and `Array.modify` at a `Nat` index in the source read a default,
and leave the array alone, out of range: `getD`, `setD` and `modify` here. -/

section ArrayIdx

variable {α : Type}

theorem getD_setD (a : Array α) (i j : Nat) (v d : α) :
    (a.setD i v).getD j d = if i = j ∧ j < a.size then v else a.getD j d := by
  by_cases hj : j < a.size
  · by_cases hij : i = j
    · subst hij; simp [Array.getD, Array.setD, hj]
    · simp only [Array.getD, Array.setD, Array.get_eq_getElem, hij, false_and, if_false]
      split <;> simp [Array.getElem_set, hij, hj]
  · simp [Array.getD, hj]

theorem modify_eq_setD (a : Array α) (i : Nat) (f : α → α) (d : α) :
    a.modify i f = a.setD i (f (a.getD i d)) := by
  simp only [Array.modify, Array.modifyM, Array.setD, Array.getD, Id.run]
  split <;> rfl

theorem getD_take (a : Array α) (n j : Nat) (d : α) :
    (a.take n).getD j d = if j < n then a.getD j d else d := by
  by_cases hj : j < n <;> by_cases ha : j < a.size <;> simp [Array.getD, hj, ha]

/-- Positions past the end of a mask are not set, so listing the set positions below any
bound past the end lists the same ones. -/
theorem filter_range_getD (a : Array Bool) {N : Nat} (h : a.size ≤ N) :
    (List.range N).reverse.filter (a.getD · false) =
      (List.range a.size).reverse.filter (a.getD · false) := by
  obtain ⟨k, rfl⟩ := Nat.exists_eq_add_of_le h
  rw [List.range_add, List.reverse_append, List.filter_append,
    List.filter_eq_nil_iff.2 (by simp [Array.getD]), List.nil_append]

/-- Reading every index below the size in order lists the array. -/
theorem map_range_getD {β : Type} (a : Array α) (d : α) (g : α → β) :
    (List.range a.size).map (fun i => g (a.getD i d)) = a.toList.map g := by
  apply List.ext_getElem (by simp)
  intro i h₁ h₂
  simp only [List.length_map, List.length_range] at h₁
  simp [Array.getD, h₁]

end ArrayIdx

/-! ## Core-library iterators -/

section Iterate

variable {α β : Type}

/-- The loop of `Array.iterate`: the element at position `i` is folded in with its index. -/
def iterateAux (f : Nat → α → β → β) : Nat → List α → β → β
  | _, [], b => b
  | i, x :: xs, b => iterateAux f (i + 1) xs (f i x b)

/-- `Array.iterate a b f`: a left fold over `a` from `b`, passing each element's index. -/
def iterate (a : Array α) (b : β) (f : Nat → α → β → β) : β :=
  iterateAux f 0 a.toList b

@[simp] theorem iterateAux_nil (f : Nat → α → β → β) (i : Nat) (b : β) :
    iterateAux f i [] b = b := rfl

@[simp] theorem iterateAux_cons (f : Nat → α → β → β) (i : Nat) (x : α) (xs : List α) (b : β) :
    iterateAux f i (x :: xs) b = iterateAux f (i + 1) xs (f i x b) := rfl

/-- A property every step keeps holds after the loop. -/
theorem iterateAux_inv (P : β → Prop) {f : Nat → α → β → β} (hf : ∀ i x b, P b → P (f i x b)) :
    ∀ (i : Nat) (xs : List α) (b : β), P b → P (iterateAux f i xs b)
  | _, [], _, hb => hb
  | i, x :: xs, b, hb => iterateAux_inv P hf (i + 1) xs _ (hf i x b hb)

/-- A fold that ignores the index is `List.foldl`. -/
theorem iterateAux_eq_foldl (g : α → β → β) (i : Nat) (xs : List α) (b : β) :
    iterateAux (fun _ x b => g x b) i xs b = xs.foldl (fun b x => g x b) b := by
  induction xs generalizing i b with
  | nil => rfl
  | cons x xs ih => simp [ih]

/-- The loop of `Array.miterate` in the `Except` monad, which the import code runs its
collaborators' updates in. -/
def miterateAux {ε : Type} (f : Nat → α → β → Except ε β) : Nat → List α → β → Except ε β
  | _, [], b => .ok b
  | i, x :: xs, b => f i x b >>= miterateAux f (i + 1) xs

/-- `Array.miterate a b f`: `iterate` in the `Except` monad; the first error stops it. -/
def miterate {ε : Type} (a : Array α) (b : β) (f : Nat → α → β → Except ε β) : Except ε β :=
  miterateAux f 0 a.toList b

/-- A property every successful step keeps holds after a successful loop. -/
theorem miterateAux_inv {ε : Type} (P : β → Prop) {f : Nat → α → β → Except ε β}
    (hf : ∀ i x b b', f i x b = .ok b' → P b → P b') :
    ∀ (i : Nat) (xs : List α) (b b' : β), miterateAux f i xs b = .ok b' → P b → P b'
  | _, [], _, _, h, hb => by cases h; exact hb
  | i, x :: xs, b, b', h, hb => by
    simp only [miterateAux] at h
    cases hx : f i x b with
    | error e => rw [hx] at h; cases h
    | ok b₁ =>
      rw [hx] at h
      exact miterateAux_inv P hf (i + 1) xs b₁ b' h (hf i x b b₁ hx hb)

/-- A loop whose every step succeeds succeeds. -/
theorem miterateAux_ok {ε : Type} {f : Nat → α → β → Except ε β}
    (hf : ∀ i x b, ∃ b', f i x b = .ok b') :
    ∀ (i : Nat) (xs : List α) (b : β), ∃ b', miterateAux f i xs b = .ok b'
  | _, [], b => ⟨b, rfl⟩
  | i, x :: xs, b => by
    obtain ⟨b₁, h₁⟩ := hf i x b
    obtain ⟨b', h'⟩ := miterateAux_ok hf (i + 1) xs b₁
    exact ⟨b', by simpa only [miterateAux, h₁] using h'⟩

/-- `Nat.fold` pushing one element per index lists those elements in index order. -/
theorem toList_fold_push (g : Nat → α) (n : Nat) (acc : Array α) :
    (Nat.fold (fun i r => r.push (g i)) n acc).toList = acc.toList ++ (List.range n).map g := by
  induction n with
  | zero => simp [Nat.fold]
  | succ n ih => simp [Nat.fold, ih, List.range_succ]

end Iterate

end Lean4Core
