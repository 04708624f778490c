import Mathlib.Data.Set.Finite.Basic
import Lean4Core.Registry

/-!
# Walking the import graph

`init/lean/environment.lean`, lines 294–346: the content of a module file (`ModuleData`)
and `importModulesAux`, the depth-first walk that reads every module reachable from the
roots once, the imports of a module before the module.

The source's `importModulesAux` is a `partial def` in IO. Here the module store is a
function `load : Name → Except ε ModuleData` (the source's `findOLean` followed by
`readModuleData`), and the recursion takes fuel, `none` meaning that the fuel ran out;
`importModulesAux_mono` shows that more fuel never changes a result. The visited set is a
`NameSet`, a red-black tree under `Name.quickLt`, so the results that look names up in it
assume `StrictTotal quickLt`.

Main results:
- `importModulesAux_spec`: what one successful call read, visited and appended
  (`WalkSpec`), by induction on the fuel, one lemma per branch (`WalkSpec.skip`,
  `WalkSpec.visit`).
- `importModulesAux_closure`: from the empty state, the modules read are those of a
  duplicate-free list of names that is both the visited set and the set of reachable
  names, and on an acyclic graph every import of a module is read before it.
- `importModulesAux_terminates`: when finitely many names are reachable, cycles and
  self-imports included, some fuel gives a result, and every larger fuel the same one.
-/

namespace Lean4Core

open Relation

/-- `NameSet`: a red-black tree of names under `Name.quickLt`. -/
def NameSet (Name : Type) [QuickLt Name] := RBMap Name Unit quickLt

namespace NameSet

variable {Name : Type} [QuickLt Name]

instance : EmptyCollection (NameSet Name) := ⟨(∅ : RBMap Name Unit quickLt)⟩

def insert (s : NameSet Name) (n : Name) : NameSet Name := RBMap.insert s n ()

def contains (s : NameSet Name) (n : Name) : Bool := RBMap.contains s n

@[simp] theorem contains_empty (n : Name) : (∅ : NameSet Name).contains n = false := rfl

theorem contains_insert [DecidableEq Name] (h : StrictTotal (quickLt : Name → Name → Bool))
    (s : NameSet Name) (m n : Name) :
    (s.insert m).contains n = true ↔ n = m ∨ s.contains n = true := by
  simp only [contains, insert, RBMap.contains, RBMap.find_insert h]
  split <;> simp_all

end NameSet

/-- The content of a module file. -/
structure ModuleData (Name ConstantInfo E : Type) where
  imports : Array Name
  constants : Array ConstantInfo
  entries : Array (Name × Array E)
  /-- The legacy modification objects, serialized. -/
  serialized : ByteArray

section Walk

variable {Name ConstantInfo E ε : Type} (load : Name → Except ε (ModuleData Name ConstantInfo E))

/-- `Imports load a b`: module `a` is read and imports `b`. -/
def Imports (a b : Name) : Prop := ∃ mod, load a = .ok mod ∧ b ∈ mod.imports.toList

/-- The names reachable from `roots` through imports. -/
def Reach (roots : List Name) (k : Name) : Prop := ∃ r ∈ roots, ReflTransGen (Imports load) r k

variable {load} in
theorem Reach.tail {roots : List Name} {a b : Name} (ha : Reach load roots a)
    (hab : Imports load a b) : Reach load roots b :=
  let ⟨r, hr, hra⟩ := ha
  ⟨r, hr, hra.tail hab⟩

variable [QuickLt Name]

/-- Read every module reachable from `pending` that is not yet visited; a module is marked
visited before its imports are read, and appended after them. -/
def importModulesAux : Nat → List Name → NameSet Name × Array (ModuleData Name ConstantInfo E) →
    Option (Except ε (NameSet Name × Array (ModuleData Name ConstantInfo E)))
  | _, [], r => some (.ok r)
  | 0, _ :: _, _ => none
  | fuel + 1, m :: ms, (s, mods) =>
    if s.contains m then importModulesAux fuel ms (s, mods)
    else
      let s := s.insert m
      match load m with
      | .error e => some (.error e)
      | .ok mod =>
        match importModulesAux fuel mod.imports.toList (s, mods) with
        | some (.ok (s, mods)) => importModulesAux fuel ms (s, mods.push mod)
        | r => r

/-- What a successful call `importModulesAux pending (s, mods)` ending in `s'` did: it read
the modules `ms` of the fresh names `L`, in that order, and visited exactly those names.
Every pending name and every import of a module read is visited at the end; every name
read is reachable from a pending name; and each import of a module was visited before the
call, read before the module, or leads back to it. -/
structure WalkSpec (pending : List Name) (s s' : NameSet Name) (L : List Name)
    (ms : List (ModuleData Name ConstantInfo E)) : Prop where
  loaded : L.map load = ms.map Except.ok
  nodup : L.Nodup
  fresh : ∀ k ∈ L, s.contains k = false
  visited : ∀ k, s'.contains k = true ↔ s.contains k = true ∨ k ∈ L
  pending_visited : ∀ k ∈ pending, s'.contains k = true
  imports_visited : ∀ k ∈ L, ∀ k', Imports load k k' → s'.contains k' = true
  reach : ∀ k ∈ L, ∃ r ∈ pending, ReflTransGen (Imports load) r k
  order : ∀ A x B, L = A ++ x :: B → ∀ k, Imports load x k →
    s.contains k = true ∨ k ∈ A ∨ ReflTransGen (Imports load) k x

/-! ### One step of the walk -/

variable {load}

@[simp] theorem importModulesAux_nil (n : Nat) (r : NameSet Name × Array (ModuleData Name ConstantInfo E)) :
    importModulesAux load n [] r = some (.ok r) := by
  cases n <;> rfl

theorem importModulesAux_visited {n : Nat} {m : Name} {ms : List Name} {s : NameSet Name}
    (mods : Array (ModuleData Name ConstantInfo E)) (hm : s.contains m = true) :
    importModulesAux load (n + 1) (m :: ms) (s, mods) = importModulesAux load n ms (s, mods) := by
  simp [importModulesAux, hm]

theorem importModulesAux_load_error {n : Nat} {m : Name} {ms : List Name} {s : NameSet Name}
    (mods : Array (ModuleData Name ConstantInfo E)) {e : ε} (hm : s.contains m = false)
    (hl : load m = .error e) :
    importModulesAux load (n + 1) (m :: ms) (s, mods) = some (.error e) := by
  simp [importModulesAux, hm, hl]

/-- A fresh module whose imports were all read: the walk goes on with the rest. -/
theorem importModulesAux_fresh {n : Nat} {m : Name} {ms : List Name} {s s₂ : NameSet Name}
    {mods mods₂ : Array (ModuleData Name ConstantInfo E)} {mod : ModuleData Name ConstantInfo E}
    (hm : s.contains m = false) (hl : load m = .ok mod)
    (hi : importModulesAux load n mod.imports.toList (s.insert m, mods) = some (.ok (s₂, mods₂))) :
    importModulesAux load (n + 1) (m :: ms) (s, mods) = importModulesAux load n ms (s₂, mods₂.push mod) := by
  simp [importModulesAux, hm, hl, hi]

theorem importModulesAux_imports_error {n : Nat} {m : Name} {ms : List Name} {s : NameSet Name}
    {mods : Array (ModuleData Name ConstantInfo E)} {mod : ModuleData Name ConstantInfo E} {e : ε}
    (hm : s.contains m = false) (hl : load m = .ok mod)
    (hi : importModulesAux load n mod.imports.toList (s.insert m, mods) = some (.error e)) :
    importModulesAux load (n + 1) (m :: ms) (s, mods) = some (.error e) := by
  simp [importModulesAux, hm, hl, hi]

/-- Everything a successful step can have done. -/
theorem importModulesAux_ok_cases {n : Nat} {m : Name} {ms : List Name}
    {s s' : NameSet Name} {mods mods' : Array (ModuleData Name ConstantInfo E)}
    (h : importModulesAux load (n + 1) (m :: ms) (s, mods) = some (.ok (s', mods'))) :
    (s.contains m = true ∧ importModulesAux load n ms (s, mods) = some (.ok (s', mods'))) ∨
    (s.contains m = false ∧ ∃ mod s₂ mods₂, load m = .ok mod ∧
      importModulesAux load n mod.imports.toList (s.insert m, mods) = some (.ok (s₂, mods₂)) ∧
      importModulesAux load n ms (s₂, mods₂.push mod) = some (.ok (s', mods'))) := by
  cases hm : s.contains m
  · right
    refine ⟨rfl, ?_⟩
    cases hl : load m with
    | error e => rw [importModulesAux_load_error mods hm hl] at h; cases h
    | ok mod =>
      rcases hi : importModulesAux load n mod.imports.toList (s.insert m, mods) with _ | _ | ⟨s₂, mods₂⟩
      · simp [importModulesAux, hm, hl, hi] at h
      · rw [importModulesAux_imports_error hm hl hi] at h; cases h
      · exact ⟨mod, s₂, mods₂, rfl, hi, by rwa [importModulesAux_fresh hm hl hi] at h⟩
  · exact .inl ⟨rfl, by rwa [importModulesAux_visited mods hm] at h⟩

/-- More fuel never changes a result. -/
theorem importModulesAux_mono {n n' : Nat} {pending : List Name}
    {r : NameSet Name × Array (ModuleData Name ConstantInfo E)}
    {x : Except ε (NameSet Name × Array (ModuleData Name ConstantInfo E))}
    (h : importModulesAux load n pending r = some x) (hn : n ≤ n') :
    importModulesAux load n' pending r = some x := by
  induction n generalizing n' pending r x with
  | zero =>
    cases pending with
    | nil => simpa using h
    | cons => simp [importModulesAux] at h
  | succ n ih =>
    obtain ⟨n', rfl⟩ : ∃ k, n' = k + 1 := ⟨n' - 1, by omega⟩
    obtain ⟨s, mods⟩ := r
    cases pending with
    | nil => simpa using h
    | cons m ms =>
      cases hm : s.contains m
      · cases hl : load m with
        | error e =>
          rw [importModulesAux_load_error mods hm hl] at h ⊢; exact h
        | ok mod =>
          rcases hi : importModulesAux load n mod.imports.toList (s.insert m, mods) with
            _ | _ | ⟨s₂, mods₂⟩
          · simp [importModulesAux, hm, hl, hi] at h
          · rw [importModulesAux_imports_error hm hl hi] at h
            rw [importModulesAux_imports_error hm hl (ih hi (by omega)), h]
          · rw [importModulesAux_fresh hm hl hi] at h
            rw [importModulesAux_fresh hm hl (ih hi (by omega))]
            exact ih h (by omega)
      · rw [importModulesAux_visited mods hm] at h ⊢
        exact ih h (by omega)

/-! ### The walk, branch by branch -/

theorem WalkSpec.nil (s : NameSet Name) :
    WalkSpec load [] s s [] ([] : List (ModuleData Name ConstantInfo E)) where
  loaded := rfl
  nodup := List.nodup_nil
  fresh := nofun
  visited k := by simp
  pending_visited := nofun
  imports_visited := nofun
  reach := nofun
  order A x B h := by simp at h

section Branches

variable {pending ms : List Name} {m : Name} {s s' : NameSet Name} {L : List Name}
  {mods : List (ModuleData Name ConstantInfo E)}

/-- A visited name is skipped. -/
theorem WalkSpec.skip (hm : s.contains m = true) (h : WalkSpec load ms s s' L mods) :
    WalkSpec load (m :: ms) s s' L mods where
  loaded := h.loaded
  nodup := h.nodup
  fresh := h.fresh
  visited := h.visited
  pending_visited k hk := by
    rcases List.mem_cons.1 hk with rfl | hk
    · exact (h.visited k).2 (.inl hm)
    · exact h.pending_visited k hk
  imports_visited := h.imports_visited
  reach k hk :=
    let ⟨r, hr, hrk⟩ := h.reach k hk
    ⟨r, List.mem_cons_of_mem _ hr, hrk⟩
  order := h.order

/-- A fresh name: its imports are walked from the set with the name inserted, the module is
appended, and the walk goes on with the rest. -/
theorem WalkSpec.visit [DecidableEq Name] (hst : StrictTotal (quickLt : Name → Name → Bool))
    {mod : ModuleData Name ConstantInfo E} {s₂ : NameSet Name} {Ln Lt : List Name}
    {msn mst : List (ModuleData Name ConstantInfo E)}
    (hm : s.contains m = false) (hl : load m = .ok mod)
    (hn : WalkSpec load mod.imports.toList (s.insert m) s₂ Ln msn)
    (ht : WalkSpec load ms s₂ s' Lt mst) :
    WalkSpec load (m :: ms) s s' (Ln ++ m :: Lt) (msn ++ mod :: mst) := by
  have hins := NameSet.contains_insert hst s m
  have h₂ : ∀ k, s₂.contains k = true ↔ (k = m ∨ s.contains k = true) ∨ k ∈ Ln := fun k =>
    (hn.visited k).trans (by rw [hins])
  have himp : ∀ k, Imports load m k → k ∈ mod.imports.toList := fun k ⟨mod', hl', hk⟩ => by
    rw [hl] at hl'; cases hl'; exact hk
  have hreach : ∀ k ∈ Ln, ReflTransGen (Imports load) m k := fun k hk =>
    let ⟨_, hr, hrk⟩ := hn.reach k hk
    .head ⟨mod, hl, hr⟩ hrk
  constructor
  case loaded => simp [hn.loaded, ht.loaded, hl]
  case nodup =>
    rw [List.nodup_append, List.nodup_cons]
    refine ⟨hn.nodup, ⟨fun hmt => ?_, ht.nodup⟩, fun k hkn hkt => ?_⟩
    · simpa [(h₂ m).2 (.inl (.inl rfl))] using ht.fresh m hmt
    · rcases List.mem_cons.1 hkt with rfl | hkt
      · simpa [(hins k).2 (.inl rfl)] using hn.fresh k hkn
      · simpa [(h₂ k).2 (.inr hkn)] using ht.fresh k hkt
  case fresh =>
    intro k hk
    simp only [List.mem_append, List.mem_cons] at hk
    rcases hk with hk | rfl | hk
    · exact Bool.eq_false_iff.2 fun hs => by simpa [(hins k).2 (.inr hs)] using hn.fresh k hk
    · exact hm
    · exact Bool.eq_false_iff.2 fun hs => by simpa [(h₂ k).2 (.inl (.inr hs))] using ht.fresh k hk
  case visited =>
    intro k
    rw [ht.visited, h₂]
    simp only [List.mem_append, List.mem_cons, or_assoc, or_left_comm]
  case pending_visited =>
    intro k hk
    rcases List.mem_cons.1 hk with rfl | hk
    · exact (ht.visited k).2 (.inl ((h₂ k).2 (.inl (.inl rfl))))
    · exact ht.pending_visited k hk
  case imports_visited =>
    intro k hk k' hkk'
    simp only [List.mem_append, List.mem_cons] at hk
    rcases hk with hk | rfl | hk
    · exact (ht.visited k').2 (.inl (hn.imports_visited k hk k' hkk'))
    · exact (ht.visited k').2 (.inl (hn.pending_visited k' (himp k' hkk')))
    · exact ht.imports_visited k hk k' hkk'
  case reach =>
    intro k hk
    simp only [List.mem_append, List.mem_cons] at hk
    rcases hk with hk | rfl | hk
    · exact ⟨m, List.mem_cons_self _ _, hreach k hk⟩
    · exact ⟨k, List.mem_cons_self _ _, .refl⟩
    · let ⟨r, hr, hrk⟩ := ht.reach k hk
      exact ⟨r, List.mem_cons_of_mem _ hr, hrk⟩
  case order =>
    intro A x B hL k hk
    rcases append_cons_eq_append_cons hL with ⟨B', rfl⟩ | ⟨rfl, rfl, rfl⟩ | ⟨A', rfl, rfl⟩
    · -- `x` was read while walking the imports of `m`
      rcases hn.order A x B' rfl k hk with h | h | h
      · rcases (hins k).1 h with rfl | h
        · exact .inr (.inr (hreach x (by simp)))
        · exact .inl h
      · exact .inr (.inl h)
      · exact .inr (.inr h)
    · -- `x` is `m`: its imports were all visited by the inner walk
      rcases (h₂ k).1 (hn.pending_visited k (himp k hk)) with (rfl | h) | h
      · exact .inr (.inr .refl)
      · exact .inl h
      · exact .inr (.inl h)
    · -- `x` was read by the walk over the rest
      rcases ht.order A' x B rfl k hk with h | h | h
      · rcases (h₂ k).1 h with (rfl | h) | h
        · exact .inr (.inl (by simp))
        · exact .inl h
        · exact .inr (.inl (by simp [h]))
      · exact .inr (.inl (by simp [h]))
      · exact .inr (.inr h)

end Branches

/-- The specification of one successful call, by induction on the fuel. -/
theorem importModulesAux_spec [DecidableEq Name] (hst : StrictTotal (quickLt : Name → Name → Bool))
    {n : Nat} {pending : List Name} {s s' : NameSet Name}
    {mods mods' : Array (ModuleData Name ConstantInfo E)}
    (h : importModulesAux load n pending (s, mods) = some (.ok (s', mods'))) :
    ∃ L ms, mods'.toList = mods.toList ++ ms ∧ WalkSpec load pending s s' L ms := by
  induction n generalizing pending s s' mods mods' with
  | zero =>
    cases pending with
    | nil =>
      obtain ⟨rfl, rfl⟩ : s = s' ∧ mods = mods' := by simpa using h
      exact ⟨[], [], by simp, .nil s⟩
    | cons => simp [importModulesAux] at h
  | succ n ih =>
    cases pending with
    | nil =>
      obtain ⟨rfl, rfl⟩ : s = s' ∧ mods = mods' := by simpa using h
      exact ⟨[], [], by simp, .nil s⟩
    | cons m ms =>
      rcases importModulesAux_ok_cases h with ⟨hm, h⟩ | ⟨hm, mod, s₂, mods₂, hl, hi, ht⟩
      · obtain ⟨L, ms', he, hw⟩ := ih h
        exact ⟨L, ms', he, hw.skip hm⟩
      · obtain ⟨Ln, msn, hen, hwn⟩ := ih hi
        obtain ⟨Lt, mst, het, hwt⟩ := ih ht
        refine ⟨Ln ++ m :: Lt, msn ++ mod :: mst, ?_, hwn.visit hst hm hl hwt⟩
        simp [het, hen]

/-- The walk reads its visited set only through `contains`, and reads only names reachable
from its pending names. So under a store changed at a name `N` that it does not reach, from
a visited set that holds `N` besides, it reads the same modules. -/
theorem importModulesAux_extend [DecidableEq Name] (hst : StrictTotal (quickLt : Name → Name → Bool))
    (load' : Name → Except ε (ModuleData Name ConstantInfo E)) (N : Name)
    (hload : ∀ k, k ≠ N → load' k = load k) {n : Nat} {pending : List Name}
    {s s' t : NameSet Name} {mods mods' : Array (ModuleData Name ConstantInfo E)}
    (hs : ∀ k, s'.contains k = true ↔ k = N ∨ s.contains k = true)
    (hN : ∀ k ∈ pending, ¬ ReflTransGen (Imports load) k N)
    (h : importModulesAux load n pending (s, mods) = some (.ok (t, mods'))) :
    ∃ t', (∀ k, t'.contains k = true ↔ k = N ∨ t.contains k = true) ∧
      importModulesAux load' n pending (s', mods) = some (.ok (t', mods')) := by
  induction n generalizing pending s s' t mods mods' with
  | zero =>
    cases pending with
    | nil =>
      obtain ⟨rfl, rfl⟩ : s = t ∧ mods = mods' := by simpa using h
      exact ⟨s', hs, by simp⟩
    | cons => simp [importModulesAux] at h
  | succ n ih =>
    cases pending with
    | nil =>
      obtain ⟨rfl, rfl⟩ : s = t ∧ mods = mods' := by simpa using h
      exact ⟨s', hs, by simp⟩
    | cons m ms =>
      have hmN : m ≠ N := fun he => hN m (List.mem_cons_self _ _) (he ▸ .refl)
      have hms : ∀ k ∈ ms, ¬ ReflTransGen (Imports load) k N := fun k hk =>
        hN k (List.mem_cons_of_mem _ hk)
      rcases importModulesAux_ok_cases h with ⟨hm, h⟩ | ⟨hm, mod, s₂, mods₂, hl, hi, ht⟩
      · obtain ⟨t', ht', h'⟩ := ih hs hms h
        exact ⟨t', ht', by rwa [importModulesAux_visited mods ((hs m).2 (.inr hm))]⟩
      · have hm' : s'.contains m = false :=
          Bool.eq_false_iff.2 fun h => ((hs m).1 h).elim hmN (by simp [hm])
        have hins : ∀ k, (s'.insert m).contains k = true ↔ k = N ∨ (s.insert m).contains k = true :=
          fun k => by rw [NameSet.contains_insert hst, NameSet.contains_insert hst, hs, or_left_comm]
        have himp : ∀ k ∈ mod.imports.toList, ¬ ReflTransGen (Imports load) k N := fun k hk hkN =>
          hN m (List.mem_cons_self _ _) (.head ⟨mod, hl, hk⟩ hkN)
        obtain ⟨t₂, ht₂, hi'⟩ := ih hins himp hi
        obtain ⟨t', ht', h'⟩ := ih ht₂ hms ht
        exact ⟨t', ht', by rwa [importModulesAux_fresh hm' ((hload m hmN).trans hl) hi']⟩

/-! ### From the roots -/

/-- Import closure, uniqueness and dependency order: from the empty state, the modules read
are those of a duplicate-free list `L` of names, which is the visited set and the set of
names reachable from the roots; when no reachable name leads back to itself, every import
of the module at position `p` is the name of a module before `p`. -/
theorem importModulesAux_closure [DecidableEq Name] (hst : StrictTotal (quickLt : Name → Name → Bool))
    {n : Nat} {roots : List Name} {visited : NameSet Name}
    {mods : Array (ModuleData Name ConstantInfo E)}
    (h : importModulesAux load n roots (∅, #[]) = some (.ok (visited, mods))) :
    ∃ L : List Name, L.Nodup ∧ L.map load = mods.toList.map Except.ok ∧
      (∀ k, visited.contains k = true ↔ k ∈ L) ∧ (∀ k, k ∈ L ↔ Reach load roots k) ∧
      ((∀ k, Reach load roots k → ¬ TransGen (Imports load) k k) →
        ∀ p (hp : p < mods.size), ∀ k ∈ mods[p].imports.toList, k ∈ L.take p) := by
  obtain ⟨L, ms, hms, hw⟩ := importModulesAux_spec hst h
  simp only [Array.toList_empty, List.nil_append] at hms
  subst hms
  have hvis : ∀ k, visited.contains k = true ↔ k ∈ L := fun k => by simp [hw.visited]
  have hlen : L.length = mods.size := by simpa using congrArg List.length hw.loaded
  have hsound : ∀ k ∈ L, Reach load roots k := hw.reach
  refine ⟨L, hw.nodup, hw.loaded, hvis, fun k => ⟨hsound k, ?_⟩, ?_⟩
  · rintro ⟨r, hr, hrk⟩
    induction hrk with
    | refl => exact (hvis r).1 (hw.pending_visited r hr)
    | tail _ hab ih => exact (hvis _).1 (hw.imports_visited _ ih _ hab)
  · intro hacyclic p hp k hk
    have hpL : p < L.length := hlen ▸ hp
    have hload : load L[p] = .ok mods[p] := by
      simpa [List.getElem?_eq_getElem hpL, hp] using congrArg (·[p]?) hw.loaded
    have himp : Imports load L[p] k := ⟨mods[p], hload, hk⟩
    have hsplit : L = L.take p ++ L[p] :: L.drop (p + 1) := by
      rw [← List.drop_eq_getElem_cons hpL, List.take_append_drop]
    rcases hw.order _ _ _ hsplit k himp with h | h | h
    · simp at h
    · exact h
    · exact absurd (TransGen.tail' h himp)
        (hacyclic k ((hsound _ (List.getElem_mem hpL)).tail himp))

/-- A diamond: modules `0` and `1` both import `2`. -/
def diamondStore : Nat → Except String (ModuleData Nat Nat Nat)
  | 0 => .ok ⟨#[2], #[], #[], .empty⟩
  | 1 => .ok ⟨#[2], #[], #[], .empty⟩
  | _ => .ok ⟨#[], #[], #[], .empty⟩

theorem importModulesAux_closure_diamond :
    ∃ L : List Nat, L.Nodup ∧
      L.map diamondStore = [⟨#[], #[], #[], .empty⟩, ⟨#[2], #[], #[], .empty⟩,
        ⟨#[2], #[], #[], .empty⟩].map Except.ok ∧
      (∀ k, (((∅ : NameSet Nat).insert 0).insert 2 |>.insert 1).contains k = true ↔ k ∈ L) ∧
      (∀ k, k ∈ L ↔ Reach diamondStore [0, 1] k) ∧
      ((∀ k, Reach diamondStore [0, 1] k → ¬ TransGen (Imports diamondStore) k k) →
        ∀ p (hp : p < (#[⟨#[], #[], #[], .empty⟩, ⟨#[2], #[], #[], .empty⟩,
            ⟨#[2], #[], #[], .empty⟩] : Array (ModuleData Nat Nat Nat)).size),
          ∀ k ∈ (#[⟨#[], #[], #[], .empty⟩, ⟨#[2], #[], #[], .empty⟩,
            ⟨#[2], #[], #[], .empty⟩] : Array (ModuleData Nat Nat Nat))[p].imports.toList,
            k ∈ L.take p) :=
  importModulesAux_closure strictTotal_nat (n := 4) rfl

/-- The measure of the walk: how many names of `K` are not yet visited. -/
def unvisited (K : List Name) (s : NameSet Name) : Nat := K.countP fun k => !s.contains k

theorem unvisited_mono {K : List Name} {s s' : NameSet Name}
    (h : ∀ k, s.contains k = true → s'.contains k = true) : unvisited K s' ≤ unvisited K s :=
  List.countP_mono_left fun k _ hk => by
    cases hs : s.contains k
    · rfl
    · simp [h k hs] at hk

theorem unvisited_insert_lt [DecidableEq Name] (hst : StrictTotal (quickLt : Name → Name → Bool))
    {K : List Name} {s : NameSet Name} {m : Name} (hK : m ∈ K) (hm : s.contains m = false) :
    unvisited K (s.insert m) < unvisited K s := by
  have hins := NameSet.contains_insert hst s m
  refine countP_lt_countP (fun k _ hk => ?_) hK (by simp [hm]) (by simp [(hins m).2 (.inl rfl)])
  cases hs : s.contains k
  · rfl
  · simp [(hins k).2 (.inr hs)] at hk

/-- From any state whose pending names are reachable, some fuel finishes the walk; by
strong induction on the unvisited names of `K`, then on the pending list. -/
theorem importModulesAux_defined [DecidableEq Name] (hst : StrictTotal (quickLt : Name → Name → Bool))
    {roots : List Name} (K : List Name) (hK : ∀ k, Reach load roots k → k ∈ K) (N : Nat) :
    ∀ s : NameSet Name, unvisited K s ≤ N → ∀ (pending : List Name)
      (mods : Array (ModuleData Name ConstantInfo E)), (∀ k ∈ pending, Reach load roots k) →
      ∃ n r, importModulesAux load n pending (s, mods) = some r := by
  induction N using Nat.strong_induction_on with
  | _ N ihN =>
  intro s hs pending
  induction pending with
  | nil => exact fun mods _ => ⟨0, _, importModulesAux_nil 0 _⟩
  | cons m ms ihp =>
    intro mods hp
    have hms : ∀ k ∈ ms, Reach load roots k := fun k hk => hp k (List.mem_cons_of_mem _ hk)
    cases hm : s.contains m
    · have hlt := unvisited_insert_lt hst (hK m (hp m (List.mem_cons_self _ _))) hm
      cases hl : load m with
      | error e => exact ⟨1, _, importModulesAux_load_error mods hm hl⟩
      | ok mod =>
        have himp : ∀ k ∈ mod.imports.toList, Reach load roots k := fun k hk =>
          (hp m (List.mem_cons_self _ _)).tail ⟨mod, hl, hk⟩
        obtain ⟨n₁, r₁, h₁⟩ := ihN _ (by omega) (s.insert m) le_rfl _ mods himp
        rcases r₁ with e | ⟨s₂, mods₂⟩
        · exact ⟨n₁ + 1, _, importModulesAux_imports_error hm hl h₁⟩
        · obtain ⟨L, ms', -, hw⟩ := importModulesAux_spec hst h₁
          have hle := unvisited_mono (K := K) fun k hk => (hw.visited k).2 (.inl hk)
          obtain ⟨n₂, r₂, h₂⟩ := ihN _ (by omega) s₂ le_rfl ms (mods₂.push mod) hms
          refine ⟨max n₁ n₂ + 1, r₂, ?_⟩
          rw [importModulesAux_fresh hm hl (importModulesAux_mono h₁ (le_max_left _ _))]
          exact importModulesAux_mono h₂ (le_max_right _ _)
    · obtain ⟨n, r, h⟩ := ihp mods hms
      exact ⟨n + 1, r, by rw [importModulesAux_visited mods hm]; exact h⟩

/-- Termination on every graph with finitely many reachable names, cycles and self-imports
included: some fuel gives a result, and every larger fuel the same one. -/
theorem importModulesAux_terminates [DecidableEq Name] (hst : StrictTotal (quickLt : Name → Name → Bool))
    (roots : List Name) (hfin : {k | Reach load roots k}.Finite) :
    ∃ fuel r, ∀ n, fuel ≤ n → importModulesAux load n roots (∅, #[]) = some r := by
  obtain ⟨n, r, h⟩ := importModulesAux_defined hst hfin.toFinset.toList (fun k hk => by simpa using hk)
    _ ∅ le_rfl roots #[] fun k hk => ⟨k, hk, .refl⟩
  exact ⟨n, r, fun _ hn => importModulesAux_mono h hn⟩

theorem importModulesAux_terminates_selfImport :
    ∃ fuel r, ∀ n, fuel ≤ n →
      importModulesAux (fun _ : Nat => (.ok ⟨#[0], #[], #[], .empty⟩ : Except String (ModuleData Nat Nat Nat)))
        n [0] (∅, #[]) = some r :=
  importModulesAux_terminates strictTotal_nat [0] <|
    (Set.finite_singleton 0).subset fun k ⟨r, hr, hrk⟩ => by
      induction hrk with
      | refl => simpa using hr
      | tail _ hab _ => obtain ⟨_, ⟨⟩, hk⟩ := hab; simpa using hk

end Walk

end Lean4Core
