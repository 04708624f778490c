import Lean4Core.Basic

/-!
# Red-black trees (`RBNode`)

The tree behind `NameSet` and behind the second stage of the declaration map (`SMap`).
The Lean source of `RBNode` is not among the modelled files; the definitions follow its
compiled specialisations in `object_ref.h` (`RBNode.ins`, `RBNode.insert` and `RBNode.find`
at `Environment.add` / `Environment.find`, `RBNode.fold` at `mkModuleData`), in which
`balance1`, `balance2` and `setBlack` are inlined.

A tree denotes its in-order association list `toList`; an ordered tree is one whose keys
are strictly increasing along that list. The results:

* `toList_balance1`, `toList_balance2` — rebalancing keeps the in-order list;
* `toList_ins`, `toList_insert` — on an ordered tree, insertion is `insertKV` on the
  in-order list: a new key goes before the first greater one, an equal key is replaced;
* `Ordered.insert` — insertion keeps the tree ordered;
* `find_eq_lookup`, `find_insert` — lookup is `List.lookup` on the in-order list, so an
  inserted value is read back and every other key keeps its value;
* `fold_eq_foldl` — `fold` visits the in-order list;
* `Balanced.ins`, `Balanced.insert` — insertion keeps the red-black invariant `Balanced`
  (root colour and black height); the black height grows by one when a red root is
  blackened;
* `insert_redBlack` — the same in the spec's terms (`NoRedRed`, `BlackHeight`), together
  with the order and the in-order list;
* `WellFormed.balanced` — every tree the API builds is a red-black tree.
-/

namespace Lean4Core

/-- Node colours. -/
inductive RBColor where
  | red | black
  deriving DecidableEq, Repr

/-- `RBNode α β`, with the non-dependent values the environment uses. -/
inductive RBNode (α β : Type) where
  | leaf
  | node (color : RBColor) (lchild : RBNode α β) (key : α) (val : β) (rchild : RBNode α β)
  deriving Repr

namespace RBNode

open RBColor

variable {α β : Type}

/-! ## The operations -/

def isRed : RBNode α β → Bool
  | node red .. => true
  | _ => false

def setBlack : RBNode α β → RBNode α β
  | node _ l k v r => node black l k v r
  | e => e

/-- Rebalancing after an insertion into the left child of a black node: the first
argument is the node with its left child dropped, the second the new left child. -/
def balance1 : RBNode α β → RBNode α β → RBNode α β
  | node _ _ kv vv t, node _ (node red l kx vx r₁) ky vy r₂ =>
      node red (node black l kx vx r₁) ky vy (node black r₂ kv vv t)
  | node _ _ kv vv t, node _ l₁ ky vy (node red l₂ kx vx r) =>
      node red (node black l₁ ky vy l₂) kx vx (node black r kv vv t)
  | node _ _ kv vv t, node _ l ky vy r => node black (node red l ky vy r) kv vv t
  | _, _ => leaf

/-- Rebalancing after an insertion into the right child of a black node. -/
def balance2 : RBNode α β → RBNode α β → RBNode α β
  | node _ t kv vv _, node _ (node red l kx₁ vx₁ r₁) ky vy r₂ =>
      node red (node black t kv vv l) kx₁ vx₁ (node black r₁ ky vy r₂)
  | node _ t kv vv _, node _ l₁ ky vy (node red l₂ kx₂ vx₂ r₂) =>
      node red (node black t kv vv l₁) ky vy (node black l₂ kx₂ vx₂ r₂)
  | node _ t kv vv _, node _ l ky vy r => node black t kv vv (node red l ky vy r)
  | _, _ => leaf

section Ops

variable (lt : α → α → Bool)

def ins : RBNode α β → α → β → RBNode α β
  | leaf, kx, vx => node red leaf kx vx leaf
  | node red a ky vy b, kx, vx =>
    if lt kx ky then node red (ins a kx vx) ky vy b
    else if lt ky kx then node red a ky vy (ins b kx vx)
    else node red a kx vx b
  | node black a ky vy b, kx, vx =>
    if lt kx ky then
      if isRed a then balance1 (node black leaf ky vy b) (ins a kx vx)
      else node black (ins a kx vx) ky vy b
    else if lt ky kx then
      if isRed b then balance2 (node black a ky vy leaf) (ins b kx vx)
      else node black a ky vy (ins b kx vx)
    else node black a kx vx b

def insert (t : RBNode α β) (k : α) (v : β) : RBNode α β :=
  if isRed t then setBlack (ins lt t k v) else ins lt t k v

def find : RBNode α β → α → Option β
  | leaf, _ => none
  | node _ a ky vy b, x =>
    if lt x ky then find a x
    else if lt ky x then find b x
    else some vy

end Ops

/-- In-order fold, as `RBMap.fold`. -/
def fold {σ : Type} (f : σ → α → β → σ) : σ → RBNode α β → σ
  | b, leaf => b
  | b, node _ l k v r => fold f (f (fold f b l) k v) r

/-! ## The in-order association list -/

/-- The in-order association list of a tree. -/
def toList : RBNode α β → List (α × β)
  | leaf => []
  | node _ l k v r => l.toList ++ (k, v) :: r.toList

@[simp] theorem toList_leaf : (leaf : RBNode α β).toList = [] := rfl

@[simp] theorem toList_node (c : RBColor) (l : RBNode α β) (k : α) (v : β) (r : RBNode α β) :
    (node c l k v r).toList = l.toList ++ (k, v) :: r.toList := rfl

@[simp] theorem toList_setBlack (t : RBNode α β) : (setBlack t).toList = t.toList := by
  cases t <;> rfl

theorem toList_balance1 {c : RBColor} {x t s : RBNode α β} {kv : α} {vv : β} (hs : s ≠ leaf) :
    (balance1 (node c x kv vv t) s).toList = s.toList ++ (kv, vv) :: t.toList := by
  cases s with
  | leaf => contradiction
  | node _ l _ _ r =>
    rcases l with _ | ⟨_ | _, _⟩ <;> rcases r with _ | ⟨_ | _, _⟩ <;> simp [balance1]

theorem toList_balance2 {c : RBColor} {x t s : RBNode α β} {kv : α} {vv : β} (hs : s ≠ leaf) :
    (balance2 (node c t kv vv x) s).toList = t.toList ++ (kv, vv) :: s.toList := by
  cases s with
  | leaf => contradiction
  | node _ l _ _ r =>
    rcases l with _ | ⟨_ | _, _⟩ <;> rcases r with _ | ⟨_ | _, _⟩ <;> simp [balance2]

/-- The fold visits the in-order list. -/
theorem fold_eq_foldl {σ : Type} (f : σ → α → β → σ) (t : RBNode α β) (b : σ) :
    t.fold f b = t.toList.foldl (fun b p => f b p.1 p.2) b := by
  induction t generalizing b with
  | leaf => rfl
  | node c l k v r ihl ihr => simp [fold, ihl, ihr]

theorem ne_leaf_of_toList_ne_nil {t : RBNode α β} (h : t.toList ≠ []) : t ≠ leaf := by
  rintro rfl; exact h rfl

theorem balance1_ne_leaf {c : RBColor} {x t s : RBNode α β} {kv : α} {vv : β} (hs : s ≠ leaf) :
    balance1 (node c x kv vv t) s ≠ leaf :=
  ne_leaf_of_toList_ne_nil (by simp [toList_balance1 hs])

theorem balance2_ne_leaf {c : RBColor} {x t s : RBNode α β} {kv : α} {vv : β} (hs : s ≠ leaf) :
    balance2 (node c t kv vv x) s ≠ leaf :=
  ne_leaf_of_toList_ne_nil (by simp [toList_balance2 hs])

/-! ## Sorted association lists -/

section Sorted

variable (lt : α → α → Bool)

/-- Keys strictly increasing along an association list. -/
def Sorted (l : List (α × β)) : Prop :=
  l.Pairwise (fun p q => lt p.1 q.1 = true)

/-- An ordered tree: its keys are strictly increasing in order. -/
def Ordered (t : RBNode α β) : Prop := Sorted lt t.toList

/-- Insertion into a sorted association list: before the first greater key, or in place
of the entry of an equal key. This is what `ins` does to the in-order list. -/
def insertKV (k : α) (v : β) : List (α × β) → List (α × β)
  | [] => [(k, v)]
  | (k', v') :: l =>
    if lt k k' then (k, v) :: (k', v') :: l
    else if lt k' k then (k', v') :: insertKV k v l
    else (k, v) :: l

end Sorted

variable {lt : α → α → Bool}

theorem Sorted.of_append_cons {l r : List (α × β)} {k : α} {v : β}
    (hs : Sorted lt (l ++ (k, v) :: r)) :
    Sorted lt l ∧ Sorted lt r ∧ (∀ p ∈ l, lt p.1 k = true) ∧ (∀ p ∈ r, lt k p.1 = true) := by
  simp only [Sorted, List.pairwise_append, List.pairwise_cons] at hs
  obtain ⟨hl, ⟨hk, hr⟩, hlr⟩ := hs
  exact ⟨hl, hr, fun p hp => hlr p hp _ (.head _), hk⟩

/-- `insertKV` walks past a prefix of smaller keys. -/
theorem insertKV_append {l : List (α × β)} (m : List (α × β)) {k : α} (v : β)
    (hl : ∀ p ∈ l, lt p.1 k = true ∧ lt k p.1 = false) :
    insertKV lt k v (l ++ m) = l ++ insertKV lt k v m := by
  induction l with
  | nil => rfl
  | cons p l ih =>
    obtain ⟨h1, h2⟩ := hl p (.head _)
    simp [insertKV, h1, h2, ih fun q hq => hl q (.tail _ hq)]

/-- Inserting a key below `ky` does not look past `ky`. -/
theorem insertKV_append_left (l r : List (α × β)) {k ky : α} (v vy : β)
    (hk : lt k ky = true) :
    insertKV lt k v (l ++ (ky, vy) :: r) = insertKV lt k v l ++ (ky, vy) :: r := by
  induction l with
  | nil => simp [insertKV, hk]
  | cons p l ih =>
    obtain ⟨k', v'⟩ := p
    simp only [List.cons_append, insertKV]
    split_ifs <;> simp [ih]

theorem mem_insertKV {l : List (α × β)} {k : α} {v : β} {p : α × β}
    (hp : p ∈ insertKV lt k v l) : p = (k, v) ∨ p ∈ l := by
  induction l with
  | nil => simpa [insertKV] using hp
  | cons q l ih =>
    obtain ⟨k', v'⟩ := q
    simp only [insertKV] at hp
    split_ifs at hp <;> simp only [List.mem_cons] at hp ⊢ <;> aesop

theorem ins_ne_leaf (k : α) (v : β) : ∀ t : RBNode α β, t.ins lt k v ≠ leaf
  | leaf => by simp [ins]
  | node c a ky vy b => by
    have ha := ins_ne_leaf k v a
    have hb := ins_ne_leaf k v b
    cases c <;> simp only [ins] <;> split_ifs <;>
      first
      | exact fun h => RBNode.noConfusion h
      | exact balance1_ne_leaf ha
      | exact balance2_ne_leaf hb

/-- `ins` below a node's key goes left, whatever the colour and the rebalancing. -/
theorem toList_ins_node_lt {c : RBColor} {a b : RBNode α β} {k ky : α} {v vy : β}
    (hk : lt k ky = true) :
    ((node c a ky vy b).ins lt k v).toList = (a.ins lt k v).toList ++ (ky, vy) :: b.toList := by
  cases c <;> simp [ins, hk]
  split <;> simp [toList_balance1 (ins_ne_leaf k v a)]

theorem toList_ins_node_gt {c : RBColor} {a b : RBNode α β} {k ky : α} {v vy : β}
    (hk : lt k ky = false) (hk' : lt ky k = true) :
    ((node c a ky vy b).ins lt k v).toList = a.toList ++ (ky, vy) :: (b.ins lt k v).toList := by
  cases c <;> simp [ins, hk, hk']
  split <;> simp [toList_balance2 (ins_ne_leaf k v b)]

theorem toList_ins_node_eq {c : RBColor} {a b : RBNode α β} {k ky : α} {v vy : β}
    (hk : lt k ky = false) (hk' : lt ky k = false) :
    ((node c a ky vy b).ins lt k v).toList = a.toList ++ (k, v) :: b.toList := by
  cases c <;> simp [ins, hk, hk']

@[simp] theorem toList_insert (t : RBNode α β) (k : α) (v : β) :
    (t.insert lt k v).toList = (t.ins lt k v).toList := by
  unfold insert; split <;> simp

section StrictTotal

variable (h : StrictTotal lt)
include h

theorem Sorted.insertKV {l : List (α × β)} (k : α) (v : β) (hs : Sorted lt l) :
    Sorted lt (insertKV lt k v l) := by
  induction l with
  | nil => simp [RBNode.insertKV, Sorted]
  | cons q l ih =>
    obtain ⟨k', v'⟩ := q
    simp only [Sorted, List.pairwise_cons] at hs ⊢
    obtain ⟨hk', hl⟩ := hs
    simp only [RBNode.insertKV]
    split_ifs with h1 h2
    · simp only [List.pairwise_cons, List.mem_cons, forall_eq_or_imp]
      exact ⟨⟨h1, fun q hq => h.trans _ _ _ h1 (hk' q hq)⟩, hk', hl⟩
    · simp only [List.pairwise_cons]
      refine ⟨fun q hq => ?_, ih hl⟩
      rcases mem_insertKV hq with rfl | hq
      · exact h2
      · exact hk' q hq
    · obtain rfl := h.eq_of_incomparable _ _ (by simpa using h1) (by simpa using h2)
      exact List.pairwise_cons.mpr ⟨hk', hl⟩

/-- On an ordered tree, `ins` is `insertKV` on the in-order list. -/
theorem toList_ins (k : α) (v : β) :
    ∀ {t : RBNode α β}, t.Ordered lt → (t.ins lt k v).toList = insertKV lt k v t.toList
  | leaf, _ => rfl
  | node c a ky vy b, ht => by
    obtain ⟨ha, hb, hlo, _⟩ := Sorted.of_append_cons ht
    have below : ∀ p ∈ a.toList, lt ky k = true → lt p.1 k = true ∧ lt k p.1 = false :=
      fun p hp h2 => have h3 := h.trans _ _ _ (hlo p hp) h2; ⟨h3, h.asymm h3⟩
    cases h1 : lt k ky
    · cases h2 : lt ky k
      · obtain rfl := h.eq_of_incomparable _ _ h1 h2
        rw [toList_ins_node_eq h1 h2, toList_node,
          insertKV_append _ _ fun p hp => ⟨hlo p hp, h.asymm (hlo p hp)⟩]
        simp [insertKV, h.irrefl]
      · rw [toList_ins_node_gt h1 h2, toList_ins k v hb, toList_node,
          insertKV_append _ _ fun p hp => below p hp h2]
        simp [insertKV, h1, h2]
    · rw [toList_ins_node_lt h1, toList_ins k v ha, toList_node, insertKV_append_left _ _ _ _ h1]

theorem Ordered.insert {t : RBNode α β} (k : α) (v : β) (ht : t.Ordered lt) :
    (t.insert lt k v).Ordered lt := by
  simpa [Ordered, toList_ins h k v ht] using Sorted.insertKV h k v ht

/-! ## Lookup -/

variable [DecidableEq α]


theorem lookup_eq_none_of_lt {l : List (α × β)} {k : α} (hl : ∀ p ∈ l, lt p.1 k = true) :
    l.lookup k = none :=
  List.lookup_eq_none_iff.mpr fun p hp => by simpa using (h.ne_of_lt (hl p hp)).symm

theorem lookup_eq_none_of_gt {l : List (α × β)} {k : α} (hl : ∀ p ∈ l, lt k p.1 = true) :
    l.lookup k = none :=
  List.lookup_eq_none_iff.mpr fun p hp => by simpa using h.ne_of_lt (hl p hp)

theorem lookup_insertKV (l : List (α × β)) (k k' : α) (v : β) :
    (insertKV lt k v l).lookup k' = if k' = k then some v else l.lookup k' := by
  induction l with
  | nil => simp [insertKV, lookup_cons_ite]
  | cons q l ih =>
    obtain ⟨k'', v''⟩ := q
    cases h1 : lt k k''
    · cases h2 : lt k'' k
      · obtain rfl := h.eq_of_incomparable _ _ h1 h2
        by_cases e : k' = k <;> simp [insertKV, h1, lookup_cons_ite, e]
      · have hne := h.ne_of_lt h2
        simp only [insertKV, h1, h2, Bool.false_eq_true, if_false, if_true, lookup_cons_ite, ih]
        by_cases e : k' = k'' <;> simp [e, hne]
    · simp [insertKV, h1, lookup_cons_ite]

/-- On an ordered tree, `find` is `List.lookup` on the in-order list. -/
theorem find_eq_lookup (k : α) : ∀ {t : RBNode α β}, t.Ordered lt → t.find lt k = t.toList.lookup k
  | leaf, _ => rfl
  | node c a ky vy b, ht => by
    obtain ⟨ha, hb, hlo, hhi⟩ := Sorted.of_append_cons ht
    simp only [find, toList_node, List.lookup_append]
    cases h1 : lt k ky
    · cases h2 : lt ky k
      · obtain rfl := h.eq_of_incomparable _ _ h1 h2
        simp [lookup_eq_none_of_lt h hlo, lookup_cons_ite]
      · have : ∀ p ∈ a.toList, lt p.1 k = true := fun p hp => h.trans _ _ _ (hlo p hp) h2
        simp [lookup_eq_none_of_lt h this, lookup_cons_ite, find_eq_lookup k hb,
          (h.ne_of_lt h2).symm]
    · have : ∀ p ∈ b.toList, lt k p.1 = true := fun p hp => h.trans _ _ _ h1 (hhi p hp)
      simp [lookup_eq_none_of_gt h this, lookup_cons_ite, find_eq_lookup k ha, h.ne_of_lt h1]

/-- Insertion into an ordered tree is read back, and leaves every other key alone. -/
theorem find_insert {t : RBNode α β} (ht : t.Ordered lt) (k k' : α) (v : β) :
    (t.insert lt k v).find lt k' = if k' = k then some v else t.find lt k' := by
  rw [find_eq_lookup h k' (ht.insert h k v), find_eq_lookup h k' ht, toList_insert,
    toList_ins h k v ht, lookup_insertKV h]

/-! ## Values inserted under their own keys -/

variable {key : β → α}

/-- Inserting values in order, each under its key, into a sorted list of values under their
keys gives such a list again, in which a key's value is the last one inserted under it, or
else its value before. -/
theorem foldl_insertKV (vs : List β) :
    ∀ l : List (α × β), Sorted lt l → (∀ p ∈ l, key p.2 = p.1) →
      let l' := vs.foldl (fun l v => insertKV lt (key v) v l) l
      Sorted lt l' ∧ (∀ p ∈ l', key p.2 = p.1) ∧
        ∀ k, l'.lookup k = (vs.reverse.find? (key · == k)).or (l.lookup k) := by
  induction vs with
  | nil => exact fun l hs hk => ⟨hs, hk, fun _ => rfl⟩
  | cons v vs ih =>
    intro l hs hk
    obtain ⟨hs', hk', hl'⟩ := ih _ (hs.insertKV h (key v) v) fun p hp => by
      rcases mem_insertKV hp with rfl | hp
      exacts [rfl, hk p hp]
    refine ⟨hs', hk', fun k => ?_⟩
    rw [List.foldl_cons, hl' k, lookup_insertKV h, List.reverse_cons, List.find?_append,
      Option.or_assoc]
    by_cases e : k = key v
    · simp [e]
    · simp [e, Ne.symm e]

/-- In a sorted list of values under their keys, the values under a key are the one
`lookup` finds, or none. -/
theorem filter_map_snd_eq_lookup {l : List (α × β)} (hs : Sorted lt l)
    (hk : ∀ p ∈ l, key p.2 = p.1) (k : α) :
    (l.map Prod.snd).filter (key · == k) = (l.lookup k).toList := by
  induction l with
  | nil => rfl
  | cons p l ih =>
    obtain ⟨k', v⟩ := p
    simp only [Sorted, List.pairwise_cons] at hs
    have hv : key v = k' := hk _ (List.mem_cons_self _ _)
    rw [List.map_cons, List.filter_cons, lookup_cons_ite,
      ih hs.2 fun p hp => hk p (List.mem_cons_of_mem _ hp)]
    by_cases e : k = k'
    · subst e
      simp [hv, lookup_eq_none_of_gt h hs.1]
    · simp [hv, e, Ne.symm e]

end StrictTotal

/-! ## The red-black invariants -/

/-- Specification: no red node has a red child. -/
def NoRedRed : RBNode α β → Prop
  | leaf => True
  | node red l _ _ r => l.isRed = false ∧ r.isRed = false ∧ l.NoRedRed ∧ r.NoRedRed
  | node black l _ _ r => l.NoRedRed ∧ r.NoRedRed

/-- Specification: every path from the root down to a leaf passes `n` black nodes. -/
def BlackHeight : RBNode α β → Nat → Prop
  | leaf, n => n = 0
  | node red l _ _ r, n => l.BlackHeight n ∧ r.BlackHeight n
  | node black _ _ _ _, 0 => False
  | node black l _ _ r, n + 1 => l.BlackHeight n ∧ r.BlackHeight n

/-- A red-black tree with root colour `c` (a leaf is black) and black height `n`. -/
inductive Balanced : RBNode α β → RBColor → Nat → Prop
  | leaf : Balanced leaf black 0
  | red {l r : RBNode α β} {k : α} {v : β} {n : Nat} :
      Balanced l black n → Balanced r black n → Balanced (node red l k v r) red n
  | black {l r : RBNode α β} {k : α} {v : β} {c₁ c₂ : RBColor} {n : Nat} :
      Balanced l c₁ n → Balanced r c₂ n → Balanced (node black l k v r) black (n + 1)

/-- What `ins` leaves below a red node: balanced, or a red root over balanced children of
any colour when `p` holds. -/
inductive RedRed (p : Prop) : RBNode α β → Nat → Prop
  | balanced {t : RBNode α β} {c : RBColor} {n : Nat} : Balanced t c n → RedRed p t n
  | redred {l r : RBNode α β} {k : α} {v : β} {c₁ c₂ : RBColor} {n : Nat} :
      p → Balanced l c₁ n → Balanced r c₂ n → RedRed p (node red l k v r) n

theorem Balanced.isRed_eq_false {t : RBNode α β} {n : Nat} (h : t.Balanced .black n) : t.isRed = false := by
  cases h <;> rfl

theorem Balanced.color_eq_black {t : RBNode α β} {c : RBColor} {n : Nat} (h : t.Balanced c n)
    (hr : t.isRed = false) : c = .black := by
  cases h <;> simp_all [isRed]

/-- A balanced tree has no red node with a red child, and black height `n`. -/
theorem Balanced.noRedRed_blackHeight {t : RBNode α β} {c : RBColor} {n : Nat} (h : t.Balanced c n) :
    t.NoRedRed ∧ t.BlackHeight n := by
  induction h with
  | leaf => exact ⟨trivial, rfl⟩
  | red hl hr ihl ihr => exact ⟨⟨hl.isRed_eq_false, hr.isRed_eq_false, ihl.1, ihr.1⟩, ihl.2, ihr.2⟩
  | black _ _ ihl ihr => exact ⟨⟨ihl.1, ihr.1⟩, ihl.2, ihr.2⟩

/-- Conversely, the two invariants of the spec make a tree balanced. -/
theorem balanced_of_noRedRed : ∀ {t : RBNode α β} {n : Nat}, t.NoRedRed → t.BlackHeight n →
    ∃ c, t.Balanced c n
  | leaf, n, _, hb => ⟨.black, (show n = 0 from hb) ▸ .leaf⟩
  | node red l _ _ r, _, ⟨hl, hr, hl', hr'⟩, ⟨hbl, hbr⟩ => by
    obtain ⟨cl, bl⟩ := balanced_of_noRedRed hl' hbl
    obtain ⟨cr, br⟩ := balanced_of_noRedRed hr' hbr
    rw [bl.color_eq_black hl] at bl
    rw [br.color_eq_black hr] at br
    exact ⟨_, .red bl br⟩
  | node black _ _ _ _, 0, _, hb => hb.elim
  | node black l _ _ r, _ + 1, ⟨hl', hr'⟩, ⟨hbl, hbr⟩ => by
    obtain ⟨_, bl⟩ := balanced_of_noRedRed hl' hbl
    obtain ⟨_, br⟩ := balanced_of_noRedRed hr' hbr
    exact ⟨_, .black bl br⟩

theorem RedRed.of_red {p : Prop} {l r : RBNode α β} {k : α} {v : β} {n : Nat} :
    RedRed p (node .red l k v r) n → ∃ c₁ c₂, l.Balanced c₁ n ∧ r.Balanced c₂ n
  | .balanced (.red hl hr) | .redred _ hl hr => ⟨_, _, hl, hr⟩

theorem RedRed.of_false {p : Prop} {t : RBNode α β} {n : Nat} (h : RedRed p t n) (hp : ¬p) :
    ∃ c, t.Balanced c n := by
  cases h with
  | balanced h => exact ⟨_, h⟩
  | redred h => exact absurd h hp

/-- `balance1` turns a red node over balanced children of black height `n`, one of which may
be red, hung left of a black node whose right child has black height `n`, into a balanced
tree of black height `n + 1`. -/
theorem Balanced.balance1 {c₀ c₁ c₂ c₃ : RBColor} {l r x t : RBNode α β} {kv ky : α} {vv vy : β}
    {n : Nat} (hl : l.Balanced c₁ n) (hr : r.Balanced c₂ n) (ht : t.Balanced c₃ n) :
    ∃ c, (balance1 (node c₀ x kv vv t) (node .red l ky vy r)).Balanced c (n + 1) := by
  cases hl with
  | red ha hb => simp only [RBNode.balance1]; exact ⟨_, .red (.black ha hb) (.black hr ht)⟩
  | leaf =>
    cases hr with
    | leaf => exact ⟨_, .black (.red .leaf .leaf) ht⟩
    | red hc hd => exact ⟨_, .red (.black .leaf hc) (.black hd ht)⟩
  | black ha hb =>
    cases hr with
    | red hc hd => exact ⟨_, .red (.black (.black ha hb) hc) (.black hd ht)⟩
    | black hc hd => exact ⟨_, .black (.red (.black ha hb) (.black hc hd)) ht⟩

/-- The mirror image, for `balance2`. -/
theorem Balanced.balance2 {c₀ c₁ c₂ c₃ : RBColor} {l r x t : RBNode α β} {kv ky : α} {vv vy : β}
    {n : Nat} (hl : l.Balanced c₁ n) (hr : r.Balanced c₂ n) (ht : t.Balanced c₃ n) :
    ∃ c, (balance2 (node c₀ t kv vv x) (node .red l ky vy r)).Balanced c (n + 1) := by
  cases hl with
  | red ha hb => simp only [RBNode.balance2]; exact ⟨_, .red (.black ht ha) (.black hb hr)⟩
  | leaf =>
    cases hr with
    | leaf => exact ⟨_, .black ht (.red .leaf .leaf)⟩
    | red hc hd => exact ⟨_, .red (.black ht .leaf) (.black hc hd)⟩
  | black ha hb =>
    cases hr with
    | red hc hd => exact ⟨_, .red (.black ht (.black ha hb)) (.black hc hd)⟩
    | black hc hd => exact ⟨_, .black ht (.red (.black ha hb) (.black hc hd))⟩

/-- `ins` below a red node gives a red node. -/
theorem ins_red (lt : α → α → Bool) (a b : RBNode α β) (ky k : α) (vy v : β) :
    ∃ l k' v' r, (node red a ky vy b).ins lt k v = node red l k' v' r := by
  simp only [ins]; split_ifs <;> exact ⟨_, _, _, _, rfl⟩

/-- `ins` keeps a tree balanced, but for a red-red violation at the root when the root was
red. -/
theorem Balanced.ins (lt : α → α → Bool) {t : RBNode α β} {c : RBColor} {n : Nat} (k : α) (v : β)
    (h : t.Balanced c n) :
    RedRed (t.isRed = true) (t.ins lt k v) n := by
  induction h with
  | leaf => exact .balanced (.red .leaf .leaf)
  | @red a b ky vy n ha hb iha ihb =>
    obtain ⟨_, ha'⟩ := iha.of_false (by simp [ha.isRed_eq_false])
    obtain ⟨_, hb'⟩ := ihb.of_false (by simp [hb.isRed_eq_false])
    simp only [RBNode.ins]
    split_ifs
    exacts [.redred rfl ha' hb, .redred rfl ha hb', .balanced (.red ha hb)]
  | @black a b ky vy _ _ n ha hb iha ihb =>
    simp only [RBNode.ins]
    split_ifs with h₁ hra h₂ hrb
    · obtain ⟨a₁, _, _, a₂, rfl⟩ : ∃ a₁ k₁ v₁ a₂, a = node .red a₁ k₁ v₁ a₂ := by
        cases a with
        | leaf => simp [isRed] at hra
        | node c => cases c <;> simp_all [isRed]
      obtain ⟨_, _, _, _, e⟩ := ins_red lt a₁ a₂ _ k _ v
      rw [e] at iha ⊢
      obtain ⟨_, _, hl, hr⟩ := iha.of_red
      obtain ⟨_, hbal⟩ := hl.balance1 hr hb
      exact .balanced hbal
    · obtain ⟨_, ha'⟩ := iha.of_false (by simpa using hra)
      exact .balanced (.black ha' hb)
    · obtain ⟨b₁, _, _, b₂, rfl⟩ : ∃ b₁ k₁ v₁ b₂, b = node .red b₁ k₁ v₁ b₂ := by
        cases b with
        | leaf => simp [isRed] at hrb
        | node c => cases c <;> simp_all [isRed]
      obtain ⟨_, _, _, _, e⟩ := ins_red lt b₁ b₂ _ k _ v
      rw [e] at ihb ⊢
      obtain ⟨_, _, hl, hr⟩ := ihb.of_red
      obtain ⟨_, hbal⟩ := hl.balance2 hr ha
      exact .balanced hbal
    · obtain ⟨_, hb'⟩ := ihb.of_false (by simpa using hrb)
      exact .balanced (.black ha hb')
    · exact .balanced (.black ha hb)

/-- `insert` keeps a tree balanced; the black height grows by one exactly when the root was
red and is blackened. -/
theorem Balanced.insert (lt : α → α → Bool) {t : RBNode α β} {c : RBColor} {n : Nat} (k : α) (v : β)
    (h : t.Balanced c n) :
    ∃ c', (t.insert lt k v).Balanced c' n ∨ (t.insert lt k v).Balanced c' (n + 1) := by
  unfold RBNode.insert
  split
  · obtain ⟨a, _, _, b, rfl⟩ : ∃ a k₁ v₁ b, t = node .red a k₁ v₁ b := by
      cases h with
      | red => exact ⟨_, _, _, _, rfl⟩
      | _ => simp_all [isRed]
    obtain ⟨_, _, _, _, e⟩ := ins_red lt a b _ k _ v
    have hi := h.ins lt k v
    rw [e] at hi ⊢
    obtain ⟨_, _, hl, hr⟩ := hi.of_red
    exact ⟨_, .inr (.black hl hr)⟩
  · obtain ⟨_, hi⟩ := (h.ins lt k v).of_false (by assumption)
    exact ⟨_, .inl hi⟩

/-- `RBNode.insert` keeps the red-black and the search-tree invariants: on a tree whose
in-order keys increase, with no red node over a red child and the same number of black
nodes on every path, an insertion gives such a tree again, of black height grown by at most
one, whose in-order list is `insertKV`: the entry of `k` replaced, or `(k, v)` put before
the first greater key. -/
theorem insert_redBlack (h : StrictTotal lt) {t : RBNode α β} {n : Nat} (ho : t.Ordered lt)
    (hr : t.NoRedRed) (hb : t.BlackHeight n) (k : α) (v : β) :
    (t.insert lt k v).Ordered lt ∧ (t.insert lt k v).NoRedRed ∧
      ((t.insert lt k v).BlackHeight n ∨ (t.insert lt k v).BlackHeight (n + 1)) ∧
      (t.insert lt k v).toList = insertKV lt k v t.toList := by
  obtain ⟨_, hbal⟩ := balanced_of_noRedRed hr hb
  obtain ⟨_, hi | hi⟩ := hbal.insert lt k v
  all_goals
    exact ⟨ho.insert h k v, hi.noRedRed_blackHeight.1, by simp [hi.noRedRed_blackHeight.2],
      by rw [toList_insert, toList_ins h k v ho]⟩

/-- A red child under a black root: inserting a smaller key rotates right. -/
theorem insert_redBlack_rotate :
    let t : RBNode Nat Nat := node black (node red leaf 1 10 leaf) 2 20 leaf
    (t.insert quickLt 0 0).NoRedRed ∧
      ((t.insert quickLt 0 0).BlackHeight 1 ∨ (t.insert quickLt 0 0).BlackHeight 2) ∧
      (t.insert quickLt 0 0).toList = [(0, 0), (1, 10), (2, 20)] := by
  intro t
  obtain ⟨-, hr, hb, hl⟩ := insert_redBlack strictTotal_nat
    (by unfold Ordered Sorted; decide : t.Ordered quickLt) (by simp [t, NoRedRed, isRed])
    (by simp [t, BlackHeight] : t.BlackHeight 1) 0 0
  exact ⟨hr, hb, hl.trans (by decide)⟩

/-! ## Trees built by the API -/

/-- The trees the API builds: the leaf and insertions into it (`RBNode.WellFormed`). -/
inductive WellFormed (lt : α → α → Bool) : RBNode α β → Prop
  | leafWff : WellFormed lt leaf
  | insertWff {n n' : RBNode α β} {k : α} {v : β} :
      WellFormed lt n → n' = n.insert lt k v → WellFormed lt n'

theorem WellFormed.ordered (h : StrictTotal lt) {t : RBNode α β} (ht : t.WellFormed lt) :
    t.Ordered lt := by
  induction ht with
  | leafWff => exact List.Pairwise.nil
  | insertWff _ e ih => exact e ▸ ih.insert h _ _

/-- Every tree the API builds is a red-black tree. -/
theorem WellFormed.balanced {t : RBNode α β} (ht : t.WellFormed lt) : ∃ c n, t.Balanced c n := by
  induction ht with
  | leafWff => exact ⟨_, _, .leaf⟩
  | insertWff _ e ih =>
    obtain ⟨_, _, hb⟩ := ih
    obtain ⟨_, hi | hi⟩ := hb.insert lt _ _ <;> exact e ▸ ⟨_, _, hi⟩

end RBNode

/-- A red-black map: a tree the API built. -/
def RBMap (α β : Type) (lt : α → α → Bool) := { t : RBNode α β // t.WellFormed lt }

namespace RBMap

open RBNode

variable {α β : Type} {lt : α → α → Bool}

def empty : RBMap α β lt := ⟨leaf, .leafWff⟩

instance : EmptyCollection (RBMap α β lt) := ⟨empty⟩

def insert (m : RBMap α β lt) (k : α) (v : β) : RBMap α β lt :=
  ⟨m.val.insert lt k v, .insertWff m.property rfl⟩

def find (m : RBMap α β lt) (k : α) : Option β := m.val.find lt k

def contains (m : RBMap α β lt) (k : α) : Bool := (m.find k).isSome

def fold {σ : Type} (f : σ → α → β → σ) (b : σ) (m : RBMap α β lt) : σ := m.val.fold f b

@[simp] theorem find_empty (k : α) : (∅ : RBMap α β lt).find k = none := rfl

theorem find_insert [DecidableEq α] (h : StrictTotal lt) (m : RBMap α β lt) (k k' : α) (v : β) :
    (m.insert k v).find k' = if k' = k then some v else m.find k' :=
  RBNode.find_insert h (m.property.ordered h) k k' v

theorem nodup_keys (h : StrictTotal lt) (m : RBMap α β lt) : (m.val.toList.map Prod.fst).Nodup :=
  List.pairwise_map.2 ((m.property.ordered h).imp fun hpq => h.ne_of_lt hpq)

theorem find_eq_lookup [DecidableEq α] (h : StrictTotal lt) (m : RBMap α β lt) (k : α) :
    m.find k = m.val.toList.lookup k :=
  RBNode.find_eq_lookup h k (m.property.ordered h)

theorem toList_insert (h : StrictTotal lt) (m : RBMap α β lt) (k : α) (v : β) :
    (m.insert k v).val.toList = insertKV lt k v m.val.toList := by
  simp [insert, toList_ins h k v (m.property.ordered h)]

end RBMap

end Lean4Core
