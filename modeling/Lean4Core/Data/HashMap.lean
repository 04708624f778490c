import Lean4Core.Data.RBNode

/-!
# Hash maps (`HashMapImp`)

The chained hash table behind the first stage of the declaration map and behind the
module index `const2ModIdx`. As for `RBNode`, the Lean source is not among the modelled
files and the definitions follow the compiled specialisations in `object_ref.h`
(`HashMapImp.insert`, `expand`, `moveEntries`, `AssocList.foldl`, `AssocList.replace`,
`AssocList.contains` at `Environment.add`; `HashMapImp.find` at `Environment.find`).
A bucket index is `Name.hash` reduced modulo the number of buckets (`usize_modn`).

The map denotes the list of all its entries, bucket after bucket (`toList`). The
invariant `Wf` — every entry sits in the bucket of its hash, no key occurs twice, `size`
counts the entries and does not exceed the number of buckets — holds of the empty map
and is kept by `insert`, doubling included (`Wf.insert`). On a well-formed map `find` is
`List.lookup` on `toList` (`find_eq_lookup`), and an insertion is read back while every
other key keeps its value (`find_insert`); the entries after an insertion are the new one
and the old ones of every other key (`mem_toList_insert`). `insert_wf_find` gathers these.
-/

namespace Lean4Core

/-- The bucket lists of a hash map. -/
inductive AssocList (α β : Type) where
  | nil
  | cons (key : α) (value : β) (tail : AssocList α β)
  deriving Repr

namespace AssocList

variable {α β δ : Type}

def foldl (f : δ → α → β → δ) : δ → AssocList α β → δ
  | d, nil => d
  | d, cons a b es => foldl f (f d a b) es

/-- The entries of a bucket, front first. -/
def toList : AssocList α β → List (α × β)
  | nil => []
  | cons a b es => (a, b) :: es.toList

@[simp] theorem toList_nil : (nil : AssocList α β).toList = [] := rfl

@[simp] theorem toList_cons (a : α) (b : β) (es : AssocList α β) :
    (cons a b es).toList = (a, b) :: es.toList := rfl

theorem foldl_eq (f : δ → α → β → δ) (d : δ) (es : AssocList α β) :
    es.foldl f d = es.toList.foldl (fun d p => f d p.1 p.2) d := by
  induction es generalizing d with
  | nil => rfl
  | cons a b es ih => simp [foldl, ih]

variable [DecidableEq α]

def contains (a : α) : AssocList α β → Bool
  | nil => false
  | cons k _ es => k = a || contains a es

def find (a : α) : AssocList α β → Option β
  | nil => none
  | cons k v es => if k = a then some v else find a es

/-- Replace the first entry of key `a`. -/
def replace (a : α) (b : β) : AssocList α β → AssocList α β
  | nil => nil
  | cons k v es => if k = a then cons a b es else cons k v (replace a b es)

theorem find_eq_lookup (a : α) (es : AssocList α β) : es.find a = es.toList.lookup a := by
  induction es with
  | nil => rfl
  | cons k v es ih => simp [find, lookup_cons_ite, ih, @eq_comm _ k a]

theorem contains_iff (a : α) (es : AssocList α β) :
    es.contains a = true ↔ a ∈ es.toList.map Prod.fst := by
  induction es with
  | nil => simp [contains]
  | cons k v es ih => simp [contains, ih, @eq_comm _ k a]

theorem keys_replace (a : α) (b : β) (es : AssocList α β) :
    (es.replace a b).toList.map Prod.fst = es.toList.map Prod.fst := by
  induction es with
  | nil => rfl
  | cons k v es ih => by_cases e : k = a <;> simp [replace, e, ih]

theorem mem_replace {a : α} {b : β} {es : AssocList α β} {p : α × β}
    (hp : p ∈ (es.replace a b).toList) : p = (a, b) ∨ p ∈ es.toList := by
  induction es with
  | nil => simp [replace] at hp
  | cons k v es ih =>
    by_cases e : k = a
    · simp only [replace, e, if_true, toList_cons, List.mem_cons] at hp
      exact hp.imp_right (List.mem_cons_of_mem _)
    · simp only [replace, e, if_false, toList_cons, List.mem_cons] at hp
      rcases hp with rfl | hp
      · exact .inr (List.mem_cons_self _ _)
      · exact (ih hp).imp_right (List.mem_cons_of_mem _)

/-- Replacing an existing key changes that key's value only. -/
theorem lookup_replace {a : α} {b : β} {es : AssocList α β} (ha : es.contains a = true) (k : α) :
    (es.replace a b).toList.lookup k = if k = a then some b else es.toList.lookup k := by
  induction es with
  | nil => simp [contains] at ha
  | cons k' v es ih =>
    by_cases e : k' = a
    · subst e; by_cases e' : k = k' <;> simp [replace, lookup_cons_ite, e']
    · simp only [contains, e, decide_False, Bool.false_or] at ha
      by_cases e' : k = k' <;> simp [replace, lookup_cons_ite, e, e', ih ha]

end AssocList

/-- The bucket array of a hash map; it is never empty. -/
def HashMapBucket (α β : Type) := { b : Array (AssocList α β) // b.size > 0 }

structure HashMapImp (α β : Type) where
  size : Nat
  buckets : HashMapBucket α β

namespace HashMapImp

variable {α β : Type} [DecidableEq α] [Hashable α]

/-- `mkIdx`: the bucket of a hash value, `u %ₙ n`. -/
def mkIdx {n : Nat} (h : n > 0) (u : UInt64) : { i : Nat // i < n } :=
  ⟨u.toNat % n, Nat.mod_lt _ h⟩

/-- An empty map with `nbuckets` buckets (8 when asked for none). -/
def mkHashMapImp (nbuckets : Nat := 8) : HashMapImp α β :=
  let n := if nbuckets = 0 then 8 else nbuckets
  { size := 0, buckets := ⟨mkArray n .nil, by simp only [Array.size_mkArray, n]; split <;> omega⟩ }

/-- Push an entry onto the front of its bucket. -/
def reinsertAux (data : HashMapBucket α β) (a : α) (b : β) : HashMapBucket α β :=
  let ⟨i, h⟩ := mkIdx data.property (hash a)
  ⟨data.val.set ⟨i, h⟩ (.cons a b data.val[i]), by simpa using data.property⟩

/-- Move the buckets of `source`, from index `i` on, into `target`. -/
def moveEntries (i : Nat) (source : Array (AssocList α β)) (target : HashMapBucket α β) :
    HashMapBucket α β :=
  if h : i < source.size then
    let es := source[i]
    let source := source.set ⟨i, h⟩ .nil
    let target := es.foldl reinsertAux target
    moveEntries (i + 1) source target
  else target
termination_by source.size - i
decreasing_by simp_wf; omega

/-- Double the number of buckets and rehash every entry. -/
def expand (size : Nat) (buckets : HashMapBucket α β) : HashMapImp α β :=
  let nbuckets := buckets.val.size * 2
  { size := size,
    buckets := moveEntries 0 buckets.val
      ⟨mkArray nbuckets .nil, by simpa [nbuckets] using buckets.property⟩ }

def insert (m : HashMapImp α β) (a : α) (b : β) : HashMapImp α β :=
  match m with
  | ⟨size, buckets⟩ =>
    let ⟨i, h⟩ := mkIdx buckets.property (hash a)
    let bkt := buckets.val[i]
    if bkt.contains a then
      ⟨size, ⟨buckets.val.set ⟨i, h⟩ (bkt.replace a b), by simpa using buckets.property⟩⟩
    else
      let size' := size + 1
      let buckets' : HashMapBucket α β :=
        ⟨buckets.val.set ⟨i, h⟩ (.cons a b bkt), by simpa using buckets.property⟩
      if size' ≤ buckets.val.size then { size := size', buckets := buckets' }
      else expand size' buckets'

def find (m : HashMapImp α β) (a : α) : Option β :=
  match m with
  | ⟨_, buckets⟩ =>
    let ⟨i, _⟩ := mkIdx buckets.property (hash a)
    buckets.val[i].find a

/-! ## Bucket arrays -/

/-- All entries of a bucket array, bucket after bucket. -/
def entries (bs : Array (AssocList α β)) : List (α × β) := bs.toList.flatMap AssocList.toList

/-- Every entry sits in the bucket its hash selects. -/
def Placed (bs : Array (AssocList α β)) : Prop :=
  ∀ (i : Nat) (h : i < bs.size), ∀ p ∈ bs[i].toList, (hash p.1).toNat % bs.size = i

/-- The entries of all buckets but the `i`-th. -/
def others (bs : Array (AssocList α β)) (i : Nat) : List (α × β) :=
  (bs.toList.eraseIdx i).flatMap AssocList.toList

omit [DecidableEq α] [Hashable α] in
theorem entries_perm_get (bs : Array (AssocList α β)) (i : Nat) (h : i < bs.size) :
    (entries bs).Perm (bs[i].toList ++ others bs i) :=
  flatMap_perm_getElem (l := bs.toList) h _

omit [DecidableEq α] [Hashable α] in
theorem entries_set_perm (bs : Array (AssocList α β)) (i : Fin bs.size) (x : AssocList α β) :
    (entries (bs.set i x)).Perm (x.toList ++ others bs i) := by
  rw [entries, Array.toList_set]; exact flatMap_set_perm (l := bs.toList) i.2 _ _

omit [DecidableEq α] [Hashable α] in
theorem mem_entries {bs : Array (AssocList α β)} {p : α × β} :
    p ∈ entries bs ↔ ∃ (i : Nat) (h : i < bs.size), p ∈ bs[i].toList := by
  rw [entries, List.mem_flatMap]
  constructor
  · rintro ⟨l, hl, hp⟩
    obtain ⟨i, h, rfl⟩ := List.mem_iff_getElem.mp hl
    exact ⟨i, by simpa using h, by simpa using hp⟩
  · rintro ⟨i, h, hp⟩
    exact ⟨bs[i], Array.mem_def.mp (Array.getElem_mem h), hp⟩

omit [DecidableEq α] in
theorem Placed.set {bs : Array (AssocList α β)} (hb : Placed bs) (i : Fin bs.size)
    (x : AssocList α β) (hx : ∀ p ∈ x.toList, (hash p.1).toNat % bs.size = i) :
    Placed (bs.set i x) := by
  intro j hj p hp
  simp only [Array.size_set, Array.getElem_set] at hj hp ⊢
  split at hp
  · subst_vars; exact hx p hp
  · exact hb j hj p hp

omit [DecidableEq α] in
/-- An entry of a placed array is in the bucket of its key. -/
theorem Placed.mem_get {bs : Array (AssocList α β)} (hb : Placed bs) {p : α × β}
    (hp : p ∈ entries bs) (h : (hash p.1).toNat % bs.size < bs.size) :
    p ∈ bs[(hash p.1).toNat % bs.size].toList := by
  obtain ⟨j, hj, hpj⟩ := mem_entries.mp hp
  obtain rfl := hb j hj p hpj
  exact hpj

/-! ## Rehashing -/

omit [DecidableEq α] in
theorem reinsertAux_spec (t : HashMapBucket α β) (a : α) (b : β) (ht : Placed t.val) :
    Placed (reinsertAux t a b).val ∧ (entries (reinsertAux t a b).val).Perm ((a, b) :: entries t.val) := by
  have hi : (hash a).toNat % t.val.size < t.val.size := Nat.mod_lt _ t.property
  refine ⟨ht.set _ _ ?_, ?_⟩
  · intro p hp
    simp only [AssocList.toList_cons, List.mem_cons] at hp
    rcases hp with rfl | hp
    · rfl
    · exact ht _ hi p hp
  · exact (entries_set_perm _ _ _).trans (((entries_perm_get _ _ hi).symm).cons _)

omit [DecidableEq α] in
theorem foldl_reinsertAux_spec (l : List (α × β)) (t : HashMapBucket α β) (ht : Placed t.val) :
    Placed (l.foldl (fun d p => reinsertAux d p.1 p.2) t).val ∧
    (entries (l.foldl (fun d p => reinsertAux d p.1 p.2) t).val).Perm (l ++ entries t.val) := by
  induction l generalizing t with
  | nil => exact ⟨ht, .refl _⟩
  | cons p l ih =>
    obtain ⟨h1, h2⟩ := reinsertAux_spec t p.1 p.2 ht
    obtain ⟨h3, h4⟩ := ih _ h1
    exact ⟨h3, h4.trans ((h2.append_left l).trans List.perm_middle)⟩

omit [DecidableEq α] in
@[simp] theorem size_reinsertAux (t : HashMapBucket α β) (a : α) (b : β) :
    (reinsertAux t a b).val.size = t.val.size := by
  simp [reinsertAux]

omit [DecidableEq α] in
@[simp] theorem size_foldl_reinsertAux (l : List (α × β)) (t : HashMapBucket α β) :
    (l.foldl (fun d p => reinsertAux d p.1 p.2) t).val.size = t.val.size := by
  induction l generalizing t <;> simp_all

omit [DecidableEq α] [Hashable α] in
@[simp] theorem entries_mkArray_nil (n : Nat) : entries (mkArray n (AssocList.nil : AssocList α β)) = [] := by
  induction n <;> simp_all [entries, List.replicate_succ]

omit [DecidableEq α] in
theorem size_moveEntries (i : Nat) (source : Array (AssocList α β)) (target : HashMapBucket α β) :
    (moveEntries i source target).val.size = target.val.size := by
  induction i, source, target using moveEntries.induct with
  | case1 i source target h es source' target' ih =>
    rw [moveEntries, dif_pos h]
    exact ih.trans (by simp [target', AssocList.foldl_eq])
  | case2 i source target h => rw [moveEntries, dif_neg h]

omit [DecidableEq α] in
/-- `moveEntries` moves every entry of `source` from index `i` on, keeping placement. -/
theorem moveEntries_spec (i : Nat) (source : Array (AssocList α β)) (target : HashMapBucket α β)
    (ht : Placed target.val) :
    Placed (moveEntries i source target).val ∧
    (entries (moveEntries i source target).val).Perm
      ((source.toList.drop i).flatMap AssocList.toList ++ entries target.val) := by
  induction i, source, target using moveEntries.induct with
  | case1 i source target h es source' target' ih =>
    have hf : target' = es.toList.foldl (fun d p => reinsertAux d p.1 p.2) target :=
      AssocList.foldl_eq _ _ _
    obtain ⟨h1, h2⟩ := foldl_reinsertAux_spec es.toList target ht
    rw [← hf] at h1 h2
    obtain ⟨h3, h4⟩ := ih h1
    simp only [source', Array.toList_set, List.drop_set_of_lt _ _ (Nat.lt_succ_self i)] at h4
    rw [moveEntries, dif_pos h]
    refine ⟨h3, h4.trans ?_⟩
    rw [← List.getElem_cons_drop source.toList i h, List.flatMap_cons, List.append_assoc]
    exact (h2.append_left _).trans (perm_append_middle _ _ _)
  | case2 i source target h =>
    rw [moveEntries, dif_neg h, List.drop_eq_nil_of_le (by simpa using Nat.le_of_not_lt h)]
    exact ⟨ht, .refl _⟩

omit [DecidableEq α] in
theorem expand_spec (size : Nat) (buckets : HashMapBucket α β) :
    (expand size buckets).size = size ∧
    (expand size buckets).buckets.val.size = buckets.val.size * 2 ∧
    Placed (expand size buckets).buckets.val ∧
    (entries (expand size buckets).buckets.val).Perm (entries buckets.val) := by
  have empty : Placed (mkArray (buckets.val.size * 2) (AssocList.nil : AssocList α β)) := by
    intro i h p hp; simp at hp
  obtain ⟨h1, h2⟩ := moveEntries_spec 0 buckets.val
    ⟨mkArray (buckets.val.size * 2) .nil, by simpa using buckets.property⟩ empty
  simp only [List.drop_zero, entries_mkArray_nil, List.append_nil] at h2
  exact ⟨rfl, by simp [expand, size_moveEntries], h1, h2⟩

/-! ## Well-formed maps -/

/-- All entries of a map. -/
def toList (m : HashMapImp α β) : List (α × β) := entries m.buckets.val

/-- The hash-map invariant: entries in the bucket of their hash, distinct keys, and a
`size` that counts the entries and is at most the number of buckets. -/
structure Wf (m : HashMapImp α β) : Prop where
  placed : Placed m.buckets.val
  nodup : (m.toList.map Prod.fst).Nodup
  size_eq : m.size = m.toList.length
  size_le : m.size ≤ m.buckets.val.size

omit [DecidableEq α] in
theorem wf_mkHashMapImp (n : Nat) : (mkHashMapImp n : HashMapImp α β).Wf where
  placed := by intro i h p hp; simp [HashMapImp.mkHashMapImp] at hp
  nodup := by simp [HashMapImp.mkHashMapImp, toList]
  size_eq := by simp [HashMapImp.mkHashMapImp, toList]
  size_le := Nat.zero_le _

/-- On a placed map with distinct keys, `find` is `List.lookup` on the entries. -/
theorem find_eq_lookup {m : HashMapImp α β} (hp : Placed m.buckets.val)
    (hnd : (m.toList.map Prod.fst).Nodup) (a : α) : m.find a = m.toList.lookup a := by
  obtain ⟨size, bs, hbs⟩ := m
  change (List.map Prod.fst (entries bs)).Nodup at hnd
  change Placed bs at hp
  have hi : (hash a).toNat % bs.size < bs.size := Nat.mod_lt _ hbs
  have hperm := entries_perm_get bs _ hi
  have hnd' := (List.nodup_append.mp (by simpa using (hperm.map Prod.fst).nodup_iff.mp hnd)).1
  show bs[(hash a).toNat % bs.size].find a = (entries bs).lookup a
  rw [AssocList.find_eq_lookup]
  apply Option.ext; intro b
  rw [Option.mem_def, Option.mem_def, lookup_eq_some_iff hnd', lookup_eq_some_iff hnd]
  exact ⟨fun h => mem_entries.mpr ⟨_, hi, h⟩, fun h => hp.mem_get h hi⟩

/-- `insert` keeps the invariant, gives `a` the value `b`, and keeps every other key's
value, whichever of its three branches runs (replace in place, push, push and double). -/
theorem insert_spec {m : HashMapImp α β} (hw : m.Wf) (a : α) (b : β) :
    (m.insert a b).Wf ∧
    ∀ k, (m.insert a b).toList.lookup k = if k = a then some b else m.toList.lookup k := by
  obtain ⟨size, bs, hbs⟩ := m
  obtain ⟨hp, hnd, hsz, hle⟩ := hw
  change Placed bs at hp
  change (List.map Prod.fst (entries bs)).Nodup at hnd
  change size = (entries bs).length at hsz
  change size ≤ bs.size at hle
  have hi : (hash a).toNat % bs.size < bs.size := Nat.mod_lt _ hbs
  have hperm := entries_perm_get bs _ hi
  unfold insert
  dsimp only [mkIdx]
  split
  · rename_i hc
    have hq := entries_set_perm bs ⟨_, hi⟩ (bs[(hash a).toNat % bs.size].replace a b)
    have hkeys := congrArg (· ++ (others bs ((hash a).toNat % bs.size)).map Prod.fst)
      (AssocList.keys_replace a b bs[(hash a).toNat % bs.size])
    simp only [← List.map_append] at hkeys
    have hnd' := (hq.map Prod.fst).nodup_iff.mpr (hkeys ▸ (hperm.map Prod.fst).nodup_iff.mp hnd)
    refine ⟨⟨?_, hnd', ?_, by simpa using hle⟩, fun k => ?_⟩
    · exact hp.set _ _ fun p hp' =>
        (AssocList.mem_replace hp').elim (fun h => h ▸ rfl) (hp _ hi p)
    · show size = (entries _).length
      rw [hq.length_eq, hsz, hperm.length_eq, ← List.length_map _ Prod.fst, ← hkeys,
        List.length_map]
    · show (entries _).lookup k = if k = a then some b else (entries bs).lookup k
      rw [lookup_congr_perm hq hnd', lookup_congr_perm hperm hnd, List.lookup_append,
        List.lookup_append, AssocList.lookup_replace hc]
      by_cases e : k = a <;> simp [e]
  · rename_i hc
    have hfresh : a ∉ (entries bs).map Prod.fst := by
      intro h
      obtain ⟨⟨a', v⟩, hm, rfl⟩ := List.mem_map.mp h
      exact hc ((AssocList.contains_iff _ _).mpr (List.mem_map.mpr ⟨_, hp.mem_get hm hi, rfl⟩))
    have hq := (entries_set_perm bs ⟨_, hi⟩ (.cons a b bs[(hash a).toNat % bs.size])).trans
      (hperm.symm.cons (a, b))
    have hnd' := (hq.map Prod.fst).nodup_iff.mpr (List.nodup_cons.mpr ⟨hfresh, hnd⟩)
    have hplaced := hp.set ⟨_, hi⟩ (.cons a b bs[(hash a).toNat % bs.size]) fun p hp' =>
      (List.mem_cons.mp hp').elim (fun h => h ▸ rfl) (hp _ hi p)
    have hlook : ∀ k, (entries _).lookup k = if k = a then some b else (entries bs).lookup k :=
      fun k => by rw [lookup_congr_perm hq hnd', lookup_cons_ite]
    split
    · exact ⟨⟨hplaced, hnd', by simp [toList, hq.length_eq, hsz], by simpa⟩, hlook⟩
    · rename_i hgt
      obtain ⟨e1, e2, e3, e4⟩ := expand_spec (size + 1)
        ⟨bs.set ⟨_, hi⟩ (.cons a b bs[(hash a).toNat % bs.size]), by simpa using hbs⟩
      refine ⟨⟨e3, (e4.map Prod.fst).nodup_iff.mpr hnd', ?_, ?_⟩,
        fun k => (lookup_congr_perm e4.symm hnd' k).symm.trans (hlook k)⟩
      · rw [e1, toList, e4.length_eq, hq.length_eq, hsz, List.length_cons]
      · rw [e1, e2, Array.size_set]; omega

theorem Wf.insert {m : HashMapImp α β} (hw : m.Wf) (a : α) (b : β) : (m.insert a b).Wf :=
  (insert_spec hw a b).1

/-- An insertion into a well-formed map is read back, and every other key keeps its value. -/
theorem find_insert {m : HashMapImp α β} (hw : m.Wf) (a k : α) (b : β) :
    (m.insert a b).find k = if k = a then some b else m.find k := by
  have hw' := hw.insert a b
  rw [find_eq_lookup hw'.placed hw'.nodup, find_eq_lookup hw.placed hw.nodup,
    (insert_spec hw a b).2]

/-- The entries after an insertion: `(a, b)`, and the old entries of every other key. -/
theorem mem_toList_insert {m : HashMapImp α β} (hw : m.Wf) (a : α) (b : β) (p : α × β) :
    p ∈ (m.insert a b).toList ↔ p = (a, b) ∨ (p ∈ m.toList ∧ p.1 ≠ a) := by
  obtain ⟨k, w⟩ := p
  rw [← lookup_eq_some_iff (hw.insert a b).nodup, (insert_spec hw a b).2 k]
  by_cases e : k = a
  · subst e; simp [eq_comm]
  · simp [e, Ne.symm e, lookup_eq_some_iff hw.nodup]

/-- The hash-map invariant (with a non-empty bucket array, which `HashMapBucket` carries)
holds of the map made with 8 buckets and is kept by every insertion, including one that
doubles the buckets; an insertion replaces the entry of its key, if any, and `find` reads
the new value at that key and the old value at every other. -/
theorem insert_wf_find :
    (mkHashMapImp 8 : HashMapImp α β).Wf ∧
    ∀ m : HashMapImp α β, m.Wf → ∀ (k : α) (v : β), (m.insert k v).Wf ∧
      (∀ p, p ∈ (m.insert k v).toList ↔ p = (k, v) ∨ (p ∈ m.toList ∧ p.1 ≠ k)) ∧
      ∀ k', (m.insert k v).find k' = if k' = k then some v else m.find k' :=
  ⟨wf_mkHashMapImp 8, fun _ hw k v =>
    ⟨hw.insert k v, mem_toList_insert hw k v, fun k' => find_insert hw k k' v⟩⟩

/-- One bucket holding one entry: inserting a second key doubles the buckets. -/
theorem insert_wf_find_expand :
    let m : HashMapImp Nat Nat := (mkHashMapImp 1).insert 0 0
    m.Wf ∧ (m.insert 1 7).Wf ∧ (m.insert 1 7).find 1 = some 7 ∧ (m.insert 1 7).find 0 = m.find 0 := by
  intro m
  have hw : m.Wf := (wf_mkHashMapImp 1).insert 0 0
  obtain ⟨hw', -, hfind⟩ := insert_wf_find.2 m hw 1 7
  exact ⟨hw, hw', by simpa using hfind 1, by simpa using hfind 0⟩

/-! ## Hash maps built by the API -/

/-- The maps the API builds: an empty map and insertions into it (`HashMapImp.WellFormed`;
the source's `erase` is not used by the environment and is left out). -/
inductive WellFormed : HashMapImp α β → Prop
  | mkWff (n : Nat) : WellFormed (mkHashMapImp n)
  | insertWff {m : HashMapImp α β} (a : α) (b : β) : WellFormed m → WellFormed (m.insert a b)

theorem WellFormed.wf {m : HashMapImp α β} (h : m.WellFormed) : m.Wf := by
  induction h with
  | mkWff n => exact wf_mkHashMapImp n
  | insertWff a b _ ih => exact ih.insert a b

end HashMapImp

/-- A hash map: an implementation the API built. -/
def HashMap (α β : Type) [DecidableEq α] [Hashable α] := { m : HashMapImp α β // m.WellFormed }

namespace HashMap

open HashMapImp

variable {α β : Type} [DecidableEq α] [Hashable α]

def mkHashMap (nbuckets : Nat := 8) : HashMap α β := ⟨mkHashMapImp nbuckets, .mkWff nbuckets⟩

instance : EmptyCollection (HashMap α β) := ⟨mkHashMap⟩

def insert (m : HashMap α β) (a : α) (b : β) : HashMap α β :=
  ⟨m.val.insert a b, .insertWff a b m.property⟩

def find (m : HashMap α β) (a : α) : Option β := m.val.find a

@[simp] theorem find_empty (a : α) : (∅ : HashMap α β).find a = none := by
  show (mkHashMapImp 8 : HashMapImp α β).find a = none
  rw [find_eq_lookup (wf_mkHashMapImp 8).placed (wf_mkHashMapImp 8).nodup]
  simp [HashMapImp.mkHashMapImp, HashMapImp.toList]

@[simp] theorem find_insert (m : HashMap α β) (a k : α) (b : β) :
    (m.insert a b).find k = if k = a then some b else m.find k :=
  HashMapImp.find_insert m.property.wf a k b

end HashMap

end Lean4Core
