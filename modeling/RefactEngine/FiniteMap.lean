import Mathlib.Data.List.AList
import Mathlib.Data.List.Sort

/-! # Finite maps, value counts and counter maps

Association lists with distinct keys stand for unordered maps. `countValues` counts
the stored values that satisfy a test; `Counts m f` says that a map of counters holds
exactly the nonzero values of `f`. The update lemmas are stated for one key at a time,
so an index that is maintained by hand can be followed through each of its writes.
-/
namespace AList

open List

variable {K V : Type*} [DecidableEq K]

variable (m : AList fun _ : K => V)

theorem lookup_insert_if (k k' : K) (v : V) :
    (m.insert k v).lookup k' = if k' = k then some v else m.lookup k' := by
  by_cases h : k' = k
  · subst h; simp
  · simp [h, AList.lookup_insert_ne h]

theorem lookup_erase_if (k k' : K) :
    (m.erase k).lookup k' = if k' = k then none else m.lookup k' := by
  by_cases h : k' = k
  · subst h; simp
  · simp [h, AList.lookup_erase_ne h]

theorem mem_entries_iff {m : AList fun _ : K => V} {k : K} {v : V} :
    (⟨k, v⟩ : Σ _ : K, V) ∈ m.entries ↔ m.lookup k = some v := by
  rw [← AList.mem_lookup_iff, Option.mem_def]

def modify (m : AList fun _ : K => V) (k : K) (f : V → V) : AList fun _ : K => V :=
  match m.lookup k with
  | none => m
  | some v => m.insert k (f v)

theorem lookup_modify (k k' : K) (f : V → V) :
    (m.modify k f).lookup k' = if k' = k then (m.lookup k').map f else m.lookup k' := by
  by_cases h : k' = k
  · subst h
    cases hv : m.lookup k' with
    | none => simp [modify, hv]
    | some v => simp [modify, hv]
  · cases hv : m.lookup k with
    | none => simp [modify, hv, h]
    | some v => simp [modify, hv, h, AList.lookup_insert_ne h]

def mapValues (f : K → V → V) (m : AList fun _ : K => V) : AList fun _ : K => V where
  entries := m.entries.map fun e => ⟨e.1, f e.1 e.2⟩
  nodupKeys := by
    have h : (m.entries.map fun e => (⟨e.1, f e.1 e.2⟩ : Σ _ : K, V)).keys = m.entries.keys := by
      simp [List.keys, map_map, Function.comp_def]
    have hm : m.entries.keys.Nodup := m.nodupKeys
    rw [← h] at hm
    exact hm

theorem lookup_mapValues (f : K → V → V) (m : AList fun _ : K => V) (k : K) :
    (m.mapValues f).lookup k = (m.lookup k).map (f k) := by
  exact dlookup_map₂ (l := m.entries) (f := fun a v => f a v) k

def eraseAll (m : AList fun _ : K => V) (ks : List K) : AList fun _ : K => V :=
  ks.foldl (fun m k => m.erase k) m

theorem lookup_eraseAll (ks : List K) (m : AList fun _ : K => V) (k : K) :
    (m.eraseAll ks).lookup k = if k ∈ ks then none else m.lookup k := by
  induction ks generalizing m with
  | nil => simp [eraseAll]
  | cons a ks ih =>
    have hstep : (m.eraseAll (a :: ks)) = (m.erase a).eraseAll ks := rfl
    rw [hstep, ih, lookup_erase_if]
    by_cases h : k = a <;> simp [h]

def retain (m : AList fun _ : K => V) (p : K → V → Bool) : AList fun _ : K => V where
  entries := m.entries.filter fun e => p e.1 e.2
  nodupKeys := m.nodupKeys.sublist filter_sublist

theorem lookup_retain {m : AList fun _ : K => V} {p : K → V → Bool} {k : K} {v : V} :
    (m.retain p).lookup k = some v ↔ m.lookup k = some v ∧ p k v = true := by
  rw [← mem_entries_iff, ← mem_entries_iff, retain, mem_filter]

theorem entries_perm_erase {m : AList fun _ : K => V} {k : K} {v : V}
    (h : m.lookup k = some v) : m.entries.Perm (⟨k, v⟩ :: (m.erase k).entries) := by
  have hk : k ∈ m.entries.keys := mem_keys_of_mem (mem_entries_iff.mpr h)
  obtain ⟨w, l₁, l₂, -, hl, herase⟩ := exists_of_kerase hk
  have hw : m.lookup k = some w := mem_entries_iff.mp (by rw [hl]; simp)
  obtain rfl : v = w := Option.some.inj (h.symm.trans hw)
  have hents : (m.erase k).entries = l₁ ++ l₂ := herase
  rw [hents, hl]
  exact perm_middle

section Count

variable (p : V → Bool)

def countValues (p : V → Bool) (m : AList fun _ : K => V) : ℕ :=
  m.entries.countP fun e => p e.2

private theorem countP_kerase (l : List (Σ _ : K, V)) (k : K) (v : V)
    (h : l.dlookup k = some v) :
    (l.kerase k).countP (fun e => p e.2) + (if p v then 1 else 0) =
      l.countP fun e => p e.2 := by
  induction l with
  | nil => simp at h
  | cons a l ih =>
    obtain ⟨x, y⟩ := a
    by_cases hk : k = x
    · subst hk
      have hy : y = v := by simpa using h
      subst hy
      have hl : List.kerase k (⟨k, y⟩ :: l) = l := kerase_cons_eq rfl
      rw [hl, countP_cons]
    · have hl : l.dlookup k = some v := by
        rwa [dlookup_cons_ne l ⟨x, y⟩ hk] at h
      rw [kerase_cons_ne hk, countP_cons, countP_cons, ← ih hl]
      omega

variable {k : K}

theorem countValues_erase {m : AList fun _ : K => V} {v : V} (h : m.lookup k = some v) :
    (m.erase k).countValues p + (if p v then 1 else 0) = m.countValues p :=
  countP_kerase p m.entries k v h

theorem countValues_insert_new {m : AList fun _ : K => V} (v : V) (h : m.lookup k = none) :
    (m.insert k v).countValues p = m.countValues p + (if p v then 1 else 0) := by
  have hk : k ∉ m := AList.lookup_eq_none.mp h
  rw [countValues, AList.entries_insert_of_notMem hk, countP_cons]
  rfl

theorem countValues_insert_old {m : AList fun _ : K => V} {old : V} (v : V)
    (h : m.lookup k = some old) : (m.insert k v).countValues p + (if p old then 1 else 0) =
      m.countValues p + (if p v then 1 else 0) := by
  have he := countP_kerase p m.entries k old h
  simp only [countValues, AList.entries_insert, countP_cons] at he ⊢
  omega

omit [DecidableEq K] in
theorem countValues_le_length (m : AList fun _ : K => V) :
    m.countValues p ≤ m.entries.length := countP_le_length

theorem length_insert_old {m : AList fun _ : K => V} {old : V} (v : V) (h : m.lookup k = some old) :
    (m.insert k v).entries.length = m.entries.length := by
  have hc := countValues_insert_old (fun _ => true) v h
  simpa [countValues] using hc

theorem countValues_pos_of_lookup {m : AList fun _ : K => V} {v : V} (h : m.lookup k = some v)
    (hp : p v = true) : 0 < m.countValues p :=
  countP_pos_iff.mpr ⟨⟨k, v⟩, mem_entries_iff.mpr h, hp⟩


theorem exists_of_countValues_pos {m : AList fun _ : K => V} (h : 0 < m.countValues p) :
    ∃ k v, m.lookup k = some v ∧ p v = true := by
  obtain ⟨⟨k, v⟩, hmem, hp⟩ := countP_pos_iff.mp h
  exact ⟨k, v, mem_entries_iff.mp hmem, hp⟩

theorem countValues_eq_keys (m : AList fun _ : K => V) :
    m.countValues p = m.keys.countP fun k => (m.lookup k).any p := by
  rw [countValues, AList.keys, List.keys, countP_map]
  refine countP_congr fun e he => ?_
  have hl : m.lookup e.1 = some e.2 := mem_entries_iff.mp he
  simp [hl]

theorem countValues_congr {m m' : AList fun _ : K => V}
    (h : ∀ k, (m.lookup k).map p = (m'.lookup k).map p) :
    m.countValues p = m'.countValues p := by
  have hmem : ∀ k, k ∈ m.keys ↔ k ∈ m'.keys := by
    intro k
    rw [← AList.mem_keys, ← AList.mem_keys, ← AList.lookup_isSome, ← AList.lookup_isSome]
    have := congrArg Option.isSome (h k)
    simpa using this
  have hperm : m.keys.Perm m'.keys :=
    (perm_ext_iff_of_nodup m.keys_nodup m'.keys_nodup).mpr hmem
  have hany : (fun k => (m.lookup k).any p) = fun k => (m'.lookup k).any p := by
    funext k
    have hk := h k
    cases hm : m.lookup k <;> cases hm' : m'.lookup k <;> simp_all
  rw [countValues_eq_keys, countValues_eq_keys, hany, hperm.countP_eq]

/-- A map whose tested values all have a tested value under their key elsewhere counts less. -/
theorem countValues_le {m m' : AList fun _ : K => V}
    (h : ∀ k v, m.lookup k = some v → p v = true → ∃ w, m'.lookup k = some w ∧ p w = true) :
    m.countValues p ≤ m'.countValues p := by
  rw [countValues_eq_keys, countValues_eq_keys, countP_eq_length_filter,
    countP_eq_length_filter]
  apply List.Subperm.length_le
  apply subperm_of_subset (m.keys_nodup.filter _)
  intro k hk
  obtain ⟨-, hany⟩ := mem_filter.mp hk
  obtain ⟨v, hv, hp⟩ := (Option.any_eq_true _ _).mp hany
  obtain ⟨w, hw, hpw⟩ := h k v hv hp
  refine mem_filter.mpr ⟨AList.lookup_isSome.mp (by rw [hw]; rfl), ?_⟩
  exact (Option.any_eq_true _ _).mpr ⟨w, hw, hpw⟩

theorem countValues_eraseAll {m : AList fun _ : K => V} {ks : List K} (hnodup : ks.Nodup)
    (h : ∀ k ∈ ks, ∃ v, m.lookup k = some v ∧ p v = true) :
    (m.eraseAll ks).countValues p + ks.length = m.countValues p := by
  induction ks generalizing m with
  | nil => rfl
  | cons k ks ih =>
    rw [nodup_cons] at hnodup
    obtain ⟨v, hv, hp⟩ := h k mem_cons_self
    have hrest : ∀ k' ∈ ks, ∃ v, (m.erase k).lookup k' = some v ∧ p v = true := by
      intro k' hk'
      have hne : k' ≠ k := fun heq => hnodup.1 (heq ▸ hk')
      rw [AList.lookup_erase_ne hne]
      exact h k' (mem_cons_of_mem _ hk')
    have herase := countValues_erase p hv
    have hall : ((m.erase k).eraseAll ks).countValues p + ks.length =
        (m.erase k).countValues p := ih hnodup.2 hrest
    rw [if_pos hp] at herase
    show ((m.erase k).eraseAll ks).countValues p + (k :: ks).length = _
    rw [length_cons]
    omega

end Count

theorem any_values_iff (p : V → Bool) (m : AList fun _ : K => V) :
    (m.entries.any fun e => p e.2) = true ↔ ∃ k v, m.lookup k = some v ∧ p v = true := by
  rw [any_eq_true]
  constructor
  · rintro ⟨e, he, hp⟩
    exact ⟨e.1, e.2, mem_entries_iff.mp he, hp⟩
  · rintro ⟨k, v, hv, hp⟩
    exact ⟨⟨k, v⟩, mem_entries_iff.mpr hv, hp⟩

theorem eq_empty_of_lookup {m : AList fun _ : K => V} (h : ∀ k, m.lookup k = none) :
    m = ∅ := by
  apply AList.ext
  cases hm : m.entries with
  | nil => rfl
  | cons e l =>
    have he : e ∈ m.entries := by simp [hm]
    have := mem_entries_iff.mp (show (⟨e.1, e.2⟩ : Σ _ : K, V) ∈ m.entries from he)
    rw [h] at this
    cases this

variable (m : AList fun _ : K => ℕ)

def Counts (f : K → ℕ) : Prop :=
  ∀ k, m.lookup k = if f k = 0 then none else some (f k)

variable {f : K → ℕ}

theorem Counts.getD {m : AList fun _ : K => ℕ} (h : Counts m f) (k : K) :
    (m.lookup k).getD 0 = f k := by
  rw [h k]; split_ifs with h0 <;> simp [h0]

theorem Counts.congr {m : AList fun _ : K => ℕ} {g : K →
      ℕ} (h : Counts m f) (hfg : ∀ k, f k = g k) :
    Counts m g := by
  intro k; rw [h k, hfg k]

theorem Counts.eq_empty {m : AList fun _ : K => ℕ} (h : Counts m f) (hf : ∀ k, f k = 0) : m = ∅ :=
  eq_empty_of_lookup fun k => by rw [h k, if_pos (hf k)]

def bump (k : K) : AList fun _ : K => ℕ :=
  m.insert k ((m.lookup k).getD 0 + 1)

theorem Counts.bump {m : AList fun _ : K => ℕ} (h : Counts m f) (k : K) :
    Counts (m.bump k) (fun k' => f k' + if k' = k then 1 else 0) := by
  intro k'
  rw [AList.bump, lookup_insert_if, h.getD]
  by_cases hk : k' = k
  · subst hk; simp
  · simpa [hk] using h k'

/-- Takes one from the counter of a key and drops the counter that reaches zero;
`none` stands for the subtraction that would go below zero. -/
def drop1 (k : K) : Option (AList fun _ : K => ℕ) :=
  match m.lookup k with
  | none => some m
  | some 0 => none
  | some 1 => some (m.erase k)
  | some (n + 2) => some (m.insert k (n + 1))

theorem Counts.drop1 {m : AList fun _ : K => ℕ} (h : Counts m f) {k : K} (hk : 0 < f k) :
    ∃ m', m.drop1 k = some m' ∧ Counts m' (fun k' => f k' - if k' = k then 1 else 0) := by
  have hl : m.lookup k = some (f k) := by rw [h k, if_neg (by omega)]
  obtain ⟨n, hn⟩ : ∃ n, f k = n + 1 := ⟨f k - 1, by omega⟩
  rw [hn] at hl
  cases n with
  | zero =>
    refine ⟨m.erase k, by simp [AList.drop1, hl], fun k' => ?_⟩
    rw [lookup_erase_if]
    by_cases hk' : k' = k
    · subst hk'; simp [hn]
    · simpa [hk'] using h k'
  | succ n =>
    refine ⟨m.insert k (n + 1), by simp [AList.drop1, hl], fun k' => ?_⟩
    rw [lookup_insert_if]
    by_cases hk' : k' = k
    · subst hk'; simp [hn]
    · simpa [hk'] using h k'

section Ordered

variable [LinearOrder K]

def inOrder (m : AList fun _ : K => V) : List (K × V) :=
  (m.keys.insertionSort (· ≤ ·)).filterMap fun k => (m.lookup k).map fun v => (k, v)

theorem mem_inOrder {m : AList fun _ : K => V} {k : K} {v : V} :
    (k, v) ∈ m.inOrder ↔ m.lookup k = some v := by
  simp only [inOrder, mem_filterMap, mem_insertionSort, Option.map_eq_some_iff,
    Prod.mk.injEq]
  constructor
  · rintro ⟨k', -, v', hl, rfl, rfl⟩; exact hl
  · intro hl
    exact ⟨k, AList.lookup_isSome.mp (by rw [hl]; rfl), v, hl, rfl, rfl⟩

theorem ascending_inOrder (m : AList fun _ : K => V) :
    m.inOrder.Pairwise fun a b => a.1 < b.1 := by
  have hsort := pairwise_insertionSort (· ≤ ·) m.keys
  have hnodup : (m.keys.insertionSort (· ≤ ·)).Nodup :=
    (perm_insertionSort (· ≤ ·) m.keys).nodup_iff.mpr m.nodupKeys
  refine List.Pairwise.filterMap _ (fun a a' haa' b hb b' hb' => ?_) (hsort.and hnodup)
  obtain ⟨v, -, rfl⟩ := Option.map_eq_some_iff.mp hb
  obtain ⟨v', -, rfl⟩ := Option.map_eq_some_iff.mp hb'
  exact lt_of_le_of_ne haa'.1 haa'.2

end Ordered

end AList
