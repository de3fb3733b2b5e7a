import Mathlib.Data.Fintype.Pigeonhole
import Mathlib.Order.Bounds.Basic

/-! # Levels of a graph by its degrees

Nodes without open dependencies wait in a queue. A visit lowers the degrees of the dependents of the
node and raises their levels above its own. Where every node is visited, the level of each is the
length of the longest chain of dependencies below it.
-/
namespace KahnLevels

open List

structure Leveling where
  indegree : List ℕ
  levels : List ℕ
  queue : List ℕ

def Leveling.degree (s : Leveling) (i : ℕ) : ℕ := s.indegree.getD i 0

def Leveling.level (s : Leveling) (i : ℕ) : ℕ := s.levels.getD i 0

def raise (index : ℕ) (s : Leveling) (dependent : ℕ) : Leveling :=
  let indegree := s.indegree.modify dependent (· - 1)
  { indegree := indegree
    levels := s.levels.modify dependent fun level => max level (s.level index + 1)
    queue := if indegree.getD dependent 0 = 0 then s.queue ++ [dependent] else s.queue }

def visit (dependents : List (List ℕ)) (s : Leveling) (index : ℕ) (rest : List ℕ) : Leveling :=
  (dependents.getD index []).foldl (raise index) { s with queue := rest }

/-- A node is queued once, so the number of nodes is fuel enough. -/
def run (dependents : List (List ℕ)) : ℕ → Leveling → Leveling
  | 0, s => s
  | fuel + 1, s =>
    match s.queue with
    | [] => s
    | index :: rest => run dependents fuel (visit dependents s index rest)

def visits (dependents : List (List ℕ)) : ℕ → Leveling → ℕ
  | 0, _ => 0
  | fuel + 1, s =>
    match s.queue with
    | [] => 0
    | index :: rest => visits dependents fuel (visit dependents s index rest) + 1

structure Graph (n : ℕ) (deps : ℕ → Finset ℕ) (dependents : List (List ℕ)) : Prop where
  nodup : ∀ j, (dependents.getD j []).Nodup
  mem_iff : ∀ i j, i ∈ dependents.getD j [] ↔ i < n ∧ j ∈ deps i

/-- Dependencies of visited nodes are visited, and levels count visited dependencies only. -/
structure Invariant (n : ℕ) (deps : ℕ → Finset ℕ) (visited : Finset ℕ) (s : Leveling) : Prop where
  indegree_length : s.indegree.length = n
  levels_length : s.levels.length = n
  degree_eq : ∀ i < n, s.degree i = (deps i \ visited).card
  visited_lt : ∀ i ∈ visited, i < n
  closed : ∀ i ∈ visited, deps i ⊆ visited
  queue_nodup : s.queue.Nodup
  mem_queue : ∀ i, i ∈ s.queue ↔ i < n ∧ i ∉ visited ∧ deps i ⊆ visited
  below : ∀ i < n, ∀ j ∈ deps i, j ∈ visited → s.level j < s.level i
  attained : ∀ i < n, s.level i = 0 ∨ ∃ j ∈ deps i, j ∈ visited ∧ s.level i = s.level j + 1

inductive Chain (deps : ℕ → Finset ℕ) : ℕ → ℕ → Prop where
  | zero (i : ℕ) : Chain deps 0 i
  | succ {length i j : ℕ} : j ∈ deps i → Chain deps length j → Chain deps (length + 1) i

variable {n : ℕ} {deps : ℕ → Finset ℕ} {dependents : List (List ℕ)} {visited : Finset ℕ}
  {s : Leveling}

variable {i : ℕ}

theorem getD_modify {l : List ℕ} (hi : i < l.length) (f : ℕ → ℕ) (j : ℕ) :
    (l.modify i f).getD j 0 = if i = j then f (l.getD j 0) else l.getD j 0 := by
  rw [List.getD_eq_getElem?_getD, List.getElem?_modify, List.getD_eq_getElem?_getD]
  by_cases hij : i = j
  · subst hij
    simp [hi]
  · simp [hij]

structure Raised (n index : ℕ) (raised : List ℕ) (s s' : Leveling) : Prop where
  indegree_length : s'.indegree.length = n
  levels_length : s'.levels.length = n
  degree_eq : ∀ i, s'.degree i = if i ∈ raised then s.degree i - 1 else s.degree i
  level_eq : ∀ i, s'.level i =
    if i ∈ raised then max (s.level i) (s.level index + 1) else s.level i
  queue_eq : s'.queue = s.queue ++ raised.filter fun i => s.degree i - 1 = 0

theorem raised_foldl {index : ℕ} {raised : List ℕ} (hnodup : raised.Nodup)
    (hlt : ∀ i ∈ raised, i < n) (hindex : index ∉ raised) (hindegree : s.indegree.length = n)
    (hlevels : s.levels.length = n) : Raised n index raised s (raised.foldl (raise index) s) := by
  induction raised generalizing s with
  | nil => exact ⟨hindegree, hlevels, fun _ => rfl, fun _ => rfl, (append_nil _).symm⟩
  | cons first rest ih =>
    obtain ⟨hfirst, hrest⟩ := nodup_cons.mp hnodup
    have hlt_first : first < n := hlt first mem_cons_self
    have hdegree : ∀ i, (raise index s first).degree i =
        if first = i then s.degree i - 1 else s.degree i := fun i =>
      getD_modify (hindegree ▸ hlt_first) _ i
    have hlevel : ∀ i, (raise index s first).level i =
        if first = i then max (s.level i) (s.level index + 1) else s.level i := fun i =>
      getD_modify (hlevels ▸ hlt_first) _ i
    have hindex_first : first ≠ index := fun heq => hindex (heq ▸ mem_cons_self)
    have htail := ih (s := raise index s first) hrest
      (fun i hi => hlt i (mem_cons_of_mem _ hi))
      (fun hin => hindex (mem_cons_of_mem _ hin))
      ((length_modify ..).trans hindegree) ((length_modify ..).trans hlevels)
    rw [foldl_cons]
    constructor
    case indegree_length => exact htail.indegree_length
    case levels_length => exact htail.levels_length
    case degree_eq =>
      intro i
      rw [htail.degree_eq, hdegree]
      by_cases hi : first = i
      · subst hi
        simp [hfirst]
      · simp [hi, Ne.symm hi]
    case level_eq =>
      intro i
      rw [htail.level_eq, hlevel, hlevel, if_neg hindex_first]
      by_cases hi : first = i
      · subst hi
        simp [hfirst]
      · simp [hi, Ne.symm hi]
    case queue_eq =>
      have hfilt : rest.filter (fun i => (raise index s first).degree i - 1 = 0) =
          rest.filter fun i => s.degree i - 1 = 0 := by
        apply filter_congr
        intro i hi
        rw [hdegree, if_neg (fun heq : first = i => hfirst (heq ▸ hi))]
      have hhead : (raise index s first).queue =
          s.queue ++ [first].filter fun i => s.degree i - 1 = 0 := by
        have hone : (raise index s first).queue =
            if (raise index s first).degree first = 0 then s.queue ++ [first] else s.queue := rfl
        rw [hone, hdegree, if_pos rfl]
        by_cases hzero : s.degree first - 1 = 0
        · simp [hzero]
        · simp [hzero]
      rw [htail.queue_eq, hfilt, hhead, append_assoc, ← filter_append]
      rfl

theorem Invariant.visit (hgraph : Graph n deps dependents) (h : Invariant n deps visited s)
    {index : ℕ} {rest : List ℕ} (hqueue : s.queue = index :: rest) :
    Invariant n deps (insert index visited) (visit dependents s index rest) := by
  obtain ⟨hindex_lt, hindex_new, hindex_deps⟩ :=
    (h.mem_queue index).mp (hqueue ▸ mem_cons_self)
  have hnodup := h.queue_nodup
  rw [hqueue, nodup_cons] at hnodup
  -- Nothing that is visited or ready depends on the node.
  have hopen : ∀ i, index ∈ deps i → ¬ deps i ⊆ visited := fun i hi hsub => hindex_new (hsub hi)
  have hraised : Raised n index (dependents.getD index []) { s with queue := rest }
      (KahnLevels.visit dependents s index rest) :=
    raised_foldl (hgraph.nodup index) (fun i hi => ((hgraph.mem_iff i index).mp hi).1)
      (fun hin => hopen index ((hgraph.mem_iff index index).mp hin).2 hindex_deps)
      h.indegree_length h.levels_length
  have hmem : ∀ i, i ∈ dependents.getD index [] ↔ i < n ∧ index ∈ deps i := fun i =>
    hgraph.mem_iff i index
  have hsame : ∀ i, deps i ⊆ visited →
      (KahnLevels.visit dependents s index rest).level i = s.level i := by
    intro i hi
    rw [hraised.level_eq, if_neg (fun hin => hopen i ((hmem i).mp hin).2 hi)]
    rfl
  have hgrows : ∀ i, s.level i ≤ (KahnLevels.visit dependents s index rest).level i := by
    intro i
    rw [hraised.level_eq]
    split_ifs
    · exact le_max_left _ _
    · exact le_refl _
  have hleft : ∀ i, deps i \ insert index visited = (deps i \ visited).erase index := fun i =>
    Finset.sdiff_insert _ _ _
  have hlast : ∀ i < n, index ∈ deps i →
      (s.degree i - 1 = 0 ↔ deps i ⊆ insert index visited) := by
    intro i hi hdep
    have hin : index ∈ deps i \ visited := Finset.mem_sdiff.mpr ⟨hdep, hindex_new⟩
    rw [h.degree_eq i hi, ← Finset.card_erase_of_mem hin, ← hleft, Finset.card_eq_zero,
      Finset.sdiff_eq_empty_iff_subset]
  constructor
  case indegree_length => exact hraised.indegree_length
  case levels_length => exact hraised.levels_length
  case degree_eq =>
    intro i hi
    rw [hraised.degree_eq, hleft]
    by_cases hdep : index ∈ deps i
    · rw [if_pos ((hmem i).mpr ⟨hi, hdep⟩),
        Finset.card_erase_of_mem (Finset.mem_sdiff.mpr ⟨hdep, hindex_new⟩), ← h.degree_eq i hi]
      rfl
    · rw [if_neg (fun hin => hdep ((hmem i).mp hin).2),
        Finset.erase_eq_of_notMem (fun hin => hdep (Finset.mem_sdiff.mp hin).1), ← h.degree_eq i hi]
      rfl
  case visited_lt =>
    intro i hi
    rcases Finset.mem_insert.mp hi with rfl | hi
    · exact hindex_lt
    · exact h.visited_lt i hi
  case closed =>
    intro i hi
    rcases Finset.mem_insert.mp hi with rfl | hi
    · exact hindex_deps.trans (Finset.subset_insert _ _)
    · exact (h.closed i hi).trans (Finset.subset_insert _ _)
  case queue_nodup =>
    rw [hraised.queue_eq]
    refine hnodup.2.append ((hgraph.nodup index).filter _) ?_
    intro i hi hin
    have hready := ((h.mem_queue i).mp (hqueue ▸ mem_cons_of_mem _ hi)).2.2
    exact hopen i ((hmem i).mp (mem_filter.mp hin).1).2 hready
  case mem_queue =>
    intro i
    rw [hraised.queue_eq, mem_append, mem_filter, hmem, decide_eq_true_eq]
    change i ∈ rest ∨ (i < n ∧ index ∈ deps i) ∧ s.degree i - 1 = 0 ↔ _
    constructor
    · rintro (hi | ⟨⟨hi, hdep⟩, hzero⟩)
      · obtain ⟨hlt, hnew, hready⟩ := (h.mem_queue i).mp (hqueue ▸ mem_cons_of_mem _ hi)
        refine ⟨hlt, fun hin => ?_, hready.trans (Finset.subset_insert _ _)⟩
        rcases Finset.mem_insert.mp hin with rfl | hin
        · exact hnodup.1 hi
        · exact hnew hin
      · refine ⟨hi, fun hin => ?_, (hlast i hi hdep).mp hzero⟩
        rcases Finset.mem_insert.mp hin with rfl | hin
        · exact hopen i hdep hindex_deps
        · exact hopen i hdep (h.closed i hin)
    · rintro ⟨hi, hnew, hready⟩
      by_cases hdep : index ∈ deps i
      · exact .inr ⟨⟨hi, hdep⟩, (hlast i hi hdep).mpr hready⟩
      · have hold : deps i ⊆ visited := by
          rwa [Finset.subset_insert_iff_of_notMem hdep] at hready
        have hin := (h.mem_queue i).mpr
          ⟨hi, fun hin => hnew (Finset.mem_insert_of_mem hin), hold⟩
        rw [hqueue] at hin
        rcases mem_cons.mp hin with rfl | hin
        · exact absurd (Finset.mem_insert_self _ _) hnew
        · exact .inl hin
  case below =>
    intro i hi j hj hin
    rcases Finset.mem_insert.mp hin with rfl | hin
    · rw [hsame j hindex_deps, hraised.level_eq, if_pos ((hmem i).mpr ⟨hi, hj⟩)]
      exact lt_of_lt_of_le (Nat.lt_succ_self _) (le_max_right _ _)
    · rw [hsame j (h.closed j hin)]
      exact lt_of_lt_of_le (h.below i hi j hj hin) (hgrows i)
  case attained =>
    intro i hi
    have hold : s.level i = 0 ∨ ∃ j ∈ deps i, j ∈ insert index visited ∧
        s.level i = (KahnLevels.visit dependents s index rest).level j + 1 := by
      rcases h.attained i hi with hzero | ⟨j, hj, hin, heq⟩
      · exact .inl hzero
      · refine .inr ⟨j, hj, Finset.mem_insert_of_mem hin, ?_⟩
        rw [hsame j (h.closed j hin)]
        exact heq
    by_cases hdep : index ∈ deps i
    · rw [hraised.level_eq, if_pos ((hmem i).mpr ⟨hi, hdep⟩)]
      rcases max_choice (s.level i) (s.level index + 1) with hmax | hmax
      · change max (s.level i) (s.level index + 1) = 0 ∨ ∃ j ∈ deps i, j ∈ insert index visited ∧
          max (s.level i) (s.level index + 1) = _
        rw [hmax]
        exact hold
      · refine .inr ⟨index, hdep, Finset.mem_insert_self _ _, ?_⟩
        rw [hsame index hindex_deps]
        exact hmax
    · rw [hraised.level_eq, if_neg (fun hin => hdep ((hmem i).mp hin).2)]
      exact hold

theorem run_invariant (hgraph : Graph n deps dependents) (fuel : ℕ)
    (h : Invariant n deps visited s) :
    ∃ visited', Invariant n deps visited' (run dependents fuel s) ∧
      visited'.card = visited.card + visits dependents fuel s := by
  induction fuel generalizing s visited with
  | zero => exact ⟨visited, h, rfl⟩
  | succ fuel ih =>
    rw [run, visits]
    cases hqueue : s.queue with
    | nil => exact ⟨visited, h, rfl⟩
    | cons index rest =>
      obtain ⟨visited', h', hcard⟩ := ih (h.visit hgraph hqueue)
      have hnew : index ∉ visited :=
        ((h.mem_queue index).mp (hqueue ▸ mem_cons_self)).2.1
      refine ⟨visited', h', ?_⟩
      rw [hcard, Finset.card_insert_of_notMem hnew]
      simp only
      omega

/-- Before the first visit: the levels are zero and the nodes without dependencies are queued. -/
structure Start (n : ℕ) (deps : ℕ → Finset ℕ) (s : Leveling) : Prop where
  indegree_length : s.indegree.length = n
  levels_eq : s.levels = List.replicate n 0
  degree_eq : ∀ i < n, s.degree i = (deps i).card
  queue_nodup : s.queue.Nodup
  mem_queue : ∀ i, i ∈ s.queue ↔ i < n ∧ s.degree i = 0

theorem Start.invariant (h : Start n deps s) : Invariant n deps ∅ s where
  indegree_length := h.indegree_length
  levels_length := by rw [h.levels_eq, length_replicate]
  degree_eq i hi := by rw [h.degree_eq i hi, Finset.sdiff_empty]
  visited_lt i hi := absurd hi (Finset.notMem_empty i)
  closed i hi := absurd hi (Finset.notMem_empty i)
  queue_nodup := h.queue_nodup
  mem_queue i := by
    rw [h.mem_queue]
    refine and_congr_right fun hi => ?_
    rw [h.degree_eq i hi, Finset.card_eq_zero, Finset.subset_empty]
    simp
  below i _ j _ hj := absurd hj (Finset.notMem_empty j)
  attained i _ := by
    left
    rw [Leveling.level, h.levels_eq, List.getD_eq_getElem?_getD, List.getElem?_replicate]
    split_ifs
    rfl

theorem levels_spec (hgraph : Graph n deps dependents) (hdeps : ∀ i < n, ∀ j ∈ deps i, j < n)
    (hstart : Start n deps s) {fuel : ℕ} (hall : visits dependents fuel s = n) :
    (run dependents fuel s).levels.length = n ∧ ∀ i < n,
      (∀ j ∈ deps i, (run dependents fuel s).level j < (run dependents fuel s).level i) ∧
      ((run dependents fuel s).level i = 0 ∨
        ∃ j ∈ deps i, (run dependents fuel s).level i = (run dependents fuel s).level j + 1) := by
  obtain ⟨visited, h, hcard⟩ := run_invariant hgraph fuel hstart.invariant
  have hvisited : visited = Finset.range n := by
    apply Finset.eq_of_subset_of_card_le
    · exact fun i hi => Finset.mem_range.mpr (h.visited_lt i hi)
    · rw [hcard, hall, Finset.card_empty, Finset.card_range, Nat.zero_add]
  refine ⟨h.levels_length, fun i hi => ⟨fun j hj => ?_, ?_⟩⟩
  · exact h.below i hi j hj (hvisited ▸ Finset.mem_range.mpr (hdeps i hi j hj))
  · rcases h.attained i hi with hzero | ⟨j, hj, -, heq⟩
    · exact .inl hzero
    · exact .inr ⟨j, hj, heq⟩

variable {level : ℕ → ℕ}

theorem Chain.length_le (hlt : ∀ i < n, ∀ j ∈ deps i, level j < level i)
    (hdeps : ∀ i < n, ∀ j ∈ deps i, j < n) {length : ℕ} (h : Chain deps length i) (hi : i < n) :
    length ≤ level i := by
  induction h with
  | zero i => exact Nat.zero_le _
  | succ hj _ ih => exact lt_of_le_of_lt (ih (hdeps _ hi _ hj)) (hlt _ hi _ hj)

theorem chain_of_level (hdeps : ∀ i < n, ∀ j ∈ deps i, j < n)
    (hstep : ∀ i < n, level i = 0 ∨ ∃ j ∈ deps i, level i = level j + 1) (length : ℕ) :
    ∀ i < n, level i = length → Chain deps length i := by
  induction length with
  | zero => exact fun i _ _ => .zero i
  | succ length ih =>
    intro i hi heq
    rcases hstep i hi with hzero | ⟨j, hj, hlevel⟩
    · omega
    · exact .succ hj (ih j (hdeps i hi j hj) (by omega))

theorem isGreatest_chain (hdeps : ∀ i < n, ∀ j ∈ deps i, j < n)
    (hspec : ∀ i < n, (∀ j ∈ deps i, level j < level i) ∧
      (level i = 0 ∨ ∃ j ∈ deps i, level i = level j + 1))
    (hi : i < n) : IsGreatest {length | Chain deps length i} (level i) :=
  ⟨chain_of_level hdeps (fun i hi => (hspec i hi).2) _ i hi rfl,
    fun _ h => h.length_le (fun i hi => (hspec i hi).1) hdeps hi⟩

def OnCycle {α : Type} (r : α → α → Prop) (a : α) : Prop := Relation.TransGen r a a

def ReachesCycle {α : Type} (r : α → α → Prop) (a : α) : Prop :=
  ∃ b, Relation.ReflTransGen r a b ∧ OnCycle r b

variable {α : Type}

variable {r : α → α → Prop} {a : α}

theorem OnCycle.reaches (h : OnCycle r a) : ReachesCycle r a := ⟨a, .refl, h⟩

theorem OnCycle.lift {β : Type} {p : β → β → Prop} (f : α → β)
    (hf : ∀ a b, r a b → p (f a) (f b)) (h : OnCycle r a) : OnCycle p (f a) :=
  Relation.TransGen.lift f hf a a h

theorem ReachesCycle.lift {β : Type} {p : β → β → Prop} (f : α → β)
    (hf : ∀ a b, r a b → p (f a) (f b)) (h : ReachesCycle r a) : ReachesCycle p (f a) := by
  obtain ⟨b, hwalk, hcycle⟩ := h
  exact ⟨f b, Relation.ReflTransGen.lift f hf a b hwalk, hcycle.lift f hf⟩

theorem reflTransGen_iterate {next : α → α}
    (hnext : ∀ k, r (next^[k] a) (next^[k + 1] a)) (start length : ℕ) :
    Relation.ReflTransGen r (next^[start] a) (next^[start + length] a) := by
  induction length with
  | zero => exact .refl
  | succ length ih => exact ih.tail (hnext (start + length))

theorem reachesCycle_of_successors {r : ℕ → ℕ → Prop} {p : ℕ → Prop} (hlt : ∀ i, p i → i < n)
    (hnext : ∀ i, p i → ∃ j, r i j ∧ p j) (hi : p i) : ReachesCycle r i := by
  classical
  let next : ℕ → ℕ := fun i => if h : p i then (hnext i h).choose else i
  have hspec : ∀ j, p j → r j (next j) ∧ p (next j) := by
    intro j hj
    simp only [next, dif_pos hj]
    exact (hnext j hj).choose_spec
  have hleft : ∀ k, p (next^[k] i) := by
    intro k
    induction k with
    | zero => exact hi
    | succ k ih =>
      rw [Function.iterate_succ_apply']
      exact (hspec _ ih).2
  have hstep : ∀ k, r (next^[k] i) (next^[k + 1] i) := by
    intro k
    rw [Function.iterate_succ_apply']
    exact (hspec _ (hleft k)).1
  obtain ⟨k, l, hne, heq⟩ := Finite.exists_ne_map_eq_of_infinite
    fun k : ℕ => (⟨next^[k] i, hlt _ (hleft k)⟩ : Fin n)
  rw [Fin.mk.injEq] at heq
  wlog hkl : k < l generalizing k l
  · exact this l k hne.symm heq.symm (by omega)
  refine ⟨next^[k] i, Nat.zero_add k ▸ reflTransGen_iterate hstep 0 k, ?_⟩
  have hwalk := reflTransGen_iterate hstep (k + 1) (l - (k + 1))
  rw [show k + 1 + (l - (k + 1)) = l by omega, ← heq] at hwalk
  exact .head' (hstep k) hwalk

theorem run_queue (fuel : ℕ) :
    (run dependents fuel s).queue = [] ∨ visits dependents fuel s = fuel := by
  induction fuel generalizing s with
  | zero => exact .inr rfl
  | succ fuel ih =>
    rw [run, visits]
    cases hqueue : s.queue with
    | nil => exact .inl hqueue
    | cons index rest => exact ih.imp_right (congrArg (· + 1))

theorem Invariant.not_reachesCycle (h : Invariant n deps visited s) (hi : i ∈ visited) :
    ¬ ReachesCycle (fun i j => j ∈ deps i) i := by
  rintro ⟨j, hwalk, hcycle⟩
  have hj : j ∈ visited := by
    clear hcycle
    induction hwalk with
    | refl => exact hi
    | tail _ hstep ih => exact h.closed _ ih hstep
  have hfalls : ∀ k, Relation.TransGen (fun i j => j ∈ deps i) j k →
      k ∈ visited ∧ s.level k < s.level j := by
    intro k hchain
    induction hchain with
    | single hstep =>
      have hk := h.closed j hj hstep
      exact ⟨hk, h.below j (h.visited_lt j hj) _ hstep hk⟩
    | tail _ hstep ih =>
      obtain ⟨hmid, hlt⟩ := ih
      have hk := h.closed _ hmid hstep
      exact ⟨hk, (h.below _ (h.visited_lt _ hmid) _ hstep hk).trans hlt⟩
  exact lt_irrefl _ (hfalls j hcycle).2

theorem Invariant.reachesCycle (h : Invariant n deps visited s)
    (hdeps : ∀ i < n, ∀ j ∈ deps i, j < n) (hqueue : s.queue =
      []) (hi : i < n) (hnew : i ∉ visited) :
    ReachesCycle (fun i j => j ∈ deps i) i := by
  refine reachesCycle_of_successors (n := n) (p := fun i => i < n ∧ i ∉ visited)
    (fun i hi => hi.1) (fun i hi => ?_) ⟨hi, hnew⟩
  have hopen : ¬ deps i ⊆ visited := fun hsub =>
    not_mem_nil (hqueue ▸ (h.mem_queue i).mpr ⟨hi.1, hi.2, hsub⟩)
  obtain ⟨j, hj, hout⟩ := Finset.not_subset.mp hopen
  exact ⟨j, hj, hdeps i hi.1 j hj, hout⟩

/-- A whole run visits the nodes below which no cycle lies, and leaves a degree at the others. -/
theorem run_leaves (hgraph : Graph n deps dependents) (hdeps : ∀ i < n, ∀ j ∈ deps i, j < n)
    (hstart : Start n deps s) :
    (visits dependents n s = n ↔ ∀ i < n, ¬ ReachesCycle (fun i j => j ∈ deps i) i) ∧
    ∀ i < n, 0 < (run dependents n s).degree i ↔ ReachesCycle (fun i j => j ∈ deps i) i := by
  obtain ⟨visited, h, hcard⟩ := run_invariant hgraph n hstart.invariant
  rw [Finset.card_empty, Nat.zero_add] at hcard
  have hsub : visited ⊆ Finset.range n := fun i hi => Finset.mem_range.mpr (h.visited_lt i hi)
  have hall : visits dependents n s = n ↔ ∀ i < n, i ∈ visited := by
    rw [← hcard]
    constructor
    · intro heq i hi
      rw [Finset.eq_of_subset_of_card_le hsub (by rw [heq, Finset.card_range])]
      exact Finset.mem_range.mpr hi
    · intro hin
      rw [hsub.antisymm fun i hi => hin i (Finset.mem_range.mp hi), Finset.card_range]
  have hqueue : (run dependents n s).queue = [] := by
    rcases (run_queue n : (run dependents n s).queue = [] ∨ visits dependents n s = n)
      with hempty | hcount
    · exact hempty
    · apply eq_nil_iff_forall_not_mem.mpr
      intro i hi
      obtain ⟨hlt, hnew, -⟩ := (h.mem_queue i).mp hi
      exact hnew (hall.mp hcount i hlt)
  have hiff : ∀ i < n, i ∉ visited ↔ ReachesCycle (fun i j => j ∈ deps i) i := fun i hi =>
    ⟨h.reachesCycle hdeps hqueue hi, fun hreach hin => h.not_reachesCycle hin hreach⟩
  constructor
  · rw [hall]
    exact forall₂_congr fun i hi => by rw [← hiff i hi, not_not]
  · intro i hi
    rw [← hiff i hi, h.degree_eq i hi, Finset.card_pos, Finset.sdiff_nonempty]
    refine not_congr ⟨fun hsub => ?_, h.closed i⟩
    by_contra hnew
    exact not_mem_nil (hqueue ▸ (h.mem_queue i).mpr ⟨hi, hnew, hsub⟩)

end KahnLevels
