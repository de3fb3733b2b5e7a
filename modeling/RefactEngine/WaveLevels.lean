import RefactEngine.Waves

/-! # The waves are the levels of the dependencies

A board that passes the dependency check has unique cards, resolved dependencies and no cycle. Its
cards lie in waves by the longest chain of dependencies below them.
-/
namespace WaveLevels

open TaskBoards BoardValidation Waves List

/-- A chain of dependencies of some length below a card. -/
inductive DependencyChain (board : TaskBoard) : ℕ → Text → Prop where
  | zero (cardId : Text) : DependencyChain board 0 cardId
  | succ {length : ℕ} {card : BoardCard} {dependency : Text} : card ∈ board.cards →
    dependency ∈ card.dependsOn → DependencyChain board length dependency →
    DependencyChain board (length + 1) card.id

variable (cards : List CardLinks)

def indexOf (cardId : Text) : ℕ := (cards.map CardLinks.id).idxOf cardId

/-- The board without the check for cycles. -/
structure Linked (cards : List CardLinks) : Prop where
  ids : (cards.map CardLinks.id).Nodup
  others : ∀ card ∈ cards, card.id ∉ card.dependsOn
  distinct : ∀ card ∈ cards, card.dependsOn.Nodup
  known : ∀ card ∈ cards, ∀ dependency ∈ card.dependsOn, dependency ∈ cards.map CardLinks.id

structure Accepted (cards : List CardLinks) : Prop extends Linked cards where
  acyclic : KahnLevels.visits (dependents cards) cards.length (startLeveling cards) = cards.length

theorem firstRepeat_eq_none_iff {seen texts : List Text} :
    firstRepeat seen texts = none ↔ texts.Nodup ∧ ∀ text ∈ texts, text ∉ seen := by
  induction texts generalizing seen with
  | nil => simp [firstRepeat]
  | cons text rest ih =>
    rw [firstRepeat]
    split_ifs with hseen
    · refine iff_of_false id fun h => ?_
      exact h.2 text mem_cons_self hseen
    · rw [ih, nodup_cons]
      constructor
      · rintro ⟨hnodup, hnew⟩
        refine ⟨⟨fun hin => hnew text hin mem_cons_self, hnodup⟩, ?_⟩
        rintro other hother hin
        rcases mem_cons.mp hother with rfl | hother
        · exact hseen hin
        · exact hnew other hother (mem_cons_of_mem _ hin)
      · rintro ⟨⟨hfirst, hnodup⟩, hnew⟩
        refine ⟨hnodup, fun other hother hin => ?_⟩
        rcases mem_cons.mp hin with rfl | hin
        · exact hfirst hother
        · exact hnew other (mem_cons_of_mem _ hother) hin

variable {card : CardLinks}

theorem linkError_eq_none_iff {ids : List Text} :
    linkError ids card = none ↔ card.id ∉ card.dependsOn ∧ card.dependsOn.Nodup ∧
      ∀ dependency ∈ card.dependsOn, dependency ∈ ids := by
  have hrepeat : firstRepeat [] card.dependsOn = none ↔ card.dependsOn.Nodup := by
    simp [firstRepeat_eq_none_iff]
  have hfind : (card.dependsOn.find? fun dependency => decide (dependency ∉ ids)) = none ↔
      ∀ dependency ∈ card.dependsOn, dependency ∈ ids := by
    simp [List.find?_eq_none]
  rw [linkError, ← hrepeat, ← hfind]
  split_ifs with hself
  · simp [hself]
  · cases firstRepeat [] card.dependsOn with
    | some duplicate => simp [hself]
    | none =>
      cases card.dependsOn.find? fun dependency => decide (dependency ∉ ids) with
      | some missing => simp
      | none => simp [hself]

theorem settle_foldl (index : ℕ) (raised : List ℕ) (s : KahnLevels.Leveling) :
    raised.foldl settle ⟨s.indegree, s.queue⟩ =
      ⟨(raised.foldl (KahnLevels.raise index) s).indegree,
        (raised.foldl (KahnLevels.raise index) s).queue⟩ := by
  induction raised generalizing s with
  | nil => rfl
  | cons first rest ih => exact ih (KahnLevels.raise index s first)

theorem visit_eq (table : List (List ℕ)) (fuel : ℕ) (s : KahnLevels.Leveling) (visited : ℕ) :
    visit table fuel ⟨s.indegree, s.queue⟩ visited =
      ((KahnLevels.run table fuel s).indegree, visited + KahnLevels.visits table fuel s) := by
  induction fuel generalizing s visited with
  | zero => rfl
  | succ fuel ih =>
    rw [visit, KahnLevels.run, KahnLevels.visits]
    cases hqueue : s.queue with
    | nil => rfl
    | cons index rest =>
      have hsettle : (table.getD index []).foldl settle ⟨s.indegree, rest⟩ =
          ⟨(KahnLevels.visit table s index rest).indegree,
            (KahnLevels.visit table s index rest).queue⟩ :=
        settle_foldl index (table.getD index []) { s with queue := rest }
      simp only [hsettle, ih, Prod.mk.injEq, true_and]
      omega

theorem zeroes_eq (degrees : List ℕ) (offset : ℕ) :
    ((degrees.zipIdx offset).filterMap fun entry => if entry.1 = 0 then some entry.2 else none) =
      (List.range' offset degrees.length).filter fun index =>
        degrees.getD (index - offset) 0 = 0 := by
  induction degrees generalizing offset with
  | nil => rfl
  | cons degree rest ih =>
    have hrest : (List.range' (offset + 1) rest.length).filter (fun index =>
        (degree :: rest).getD (index - offset) 0 = 0) =
        (List.range' (offset + 1) rest.length).filter fun index =>
          rest.getD (index - (offset + 1)) 0 = 0 := by
      apply filter_congr
      intro index hindex
      have hle : offset + 1 ≤ index := (mem_range'_1.mp hindex).1
      rw [show index - offset = (index - (offset + 1)) + 1 by omega, getD_cons_succ]
    rw [zipIdx_cons, length_cons, range'_succ, filter_cons, hrest, ← ih,
      Nat.sub_self, getD_cons_zero, filterMap_cons]
    by_cases hzero : degree = 0
    · simp [hzero]
    · simp [hzero]

theorem startLeveling_queue (cards : List CardLinks) :
    (startLeveling cards).queue = (cards.map fun card => card.dependsOn.length).zipIdx.filterMap
      fun entry => if entry.1 = 0 then some entry.2 else none := by
  rw [zeroes_eq, length_map, ← range_eq_range']
  rfl

theorem visit_start (cards : List CardLinks) :
    visit (dependents cards) cards.length ⟨cards.map fun card => card.dependsOn.length,
      (cards.map fun card => card.dependsOn.length).zipIdx.filterMap fun entry =>
        if entry.1 = 0 then some entry.2 else none⟩ 0 =
      ((KahnLevels.run (dependents cards) cards.length (startLeveling cards)).indegree,
        KahnLevels.visits (dependents cards) cards.length (startLeveling cards)) := by
  rw [← startLeveling_queue, ← Nat.zero_add (KahnLevels.visits ..)]
  exact visit_eq (dependents cards) cards.length (startLeveling cards) 0

theorem cycleError_eq_none_iff {cards : List CardLinks} : cycleError cards = none ↔
    KahnLevels.visits (dependents cards) cards.length (startLeveling cards) = cards.length := by
  simp only [cycleError, visit_start]
  split_ifs with hne
  · exact iff_of_false id hne
  · exact iff_of_true rfl (not_not.mp hne)

theorem linked_iff {cards : List CardLinks} :
    Linked cards ↔ firstRepeat [] (cards.map CardLinks.id) = none ∧
      cards.findSome? (linkError (cards.map CardLinks.id)) = none := by
  have hrepeat : firstRepeat [] (cards.map CardLinks.id) = none ↔
      (cards.map CardLinks.id).Nodup := by
    simp [firstRepeat_eq_none_iff]
  rw [hrepeat, List.findSome?_eq_none_iff]
  constructor
  · exact fun h => ⟨h.ids, fun card hin => linkError_eq_none_iff.mpr
      ⟨h.others card hin, h.distinct card hin, h.known card hin⟩⟩
  · rintro ⟨hids, hlinks⟩
    have hall := fun card hin => linkError_eq_none_iff.mp (hlinks card hin)
    exact ⟨hids, fun card hin => (hall card hin).1, fun card hin => (hall card hin).2.1,
      fun card hin => (hall card hin).2.2⟩

theorem Linked.dependencyError_eq {cards : List CardLinks} (h : Linked cards) :
    dependencyError cards = cycleError cards := by
  obtain ⟨hrepeat, hlinks⟩ := linked_iff.mp h
  rw [dependencyError, hrepeat, hlinks]
  rfl

theorem linked_of_none {cards : List CardLinks} (h : dependencyError cards = none) :
    Linked cards := by
  rw [dependencyError] at h
  cases hrepeat : firstRepeat [] (cards.map CardLinks.id) with
  | some duplicate => simp [hrepeat] at h
  | none =>
    simp only [hrepeat, Option.or_eq_none_iff] at h
    exact linked_iff.mpr ⟨hrepeat, h.1⟩

variable {board : TaskBoard}

theorem accepted_of_validate (h : validateDependencies board = .ok ()) :
    Accepted (cardLinks board) := by
  have hnone : dependencyError (cardLinks board) = none := refuse_ok_iff.mp h
  have hlinked := linked_of_none hnone
  exact ⟨hlinked, cycleError_eq_none_iff.mp (hlinked.dependencyError_eq ▸ hnone)⟩

def cardDeps (i : ℕ) : Finset ℕ :=
  (((cards[i]?).map CardLinks.dependsOn).getD [] |>.map (indexOf cards)).toFinset

variable {i j : ℕ}

theorem mem_cardDeps {cards : List CardLinks} :
    j ∈ cardDeps cards i ↔ ∃ card, cards[i]? = some card ∧
      ∃ dependency ∈ card.dependsOn, indexOf cards dependency = j := by
  rw [cardDeps]
  cases cards[i]? with
  | none => simp
  | some card => simp

variable {cardId : Text}

theorem indexOf_lt {cards : List CardLinks} (h : cardId ∈ cards.map CardLinks.id) :
    indexOf cards cardId < cards.length := by
  have hlt := idxOf_lt_length_of_mem h
  rwa [length_map] at hlt

theorem Linked.deps_lt {cards : List CardLinks} (h : Linked cards) :
    ∀ j ∈ cardDeps cards i, j < cards.length := by
  intro j hj
  obtain ⟨card, hcard, dependency, hin, rfl⟩ := mem_cardDeps.mp hj
  exact indexOf_lt (h.known card (mem_of_getElem? hcard) dependency hin)

theorem Linked.indices_nodup {cards : List CardLinks} (h : Linked cards) (hin : card ∈ cards) :
    (card.dependsOn.map (indexOf cards)).Nodup := by
  refine List.Nodup.map_on (fun a ha b hb heq => ?_) (h.distinct card hin)
  exact (idxOf_inj (h.known card hin a ha)).mp heq

variable {index : Text → ℕ}

theorem getD_enter {entered : ℕ} (dependencies : List Text)
    (table : List (List ℕ)) (hnodup : (dependencies.map index).Nodup)
    (hlt : ∀ dependency ∈ dependencies, index dependency < table.length) (j : ℕ) :
    (dependencies.foldl (fun table dependency => table.modify (index dependency) (· ++ [entered]))
        table).length = table.length ∧
      (dependencies.foldl (fun table dependency => table.modify (index dependency) (· ++ [entered]))
        table).getD j [] =
      table.getD j [] ++ if j ∈ dependencies.map index then [entered] else [] := by
  induction dependencies generalizing table with
  | nil => simp
  | cons first rest ih =>
    obtain ⟨hfirst, hrest⟩ := nodup_cons.mp hnodup
    have hlen : (table.modify (index first) (· ++ [entered])).length = table.length :=
      length_modify ..
    obtain ⟨htotal, hrow⟩ := ih (table.modify (index first) (· ++ [entered])) hrest
      (fun dependency hin => hlen.symm ▸ hlt dependency (mem_cons_of_mem _ hin))
    rw [foldl_cons]
    refine ⟨htotal.trans hlen, hrow.trans ?_⟩
    have hlt_first := hlt first mem_cons_self
    rw [List.getD_eq_getElem?_getD, List.getElem?_modify, List.getD_eq_getElem?_getD]
    by_cases hj : index first = j
    · subst hj
      simp [hlt_first, hfirst]
    · simp [hj, Ne.symm hj]

theorem getD_dependents (entries : List (CardLinks × ℕ)) (table : List (List ℕ))
    (hnodup : ∀ entry ∈ entries, (entry.1.dependsOn.map index).Nodup)
    (hlt : ∀ entry ∈ entries, ∀ dependency ∈ entry.1.dependsOn, index dependency < table.length)
    (j : ℕ) :
    (entries.foldl (fun table entry => entry.1.dependsOn.foldl (fun table dependency =>
        table.modify (index dependency) (· ++ [entry.2])) table) table).getD j [] =
      table.getD j [] ++
        (entries.filter fun entry => j ∈ entry.1.dependsOn.map index).map Prod.snd := by
  induction entries generalizing table with
  | nil => simp
  | cons first rest ih =>
    have hlt_first := hlt first mem_cons_self
    have hnodup_first := hnodup first mem_cons_self
    obtain ⟨hlen, hrow⟩ :=
      @getD_enter index first.2 first.1.dependsOn table hnodup_first hlt_first j
    rw [foldl_cons, ih _ (fun entry hin => hnodup entry (mem_cons_of_mem _ hin))
      (fun entry hin => hlen.symm ▸ hlt entry (mem_cons_of_mem _ hin)), hrow,
      append_assoc, filter_cons]
    by_cases hj : j ∈ first.1.dependsOn.map index
    · simp only [hj, if_true, decide_true, map_cons, singleton_append]
    · simp only [hj, if_false, decide_false, nil_append, Bool.false_eq_true]

theorem Linked.graph {cards : List CardLinks} (h : Linked cards) :
    KahnLevels.Graph cards.length (cardDeps cards) (dependents cards) := by
  have hin : ∀ entry ∈ cards.zipIdx, entry.1 ∈ cards := fun entry hentry =>
    mem_of_getElem? (List.mk_mem_zipIdx_iff_getElem?.mp hentry)
  have hrow : ∀ j, (dependents cards).getD j [] =
      (cards.zipIdx.filter fun entry => j ∈ entry.1.dependsOn.map (indexOf cards)).map
        Prod.snd := by
    intro j
    rw [dependents, getD_dependents]
    · rw [List.getD_eq_getElem?_getD, List.getElem?_replicate]
      split_ifs <;> rfl
    · exact fun entry hentry => h.indices_nodup (hin entry hentry)
    · intro entry hentry dependency hdep
      rw [length_replicate]
      exact indexOf_lt (h.known _ (hin entry hentry) dependency hdep)
  constructor
  case nodup =>
    intro j
    rw [hrow]
    have hall : (cards.zipIdx.map Prod.snd).Nodup := by
      rw [zipIdx_map_snd]
      exact nodup_range'
    exact hall.sublist (filter_sublist.map _)
  case mem_iff =>
    intro i j
    rw [hrow, mem_map, mem_cardDeps]
    constructor
    · rintro ⟨⟨card, i⟩, hfilt, rfl⟩
      obtain ⟨hentry, hj⟩ := mem_filter.mp hfilt
      have hcard := List.mk_mem_zipIdx_iff_getElem?.mp hentry
      obtain ⟨dependency, hdep, heq⟩ := mem_map.mp (of_decide_eq_true hj)
      exact ⟨(List.getElem?_eq_some_iff.mp hcard).1, card, hcard, dependency, hdep, heq⟩
    · rintro ⟨-, card, hcard, dependency, hdep, heq⟩
      refine ⟨(card, i), mem_filter.mpr ⟨List.mk_mem_zipIdx_iff_getElem?.mpr hcard, ?_⟩, rfl⟩
      exact decide_eq_true (mem_map.mpr ⟨dependency, hdep, heq⟩)

theorem Linked.start {cards : List CardLinks} (h : Linked cards) :
    KahnLevels.Start cards.length (cardDeps cards) (startLeveling cards) := by
  constructor
  case indegree_length => exact length_map _
  case levels_eq => rfl
  case degree_eq =>
    intro i hi
    have hcard : cards[i]? = some cards[i] := List.getElem?_eq_getElem hi
    rw [KahnLevels.Leveling.degree, startLeveling, cardDeps, hcard, List.getD_eq_getElem?_getD,
      List.getElem?_map, hcard]
    have hnodup := h.indices_nodup (getElem_mem hi)
    exact (length_map _).symm.trans (toFinset_card_of_nodup hnodup).symm
  case queue_nodup => exact nodup_range.filter _
  case mem_queue =>
    intro i
    rw [startLeveling, mem_filter, mem_range, decide_eq_true_eq]
    rfl

def level (cardId : Text) : ℕ :=
  (cardLevels cards).getD (indexOf cards cardId) 0

def levelWaves : List Wave :=
  (List.range (((cardLevels cards).max?.map (· + 1)).getD 0)).map fun index =>
    ⟨index, (cards.zipIdx.filter fun entry => (cardLevels cards).getD entry.2 0 = index).map
      fun entry => entry.1.id⟩

theorem deriveWaves_ok (h : validateDependencies board = .ok ()) :
    deriveWaves board = .ok (levelWaves (cardLinks board)) := by
  rw [deriveWaves, h]
  rfl

variable {cards : List CardLinks}

theorem Linked.indexOf_eq (h : Linked cards) (hcard : cards[i]? = some card) :
    indexOf cards card.id = i := by
  have hget : (cards.map CardLinks.id)[i]? = some card.id := by
    rw [List.getElem?_map, hcard]
    rfl
  obtain ⟨hi, hid⟩ := List.getElem?_eq_some_iff.mp hget
  rw [indexOf, ← hid]
  exact h.ids.idxOf_getElem i hi

theorem Accepted.levels_length (h : Accepted cards) : (cardLevels cards).length = cards.length :=
  (KahnLevels.levels_spec h.graph (fun _ _ => h.deps_lt) h.start h.acyclic).1

theorem Accepted.longest (h : Accepted cards) (hi : i < cards.length) :
    IsGreatest {length | KahnLevels.Chain (cardDeps cards) length i}
      ((cardLevels cards).getD i 0) :=
  KahnLevels.isGreatest_chain (fun _ _ => h.deps_lt)
    (KahnLevels.levels_spec h.graph (fun _ _ => h.deps_lt) h.start h.acyclic).2 hi

theorem Accepted.mem_wave (h : Accepted cards) {wave : Wave} (hwave : wave ∈ levelWaves cards) :
    cardId ∈ wave.cards ↔ cardId ∈ cards.map CardLinks.id ∧ level cards cardId = wave.index := by
  obtain ⟨index, -, rfl⟩ := mem_map.mp hwave
  rw [mem_map, mem_map]
  constructor
  · rintro ⟨⟨card, i⟩, hfilt, rfl⟩
    obtain ⟨hentry, hlevel⟩ := mem_filter.mp hfilt
    have hcard := List.mk_mem_zipIdx_iff_getElem?.mp hentry
    refine ⟨⟨card, mem_of_getElem? hcard, rfl⟩, ?_⟩
    rw [level, h.indexOf_eq hcard]
    exact of_decide_eq_true hlevel
  · rintro ⟨⟨card, hin, rfl⟩, hlevel⟩
    obtain ⟨i, hcard⟩ := List.getElem?_of_mem hin
    rw [level, h.indexOf_eq hcard] at hlevel
    exact ⟨(card, i), mem_filter.mpr
      ⟨List.mk_mem_zipIdx_iff_getElem?.mpr hcard, decide_eq_true hlevel⟩, rfl⟩

theorem Accepted.level_mem (h : Accepted cards) (hin : cardId ∈ cards.map CardLinks.id) :
    level cards cardId ∈ cardLevels cards := by
  have hlt : indexOf cards cardId < (cardLevels cards).length := by
    rw [h.levels_length]
    exact indexOf_lt hin
  have hget : (cardLevels cards).getD (indexOf cards cardId) 0 =
      (cardLevels cards)[indexOf cards cardId] := by simp [hlt]
  rw [level, hget]
  exact getElem_mem hlt

theorem index_levelWaves :
    (levelWaves cards).map Wave.index = List.range (levelWaves cards).length := by
  rw [levelWaves, map_map, length_map, length_range]
  exact map_id _

theorem wave_unique {wave other : Wave} (hwave : wave ∈ levelWaves cards)
    (hother : other ∈ levelWaves cards) (heq : wave.index = other.index) : wave = other := by
  obtain ⟨index, -, rfl⟩ := mem_map.mp hwave
  obtain ⟨index', -, rfl⟩ := mem_map.mp hother
  obtain rfl : index = index' := heq
  rfl

theorem Accepted.exists_wave (h : Accepted cards) (hin : cardId ∈ cards.map CardLinks.id) :
    ∃ wave ∈ levelWaves cards, cardId ∈ wave.cards := by
  have hmem := h.level_mem hin
  cases hmax : (cardLevels cards).max? with
  | none =>
    rw [List.max?_eq_none_iff.mp hmax] at hmem
    cases hmem
  | some deepest =>
    have hle := (List.max?_eq_some_iff.mp hmax).2 _ hmem
    have hrange : level cards cardId ∈
        List.range (((cardLevels cards).max?.map (· + 1)).getD 0) := by
      rw [hmax]
      exact mem_range.mpr (Nat.lt_succ_of_le hle)
    refine ⟨_, mem_map_of_mem hrange, ?_⟩
    exact (h.mem_wave (mem_map_of_mem hrange)).mpr ⟨hin, rfl⟩

theorem Accepted.waveOf_eq (h : Accepted cards) (hin : cardId ∈ cards.map CardLinks.id) :
    waveOf (levelWaves cards) cardId = level cards cardId := by
  obtain ⟨wave, hwave, hcard⟩ := h.exists_wave hin
  rw [waveOf]
  cases hfind : (levelWaves cards).reverse.find? fun wave => cardId ∈ wave.cards with
  | none =>
    have hnot := List.find?_eq_none.mp hfind wave (mem_reverse.mpr hwave)
    exact absurd (decide_eq_true hcard) hnot
  | some found =>
    have hfound := mem_reverse.mp (List.mem_of_find?_eq_some hfind)
    have hcards : cardId ∈ found.cards := by simpa using List.find?_some hfind
    exact ((h.mem_wave hfound).mp hcards).2.symm

theorem Accepted.waves_perm (h : Accepted cards) :
    ((levelWaves cards).flatMap Wave.cards).Perm (cards.map CardLinks.id) := by
  have hindices : ((levelWaves cards).map Wave.index).Nodup := by
    rw [index_levelWaves]
    exact nodup_range
  have hnodup : ((levelWaves cards).flatMap Wave.cards).Nodup := by
    apply nodup_flatMap.mpr
    refine ⟨fun wave hwave => ?_, ?_⟩
    · obtain ⟨index, -, rfl⟩ := mem_map.mp hwave
      have hids : (cards.zipIdx.map fun entry => entry.1.id).Nodup := by
        have heq : (cards.zipIdx.map fun entry => entry.1.id) = cards.map CardLinks.id := by
          conv_rhs => rw [← zipIdx_map_fst 0 cards, map_map]
          rfl
        rw [heq]
        exact h.ids
      exact hids.sublist (filter_sublist.map _)
    · refine List.Pairwise.imp_of_mem (fun {wave other} hwave hother hne => ?_)
        (pairwise_map.mp hindices)
      intro cardId hcard hcard'
      exact hne (((h.mem_wave hwave).mp hcard).2.symm.trans ((h.mem_wave hother).mp hcard').2)
  apply (perm_ext_iff_of_nodup hnodup h.ids).mpr
  intro cardId
  rw [mem_flatMap]
  constructor
  · rintro ⟨wave, hwave, hcard⟩
    exact ((h.mem_wave hwave).mp hcard).1
  · exact h.exists_wave

theorem mem_ids :
    cardId ∈ (cardLinks board).map CardLinks.id ↔ ∃ card ∈ board.cards, card.id = cardId := by
  rw [cardLinks, map_map, mem_map]
  rfl

theorem Accepted.dependency_known (h : Accepted (cardLinks board)) {card : BoardCard}
    (hcard : card ∈ board.cards) {dependency : Text} (hdep : dependency ∈ card.dependsOn) :
    dependency ∈ (cardLinks board).map CardLinks.id :=
  h.known ⟨card.id, card.dependsOn⟩ (mem_map_of_mem hcard) dependency hdep

theorem Accepted.mem_deps (h : Accepted (cardLinks board)) {card : BoardCard}
    (hcard : card ∈ board.cards) :
    j ∈ cardDeps (cardLinks board) (indexOf (cardLinks board) card.id) ↔
      ∃ dependency ∈ card.dependsOn, indexOf (cardLinks board) dependency = j := by
  obtain ⟨i, hi⟩ := List.getElem?_of_mem hcard
  have hlink : (cardLinks board)[i]? = some ⟨card.id, card.dependsOn⟩ := by
    rw [cardLinks, List.getElem?_map, hi]
    rfl
  rw [h.indexOf_eq hlink, mem_cardDeps]
  constructor
  · rintro ⟨link, heq, hdep⟩
    obtain rfl := Option.some.inj (hlink.symm.trans heq)
    exact hdep
  · intro hdep
    exact ⟨_, hlink, hdep⟩

theorem Accepted.chain_iff (h : Accepted (cardLinks board)) {length : ℕ}
    (hin : cardId ∈ (cardLinks board).map CardLinks.id) :
    KahnLevels.Chain (cardDeps (cardLinks board)) length (indexOf (cardLinks board) cardId) ↔
      DependencyChain board length cardId := by
  constructor
  · intro hchain
    induction length generalizing cardId with
    | zero => exact .zero cardId
    | succ length ih =>
      obtain ⟨card, hcard, rfl⟩ := mem_ids.mp hin
      cases hchain with
      | succ hj hrest =>
        obtain ⟨dependency, hdep, rfl⟩ := (h.mem_deps hcard).mp hj
        exact .succ hcard hdep (ih (h.dependency_known hcard hdep) hrest)
  · intro hchain
    induction hchain with
    | zero => exact .zero _
    | succ hcard hdep _ ih =>
      exact .succ ((h.mem_deps hcard).mpr ⟨_, hdep, rfl⟩)
        (ih (h.dependency_known hcard hdep))

/-- Each card is in the wave of its longest chain. -/
structure WavesByChains (board : TaskBoard) (waves : List Wave) : Prop where
  indexed : waves.map Wave.index = List.range waves.length
  once : (waves.flatMap Wave.cards).Perm (board.cards.map BoardCard.id)
  placed : ∀ card ∈ board.cards, ∃! wave, wave ∈ waves ∧ card.id ∈ wave.cards
  longest : ∀ wave ∈ waves, ∀ cardId ∈ wave.cards,
    IsGreatest {length | DependencyChain board length cardId} wave.index
  above : ∀ card ∈ board.cards, waveOf waves card.id =
    ((card.dependsOn.map fun dependency => waveOf waves dependency + 1).max?).getD 0

theorem Accepted.longest_chain (h : Accepted (cardLinks board))
    (hin : cardId ∈ (cardLinks board).map CardLinks.id) :
    IsGreatest {length | DependencyChain board length cardId} (level (cardLinks board) cardId) := by
  have hset : {length | DependencyChain board length cardId} =
      {length | KahnLevels.Chain (cardDeps (cardLinks board)) length
        (indexOf (cardLinks board) cardId)} :=
    Set.ext fun length => (h.chain_iff hin).symm
  rw [hset]
  exact h.longest (indexOf_lt hin)

theorem Accepted.level_above (h : Accepted (cardLinks board)) {card : BoardCard}
    (hcard : card ∈ board.cards) : level (cardLinks board) card.id =
      ((card.dependsOn.map fun dependency =>
        level (cardLinks board) dependency + 1).max?).getD 0 := by
  have hlt := indexOf_lt (mem_ids.mpr ⟨card, hcard, rfl⟩)
  obtain ⟨hbelow, hattained⟩ :=
    (KahnLevels.levels_spec h.graph (fun _ _ => h.deps_lt) h.start h.acyclic).2 _ hlt
  have hupper : ∀ above ∈ card.dependsOn.map fun dependency =>
      level (cardLinks board) dependency + 1, above ≤ level (cardLinks board) card.id := by
    intro above habove
    obtain ⟨dependency, hdep, rfl⟩ := mem_map.mp habove
    exact hbelow _ ((h.mem_deps hcard).mpr ⟨dependency, hdep, rfl⟩)
  rcases hattained with hzero | ⟨j, hj, heq⟩
  · -- Nothing is below zero, so there are no dependencies.
    have hnil : card.dependsOn = [] := by
      apply eq_nil_iff_forall_not_mem.mpr
      intro dependency hdep
      have hle := hupper _ (mem_map_of_mem hdep)
      rw [show level (cardLinks board) card.id = 0 from hzero] at hle
      omega
    rw [hnil]
    exact hzero
  · obtain ⟨dependency, hdep, rfl⟩ := (h.mem_deps hcard).mp hj
    have hmax : (card.dependsOn.map fun dependency =>
        level (cardLinks board) dependency + 1).max? = some (level (cardLinks board) card.id) := by
      apply List.max?_eq_some_iff.mpr
      refine ⟨?_, hupper⟩
      rw [show level (cardLinks board) card.id = level (cardLinks board) dependency + 1 from heq]
      exact mem_map_of_mem hdep
    rw [hmax]
    rfl

theorem wavesByChains (h : Accepted (cardLinks board)) :
    WavesByChains board (levelWaves (cardLinks board)) := by
  constructor
  case indexed => exact index_levelWaves
  case once =>
    have hids : (cardLinks board).map CardLinks.id = board.cards.map BoardCard.id := by
      rw [cardLinks, map_map]
      rfl
    exact hids ▸ h.waves_perm
  case placed =>
    intro card hcard
    obtain ⟨wave, hwave, hin⟩ := h.exists_wave (mem_ids.mpr ⟨card, hcard, rfl⟩)
    refine ⟨wave, ⟨hwave, hin⟩, ?_⟩
    rintro other ⟨hother, hin'⟩
    refine wave_unique hother hwave ?_
    exact ((h.mem_wave hother).mp hin').2.symm.trans ((h.mem_wave hwave).mp hin).2
  case longest =>
    intro wave hwave cardId hin
    obtain ⟨hknown, hindex⟩ := (h.mem_wave hwave).mp hin
    exact hindex ▸ h.longest_chain hknown
  case above =>
    intro card hcard
    have hsame : (card.dependsOn.map fun dependency =>
        waveOf (levelWaves (cardLinks board)) dependency + 1) =
        card.dependsOn.map fun dependency => level (cardLinks board) dependency + 1 :=
      map_congr_left fun dependency hdep => by
        rw [h.waveOf_eq (h.dependency_known hcard hdep)]
    rw [hsame, h.waveOf_eq (mem_ids.mpr ⟨card, hcard, rfl⟩)]
    exact h.level_above hcard

end WaveLevels
