import RefactEngine.WaveLevels

/-! # Which boards the dependency check accepts and which card it blames

The check peels off cards without open dependencies. What is left are the cards below which a cycle
lies, and the first of them in board order is named in the error. It need not lie on the cycle.
-/
namespace DependencyCycles

open TaskBoards BoardValidation Waves WaveLevels KahnLevels

def DependsOn (board : TaskBoard) (dependent dependency : Text) : Prop :=
  ∃ card ∈ board.cards, card.id = dependent ∧ dependency ∈ card.dependsOn

structure WellFormed (board : TaskBoard) : Prop where
  ids : (board.cards.map BoardCard.id).Nodup
  others : ∀ card ∈ board.cards, card.id ∉ card.dependsOn
  distinct : ∀ card ∈ board.cards, card.dependsOn.Nodup
  known : ∀ card ∈ board.cards, ∀ dependency ∈ card.dependsOn,
    ∃ other ∈ board.cards, other.id = dependency
  acyclic : ∀ cardId, ¬ OnCycle (DependsOn board) cardId

def cycleReport (cardId : Text) : Text := "Dependency cycle includes ".toList ++ cardId

/-- The check accepts the well-formed boards only, and a card that it blames for a cycle lies
on one. -/
structure Diagnosed (board : TaskBoard) : Prop where
  decides : validateDependencies board = .ok () ↔ WellFormed board
  blames : ∀ cardId, validateDependencies board = .error (cycleReport cardId) →
    OnCycle (DependsOn board) cardId

/-- The first card of the board from which a cycle is reached lies on one. -/
def CycleFirst (board : TaskBoard) : Prop :=
  ∀ (i : ℕ) (card : BoardCard), board.cards[i]? = some card →
    ReachesCycle (DependsOn board) card.id →
    (∀ j < i, ∀ earlier : BoardCard, board.cards[j]? = some earlier →
      ¬ ReachesCycle (DependsOn board) earlier.id) →
    OnCycle (DependsOn board) card.id

variable {board : TaskBoard}

theorem dependsOn_iff {dependent dependency : Text} : DependsOn board dependent dependency ↔
    ∃ link ∈ cardLinks board, link.id = dependent ∧ dependency ∈ link.dependsOn := by
  constructor
  · rintro ⟨card, hcard, hid, hin⟩
    exact ⟨⟨card.id, card.dependsOn⟩, List.mem_map_of_mem hcard, hid, hin⟩
  · rintro ⟨link, hlink, hid, hin⟩
    obtain ⟨card, hcard, rfl⟩ := List.mem_map.mp hlink
    exact ⟨card, hcard, hid, hin⟩

theorem wellFormed_iff : WellFormed board ↔
    Linked (cardLinks board) ∧ ∀ cardId, ¬ OnCycle (DependsOn board) cardId := by
  have hids : (cardLinks board).map CardLinks.id = board.cards.map BoardCard.id := by
    rw [cardLinks, List.map_map]
    rfl
  have hlink : ∀ card ∈ board.cards, ⟨card.id, card.dependsOn⟩ ∈ cardLinks board :=
    fun card hcard => List.mem_map_of_mem hcard
  constructor
  · intro h
    refine ⟨⟨hids ▸ h.ids, fun link hin => ?_, fun link hin => ?_, fun link hin => ?_⟩, h.acyclic⟩
    all_goals obtain ⟨card, hcard, rfl⟩ := List.mem_map.mp hin
    · exact h.others card hcard
    · exact h.distinct card hcard
    · exact fun dependency hdep => mem_ids.mpr (h.known card hcard dependency hdep)
  · rintro ⟨h, hacyclic⟩
    exact ⟨hids ▸ h.ids, fun card hcard => h.others _ (hlink card hcard),
      fun card hcard => h.distinct _ (hlink card hcard),
      fun card hcard dependency hin => mem_ids.mp (h.known _ (hlink card hcard) dependency hin),
      hacyclic⟩

def nameOf (cards : List CardLinks) (i : ℕ) : Text := ((cards[i]?).map CardLinks.id).getD []

variable {cards : List CardLinks} {cardId : Text}

theorem nameOf_indexOf (h : cardId ∈ cards.map CardLinks.id) :
    nameOf cards (indexOf cards cardId) = cardId := by
  rw [nameOf, ← List.getElem?_map, indexOf, List.getElem?_idxOf h]
  rfl

theorem indexOf_dependsOn (h : Linked (cardLinks board)) (a b : Text) (hab : DependsOn board a b) :
    indexOf (cardLinks board) b ∈ cardDeps (cardLinks board) (indexOf (cardLinks board) a) := by
  obtain ⟨link, hlink, rfl, hin⟩ := dependsOn_iff.mp hab
  obtain ⟨i, hi⟩ := List.getElem?_of_mem hlink
  rw [h.indexOf_eq hi]
  exact mem_cardDeps.mpr ⟨link, hi, b, hin, rfl⟩

theorem nameOf_dependsOn (h : Linked (cardLinks board)) (i j : ℕ)
    (hij : j ∈ cardDeps (cardLinks board) i) :
    DependsOn board (nameOf (cardLinks board) i) (nameOf (cardLinks board) j) := by
  obtain ⟨link, hi, dependency, hin, rfl⟩ := mem_cardDeps.mp hij
  have hlink := List.mem_of_getElem? hi
  rw [nameOf_indexOf (h.known link hlink dependency hin)]
  refine dependsOn_iff.mpr ⟨link, hlink, ?_, hin⟩
  rw [nameOf, hi]
  rfl

theorem reachesCycle_iff (h : Linked (cardLinks board)) {i : ℕ} {card : BoardCard}
    (hcard : board.cards[i]? = some card) :
    ReachesCycle (fun i j => j ∈ cardDeps (cardLinks board) i) i ↔
      ReachesCycle (DependsOn board) card.id := by
  have hlink : (cardLinks board)[i]? = some ⟨card.id, card.dependsOn⟩ := by
    rw [cardLinks, List.getElem?_map, hcard]
    rfl
  have hname : nameOf (cardLinks board) i = card.id := by
    rw [nameOf, hlink]
    rfl
  constructor
  · intro hreach
    exact hname ▸ hreach.lift (nameOf (cardLinks board)) (nameOf_dependsOn h)
  · intro hreach
    exact h.indexOf_eq hlink ▸ hreach.lift (indexOf (cardLinks board)) (indexOf_dependsOn h)

theorem findSome_degree {degrees : List ℕ} {name : ℕ → Option Text} {offset : ℕ}
    (hname : ∀ i < degrees.length, (name (offset + i)).isSome) {cardId : Text} :
    ((degrees.zipIdx offset).findSome? fun entry =>
        if 0 < entry.1 then name entry.2 else none) = some cardId ↔
      ∃ i < degrees.length, 0 < degrees.getD i 0 ∧ (∀ j < i, degrees.getD j 0 = 0) ∧
        name (offset + i) = some cardId := by
  induction degrees generalizing offset with
  | nil => simp
  | cons degree rest ih =>
    have hrest : ∀ i < rest.length, (name (offset + 1 + i)).isSome := by
      intro i hi
      rw [Nat.add_assoc, Nat.add_comm 1 i]
      exact hname (i + 1) (Nat.succ_lt_succ hi)
    rw [List.zipIdx_cons, List.findSome?_cons]
    by_cases hpos : 0 < degree
    · obtain ⟨first, hfirst⟩ := Option.isSome_iff_exists.mp (hname 0 (Nat.zero_lt_succ _))
      rw [Nat.add_zero] at hfirst
      simp only [if_pos hpos, hfirst]
      constructor
      · intro heq
        exact ⟨0, Nat.zero_lt_succ _, hpos, fun j hj => absurd hj (Nat.not_lt_zero j),
          hfirst.trans heq⟩
      · rintro ⟨i, -, -, hzero, heq⟩
        cases i with
        | zero => exact hfirst.symm.trans heq
        | succ i => exact absurd (hzero 0 (Nat.zero_lt_succ i)) (Nat.ne_of_gt hpos)
    · simp only [if_neg hpos]
      rw [ih hrest]
      constructor
      · rintro ⟨i, hi, hdegree, hzero, heq⟩
        refine ⟨i + 1, Nat.succ_lt_succ hi, hdegree, fun j hj => ?_, ?_⟩
        · cases j with
          | zero => exact Nat.eq_zero_of_not_pos hpos
          | succ j => exact hzero j (Nat.lt_of_succ_lt_succ hj)
        · rwa [show offset + (i + 1) = offset + 1 + i by omega]
      · rintro ⟨i, hi, hdegree, hzero, heq⟩
        cases i with
        | zero => exact absurd hdegree hpos
        | succ i =>
          refine ⟨i, Nat.lt_of_succ_lt_succ hi, hdegree,
            fun j hj => hzero (j + 1) (Nat.succ_lt_succ hj), ?_⟩
          rwa [show offset + 1 + i = offset + (i + 1) by omega]

def leftDegrees (cards : List CardLinks) : List ℕ :=
  (run (dependents cards) cards.length (startLeveling cards)).indegree

def firstLeft (cards : List CardLinks) : Option Text :=
  (leftDegrees cards).zipIdx.findSome? fun entry =>
    if 0 < entry.1 then (cards[entry.2]?).map CardLinks.id else none

theorem cycleReport_inj {other : Text} :
    cycleReport cardId = cycleReport other ↔ cardId = other := List.append_right_inj _

theorem cycleError_eq (h : cycleError cards ≠ none) :
    cycleError cards = some (cycleReport ((firstLeft cards).getD "unknown".toList)) := by
  have hne : visits (dependents cards) cards.length (startLeveling cards) ≠ cards.length :=
    fun heq => h (cycleError_eq_none_iff.mpr heq)
  simp only [cycleError, visit_start, if_pos hne]
  rfl

theorem firstLeft_eq_some_iff (h : Linked cards) : firstLeft cards = some cardId ↔
      ∃ i < cards.length, 0 < (leftDegrees cards).getD i 0 ∧
        (∀ j < i, (leftDegrees cards).getD j 0 = 0) ∧
        (cards[i]?).map CardLinks.id = some cardId := by
  obtain ⟨visited, hrun, -⟩ := run_invariant h.graph cards.length h.start.invariant
  have hlen : (leftDegrees cards).length = cards.length := hrun.indegree_length
  have hname : ∀ i < (leftDegrees cards).length,
      ((cards[0 + i]?).map CardLinks.id).isSome := by
    intro i hi
    rw [Nat.zero_add, List.getElem?_eq_getElem (hlen ▸ hi)]
    rfl
  have hiff := @findSome_degree (leftDegrees cards) (fun i => (cards[i]?).map CardLinks.id) 0
    hname cardId
  simp only [Nat.zero_add, hlen] at hiff
  exact hiff

theorem firstLeft_isSome (h : Linked cards) (herror : cycleError cards ≠ none) :
    (firstLeft cards).isSome := by
  have hleaves := run_leaves h.graph (fun _ _ => h.deps_lt) h.start
  have hopen : ∃ i, i < cards.length ∧ 0 < (leftDegrees cards).getD i 0 := by
    by_contra hnone
    push Not at hnone
    apply herror
    rw [cycleError_eq_none_iff, hleaves.1]
    exact fun i hi hreach => Nat.not_lt.mpr (hnone i hi) ((hleaves.2 i hi).mpr hreach)
  classical
  obtain ⟨hi, hpos⟩ := Nat.find_spec hopen
  rw [Option.isSome_iff_exists]
  refine ⟨cards[Nat.find hopen].id, (firstLeft_eq_some_iff h).mpr
    ⟨_, hi, hpos, fun j hj => ?_, ?_⟩⟩
  · have hmin := Nat.find_min hopen hj
    exact Nat.eq_zero_of_not_pos fun hj_pos => hmin ⟨hj.trans hi, hj_pos⟩
  · rw [List.getElem?_eq_getElem hi]
    rfl

theorem cycleError_blames (h : Linked cards) (herror : cycleError cards ≠ none) :
    cycleError cards = some (cycleReport cardId) ↔ firstLeft cards = some cardId := by
  obtain ⟨blamed, hblamed⟩ := Option.isSome_iff_exists.mp (firstLeft_isSome h herror)
  rw [cycleError_eq herror, hblamed, Option.getD_some, Option.some_inj, cycleReport_inj,
    Option.some_inj]

theorem not_cycleReport (h : ¬ Linked cards) (cardId : Text) :
    dependencyError cards ≠ some (cycleReport cardId) := by
  have hletter : ∀ message, dependencyError cards = some message →
      message.take 2 = "Du".toList ∨ message.take 2 = "Ca".toList := by
    intro message hmsg
    rw [dependencyError] at hmsg
    cases hrepeat : firstRepeat [] (cards.map CardLinks.id) with
    | some duplicate =>
      rw [hrepeat] at hmsg
      cases hmsg
      exact .inl rfl
    | none =>
      cases hlinks : cards.findSome? (linkError (cards.map CardLinks.id)) with
      | none => exact absurd (linked_iff.mpr ⟨hrepeat, hlinks⟩) h
      | some reason =>
        simp only [hrepeat, hlinks, Option.some_or, Option.some.injEq] at hmsg
        obtain ⟨before, card, -, -, hcard, -⟩ := List.findSome?_eq_some_iff.mp hlinks
        right
        rw [linkError] at hcard
        split_ifs at hcard
        · cases hcard
          rw [← hmsg]
          rfl
        · split at hcard
          · cases hcard
            rw [← hmsg]
            rfl
          · split at hcard
            · cases hcard
              rw [← hmsg]
              rfl
            · cases hcard
  intro heq
  have hrep : (cycleReport cardId).take 2 = "De".toList := rfl
  rcases hletter _ heq with hdu | hca
  · exact absurd (hrep.symm.trans hdu) (by decide)
  · exact absurd (hrep.symm.trans hca) (by decide)

theorem validate_error_iff : validateDependencies board = .error (cycleReport cardId) ↔
      dependencyError (cardLinks board) = some (cycleReport cardId) := by
  rw [validateDependencies]
  cases dependencyError (cardLinks board) with
  | none => simp [refuse]
  | some reason => simp [refuse]

theorem validate_ok_iff : validateDependencies board = .ok () ↔ WellFormed board := by
  rw [wellFormed_iff, validateDependencies, refuse_ok_iff]
  constructor
  · intro hnone
    have h := linked_of_none hnone
    refine ⟨h, fun cardId hcycle => ?_⟩
    rw [h.dependencyError_eq, cycleError_eq_none_iff] at hnone
    obtain ⟨next, ⟨card, hcard, rfl, -⟩, -⟩ := Relation.TransGen.head'_iff.mp hcycle
    obtain ⟨i, hi⟩ := List.getElem?_of_mem hcard
    have hlt : i < (cardLinks board).length := by
      rw [cardLinks, List.length_map]
      exact (List.getElem?_eq_some_iff.mp hi).1
    exact (run_leaves h.graph (fun _ _ => h.deps_lt) h.start).1.mp hnone i hlt
      ((reachesCycle_iff h hi).mpr hcycle.reaches)
  · rintro ⟨h, hacyclic⟩
    rw [h.dependencyError_eq, cycleError_eq_none_iff]
    apply (run_leaves h.graph (fun _ _ => h.deps_lt) h.start).1.mpr
    intro i hi hreach
    rw [cardLinks, List.length_map] at hi
    obtain ⟨cardId, -, hcycle⟩ := (reachesCycle_iff h (List.getElem?_eq_getElem hi)).mp hreach
    exact hacyclic cardId hcycle

theorem validate_blames_iff (h : Linked (cardLinks board)) :
    validateDependencies board = .error (cycleReport cardId) ↔
      ∃ (i : ℕ) (card : BoardCard), board.cards[i]? = some card ∧ card.id = cardId ∧
        ReachesCycle (DependsOn board) card.id ∧
        ∀ j < i, ∀ earlier : BoardCard, board.cards[j]? = some earlier →
          ¬ ReachesCycle (DependsOn board) earlier.id := by
  have hleaves := run_leaves h.graph (fun _ _ => h.deps_lt) h.start
  have hlen : (cardLinks board).length = board.cards.length := List.length_map _
  have hdegree : ∀ {i : ℕ} {card : BoardCard}, board.cards[i]? = some card →
      (0 < (leftDegrees (cardLinks board)).getD i 0 ↔ ReachesCycle (DependsOn board) card.id) := by
    intro i card hi
    rw [← reachesCycle_iff h hi]
    exact hleaves.2 i (hlen ▸ (List.getElem?_eq_some_iff.mp hi).1)
  rw [validate_error_iff, h.dependencyError_eq]
  constructor
  · intro herror
    obtain ⟨i, hi, hpos, hzero, hname⟩ :=
      (firstLeft_eq_some_iff h).mp
        ((cycleError_blames h (herror ▸ Option.some_ne_none _)).mp herror)
    have hget := List.getElem?_eq_getElem (hlen ▸ hi)
    refine ⟨i, _, hget, ?_, (hdegree hget).mp hpos, fun j hj earlier hearly hreach => ?_⟩
    · rw [cardLinks, List.getElem?_map, hget] at hname
      exact Option.some.inj hname
    · exact absurd (hzero j hj) (Nat.ne_of_gt ((hdegree hearly).mpr hreach))
  · rintro ⟨i, card, hi, rfl, hreach, hfirst⟩
    have hlt := (List.getElem?_eq_some_iff.mp hi).1
    have herror : cycleError (cardLinks board) ≠ none := fun hnone =>
      hleaves.1.mp (cycleError_eq_none_iff.mp hnone) i (hlen ▸ hlt)
        ((reachesCycle_iff h hi).mpr hreach)
    refine (cycleError_blames h herror).mpr <| (firstLeft_eq_some_iff h).mpr
      ⟨i, hlen ▸ hlt, (hdegree hi).mpr hreach, fun j hj => ?_, ?_⟩
    · have hearly := List.getElem?_eq_getElem (hj.trans hlt)
      exact Nat.eq_zero_of_not_pos fun hpos =>
        hfirst j hj _ hearly ((hdegree hearly).mp hpos)
    · rw [cardLinks, List.getElem?_map, hi]
      rfl

/-- For every board, cyclic or not, with duplicate ids or unknown dependencies. -/
theorem diagnosed_iff (board : TaskBoard) :
    Diagnosed board ↔ (Linked (cardLinks board) → CycleFirst board) := by
  constructor
  · intro h hlinked i card hi hreach hfirst
    exact h.blames card.id ((validate_blames_iff hlinked).mpr ⟨i, card, hi, rfl, hreach, hfirst⟩)
  · intro hfirst
    refine ⟨validate_ok_iff, fun cardId herror => ?_⟩
    by_cases hlinked : Linked (cardLinks board)
    · obtain ⟨i, card, hi, rfl, hreach, hearlier⟩ := (validate_blames_iff hlinked).mp herror
      exact hfirst hlinked i card hi hreach hearlier
    · exact absurd (validate_error_iff.mp herror) (not_cycleReport hlinked cardId)

def pairBelow : TaskBoard :=
  { TaskBoard.empty none [] .ownerAllowed with
    cards := [⟨['a'], [], planned, [['b']], [], none, none, none⟩,
      ⟨['b'], [], planned, [['c']], [], none, none, none⟩,
      ⟨['c'], [], planned, [['b']], [], none, none, none⟩] }

/-- The first card is blamed, and no card depends on it. -/
theorem blames_card_off_cycle : ¬ Diagnosed pairBelow := by
  intro h
  have herror : validateDependencies pairBelow = .error (cycleReport ['a']) := by decide
  have hfree : ∀ card ∈ pairBelow.cards, ['a'] ∉ card.dependsOn := by decide
  obtain ⟨_, -, card, hcard, -, hin⟩ := Relation.TransGen.tail'_iff.mp (h.blames ['a'] herror)
  exact hfree card hcard hin

end DependencyCycles
