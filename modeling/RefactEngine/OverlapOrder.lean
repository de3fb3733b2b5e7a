import RefactEngine.SortedSet
import RefactEngine.TaskBoards

/-! # Ordering the cards of a wave by the files they touch

Declared and observed files are kept apart: two cards overlap if they share a declared file, or if
they share an observed one. Every card gets the least rank that no earlier card it overlaps with
has.
-/
namespace OverlapOrder

open TaskBoards

def absenceNote : Text :=
  "No observed overlap is not permission or a guarantee that editing is safe.".toList

inductive OverlapSource where
  | declared
  | observed
  deriving DecidableEq

structure OverlapInputs where
  declared : ByCard (SortedSet String)
  observed : ByCard (SortedSet String)

def OverlapInputs.new : OverlapInputs := ⟨∅, ∅⟩

def extend (files : ByCard (SortedSet String)) (cardId : Text) (keys : List String) :
    ByCard (SortedSet String) :=
  files.insert cardId
    (keys.foldl SortedSet.insert ((files.lookup cardId).getD SortedSet.empty))

variable (inputs : OverlapInputs)

def OverlapInputs.declare (cardId : Text) (keys : List String) :
    OverlapInputs :=
  { inputs with declared := extend inputs.declared cardId keys }

def OverlapInputs.observe (cardId : Text) (keys : List String) :
    OverlapInputs :=
  { inputs with observed := extend inputs.observed cardId keys }

def OverlapInputs.isEmpty : Bool :=
  (inputs.declared.entries.all fun entry => entry.2.elems = []) &&
    inputs.observed.entries.all fun entry => entry.2.elems = []

def shared (files : ByCard (SortedSet String)) (left right : Text) : Option (List String) :=
  match files.lookup left, files.lookup right with
  | some left, some right =>
    let shared := left.elems.filter fun key => key ∈ right.elems
    if shared = [] then none else some shared
  | _, _ => none

structure OverlapEdge where
  other : Text
  source : OverlapSource
  files : List String
  deriving DecidableEq

structure OrderedCard where
  cardId : Text
  serialRank : ℕ
  overlaps : List OverlapEdge
  deriving DecidableEq

structure WaveOrder where
  wave : ℕ
  cards : List OrderedCard
  note : Text
  deriving DecidableEq

def edgesTo (cardId earlier : Text) : List OverlapEdge :=
  ((shared inputs.declared cardId earlier).map (⟨earlier, .declared, ·⟩)).toList ++
    ((shared inputs.observed cardId earlier).map (⟨earlier, .observed, ·⟩)).toList

/-- The cards so far with the next one. Its rank is searched up to its own position, and the earlier
cards cannot have taken every rank of that range. -/
def rankCard (cards : List OrderedCard) (cardId : Text) :
    List OrderedCard :=
  let taken := (cards.filter fun earlier => edgesTo inputs cardId earlier.cardId ≠ []).map
    OrderedCard.serialRank
  let serialRank :=
    ((List.range (cards.length + 1)).find? fun rank => rank ∉ taken).getD cards.length
  cards ++ [⟨cardId, serialRank, cards.flatMap fun earlier =>
    edgesTo inputs cardId earlier.cardId⟩]

def orderWave (wave : ℕ) (cardIds : List Text) (inputs : OverlapInputs) : WaveOrder where
  wave := wave
  cards := (cardIds.foldl (rankCard inputs) []).insertionSort fun one other =>
    one.serialRank ≤ other.serialRank
  note := absenceNote

def WaveOrder.ranks (order : WaveOrder) : List (Text × ℕ) :=
  order.cards.map fun card => (card.cardId, card.serialRank)

def rankOf (ranks : List (Text × ℕ)) (cardId : Text) : Option ℕ :=
  (ranks.reverse.find? fun entry => entry.1 = cardId).map Prod.snd

end OverlapOrder
