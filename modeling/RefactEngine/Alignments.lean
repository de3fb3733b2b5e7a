import Mathlib.Algebra.Order.BigOperators.Group.List

/-! # Alignments of two sequences

An alignment tells, place by place, what two sequences have in common and what only one of them has.
Between the common places lie its changes: the windows of the first sequence that have to be
replaced to make it the second one.
-/
namespace Alignments

open List

variable {α : Type*}

inductive Edit (α : Type*) where
  | left (l : α)
  | right (r : α)
  | both (l r : α)

def Edit.old : Edit α → List α
  | .left l => [l]
  | .right _ => []
  | .both l _ => [l]

def Edit.new : Edit α → List α
  | .left _ => []
  | .right r => [r]
  | .both _ r => [r]

/-- The edits give both sequences in order and pair equal items only. -/
structure Aligns (edits : List (Edit α)) (xs ys : List α) : Prop where
  old : edits.flatMap Edit.old = xs
  new : edits.flatMap Edit.new = ys
  same : ∀ l r, .both l r ∈ edits → l = r

/-- Items of the first sequence from `old` on against items of the second one from `new` on. -/
structure Change (α : Type*) where
  old : ℕ
  new : ℕ
  removed : List α
  added : List α
  deriving DecidableEq

namespace Change

def oldEnd (c : Change α) : ℕ := c.old + c.removed.length

def newEnd (c : Change α) : ℕ := c.new + c.added.length

/-- The change itself, unless it changes nothing. -/
def close (c : Change α) : List (Change α) :=
  if c.removed.isEmpty && c.added.isEmpty then [] else [c]

theorem mem_close {c d : Change α} :
    d ∈ c.close ↔ d = c ∧ (c.removed ≠ [] ∨ c.added ≠ []) := by
  rw [close]
  split_ifs with h
  · simp_all
  · simp only [Bool.and_eq_true, List.isEmpty_iff, not_and_or] at h
    simp [h]

end Change

/-- The changes of an alignment when `c` is the run of removals and additions just read. -/
def changesFrom (c : Change α) : List (Edit α) → List (Change α)
  | [] => c.close
  | .left l :: edits => changesFrom { c with removed := c.removed ++ [l] } edits
  | .right r :: edits => changesFrom { c with added := c.added ++ [r] } edits
  | .both _ _ :: edits => c.close ++ changesFrom ⟨c.oldEnd + 1, c.newEnd + 1, [], []⟩ edits

def changes (edits : List (Edit α)) : List (Change α) := changesFrom ⟨0, 0, [], []⟩ edits

def patchFrom (xs : List α) : ℕ → List (Change α) → List α
  | cursor, [] => xs.drop cursor
  | cursor, c :: cs => (xs.drop cursor).take (c.old - cursor) ++ c.added ++ patchFrom xs c.oldEnd cs

def patch (xs : List α) (cs : List (Change α)) : List α := patchFrom xs 0 cs

def Paired (xs ys : List α) (i j : ℕ) : Prop :=
  (i = 0 ∧ j = 0) ∨ ∃ i' j', i = i' + 1 ∧ j = j' + 1 ∧ i' < xs.length ∧ xs[i']? = ys[j']?

structure Located (xs ys : List α) (c : Change α) : Prop where
  old_le : c.oldEnd ≤ xs.length
  new_le : c.newEnd ≤ ys.length
  removed : (xs.drop c.old).take c.removed.length = c.removed
  added : (ys.drop c.new).take c.added.length = c.added
  paired : Paired xs ys c.old c.new
  changed : c.removed ≠ [] ∨ c.added ≠ []

/-- What is known in the middle of a run: what was read of it and what is still to come. -/
structure Reading (xs ys : List α) (c : Change α) (edits : List (Edit α)) : Prop where
  old_le : c.old ≤ xs.length
  new_le : c.new ≤ ys.length
  old : xs.drop c.old = c.removed ++ edits.flatMap Edit.old
  new : ys.drop c.new = c.added ++ edits.flatMap Edit.new
  same : ∀ l r, .both l r ∈ edits → l = r
  paired : Paired xs ys c.old c.new

section Run

variable {xs ys : List α} {c : Change α} {edits : List (Edit α)}

theorem Aligns.reading (h : Aligns edits xs ys) : Reading xs ys ⟨0, 0, [], []⟩ edits :=
  ⟨Nat.zero_le _, Nat.zero_le _, by simp [h.old], by simp [h.new], h.same, .inl ⟨rfl, rfl⟩⟩

namespace Reading

theorem oldEnd_le (h : Reading xs ys c edits) : c.oldEnd ≤ xs.length := by
  have hlen := congrArg List.length h.old
  rw [length_drop, length_append] at hlen
  have := h.old_le
  rw [Change.oldEnd]
  omega

theorem newEnd_le (h : Reading xs ys c edits) : c.newEnd ≤ ys.length := by
  have hlen := congrArg List.length h.new
  rw [length_drop, length_append] at hlen
  have := h.new_le
  rw [Change.newEnd]
  omega

theorem drop_oldEnd (h : Reading xs ys c edits) :
    xs.drop c.oldEnd = edits.flatMap Edit.old := by
  rw [Change.oldEnd, ← drop_drop, h.old, drop_left]

theorem drop_newEnd (h : Reading xs ys c edits) :
    ys.drop c.newEnd = edits.flatMap Edit.new := by
  rw [Change.newEnd, ← drop_drop, h.new, drop_left]

theorem left {l : α} (h : Reading xs ys c (.left l :: edits)) :
    Reading xs ys { c with removed := c.removed ++ [l] } edits where
  old_le := h.old_le
  new_le := h.new_le
  old := by rw [h.old, flatMap_cons, Edit.old, append_assoc]
  new := by rw [h.new, flatMap_cons, Edit.new, nil_append]
  same _ _ hmem := h.same _ _ (mem_cons_of_mem _ hmem)
  paired := h.paired

theorem right {r : α} (h : Reading xs ys c (.right r :: edits)) :
    Reading xs ys { c with added := c.added ++ [r] } edits where
  old_le := h.old_le
  new_le := h.new_le
  old := by rw [h.old, flatMap_cons, Edit.old, nil_append]
  new := by rw [h.new, flatMap_cons, Edit.new, append_assoc]
  same _ _ hmem := h.same _ _ (mem_cons_of_mem _ hmem)
  paired := h.paired

theorem both {l r : α} (h : Reading xs ys c (.both l r :: edits)) :
    Reading xs ys ⟨c.oldEnd + 1, c.newEnd + 1, [], []⟩ edits := by
  have hold : xs.drop c.oldEnd = l :: edits.flatMap Edit.old := h.drop_oldEnd
  have hnew : ys.drop c.newEnd = r :: edits.flatMap Edit.new := h.drop_newEnd
  have hlt : c.oldEnd < xs.length := by
    by_contra hge
    rw [drop_eq_nil_of_le (by omega)] at hold
    cases hold
  have hlt' : c.newEnd < ys.length := by
    by_contra hge
    rw [drop_eq_nil_of_le (by omega)] at hnew
    cases hnew
  refine ⟨hlt, hlt', ?_, ?_, fun _ _ hmem => h.same _ _ (mem_cons_of_mem _ hmem), .inr ?_⟩
  · rw [nil_append, ← drop_drop, hold, drop_one, tail_cons]
  · rw [nil_append, ← drop_drop, hnew, drop_one, tail_cons]
  · refine ⟨c.oldEnd, c.newEnd, rfl, rfl, hlt, ?_⟩
    rw [← List.head?_drop, ← List.head?_drop, hold, hnew, List.head?_cons, List.head?_cons,
      h.same l r mem_cons_self]

theorem located (h : Reading xs ys c edits) (hchanged : c.removed ≠ [] ∨ c.added ≠ []) :
    Located xs ys c where
  old_le := h.oldEnd_le
  new_le := h.newEnd_le
  removed := by rw [h.old, take_left]
  added := by rw [h.new, take_left]
  paired := h.paired
  changed := hchanged

end Reading

theorem located_of_mem_changesFrom (h : Reading xs ys c edits) :
    ∀ d ∈ changesFrom c edits, Located xs ys d := by
  have hclose : ∀ {c : Change α} {edits}, Reading xs ys c edits →
      ∀ d ∈ c.close, Located xs ys d := by
    intro c edits h d hd
    obtain ⟨rfl, hchanged⟩ := Change.mem_close.mp hd
    exact h.located hchanged
  induction edits generalizing c with
  | nil => exact hclose h
  | cons edit edits ih =>
    cases edit with
    | left l => exact ih h.left
    | right r => exact ih h.right
    | both l r =>
      intro d hd
      rcases mem_append.mp hd with hd | hd
      · exact hclose h d hd
      · exact ih h.both d hd

theorem start_le_of_mem_changesFrom {d : Change α} (hd : d ∈ changesFrom c edits) :
    c.old ≤ d.old := by
  have hclose : ∀ {c : Change α}, d ∈ c.close → c.old ≤ d.old := fun h => by
    rw [(Change.mem_close.mp h).1]
  induction edits generalizing c with
  | nil => exact hclose hd
  | cons edit edits ih =>
    cases edit with
    | left l => exact ih (c := { c with removed := c.removed ++ [l] }) hd
    | right r => exact ih (c := { c with added := c.added ++ [r] }) hd
    | both l r =>
      rcases mem_append.mp hd with hd | hd
      · exact hclose hd
      · have hle : c.oldEnd + 1 ≤ d.old := ih hd
        rw [Change.oldEnd] at hle
        omega

theorem ascending_changesFrom :
    (changesFrom c edits).Pairwise fun d e => d.oldEnd < e.old := by
  have hclose : ∀ c : Change α, c.close.Pairwise fun d e => d.oldEnd < e.old := by
    intro c
    rw [Change.close]
    split_ifs
    · exact .nil
    · exact pairwise_singleton _ _
  induction edits generalizing c with
  | nil => exact hclose c
  | cons edit edits ih =>
    cases edit with
    | left l => exact ih
    | right r => exact ih
    | both l r =>
      refine pairwise_append.mpr ⟨hclose c, ih, fun d hd e he => ?_⟩
      obtain ⟨rfl, -⟩ := Change.mem_close.mp hd
      exact start_le_of_mem_changesFrom he

/-- From one change to the next both sequences go on by the same number of places. -/
def Steady : ℕ → ℕ → List (Change α) → Prop
  | _, _, [] => True
  | old, new, c :: cs =>
    old ≤ c.old ∧ c.new = new + (c.old - old) ∧ Steady c.oldEnd c.newEnd cs

theorem steady_changesFrom {old new : ℕ} (hle : old ≤ c.old) (hnew : c.new = new + (c.old - old)) :
    Steady old new (changesFrom c edits) := by
  have hclose : ∀ {c : Change α} {cs} {old new : ℕ}, old ≤ c.old → c.new = new + (c.old - old) →
      (∀ {old new}, old ≤ c.oldEnd → c.newEnd = new + (c.oldEnd - old) → Steady old new cs) →
      Steady old new (c.close ++ cs) := by
    intro c cs old new hle hnew hrest
    rw [Change.close]
    split_ifs with hempty
    · simp only [Bool.and_eq_true, List.isEmpty_iff] at hempty
      apply hrest <;> simp [Change.oldEnd, Change.newEnd, hempty, hle, hnew]
    · exact ⟨hle, hnew, hrest le_rfl (by omega)⟩
  induction edits generalizing c old new with
  | nil =>
    rw [changesFrom, ← append_nil c.close]
    exact hclose hle hnew fun _ _ => trivial
  | cons edit edits ih =>
    cases edit with
    | left l => exact ih (c := { c with removed := c.removed ++ [l] }) hle hnew
    | right r => exact ih (c := { c with added := c.added ++ [r] }) hle hnew
    | both l r =>
      refine hclose hle hnew fun hle hnew => ih (Nat.le_succ_of_le hle) ?_
      change c.newEnd + 1 = _ + (c.oldEnd + 1 - _)
      omega

theorem patchFrom_changesFrom (h : Reading xs ys c edits) {cursor : ℕ} (hle : cursor ≤ c.old) :
    patchFrom xs cursor (changesFrom c edits) =
      (xs.drop cursor).take (c.old - cursor) ++ ys.drop c.new := by
  have hclose : ∀ {c : Change α} {edits cs} {cursor : ℕ}, Reading xs ys c edits →
      cursor ≤ c.old → (∀ i ≤ c.oldEnd, patchFrom xs i cs =
        (xs.drop i).take (c.oldEnd - i) ++ ys.drop c.newEnd) →
      patchFrom xs cursor (c.close ++ cs) =
        (xs.drop cursor).take (c.old - cursor) ++ ys.drop c.new := by
    intro c edits cs cursor h hle hrest
    rw [Change.close]
    split_ifs with hempty
    · simp only [Bool.and_eq_true, List.isEmpty_iff] at hempty
      have hold : c.oldEnd = c.old := by rw [Change.oldEnd, hempty.1, length_nil, add_zero]
      have hnew : c.newEnd = c.new := by rw [Change.newEnd, hempty.2, length_nil, add_zero]
      rw [nil_append, hrest cursor (hold ▸ hle), hold, hnew]
    · rw [singleton_append, patchFrom, hrest _ le_rfl, Nat.sub_self, take_zero,
        nil_append, h.drop_newEnd, append_assoc, ← h.new]
  induction edits generalizing c cursor with
  | nil =>
    rw [changesFrom, ← append_nil c.close]
    refine hclose h hle fun i hi => ?_
    rw [patchFrom, h.drop_newEnd, flatMap_nil, append_nil, take_of_length_le]
    have hend := congrArg List.length h.drop_oldEnd
    rw [length_drop, flatMap_nil, length_nil] at hend
    rw [length_drop]
    omega
  | cons edit edits ih =>
    cases edit with
    | left l => exact ih h.left hle
    | right r => exact ih h.right hle
    | both l r =>
      refine hclose h hle fun i hi => ?_
      rw [ih h.both (show i ≤ c.oldEnd + 1 by omega)]
      have hold : xs.drop c.oldEnd = l :: edits.flatMap Edit.old := h.drop_oldEnd
      have hnew : ys.drop c.newEnd = r :: edits.flatMap Edit.new := h.drop_newEnd
      have hnext : ys.drop (c.newEnd + 1) = edits.flatMap Edit.new := h.both.new
      rw [show c.oldEnd + 1 - i = (c.oldEnd - i) + 1 by omega, take_add, drop_drop,
        show i + (c.oldEnd - i) = c.oldEnd by omega, hold, hnew, hnext, append_assoc,
        h.same l r mem_cons_self]
      rfl

end Run

variable {xs ys : List α} {edits : List (Edit α)}

theorem Aligns.located (h : Aligns edits xs ys) : ∀ c ∈ changes edits, Located xs ys c :=
  located_of_mem_changesFrom h.reading

theorem steady_changes : Steady 0 0 (changes edits) := steady_changesFrom le_rfl rfl

theorem ascending_changes :
    (changes edits).Pairwise fun c d => c.oldEnd < d.old := ascending_changesFrom

theorem Aligns.patch_eq (h : Aligns edits xs ys) : patch xs (changes edits) = ys := by
  rw [patch, changes, patchFrom_changesFrom h.reading le_rfl]
  simp

def pairHeads [DecidableEq α] : List α → List α → List (Edit α)
  | x :: xs, y :: ys =>
    if x = y then .both x y :: pairHeads xs ys
    else (x :: xs).map .left ++ (y :: ys).map .right
  | xs, ys => xs.map .left ++ ys.map .right

def pairTails [DecidableEq α] (xs ys : List α) : List (Edit α) :=
  (pairHeads xs.reverse ys.reverse).reverse

theorem aligns_apart (xs ys : List α) : Aligns (xs.map .left ++ ys.map .right) xs ys where
  old := by
    rw [flatMap_append, flatMap_map, flatMap_map]
    simp [Edit.old]
  new := by
    rw [flatMap_append, flatMap_map, flatMap_map]
    simp [Edit.new]
  same l r h := by simp at h

theorem pairHeads_aligns [DecidableEq α] (xs ys : List α) : Aligns (pairHeads xs ys) xs ys := by
  fun_induction pairHeads xs ys with
  | case1 x xs ys ih =>
    refine ⟨?_, ?_, fun l r h => ?_⟩
    · rw [flatMap_cons, ih.old]
      rfl
    · rw [flatMap_cons, ih.new]
      rfl
    · rcases mem_cons.mp h with heq | h
      · obtain ⟨rfl, rfl⟩ := Edit.both.inj heq
        rfl
      · exact ih.same l r h
  | case2 x xs y ys hne => exact aligns_apart _ _
  | case3 xs ys _ => exact aligns_apart _ _

theorem pairTails_aligns [DecidableEq α] (xs ys : List α) : Aligns (pairTails xs ys) xs ys := by
  have hold : ∀ e : Edit α, e.old.reverse = e.old := fun e => by cases e <;> rfl
  have hnew : ∀ e : Edit α, e.new.reverse = e.new := fun e => by cases e <;> rfl
  have h := pairHeads_aligns xs.reverse ys.reverse
  refine ⟨?_, ?_, fun l r hmem => h.same l r (mem_reverse.mp hmem)⟩
  · rw [pairTails, ← reverse_inj, reverse_flatMap, reverse_reverse]
    exact (congrArg (fun f => List.flatMap f _) (funext hold)).trans h.old
  · rw [pairTails, ← reverse_inj, reverse_flatMap, reverse_reverse]
    exact (congrArg (fun f => List.flatMap f _) (funext hnew)).trans h.new

end Alignments
