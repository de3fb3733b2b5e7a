import Mathlib.Data.List.DropRight

/-! # Texts as lists of characters

Trimming by a test on characters, and the division of a text into lines.
-/
namespace TextLines

open List

variable {α : Type*}

/-- Named, so that the membership tests on texts share one proof of their lawfulness. -/
instance lawfulBEq_text : LawfulBEq (List Char) := inferInstance

def trimBy (p : α → Bool) (text : List α) : List α := (text.dropWhile p).rdropWhile p

def stripCarriageReturn (line : List Char) : List Char :=
  if line.getLast? = some '\r' then line.dropLast else line

/-- The lines of a text. A line feed ends a line, with one carriage return before it; what follows
the last line feed is a line if it is not empty. -/
def lines (text : List Char) : List (List Char) :=
  let pieces := text.splitOn '\n'
  pieces.dropLast.map stripCarriageReturn ++ (pieces.getLast?.filter (· ≠ [])).toList

theorem not_mem_of_mem_splitOn {piece text : List Char} {c : Char} (h : piece ∈ text.splitOn c) :
    c ∉ piece := by
  induction text generalizing piece with
  | nil => simp_all
  | cons first rest ih =>
    rw [splitOn_cons_eq_if_modifyHead] at h
    split at h
    · rcases mem_cons.mp h with rfl | h
      · exact not_mem_nil
      · exact ih h
    next hfirst =>
      cases hrest : rest.splitOn c with
      | nil => exact absurd hrest (splitOn_ne_nil c rest)
      | cons head others =>
        rw [hrest] at h ih
        rcases mem_cons.mp h with rfl | h
        · have hhead := ih mem_cons_self
          have hne : ¬ c = first := fun e => hfirst (by simp [e])
          simp [hhead, hne]
        · exact ih (mem_cons_of_mem _ h)

theorem stripCarriageReturn_subset (line : List Char) : stripCarriageReturn line ⊆ line := by
  rw [stripCarriageReturn]
  split
  · exact (dropLast_sublist line).subset
  · exact List.Subset.refl line

theorem infix_intercalate (separator : List α) {piece : List α} {pieces : List (List α)}
    (h : piece ∈ pieces) : piece <:+: separator.intercalate pieces := by
  induction pieces with
  | nil => cases h
  | cons first rest ih =>
    cases rest with
    | nil =>
      obtain rfl := mem_singleton.mp h
      exact ⟨[], [], by simp⟩
    | cons second rest =>
      rw [intercalate_cons_cons, append_assoc]
      rcases mem_cons.mp h with rfl | h
      · exact (prefix_append _ _).isInfix
      · exact ((ih h).trans (suffix_append _ _).isInfix).trans
          (suffix_append _ _).isInfix

theorem stripCarriageReturn_within (line : List Char) : stripCarriageReturn line <:+: line := by
  rw [stripCarriageReturn]
  split
  · exact ( dropLast_prefix line).isInfix
  · exact infix_rfl

theorem infix_of_mem_lines {text line : List Char} (h : line ∈ lines text) : line <:+: text := by
  have hpiece : ∀ piece ∈ text.splitOn '\n', piece <:+: text := by
    intro piece hpiece
    have hinfix := infix_intercalate ['\n'] hpiece
    rwa [intercalate_splitOn] at hinfix
  rcases mem_append.mp h with h | h
  · obtain ⟨piece, hmem, rfl⟩ := mem_map.mp h
    exact (stripCarriageReturn_within piece).trans
      (hpiece piece ((dropLast_sublist _).subset hmem))
  · rw [Option.mem_toList, Option.filter_eq_some_iff] at h
    exact hpiece line (List.mem_of_getLast? h.1)

theorem newline_not_mem_of_mem_lines {text line : List Char} (h : line ∈ lines text) :
    '\n' ∉ line := by
  rcases mem_append.mp h with h | h
  · obtain ⟨piece, hpiece, rfl⟩ := mem_map.mp h
    have hclear := not_mem_of_mem_splitOn ((dropLast_sublist _).subset hpiece)
    exact fun hmem => hclear (stripCarriageReturn_subset piece hmem)
  · rw [Option.mem_toList, Option.filter_eq_some_iff] at h
    exact not_mem_of_mem_splitOn (List.mem_of_getLast? h.1)

theorem lines_intercalate {before : List (List Char)} {last : List Char}
    (hclear : ∀ line ∈ before ++ [last], '\n' ∉ line)
    (hreturn : ∀ line ∈ before, line.getLast? ≠ some '\r') (hlast : last ≠ []) :
    lines (['\n'].intercalate (before ++ [last])) = before ++ [last] := by
  have hstrip : before.map stripCarriageReturn = before := by
    rw [map_congr_left (g := id), map_id]
    intro line hline
    rw [stripCarriageReturn, if_neg (hreturn line hline), id]
  rw [lines, splitOn_intercalate '\n' hclear (by simp)]
  rw [dropLast_concat, hstrip, List.getLast?_concat,
    Option.filter_some_pos (by simpa using hlast), Option.toList_some]

end TextLines
