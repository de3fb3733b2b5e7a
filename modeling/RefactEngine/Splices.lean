import Mathlib.Data.List.Sort

/-! # Replacing regions of a sequence

Regions of a sequence that lie in order are replaced one after the other from the last to the first,
or all at once: every item outside them is kept. What an item is kept as is a parameter, so that one
sequence can be compared with another one that shows the same items differently.
-/
namespace Splices

open List

variable {α β γ : Type*}

structure Region (β : Type*) where
  start : ℕ
  stop : ℕ
  items : List β

def Region.map (f : List β → List γ) (r : Region β) : Region γ := ⟨r.start, r.stop, f r.items⟩

def replaceAt (xs : List α) (r : Region α) : List α := xs.take r.start ++ r.items ++ xs.drop r.stop

def replaceAll (xs : List α) (rs : List (Region α)) : List α :=
  rs.foldr (fun r ys => replaceAt ys r) xs

def InOrder (n : ℕ) : ℕ → List (Region β) → Prop
  | cursor, [] => cursor ≤ n
  | cursor, r :: rs => cursor ≤ r.start ∧ r.start ≤ r.stop ∧ InOrder n r.stop rs

/-- Replaces all regions at once, from the place `cursor` on, and keeps the items outside them. -/
def splice (keep : α → List β) (xs : List α) : ℕ → List (Region β) → List β
  | cursor, [] => (xs.drop cursor).flatMap keep
  | cursor, r :: rs =>
    ((xs.drop cursor).take (r.start - cursor)).flatMap keep ++ r.items ++ splice keep xs r.stop rs

namespace InOrder

variable {n cursor : ℕ} {r : Region β} {rs : List (Region β)}

theorem cursor_le (h : InOrder n cursor rs) : cursor ≤ n := by
  induction rs generalizing cursor with
  | nil => exact h
  | cons r rs ih => exact h.1.trans (h.2.1.trans (ih h.2.2))

theorem start_le (h : InOrder n cursor rs) : ∀ r ∈ rs, cursor ≤ r.start ∧ r.stop ≤ n := by
  induction rs generalizing cursor with
  | nil => exact fun _ hmem => absurd hmem not_mem_nil
  | cons r rs ih =>
    intro s hs
    rcases mem_cons.mp hs with rfl | hs
    · exact ⟨h.1, h.2.2.cursor_le⟩
    · obtain ⟨hstart, hstop⟩ := ih h.2.2 s hs
      exact ⟨(h.1.trans h.2.1).trans hstart, hstop⟩

theorem mono {start : ℕ} (h : InOrder n cursor rs) (hle : start ≤ cursor) :
    InOrder n start rs := by
  cases rs with
  | nil => exact hle.trans h
  | cons r rs => exact ⟨hle.trans h.1, h.2⟩

theorem map (f : List β → List γ) (h : InOrder n cursor rs) :
    InOrder n cursor (rs.map (Region.map f)) := by
  induction rs generalizing cursor with
  | nil => exact h
  | cons r rs ih => exact ⟨h.1, h.2.1, ih h.2.2⟩

end InOrder

theorem flatMap_singleton (xs : List α) : xs.flatMap List.singleton = xs := by
  induction xs with
  | nil => rfl
  | cons x xs ih => rw [flatMap_cons, ih]; rfl

variable {xs : List α}

theorem take_splice {cursor n : ℕ} {rs : List (Region α)} (hle : n ≤ cursor)
    (hcursor : cursor ≤ xs.length) :
    (xs.take cursor ++ splice List.singleton xs cursor rs).take n = xs.take n := by
  rw [take_append_of_le_length (by rw [length_take]; omega), take_take,
    min_eq_left hle]

theorem replaceAll_eq {cursor : ℕ} {rs : List (Region α)} (h : InOrder xs.length cursor rs) :
    replaceAll xs rs = xs.take cursor ++ splice List.singleton xs cursor rs := by
  induction rs generalizing cursor with
  | nil =>
    rw [splice, replaceAll, foldr_nil, flatMap_singleton, take_append_drop]
  | cons r rs ih =>
    obtain ⟨hle, hstart, hrest⟩ := h
    have hstop := hrest.cursor_le
    have hdrop : (xs.take r.stop ++ splice List.singleton xs r.stop rs).drop r.stop =
        splice List.singleton xs r.stop rs := by
      have hlen : (xs.take r.stop).length = r.stop := by
        rw [length_take, min_eq_left hstop]
      conv_lhs => rw [← hlen]
      rw [hlen, drop_left' hlen]
    rw [replaceAll, foldr_cons, ← replaceAll, ih hrest, replaceAt, hdrop,
      take_splice hstart hstop, splice]
    rw [flatMap_singleton, ← append_assoc, ← append_assoc, ← drop_take]
    rw [show xs.take cursor ++ (xs.take r.start).drop cursor = xs.take r.start by
      conv_rhs => rw [← take_append_drop cursor (xs.take r.start)]
      rw [take_take, min_eq_left hle]]

theorem flatMap_splice (g : β → List γ) (keep : α → List β) (xs : List α) (cursor : ℕ)
    (rs : List (Region β)) :
    (splice keep xs cursor rs).flatMap g =
      splice (fun x => (keep x).flatMap g) xs cursor (rs.map (Region.map (List.flatMap g))) := by
  induction rs generalizing cursor with
  | nil => rw [splice, flatMap_assoc]; rfl
  | cons r rs ih =>
    rw [splice, flatMap_append, flatMap_append, ih, flatMap_assoc]
    rfl

theorem splice_map (f : γ → α) (keep : α → List β) (xs : List γ) (cursor : ℕ)
    (rs : List (Region β)) :
    splice keep (xs.map f) cursor rs = splice (fun x => keep (f x)) xs cursor rs := by
  induction rs generalizing cursor with
  | nil => rw [splice, splice, ← map_drop, flatMap_map]
  | cons r rs ih => rw [splice, splice, ih, ← map_drop, ← map_take, flatMap_map]

theorem mem_splice {keep : α → List β} {cursor : ℕ} {rs : List (Region β)} {y : β}
    (h : y ∈ splice keep xs cursor rs) : (∃ r ∈ rs, y ∈ r.items) ∨ ∃ x ∈ xs, y ∈ keep x := by
  induction rs generalizing cursor with
  | nil =>
    obtain ⟨x, hx, hy⟩ := mem_flatMap.mp h
    exact .inr ⟨x, mem_of_mem_drop hx, hy⟩
  | cons r rs ih =>
    rw [splice, append_assoc] at h
    rcases mem_append.mp h with h | h
    · obtain ⟨x, hx, hy⟩ := mem_flatMap.mp h
      exact .inr ⟨x, mem_of_mem_drop (mem_of_mem_take hx), hy⟩
    · rcases mem_append.mp h with h | h
      · exact .inl ⟨r, mem_cons_self, h⟩
      · rcases ih h with ⟨s, hs, hy⟩ | hx
        · exact .inl ⟨s, mem_cons_of_mem _ hs, hy⟩
        · exact .inr hx

theorem splice_congr {keep keep' : α → List β} (h : ∀ x ∈ xs, keep x = keep' x) (cursor : ℕ)
    (rs : List (Region β)) : splice keep xs cursor rs = splice keep' xs cursor rs := by
  have hcongr : ∀ n k, ((xs.drop n).take k).flatMap keep = ((xs.drop n).take k).flatMap keep' :=
    fun n k => flatMap_congr fun x hx =>
      h x (mem_of_mem_drop (mem_of_mem_take hx))
  induction rs generalizing cursor with
  | nil =>
    exact flatMap_congr fun x hx => h x (mem_of_mem_drop hx)
  | cons r rs ih => rw [splice, splice, ih, hcongr]

theorem splice_skip {keep : α → List β} {cursor next : ℕ} {rs : List (Region β)}
    (h : ∀ r ∈ rs.head?, next ≤ r.start) (hle : cursor ≤ next) : splice keep xs cursor rs =
      ((xs.drop cursor).take (next - cursor)).flatMap keep ++ splice keep xs next rs := by
  cases rs with
  | nil =>
    rw [splice, splice, ← flatMap_append]
    conv_lhs => rw [← take_append_drop (next - cursor) (xs.drop cursor)]
    rw [drop_drop, Nat.add_sub_cancel' hle]
  | cons r rs =>
    have hnext := h r rfl
    rw [splice, splice, ← append_assoc, ← append_assoc, ← flatMap_append]
    congr 3
    rw [show r.start - cursor = (next - cursor) + (r.start - next) by omega, take_add,
      drop_drop, Nat.add_sub_cancel' hle]

def extend (word : List β) (r : Region β) : Region β :=
  ⟨r.start, r.stop + word.length, r.items ++ word⟩

theorem splice_extend {word : List α} {n cursor : ℕ} {rs : List (Region α)}
    (h : InOrder n cursor (rs.map (extend word))) (hword : ∀ r ∈ rs, word <+: xs.drop r.stop) :
    splice List.singleton xs cursor (rs.map (extend word)) =
      splice List.singleton xs cursor rs := by
  induction rs generalizing cursor with
  | nil => rfl
  | cons r rs ih =>
    obtain ⟨-, -, hrest⟩ := h
    have hnext : ∀ s ∈ rs.head?, r.stop + word.length ≤ s.start := by
      cases rs with
      | nil => exact fun s hs => absurd hs (by simp)
      | cons s rs =>
        intro t ht
        obtain rfl := Option.some.inj ht
        exact hrest.1
    have hbehind : (xs.drop r.stop).take (r.stop + word.length - r.stop) = word := by
      rw [Nat.add_sub_cancel_left]
      exact (prefix_iff_eq_take.mp (hword r mem_cons_self)).symm
    rw [map_cons, splice, splice, splice_skip hnext (Nat.le_add_right _ _), hbehind,
      flatMap_singleton word, ih hrest fun s hs => hword s (mem_cons_of_mem _ hs)]
    simp only [extend, append_assoc]

theorem InOrder.of_extend {word : List β} {n cursor : ℕ} {rs : List (Region β)}
    (h : InOrder n cursor (rs.map (extend word))) (hle : ∀ r ∈ rs, r.start ≤ r.stop) :
    InOrder n cursor rs := by
  induction rs generalizing cursor with
  | nil => exact h
  | cons r rs ih =>
    obtain ⟨hcursor, -, hrest⟩ := h
    exact ⟨hcursor, hle r mem_cons_self,
      (ih hrest fun s hs => hle s (mem_cons_of_mem _ hs)).mono (Nat.le_add_right _ _)⟩

theorem splice_concat {keep : α → List β} {cursor : ℕ} {rs : List (Region β)}
    (h : InOrder (xs.length + 1) cursor rs) (hcursor : cursor ≤ xs.length)
    (hout : ∀ r ∈ rs, r.stop ≤ xs.length) (x : α) :
    splice keep (xs ++ [x]) cursor rs = splice keep xs cursor rs ++ keep x := by
  induction rs generalizing cursor with
  | nil =>
    rw [splice, splice, drop_append_of_le_length hcursor, flatMap_append,
      List.flatMap_singleton]
  | cons r rs ih =>
    obtain ⟨hle, hstart, hrest⟩ := h
    have hstop := hout r mem_cons_self
    rw [splice, splice, ih hrest hstop fun s hs => hout s (mem_cons_of_mem _ hs),
      drop_append_of_le_length hcursor, take_append_of_le_length, append_assoc,
      append_assoc, append_assoc]
    rw [length_drop]
    omega

theorem splice_beyond {keep : α → List β} {n cursor : ℕ} {rs : List (Region β)}
    (h : InOrder n cursor rs) (hle : xs.length ≤ cursor) :
    splice keep xs cursor rs = rs.flatMap Region.items := by
  induction rs generalizing cursor with
  | nil => rw [splice, drop_of_length_le hle]; rfl
  | cons r rs ih =>
    obtain ⟨hcursor, hstart, hrest⟩ := h
    rw [splice, drop_of_length_le hle, ih hrest (hle.trans (hcursor.trans hstart))]
    simp

theorem splice_covered {keep : α → List β} {cursor : ℕ} {rs : List (Region β)}
    (h : InOrder (xs.length + 1) cursor rs)
    (hcover : ∃ r ∈ rs, r.start < r.stop ∧ r.stop = xs.length + 1) (x y : α) :
    splice keep (xs ++ [x]) cursor rs = splice keep (xs ++ [y]) cursor rs := by
  have hfront : ∀ n k, n + k ≤ xs.length →
      ((xs ++ [x]).drop n).take k = ((xs ++ [y]).drop n).take k := by
    intro n k hle
    rw [drop_append_of_le_length (by omega), drop_append_of_le_length (by omega),
      take_append_of_le_length (by rw [length_drop]; omega),
      take_append_of_le_length (by rw [length_drop]; omega)]
  obtain ⟨last, hlast, hwidth, hend⟩ := hcover
  induction rs generalizing cursor with
  | nil => exact absurd hlast not_mem_nil
  | cons r rs ih =>
    obtain ⟨hle, hstart, hrest⟩ := h
    rcases mem_cons.mp hlast with rfl | hlast
    · have hbehind : splice keep (xs ++ [x]) last.stop rs =
          splice keep (xs ++ [y]) last.stop rs := by
        rw [splice_beyond hrest (by simp [hend]), splice_beyond hrest (by simp [hend])]
      rw [splice, splice, hbehind, hfront cursor (last.start - cursor) (by omega)]
    · have hbef := (hrest.start_le last hlast).1
      rw [splice, splice, ih hrest hlast, hfront cursor (r.start - cursor) (by omega)]

/-- What stands for the item at a place: the whole replacement at the start of a region, nothing
inside a region, and the item itself elsewhere. -/
def itemsAt (keep : α → List β) (rs : List (Region β)) (x : α) (i : ℕ) : List β :=
  match rs.find? fun r => r.start = i with
  | some r => r.items
  | none => if rs.any fun r => decide (r.start < i ∧ i < r.stop) then [] else keep x

/-- Replaces every region where it starts, whatever the order in which the regions are listed. -/
def replaceTogether (keep : α → List β) (xs : List α) (rs : List (Region β)) : List β :=
  xs.zipIdx.flatMap fun p => itemsAt keep rs p.1 p.2

theorem zipIdx_drop_split (xs : List α) {i j : ℕ} (hij : i ≤ j) (hj : j ≤ xs.length) :
    (xs.drop i).zipIdx i =
      ((xs.drop i).take (j - i)).zipIdx i ++ (xs.drop j).zipIdx j := by
  have hlen : i + ((xs.drop i).take (j - i)).length = j := by
    rw [length_take, length_drop]
    omega
  have hdrop : xs.drop j = (xs.drop i).drop (j - i) := by
    rw [drop_drop, Nat.add_sub_cancel' hij]
  conv_lhs => rw [← take_append_drop (j - i) (xs.drop i), zipIdx_append, hlen]
  rw [hdrop]

theorem flatMap_zipIdx (xs : List α) (i : ℕ) {f : α × ℕ → List β} {g : α → List β}
    (h : ∀ x j, i ≤ j → j < i + xs.length → f (x, j) = g x) :
    (xs.zipIdx i).flatMap f = xs.flatMap g := by
  induction xs generalizing i with
  | nil => rfl
  | cons x xs ih =>
    rw [length_cons] at h
    rw [zipIdx_cons, flatMap_cons, flatMap_cons, h x i le_rfl (by omega),
      ih (i + 1) fun y j hle hlt => h y j (by omega) (by omega)]

section Items

variable {keep : α → List β} {r : Region β} {rs : List (Region β)} {i : ℕ}

theorem itemsAt_before (h : ∀ s ∈ rs, i < s.start) (x : α) : itemsAt keep rs x i = keep x := by
  have hfind : rs.find? (fun s => s.start = i) = none := by
    refine List.find?_eq_none.mpr fun s hs => ?_
    have := h s hs
    simp only [decide_eq_true_eq]
    omega
  have hany : (rs.any fun s => decide (s.start < i ∧ i < s.stop)) = false := by
    refine any_eq_false.mpr fun s hs => ?_
    have := h s hs
    simp only [decide_eq_true_eq]
    omega
  rw [itemsAt, hfind, hany]
  rfl

theorem itemsAt_start (hi : i = r.start) (x : α) : itemsAt keep (r :: rs) x i = r.items := by
  rw [itemsAt, List.find?_cons_of_pos (by simp [hi])]

theorem itemsAt_inside (hstart : r.start < i) (hstop : i < r.stop)
    (h : ∀ s ∈ rs, r.stop ≤ s.start) (x : α) : itemsAt keep (r :: rs) x i = [] := by
  have hfind : (r :: rs).find? (fun s => s.start = i) = none := by
    refine List.find?_eq_none.mpr fun s hs => ?_
    rcases mem_cons.mp hs with rfl | hs
    · simp only [decide_eq_true_eq]
      omega
    · have := h s hs
      simp only [decide_eq_true_eq]
      omega
  rw [itemsAt, hfind]
  simp [hstart, hstop]

theorem itemsAt_behind (hstart : r.start < i) (hstop : r.stop ≤ i) (x : α) :
    itemsAt keep (r :: rs) x i = itemsAt keep rs x i := by
  have hne : ¬ r.start = i := by omega
  have hout : ¬ (r.start < i ∧ i < r.stop) := by omega
  rw [itemsAt, itemsAt, List.find?_cons_of_neg (by simpa using hne), any_cons,
    decide_eq_false hout, Bool.false_or]

end Items

theorem splice_eq_flatMap {keep : α → List β} {cursor : ℕ} {rs : List (Region β)}
    (h : InOrder xs.length cursor rs) (hne : ∀ r ∈ rs, r.start < r.stop) :
    splice keep xs cursor rs =
      ((xs.drop cursor).zipIdx cursor).flatMap fun p => itemsAt keep rs p.1 p.2 := by
  induction rs generalizing cursor with
  | nil =>
    rw [splice, flatMap_zipIdx _ _ fun x j _ _ =>
      itemsAt_before (fun _ h => absurd h not_mem_nil) x]
  | cons r rs ih =>
    obtain ⟨hle, -, hrest⟩ := h
    have hlt := hne r mem_cons_self
    have hstop := hrest.cursor_le
    have hlater : ∀ s ∈ rs, r.stop ≤ s.start := fun s hs => (hrest.start_le s hs).1
    have hfirst : ((xs.drop r.start).take 1).length = 1 := by
      rw [length_take, length_drop]
      omega
    obtain ⟨x, hx⟩ := length_eq_one_iff.mp hfirst
    -- the items before the region, the first one of it, the others of it, those behind it
    have hbef : (((xs.drop cursor).take (r.start - cursor)).zipIdx cursor).flatMap
        (fun p => itemsAt keep (r :: rs) p.1 p.2) =
        ((xs.drop cursor).take (r.start - cursor)).flatMap keep := by
      refine flatMap_zipIdx _ _ fun y j hj hjlt => itemsAt_before (fun s hs => ?_) y
      rw [length_take] at hjlt
      rcases mem_cons.mp hs with rfl | hs
      · omega
      · have := hlater s hs
        omega
    have hstart : (((xs.drop r.start).take (r.start + 1 - r.start)).zipIdx r.start).flatMap
        (fun p => itemsAt keep (r :: rs) p.1 p.2) = r.items := by
      rw [Nat.add_sub_cancel_left, hx, zipIdx_singleton, List.flatMap_singleton,
        itemsAt_start rfl]
    have hinside : (((xs.drop (r.start + 1)).take (r.stop - (r.start + 1))).zipIdx
        (r.start + 1)).flatMap (fun p => itemsAt keep (r :: rs) p.1 p.2) = [] := by
      rw [flatMap_zipIdx _ _ (g := fun _ => []) fun y j hj hjlt => ?_]
      · simp
      · rw [length_take] at hjlt
        exact itemsAt_inside (by omega) (by omega) hlater y
    have hbehind : ((xs.drop r.stop).zipIdx r.stop).flatMap
        (fun p => itemsAt keep (r :: rs) p.1 p.2) = splice keep xs r.stop rs := by
      rw [ih hrest fun s hs => hne s (mem_cons_of_mem _ hs)]
      refine flatMap_congr fun p hp => itemsAt_behind ?_ ?_ p.1
      all_goals
        have := (mem_zipIdx hp).1
        omega
    rw [splice, zipIdx_drop_split xs hle (by omega), flatMap_append, hbef,
      zipIdx_drop_split xs (Nat.le_succ r.start) (by omega), flatMap_append, hstart,
      zipIdx_drop_split xs (show r.start + 1 ≤ r.stop by omega) hstop, flatMap_append,
      hinside, hbehind, nil_append, append_assoc]

theorem mem_replaceTogether {keep : α → List β} {rs : List (Region β)} {y : β}
    (h : y ∈ replaceTogether keep xs rs) : (∃ r ∈ rs, y ∈ r.items) ∨ ∃ x ∈ xs, y ∈ keep x := by
  obtain ⟨p, hp, hy⟩ := mem_flatMap.mp h
  rw [itemsAt] at hy
  split at hy
  next r hr => exact .inl ⟨r, List.mem_of_find?_eq_some hr, hy⟩
  · split_ifs at hy
    · exact absurd hy not_mem_nil
    · exact .inr ⟨p.1, fst_mem_of_mem_zipIdx hp, hy⟩

theorem find?_perm {rs rs' : List (Region β)} (hperm : rs.Perm rs')
    (hne : rs.Pairwise fun r s => r.start ≠ s.start) (i : ℕ) :
    rs.find? (fun r => r.start = i) = rs'.find? fun r => r.start = i := by
  induction hperm with
  | nil => rfl
  | cons r _ ih =>
    rw [List.find?_cons, List.find?_cons, ih (pairwise_cons.mp hne).2]
  | swap r s rs =>
    have hrs := (pairwise_cons.mp hne).1 r mem_cons_self
    by_cases hr : r.start = i
    · have hs : ¬ s.start = i := fun hs => hrs (hs.trans hr.symm)
      simp [hr, hs]
    · simp [List.find?_cons, hr]
  | trans hperm _ ih ih' =>
    exact (ih hne).trans (ih' ((hperm.pairwise_iff fun h => Ne.symm h).mp hne))

theorem replaceTogether_perm {keep : α → List β} {rs rs' : List (Region β)} (hperm : rs.Perm rs')
    (hne : rs.Pairwise fun r s => r.start ≠ s.start) :
    replaceTogether keep xs rs = replaceTogether keep xs rs' := by
  refine flatMap_congr fun p _ => ?_
  rw [itemsAt, itemsAt, find?_perm hperm hne, hperm.any_eq]

end Splices
