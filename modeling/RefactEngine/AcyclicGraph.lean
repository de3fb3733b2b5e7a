import RefactEngine.FiniteMap
import Mathlib.Algebra.Order.Ring.Nat

/-! # Cycles and path lengths in a graph of child lists

A recursive search marks the nodes it enters and leaves; if it ends without a cycle then the nodes
it left form an order in which every edge points back, and the graph has no cycle. Repeated
relaxation of all edges then finds a depth for every node that no path from the root exceeds.
-/
namespace AcyclicGraph

open List Relation

variable {V : Type} [DecidableEq V]

abbrev Adjacency (V : Type) := AList fun _ : V => List V

variable (adj : Adjacency V)

def children (v : V) : List V := (adj.lookup v).getD []

def Edge (v w : V) : Prop := w ∈ children adj v

def Acyclic : Prop := ∀ v, ¬ TransGen (Edge adj) v v

inductive Mark where
  | opened
  | done

abbrev Marks (V : Type) := AList fun _ : V => Mark

/-- A search ends with the marks, or fails with a cycle; it has no answer when it runs out of fuel.
-/
abbrev Searched (V : Type) := Except (Option (List V)) (Marks V)

def walkAll (visit : V → Marks V → Searched V) : List V → Marks V → Searched V
  | [], marks => .ok marks
  | child :: rest, marks =>
    match visit child marks with
    | .error e => .error e
    | .ok marks => walkAll visit rest marks

def walk (adj : Adjacency V) : ℕ → List V → V → Marks V → Searched V
  | 0, _, _, _ => .error none
  | fuel + 1, stack, node, marks =>
    match marks.lookup node with
    | some .done => .ok marks
    | some .opened =>
      .error (some (stack.drop ((stack.findIdx? (· = node)).getD 0) ++ [node]))
    | none =>
      match walkAll (walk adj fuel (stack ++ [node])) (children adj node)
        (marks.insert node .opened) with
      | .error e => .error e
      | .ok marks => .ok (marks.insert node .done)

/-- The order of the starts matters for the cycle that is reported only. -/
def firstCycle (starts nodes : List V) : Option (List V) :=
  match walkAll (walk adj (nodes.length + 1) []) starts ∅ with
  | .error (some participants) => some participants
  | .error none => none
  | .ok _ => none

def Closed (adj : Adjacency V) : List V → Prop
  | [] => True
  | v :: done => (∀ w ∈ children adj v, w ∈ done) ∧ Closed adj done

structure Colored (marks : Marks V) (done stack : List V) : Prop where
  done : ∀ v, marks.lookup v = some .done ↔ v ∈ done
  opened : ∀ v, marks.lookup v = some .opened ↔ v ∈ stack

def Leaves (done stack : List V) (found : List V) (marks : Marks V) : Prop :=
  ∃ new, Colored marks (new ++ done) stack ∧ Closed adj (new ++ done) ∧
    ∀ v ∈ found, v ∈ new ++ done

variable {adj : Adjacency V} {visit : V → Marks V → Searched V}

theorem walkAll_leaves {stack : List V}
    (hvisit : ∀ v marks marks' done, visit v marks = .ok marks' → Colored marks done stack →
      Closed adj done → Leaves adj done stack [v] marks') :
    ∀ (vs : List V) (marks marks' : Marks V) (done : List V), walkAll visit vs marks = .ok marks' →
      Colored marks done stack → Closed adj done → Leaves adj done stack vs marks' := by
  intro vs
  induction vs with
  | nil =>
    intro marks marks' done h hcol hclosed
    cases h
    exact ⟨[], hcol, hclosed, fun _ hv => absurd hv not_mem_nil⟩
  | cons v vs ih =>
    intro marks marks' done h hcol hclosed
    rw [walkAll] at h
    split at h
    · cases h
    next between hbetw =>
      obtain ⟨new, hcol', hclosed', hv⟩ := hvisit v marks between done hbetw hcol hclosed
      obtain ⟨newer, hcol'', hclosed'', hvs⟩ := ih between marks' _ h hcol' hclosed'
      rw [← append_assoc] at hcol'' hclosed''
      refine ⟨newer ++ new, hcol'', hclosed'', fun w hw => ?_⟩
      rw [append_assoc]
      rcases mem_cons.mp hw with rfl | hw
      · exact mem_append_right _ (hv w (mem_singleton_self w))
      · exact hvs w hw

theorem walk_leaves (fuel : ℕ) : ∀ (stack : List V) (node : V) (marks marks' : Marks V)
    (done : List V), walk adj fuel stack node marks = .ok marks' → Colored marks done stack →
      Closed adj done → Leaves adj done stack [node] marks' := by
  induction fuel with
  | zero => intro stack node marks marks' done h; cases h
  | succ fuel ih =>
    intro stack node marks marks' done h hcol hclosed
    rw [walk] at h
    split at h
    next hdone =>
      cases h
      refine ⟨[], hcol, hclosed, fun v hv => ?_⟩
      rw [mem_singleton.mp hv]
      exact (hcol.done node).mp hdone
    · cases h
    next hfresh =>
      have hstack : node ∉ stack := fun hm => by
        rw [(hcol.opened node).mpr hm] at hfresh; cases hfresh
      have hentered : Colored (marks.insert node .opened) done (stack ++ [node]) := by
        constructor
        · intro v
          rw [AList.lookup_insert_if]
          by_cases hv : v = node
          · subst hv
            simp only [if_true, Option.some.injEq, reduceCtorEq, false_iff]
            exact fun hm => by rw [(hcol.done v).mpr hm] at hfresh; cases hfresh
          · rw [if_neg hv]; exact hcol.done v
        · intro v
          rw [AList.lookup_insert_if]
          by_cases hv : v = node
          · simp [hv]
          · simp [hv, hcol.opened v]
      split at h
      · cases h
      next left hleft =>
        cases h
        obtain ⟨new, hcol', hclosed', hall⟩ := walkAll_leaves
          (fun v m m' d => ih (stack ++ [node]) v m m' d) _ _ _ _ hleft hentered hclosed
        refine ⟨node :: new, ?_, ⟨hall, hclosed'⟩, fun v hv => ?_⟩
        · constructor
          · intro v
            rw [AList.lookup_insert_if]
            by_cases hv : v = node
            · simp [hv]
            · simp [hv, hcol'.done v]
          · intro v
            rw [AList.lookup_insert_if]
            by_cases hv : v = node
            · subst hv
              simp only [if_true, Option.some.injEq, reduceCtorEq, false_iff]
              exact hstack
            · rw [if_neg hv, hcol'.opened v]
              simp [hv]
        · rw [mem_singleton.mp hv]
          exact mem_cons_self

theorem Closed.stays {done : List V} (h : Closed adj done) {v w : V} (hv : v ∈ done)
    (hvw : ReflTransGen (Edge adj) v w) : w ∈ done := by
  have hstep : ∀ u x, u ∈ done → Edge adj u x → x ∈ done := by
    clear hv hvw
    induction done with
    | nil => exact fun u x hu => absurd hu not_mem_nil
    | cons a done ih =>
      intro u x hu hux
      rcases mem_cons.mp hu with rfl | hu
      · exact mem_cons_of_mem _ (h.1 x hux)
      · exact mem_cons_of_mem _ (ih h.2 u x hu hux)
  induction hvw with
  | refl => exact hv
  | tail _ hux ih => exact hstep _ _ ih hux

theorem Closed.no_cycle {done : List V} (h : Closed adj done) :
    ∀ v ∈ done, ¬ TransGen (Edge adj) v v := by
  induction done with
  | nil => exact fun v hv => absurd hv not_mem_nil
  | cons a done ih =>
    intro v hv hcycle
    rcases mem_cons.mp hv with rfl | hv
    · obtain ⟨w, hvw, hwv⟩ := TransGen.head'_iff.mp hcycle
      exact ih h.2 v (h.2.stays (h.1 w hvw) hwv) hcycle
    · exact ih h.2 v hv hcycle

def unmarked (nodes : List V) (marks : Marks V) : ℕ :=
  nodes.countP fun v => decide (marks.lookup v = none)

def Grows (marks marks' : Marks V) : Prop := ∀ v, marks'.lookup v = none → marks.lookup v = none

theorem unmarked_le {marks marks' : Marks V} (h : Grows marks marks') (nodes : List V) :
    unmarked nodes marks' ≤ unmarked nodes marks := by
  apply countP_mono_left
  intro v _ hv
  exact decide_eq_true (h v (of_decide_eq_true hv))

theorem grows_insert (marks : Marks V) (v : V) (m : Mark) : Grows marks (marks.insert v m) := by
  intro w hw
  rw [AList.lookup_insert_if] at hw
  split at hw
  · cases hw
  · exact hw

variable {nodes : List V}

theorem unmarked_insert_lt {marks : Marks V} {v : V} (hv : v ∈ nodes)
    (hfresh : marks.lookup v = none) (m : Mark) :
    unmarked nodes (marks.insert v m) < unmarked nodes marks := by
  obtain ⟨before, after, rfl⟩ := append_of_mem hv
  have hb := unmarked_le (grows_insert marks v m) before
  have ha := unmarked_le (grows_insert marks v m) after
  simp only [unmarked, countP_append, countP_cons, AList.lookup_insert, hfresh,
    decide_true, reduceCtorEq, decide_false, if_true, Bool.false_eq_true, if_false] at hb ha ⊢
  omega

theorem walkAll_answers {n : ℕ}
    (hvisit : ∀ v ∈ nodes, ∀ marks, unmarked nodes marks < n → visit v marks ≠ .error none ∧
      ∀ marks', visit v marks = .ok marks' → Grows marks marks') :
    ∀ (vs : List V) (marks : Marks V), (∀ v ∈ vs, v ∈ nodes) → unmarked nodes marks < n →
      walkAll visit vs marks ≠ .error none ∧
      ∀ marks', walkAll visit vs marks = .ok marks' → Grows marks marks' := by
  intro vs
  induction vs with
  | nil => exact fun marks _ _ => ⟨by simp [walkAll], fun marks' h => by cases h; exact fun _ => id⟩
  | cons v vs ih =>
    intro marks hvs hn
    obtain ⟨hans, hgrows⟩ := hvisit v (hvs v mem_cons_self) marks hn
    rw [walkAll]
    cases hvisited : visit v marks with
    | error e =>
      refine ⟨fun he => hans ?_, fun marks' he => by cases he⟩
      rw [hvisited]
      exact he
    | ok between =>
      have hstep := hgrows between hvisited
      obtain ⟨hrest, hgrows'⟩ := ih between (fun w hw => hvs w (mem_cons_of_mem _ hw))
        (lt_of_le_of_lt (unmarked_le hstep nodes) hn)
      exact ⟨hrest, fun marks' h w hw => hstep w (hgrows' marks' h w hw)⟩

theorem walk_answers (hnodes : ∀ v ∈ nodes, ∀ w ∈ children adj v, w ∈ nodes) (fuel : ℕ) :
    ∀ (stack : List V), ∀ node ∈ nodes, ∀ marks, unmarked nodes marks < fuel →
      walk adj fuel stack node marks ≠ .error none ∧
      ∀ marks', walk adj fuel stack node marks = .ok marks' → Grows marks marks' := by
  induction fuel with
  | zero => intro stack node _ marks hn; omega
  | succ fuel ih =>
    intro stack node hnode marks hn
    rw [walk]
    cases hmark : marks.lookup node with
    | some m =>
      cases m with
      | opened => exact ⟨by simp, fun marks' h => by cases h⟩
      | done => exact ⟨by simp, fun marks' h => by cases h; exact fun _ => id⟩
    | none =>
      have hlt := unmarked_insert_lt hnode hmark .opened
      obtain ⟨hans, hgrows⟩ := walkAll_answers (ih (stack ++ [node])) (children adj node)
        (marks.insert node .opened) (hnodes node hnode) (by omega)
      dsimp only
      cases hall : walkAll (walk adj fuel (stack ++ [node])) (children adj node)
          (marks.insert node .opened) with
      | error e =>
        refine ⟨fun he => hans ?_, fun marks' he => by cases he⟩
        rw [hall]
        exact he
      | ok left =>
        refine ⟨by simp, fun marks' he => ?_⟩
        cases he
        intro v hv
        exact grows_insert marks node .opened v
          (hgrows left hall v (grows_insert left node .done v hv))

theorem acyclic_of_firstCycle {starts : List V} (hstarts : ∀ v ∈ starts, v ∈ nodes)
    (hnodes : ∀ v ∈ nodes, ∀ w ∈ children adj v, w ∈ nodes)
    (hall : ∀ v, children adj v ≠ [] → v ∈ starts) (h : firstCycle adj starts nodes = none) :
    Acyclic adj := by
  have hfuel : unmarked nodes ∅ < nodes.length + 1 :=
    Nat.lt_succ_of_le countP_le_length
  obtain ⟨hans, -⟩ := walkAll_answers
    (fun v hv marks hn => walk_answers hnodes (nodes.length + 1) [] v hv marks hn) starts ∅
    hstarts hfuel
  rw [firstCycle] at h
  cases hrun : walkAll (walk adj (nodes.length + 1) []) starts ∅ with
  | error e =>
    cases e with
    | none => exact absurd hrun hans
    | some participants => rw [hrun] at h; cases h
  | ok marks =>
    have hempty : Colored (∅ : Marks V) [] [] := ⟨by simp, by simp⟩
    obtain ⟨new, -, hclosed, hmem⟩ := walkAll_leaves
      (fun v m m' d => walk_leaves (nodes.length + 1) [] v m m' d) _ _ _ _ hrun hempty trivial
    intro v hcycle
    obtain ⟨w, hvw, -⟩ := TransGen.head'_iff.mp hcycle
    have hv : v ∈ starts := hall v (ne_nil_of_mem hvw)
    exact hclosed.no_cycle v (hmem v hv) hcycle

abbrev Depths (V : Type) := AList fun _ : V => ℕ

def relaxChild (candidate : ℕ) (acc : Depths V × Bool) (child : V) : Depths V × Bool :=
  match acc.1.lookup child with
  | some existing => if existing < candidate then (acc.1.insert child candidate, true) else acc
  | none => (acc.1.insert child candidate, true)

def relaxParent (acc : Depths V × Bool) (entry : V × List V) : Depths V × Bool :=
  match acc.1.lookup entry.1 with
  | none => acc
  | some parentDepth => entry.2.foldl (relaxChild (parentDepth + 1)) acc

def relax (entries : List (V × List V)) (depths : Depths V) : Depths V × Bool :=
  entries.foldl relaxParent (depths, false)

def relaxWhile (entries : List (V × List V)) : ℕ → Depths V → Depths V
  | 0, depths => depths
  | rounds + 1, depths =>
    let relaxed := relax entries depths
    if relaxed.2 then relaxWhile entries rounds relaxed.1 else relaxed.1

def totalEdges (entries : List (V × List V)) : ℕ := (entries.map fun e => e.2.length).sum

def longestDepths (root : V) (entries : List (V × List V)) : Depths V :=
  (relaxWhile entries (totalEdges entries + 1) ((∅ : Depths V).insert root 0)).erase root

inductive Path (adj : Adjacency V) (root : V) : V → ℕ → Prop where
  | start : Path adj root root 0
  | extend {v w n} : Path adj root v n → Edge adj v w → Path adj root w (n + 1)

def AtLeast (depths : Depths V) (v : V) (n : ℕ) : Prop := ∃ m, depths.lookup v = some m ∧ n ≤ m

/-- The depths only grow, and a round that sets no flag changes nothing. -/
structure Deepens (acc acc' : Depths V × Bool) : Prop where
  grows : ∀ v n, AtLeast acc.1 v n → AtLeast acc'.1 v n
  flag : acc'.2 = false → acc' = acc

theorem Deepens.refl (acc : Depths V × Bool) : Deepens acc acc := ⟨fun _ _ h => h, fun _ => rfl⟩

theorem Deepens.trans {a b c : Depths V × Bool} (hab : Deepens a b) (hbc : Deepens b c) :
    Deepens a c := by
  refine ⟨fun v n h => hbc.grows v n (hab.grows v n h), fun h => ?_⟩
  have hc := hbc.flag h
  rw [hc] at h ⊢
  exact hab.flag h

theorem deepens_foldl {α : Type} {f : Depths V × Bool → α → Depths V × Bool}
    (hf : ∀ acc x, Deepens acc (f acc x)) (xs : List α) (acc : Depths V × Bool) :
    Deepens acc (xs.foldl f acc) := by
  induction xs generalizing acc with
  | nil => exact Deepens.refl acc
  | cons x xs ih => exact (hf acc x).trans (ih _)

theorem atLeast_insert {depths : Depths V} {v w : V} {n m : ℕ} (h : AtLeast depths v n)
    (hw : ∀ k, depths.lookup w = some k → k ≤ m) : AtLeast (depths.insert w m) v n := by
  obtain ⟨k, hk, hn⟩ := h
  rw [AtLeast, AList.lookup_insert_if]
  by_cases hv : v = w
  · subst hv
    exact ⟨m, by rw [if_pos rfl], hn.trans (hw k hk)⟩
  · exact ⟨k, by rw [if_neg hv, hk], hn⟩

theorem deepens_relaxChild (candidate : ℕ) (acc : Depths V × Bool) (child : V) :
    Deepens acc (relaxChild candidate acc child) := by
  unfold relaxChild
  split
  next existing hexisting =>
    split
    next hlt =>
      refine ⟨fun v n h => atLeast_insert h fun k hk => ?_, fun h => by cases h⟩
      rw [hexisting] at hk
      cases hk
      exact hlt.le
    · exact Deepens.refl acc
  next hnone =>
    refine ⟨fun v n h => atLeast_insert h fun k hk => ?_, fun h => by cases h⟩
    rw [hnone] at hk
    cases hk

theorem relaxChild_atLeast (candidate : ℕ) (acc : Depths V × Bool) (child : V) :
    AtLeast (relaxChild candidate acc child).1 child candidate := by
  unfold relaxChild
  split
  next existing hexisting =>
    split
    · exact ⟨candidate, AList.lookup_insert _, le_rfl⟩
    next hge => exact ⟨existing, hexisting, not_lt.mp hge⟩
  · exact ⟨candidate, AList.lookup_insert _, le_rfl⟩

theorem deepens_relaxParent (acc : Depths V × Bool) (entry : V × List V) :
    Deepens acc (relaxParent acc entry) := by
  unfold relaxParent
  split
  · exact Deepens.refl acc
  · exact deepens_foldl (deepens_relaxChild _) _ acc

theorem relaxParent_atLeast {acc : Depths V × Bool} {v w : V} {cs : List V} {n : ℕ}
    (h : AtLeast acc.1 v n) (hw : w ∈ cs) : AtLeast (relaxParent acc (v, cs)).1 w (n + 1) := by
  obtain ⟨m, hm, hn⟩ := h
  obtain ⟨before, after, rfl⟩ := append_of_mem hw
  simp only [relaxParent, hm, foldl_append, foldl_cons]
  apply (deepens_foldl (deepens_relaxChild (m + 1)) after _).grows
  obtain ⟨k, hk, hle⟩ := relaxChild_atLeast (m + 1) (before.foldl (relaxChild (m + 1)) acc) w
  exact ⟨k, hk, by omega⟩

theorem relax_atLeast {entries : List (V × List V)} {depths : Depths V} {v w : V} {cs : List V}
    {n : ℕ} (hentry : (v, cs) ∈ entries) (hw : w ∈ cs) (h : AtLeast depths v n) :
    AtLeast (relax entries depths).1 w (n + 1) := by
  obtain ⟨before, after, rfl⟩ := append_of_mem hentry
  simp only [relax, foldl_append, foldl_cons]
  apply (deepens_foldl deepens_relaxParent after _).grows
  apply relaxParent_atLeast _ hw
  exact (deepens_foldl deepens_relaxParent before (depths, false)).grows v n h

def Accounts (adj : Adjacency V) (root : V) (depths : Depths V) (k : ℕ) : Prop :=
  ∀ v n, Path adj root v n → n ≤ k → AtLeast depths v n

section Rounds

variable {entries : List (V × List V)} {root : V} {depths : Depths V}

theorem Accounts.relax (hents : ∀ v cs, adj.lookup v = some cs → (v, cs) ∈ entries) {k : ℕ}
    (h : Accounts adj root depths k) : Accounts adj root (relax entries depths).1 (k + 1) := by
  intro v n hpath hn
  by_cases hk : n ≤ k
  · exact (deepens_foldl deepens_relaxParent entries (depths, false)).grows v n (h v n hpath hk)
  · cases hpath with
    | start => exact absurd (Nat.zero_le k) hk
    | @extend u _ m hu huv =>
      rw [Edge, children] at huv
      cases hcs : adj.lookup u with
      | none => simp [hcs] at huv
      | some cs =>
        rw [hcs] at huv
        exact relax_atLeast (hents u cs hcs) huv (h u m hu (by omega))

theorem Accounts.relaxWhile (hents : ∀ v cs, adj.lookup v = some cs → (v, cs) ∈ entries)
    (rounds : ℕ) : ∀ (depths : Depths V) (k : ℕ), Accounts adj root depths k →
      Accounts adj root (relaxWhile entries rounds depths) (k + rounds) := by
  induction rounds with
  | zero => exact fun depths k h => h
  | succ rounds ih =>
    intro depths k h
    have hround := h.relax hents
    rw [AcyclicGraph.relaxWhile]
    cases hflag : (AcyclicGraph.relax entries depths).2 with
    | true =>
      have hrest := ih _ _ hround
      rw [if_pos rfl]
      intro v n hpath hn
      exact hrest v n hpath (by omega)
    | false =>
      -- Nothing changed, so every further round would leave the depths as they are.
      have hsame := (deepens_foldl deepens_relaxParent entries (depths, false)).flag hflag
      have hfix : (AcyclicGraph.relax entries depths).1 = depths := by
        rw [AcyclicGraph.relax, hsame]
      have hall : ∀ j, Accounts adj root depths (k + j) := by
        intro j
        induction j with
        | zero => exact h
        | succ j ih' =>
          have hnext := ih'.relax hents
          rw [hfix] at hnext
          exact hnext
      rw [if_neg (by decide), hfix]
      exact hall (rounds + 1)

end Rounds

theorem Path.length_le {root v : V} {n : ℕ} (h : Path adj root v n) (hacyclic : Acyclic adj)
    (hnodes : ∀ v w, Edge adj v w → w ∈ nodes) : n ≤ nodes.length := by
  have hvisited : ∃ l : List V, l.length = n ∧ l.Nodup ∧ l ⊆ nodes ∧
      ∀ x ∈ l, ReflTransGen (Edge adj) x v := by
    induction h with
    | start =>
      exact ⟨[], rfl, nodup_nil, nil_subset _, fun _ hx => absurd hx not_mem_nil⟩
    | @extend u w m hu huw ih =>
      obtain ⟨l, hlen, hnodup, hsub, hreach⟩ := ih
      refine ⟨w :: l, by rw [length_cons, hlen], nodup_cons.mpr ⟨fun hw => ?_, hnodup⟩,
        cons_subset.mpr ⟨hnodes u w huw, hsub⟩, fun x hx => ?_⟩
      · exact hacyclic w (TransGen.tail' (hreach w hw) huw)
      · rcases mem_cons.mp hx with rfl | hx
        · exact ReflTransGen.refl
        · exact (hreach x hx).tail huw
  obtain ⟨l, rfl, hnodup, hsub, -⟩ := hvisited
  exact (subperm_of_subset hnodup hsub).length_le

theorem Path.reaches {root v : V} {n : ℕ} (h : Path adj root v (n + 1)) :
    TransGen (Edge adj) root v := by
  generalize hk : n + 1 = k at h
  induction h generalizing n with
  | start => cases hk
  | @extend u w m hu huw ih =>
    cases m with
    | zero =>
      cases hu
      exact TransGen.single huw
    | succ m => exact (ih rfl).tail huw

theorem path_le_longestDepths {root v : V} {n : ℕ} [LinearOrder V] (hacyclic : Acyclic adj)
    (h : Path adj root v (n + 1)) :
    AtLeast (longestDepths root adj.inOrder) v (n + 1) := by
  have hents : ∀ v cs, adj.lookup v = some cs → (v, cs) ∈ adj.inOrder :=
    fun _ _ hl => AList.mem_inOrder.mpr hl
  have hnodes : ∀ v w, Edge adj v w → w ∈ adj.inOrder.flatMap Prod.snd := by
    intro v w hvw
    rw [Edge, children] at hvw
    cases hl : adj.lookup v with
    | none => simp [hl] at hvw
    | some cs =>
      rw [hl] at hvw
      exact mem_flatMap.mpr ⟨(v, cs), hents v cs hl, hvw⟩
  have hlen : n + 1 ≤ totalEdges adj.inOrder := by
    have hle := h.length_le hacyclic hnodes
    rwa [length_flatMap] at hle
  have hstart : Accounts adj root ((∅ : Depths V).insert root 0) 0 := by
    intro u m hpath hm
    obtain rfl := Nat.le_zero.mp hm
    cases hpath
    exact ⟨0, AList.lookup_insert _, le_rfl⟩
  have hall := hstart.relaxWhile hents (totalEdges adj.inOrder + 1)
  obtain ⟨m, hm, hle⟩ := hall v (n + 1) h (by omega)
  have hv : v ≠ root := fun he => hacyclic v (he.symm ▸ h.reaches)
  exact ⟨m, by rw [longestDepths, AList.lookup_erase_ne hv]; exact hm, hle⟩

end AcyclicGraph
