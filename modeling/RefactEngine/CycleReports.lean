import RefactEngine.DeadlockDetection

/-! # The detector finds exactly the cycles

A directed graph has a cycle exactly when one can go on forever from one of its nodes, and the
search answers with a cycle exactly then. What it reports is one simple cycle, edge by edge, as it
stands on the stack.
-/
namespace DepthFirst

variable {V E : Type} {g : Digraph V E}

variable {vs : List V} {es : List E}

theorem Trail.length_eq {w : V} (h : Trail g vs es w) : es.length = vs.length := by
  induction vs generalizing es with
  | nil =>
    cases es with
    | nil => rfl
    | cons e es => exact h.elim
  | cons v vs ih =>
    cases es with
    | nil => exact h.elim
    | cons e es => exact congrArg Nat.succ (ih h.2.2)

theorem Trail.getElem?_eq {w : V} (h : Trail g vs es w) {i : ℕ} {e : E} (he : es[i]? = some e) :
    ∃ v next, vs[i]? = some v ∧ e ∈ g.out v ∧ g.target e = some next ∧
      (vs ++ [w])[i + 1]? = some next := by
  induction vs generalizing es i with
  | nil =>
    cases es with
    | nil => cases he
    | cons e es => exact h.elim
  | cons v vs ih =>
    cases es with
    | nil => exact h.elim
    | cons e' es =>
      obtain ⟨hout, htgt, htail⟩ := h
      cases i with
      | zero =>
        cases he
        refine ⟨v, vs.headD w, rfl, hout, htgt, ?_⟩
        cases vs <;> rfl
      | succ i => exact ih htail he

theorem getElem?_closed {first : V} {others : List V} {i : ℕ}
    (hi : i < (first :: others).length) :
    (first :: others ++ [first])[i + 1]? =
      (first :: others)[(i + 1) % (first :: others).length]? := by
  rcases Nat.lt_or_ge (i + 1) (first :: others).length with hlt | hge
  · rw [Nat.mod_eq_of_lt hlt, List.getElem?_append_left hlt]
  · have hlast : i + 1 = (first :: others).length := by omega
    rw [hlast, Nat.mod_self, List.getElem?_concat_length]
    rfl

end DepthFirst

namespace DeadlockDetector

open WorkIdentity DepthFirst

variable {runs : List (RunKey × RunFacts)} {raw : List WaitEdge} {bounds : WaitGraphBounds}
  {graph : WaitGraph}

def WaitGraph.WaitsFor (graph : WaitGraph) (run target : RunKey) : Prop :=
  ∃ e ∈ graph.edges, e.fromRun = run ∧ e.toTarget = .run target

def WaitGraph.Cyclic (graph : WaitGraph) : Prop :=
  ∃ run, Relation.TransGen graph.WaitsFor run run

/-- The report is a simple cycle of the graph, and its closing edge comes back to the first run. -/
structure SimpleCycle (graph : WaitGraph) (report : DeadlockReport) : Prop where
  nonempty : report.participants ≠ []
  distinct : report.participants.Nodup
  length : report.cycle.length = report.participants.length
  edge : ∀ i e, report.cycle[i]? = some e → e ∈ graph.edges ∧
    report.participants[i]? = some e.fromRun ∧ ∃ next, e.toTarget = .run next ∧
      report.participants[(i + 1) % report.participants.length]? = some next
  closing : report.cycle.getLast? = some report.closingEdge
  closes : ∃ first, report.closingEdge.toTarget = .run first ∧
    report.participants.head? = some first

theorem mem_waits_out {run : RunKey} {index : Fin graph.edges.length} :
    index ∈ graph.waits.out run ↔ (graph.edges.get index).fromRun = run := by
  rw [waits_out, List.mem_filter, decide_eq_true_eq]
  exact and_iff_right (List.mem_finRange index)

theorem waitsFor_iff {run target : RunKey} :
    graph.WaitsFor run target ↔ target ∈ graph.waits.succ run := by
  rw [waits_succ]
  simp only [WaitGraph.WaitsFor, List.mem_filterMap, List.mem_filter, decide_eq_true_eq,
    run?_eq_some, and_assoc]

theorem tracked_of_waitsFor {run target : RunKey}
    (h : (WaitGraph.build runs raw bounds).WaitsFor run target) : Tracked runs run := by
  rw [waitsFor_iff, build_succ, mem_awaited] at h
  obtain ⟨e, -, hkept, rfl, -⟩ := h
  exact hkept.1

theorem WaitGraph.Cyclic.endless (h : (WaitGraph.build runs raw bounds).Cyclic) :
    ∃ run, Tracked runs run ∧ Endless (awaited runs raw) run := by
  obtain ⟨run, hcycle⟩ := h
  obtain ⟨target, hfirst, -⟩ := Relation.TransGen.head'_iff.mp hcycle
  refine ⟨run, tracked_of_waitsFor hfirst, ?_⟩
  have hsucc : (WaitGraph.build runs raw bounds).waits.succ = awaited runs raw := build_succ
  rw [← hsucc]
  apply endless_of_cycle
  exact Relation.TransGen.mono (fun a b hab => waitsFor_iff.mp hab) _ _ hcycle

variable {report : DeadlockReport}

theorem cyclic_of_report (h : detect (WaitGraph.build runs raw bounds) = some (.deadlock report)) :
    (WaitGraph.build runs raw bounds).Cyclic := by
  obtain ⟨cycle, hfound, rfl⟩ := detect_deadlock h
  obtain ⟨hcycle, hloop⟩ := search_found covers_reach mem_reach_of_mem_inOrder hfound
  obtain ⟨first, others, hcons, -⟩ := hcycle.trail
  have hmem : first ∈ cycle.participants := by
    rw [hcons]
    exact List.mem_cons_self
  obtain ⟨-, -, -, haround⟩ := (hloop first).mp hmem
  refine ⟨first, Relation.TransGen.mono (fun a b hab => ?_) _ _ haround⟩
  exact waitsFor_iff.mpr hab.mem

theorem simpleCycle_of_report
    (h : detect graph = some (.deadlock report)) : SimpleCycle graph report := by
  obtain ⟨cycle, hfound, rfl⟩ := detect_deadlock h
  obtain ⟨hcycle, -⟩ := search_found covers_reach mem_reach_of_mem_inOrder hfound
  obtain ⟨first, others, hcons, htrail⟩ := hcycle.trail
  have hlen : cycle.edges.length = cycle.participants.length := htrail.length_eq
  have hedge : ∀ i e, (cycle.edges.map graph.edges.get)[i]? = some e → e ∈ graph.edges ∧
      cycle.participants[i]? = some e.fromRun ∧ ∃ next, e.toTarget = .run next ∧
        cycle.participants[(i + 1) % cycle.participants.length]? = some next := by
    intro i e he
    rw [List.getElem?_map] at he
    obtain ⟨index, hindex, rfl⟩ := Option.map_eq_some_iff.mp he
    obtain ⟨run, next, hrun, hout, htgt, hnext⟩ := htrail.getElem?_eq hindex
    have hi : i < cycle.participants.length := by
      rw [← hlen]
      exact (List.getElem?_eq_some_iff.mp hindex).1
    refine ⟨List.get_mem _ _, ?_, next, run?_eq_some.mp htgt, ?_⟩
    · rw [hrun, mem_waits_out.mp hout]
    · rw [hcons] at hi hnext ⊢
      rw [← getElem?_closed hi]
      exact hnext
  have hpositive : 0 < cycle.participants.length := by
    rw [hcons]
    exact Nat.succ_pos _
  constructor
  · exact List.ne_nil_of_length_pos hpositive
  · exact hcycle.simple
  · exact (List.length_map _).trans hlen
  · exact hedge
  · exact (List.getLast?_map).trans (by rw [hcycle.closing]; rfl)
  · -- the last edge leads to the first run
    have hlast : (cycle.edges.map graph.edges.get)[cycle.participants.length - 1]? =
        some (graph.edges.get cycle.closing) := by
      rw [List.getElem?_map, ← hlen, ← List.getLast?_eq_getElem?, hcycle.closing]
      rfl
    obtain ⟨-, -, next, hto, hnext⟩ := hedge _ _ hlast
    rw [Nat.sub_add_cancel hpositive, Nat.mod_self] at hnext
    refine ⟨next, hto, ?_⟩
    rw [List.head?_eq_getElem?]
    exact hnext

/-- On a complete graph the search always ends, with a report exactly if the waits between runs have
a cycle, and every report is a simple cycle. -/
theorem detect_exact (runs : List (RunKey × RunFacts)) (raw : List WaitEdge)
    (bounds : WaitGraphBounds)
    (hcomplete : (WaitGraph.build runs raw bounds).incomplete = none) :
    let graph := WaitGraph.build runs raw bounds
    (detect graph).isSome ∧
      ((∃ report, detect graph = some (.deadlock report)) ↔ graph.Cyclic) ∧
      (detect graph = some .noDeadlock ↔ ¬ graph.Cyclic) ∧
      ∀ report, detect graph = some (.deadlock report) → SimpleCycle graph report := by
  intro graph
  have hiff : (∃ report, detect graph = some (.deadlock report)) ↔ graph.Cyclic := by
    constructor
    · rintro ⟨report, hreport⟩
      exact cyclic_of_report hreport
    · intro hcyclic
      obtain ⟨run, htracked, hendless⟩ := hcyclic.endless
      exact detect_of_endless (incomplete_eq_none.mp hcomplete) htracked hendless
  refine ⟨detect_isSome graph, hiff, ?_, fun report => simpleCycle_of_report⟩
  rw [← hiff]
  constructor
  · rintro hnone ⟨report, hreport⟩
    rw [hnone] at hreport
    cases hreport
  · intro hnot
    have hsome := detect_isSome graph
    rw [detect, hcomplete] at hsome hnot ⊢
    cases hsearch : search graph.waits (budget graph.waits graph.reach)
        (inOrder graph.nodes.keys) ∅ with
    | going s =>
      rw [hsearch] at hsome
      cases hsome
    | finished color => rfl
    | found cycle =>
      rw [hsearch] at hnot
      exact absurd ⟨graph.report cycle, rfl⟩ hnot

/-- Two runs that wait for each other. -/
theorem mutual_wait_exact :
    (WaitGraph.build parkedAgents askEachOther .default).incomplete = none ∧
      SimpleCycle (WaitGraph.build parkedAgents askEachOther .default)
        ⟨[agent "a", agent "d"], askEachOther, waitFor "d" "a" none, 1⟩ := by
  refine ⟨by decide, ?_⟩
  apply (detect_exact parkedAgents askEachOther .default (by decide)).2.2.2
  decide

end DeadlockDetector
