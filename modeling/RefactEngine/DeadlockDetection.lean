import RefactEngine.WaitGraph
import Mathlib.Data.List.Dedup

/-! # What the detector reports

The search runs over the kept edges of the built graph, which are a function of the runs and
the raw edges alone. A deadlock is reported exactly when one can follow kept waits forever,
and the reported runs are those of the first loop. Which runs can still progress is a least
fixpoint over an AND/OR graph: an await-any group needs one of its members, every other
wait is needed.
-/
namespace DeadlockDetector

open WorkIdentity DepthFirst List WaitGraph

variable {runs : List (RunKey × RunFacts)} {raw : List WaitEdge} {bounds : WaitGraphBounds}
  {run : RunKey} {graph : WaitGraph}

theorem adjacency_fold (indices : List (Fin graph.edges.length))
    (adjacency : AList fun _ : RunKey => List (Fin graph.edges.length)) (run : RunKey) :
    ((indices.foldl (fun adjacency index =>
      adjacency.insert (graph.edges.get index).fromRun
        ((adjacency.lookup (graph.edges.get index).fromRun).getD [] ++ [index]))
      adjacency).lookup run).getD [] =
      (adjacency.lookup run).getD [] ++
        indices.filter fun index => (graph.edges.get index).fromRun = run := by
  induction indices generalizing adjacency with
  | nil => simp
  | cons index indices ih =>
    rw [foldl_cons, ih, AList.lookup_insert_if, filter_cons]
    by_cases h : run = (graph.edges.get index).fromRun
    · rw [← h]
      simp
    · simp only [if_neg h, Ne.symm h, decide_false, Bool.false_eq_true, if_false]

theorem waits_out : graph.waits.out run = (List.finRange graph.edges.length).filter fun index =>
    (graph.edges.get index).fromRun = run := by
  have h := adjacency_fold (List.finRange graph.edges.length) ∅ run
  rw [AList.lookup_empty, Option.getD_none, nil_append] at h
  exact h

theorem waits_succ : graph.waits.succ run =
    (graph.edges.filter fun edge => edge.fromRun = run).filterMap fun edge =>
      edge.toTarget.run? := by
  conv_rhs => rw [← map_get_finRange graph.edges]
  rw [Digraph.succ, waits_out, filter_map, filterMap_map]
  rfl

/-- The runs that a run waits for by its kept edges, in the order of the raw edges. -/
noncomputable def awaited (runs : List (RunKey × RunFacts)) (raw : List WaitEdge)
    (run : RunKey) : List RunKey :=
  open Classical in
  (raw.filter fun edge => Kept runs raw edge ∧ edge.fromRun = run).filterMap fun edge =>
    edge.toTarget.run?

theorem mem_awaited {target : RunKey} : target ∈ awaited runs raw run ↔
    ∃ e ∈ raw, Kept runs raw e ∧ e.fromRun = run ∧ e.toTarget = .run target := by
  simp only [awaited, mem_filterMap, mem_filter, decide_eq_true_eq, run?_eq_some,
    and_assoc]

theorem build_succ : (build runs raw bounds).waits.succ = awaited runs raw := by
  classical
  funext run
  have hfilt : (build runs raw bounds).edges =
      raw.filter fun edge => Kept runs raw edge := by
    apply filter_congr
    intro edge hmem
    rw [Bool.eq_iff_iff, keeps_iff hmem, decide_eq_true_eq]
  rw [waits_succ, hfilt, filter_filter, awaited]
  congr 1
  apply filter_congr
  intro edge _
  rw [Bool.eq_iff_iff]
  simp [and_comm]

theorem covers_reach : Covers graph.waits graph.reach := by
  intro run index _ target htgt
  apply mem_append_right
  exact mem_filterMap.mpr ⟨_, get_mem _ _, htgt⟩

theorem mem_reach_of_mem_inOrder : ∀ run ∈ inOrder graph.nodes.keys, run ∈ graph.reach := by
  intro run hrun
  apply mem_append_left
  exact (mem_insertionSort _).mp hrun

def roster (runs : List (RunKey × RunFacts)) : List RunKey :=
  inOrder (runs.map Prod.fst).dedup

theorem runRank_injective : Function.Injective runRank := by
  rintro ⟨⟨runtime, id⟩, attempt⟩ ⟨⟨runtime', id'⟩, attempt'⟩ h
  simp only [runRank, toLex_inj, Prod.mk.injEq] at h
  obtain ⟨hrun, rfl, rfl⟩ := h
  cases runtime <;> cases runtime' <;> simp_all

theorem inOrder_eq_of_perm {l l' : List RunKey} (h : l.Perm l') : inOrder l = inOrder l' := by
  have htotal : Std.Total fun a b : RunKey => runRank a ≤ runRank b :=
    ⟨fun a b => le_total _ _⟩
  have htrans : IsTrans RunKey fun a b => runRank a ≤ runRank b :=
    ⟨fun a b c hab hbc => le_trans hab hbc⟩
  apply List.Perm.eq_of_pairwise _ (pairwise_insertionSort _ l)
    (pairwise_insertionSort _ l')
  · exact (perm_insertionSort _ l).trans (h.trans (perm_insertionSort _ l').symm)
  · intro a b _ _ hab hba
    exact runRank_injective (le_antisymm hab hba)

theorem mem_roster : run ∈ roster runs ↔ Tracked runs run := by
  rw [roster, inOrder, mem_insertionSort, List.mem_dedup, Tracked]

theorem keys_perm {nodes : Nodes} (h : ∀ run, (nodes.lookup run).isSome ↔ Tracked runs run) :
    nodes.keys.Perm (runs.map Prod.fst).dedup := by
  apply (perm_ext_iff_of_nodup nodes.keys_nodup (nodup_dedup _)).mpr
  intro run
  rw [List.mem_dedup, ← AList.mem_keys, ← AList.lookup_isSome, h run]
  rfl

theorem build_starts :
    inOrder (build runs raw bounds).nodes.keys = roster runs :=
  inOrder_eq_of_perm (keys_perm fun _ => markedNodes_isSome raw)

def Exceeds (runs : List (RunKey × RunFacts)) (raw : List WaitEdge) (bounds : WaitGraphBounds) :
    Prop :=
  bounds.maxNodes < (runs.map Prod.fst).dedup.length ∨ bounds.maxEdges < raw.length

theorem collect_length : (collect runs).keys.length = (runs.map Prod.fst).dedup.length := by
  apply List.Perm.length_eq
  apply keys_perm
  intro run
  rw [collect_lookup, Option.isSome_map, tracked_iff]

theorem incomplete_eq_none : (build runs raw bounds).incomplete = none ↔
    ¬ Exceeds runs raw bounds := by
  simp only [build, incompleteReason, collect_length, Exceeds]
  split
  · simp_all
  · split <;> simp_all

theorem detect_incomplete (h : Exceeds runs raw bounds) :
    ∃ reason, detect (build runs raw bounds) = some (.incomplete reason) := by
  cases hi : (build runs raw bounds).incomplete with
  | none => exact absurd h (incomplete_eq_none.mp hi)
  | some reason => exact ⟨reason, by simp only [detect, hi]⟩

variable {report : DeadlockReport}

theorem detect_deadlock (h : detect graph = some (.deadlock report)) :
    ∃ cycle, search graph.waits (budget graph.waits graph.reach) (inOrder graph.nodes.keys) ∅ =
      .found cycle ∧ report = graph.report cycle := by
  unfold detect at h
  split at h
  · cases h
  · split at h
    · cases h
    · cases h
    · rename_i cycle hfound
      cases h
      exact ⟨cycle, hfound, rfl⟩

theorem mem_participants (h : detect (build runs raw bounds) = some (.deadlock report))
    (run : RunKey) : run ∈ report.participants ↔ OnLoop (awaited runs raw) (roster runs) run := by
  obtain ⟨cycle, hfound, rfl⟩ := detect_deadlock h
  obtain ⟨-, hloop⟩ := search_found covers_reach mem_reach_of_mem_inOrder hfound
  rw [build_succ, build_starts] at hloop
  exact hloop run

theorem participant_waits (h : detect (build runs raw bounds) = some (.deadlock report))
    (hrun : run ∈ report.participants) : ∃ e ∈ raw, Kept runs raw e ∧ e.fromRun = run ∧
      ∃ target ∈ report.participants, e.toTarget = .run target := by
  obtain ⟨cycle, hfound, rfl⟩ := detect_deadlock h
  obtain ⟨hcycle, -⟩ := search_found covers_reach mem_reach_of_mem_inOrder hfound
  obtain ⟨index, hindex, target, htgt, heq⟩ := hcycle.edge_of_mem hrun
  have hsucc := mem_succ.mpr ⟨index, hindex, heq⟩
  rw [build_succ, mem_awaited] at hsucc
  obtain ⟨e, he, hkept, hfrom, hto⟩ := hsucc
  exact ⟨e, he, hkept, hfrom, target, htgt, hto⟩

/-- The search has enough fuel for every graph. -/
theorem detect_isSome (graph : WaitGraph) : (detect graph).isSome := by
  unfold detect
  split
  · rfl
  · split
    · rename_i s hgoing
      exact absurd hgoing (search_not_going covers_reach mem_reach_of_mem_inOrder s)
    · rfl
    · rfl

/-- A run from which one can follow kept waits forever is enough for a report. -/
theorem detect_of_endless (hbound : ¬ Exceeds runs raw bounds) (hrun : Tracked runs run)
    (hend : Endless (awaited runs raw) run) :
    ∃ report, detect (build runs raw bounds) = some (.deadlock report) := by
  have hstart : run ∈ inOrder (build runs raw bounds).nodes.keys := by
    rw [build_starts]
    exact mem_roster.mpr hrun
  have hgraph : Endless (build runs raw bounds).waits.succ run := by
    rw [build_succ]
    exact hend
  obtain ⟨cycle, hfound⟩ :=
    search_found_of_endless covers_reach mem_reach_of_mem_inOrder hstart hgraph
  refine ⟨(build runs raw bounds).report cycle, ?_⟩
  rw [detect, incomplete_eq_none.mpr hbound]
  simp only [hfound]

/-- The runs of the set hold each other up: each has a wait for a member, or an await-any of
which every branch is a wait for a member. -/
structure Stuck (runs : List (RunKey × RunFacts)) (raw : List WaitEdge) (S : Set RunKey) :
    Prop where
  nonempty : S.Nonempty
  tracked : ∀ run ∈ S, Tracked runs run
  internal : ∀ run ∈ S, ¬ External raw run
  waits : ∀ run ∈ S,
    (∃ e ∈ raw, e.fromRun = run ∧ e.group = none ∧ e.kind.isAdvisory = false ∧
      ∃ target ∈ S, e.toTarget = .run target) ∨
    (∃ e ∈ raw, e.fromRun = run ∧ ∃ group, e.group = some group ∧
      ∀ e' ∈ raw, e'.group = some group → e'.kind.isAdvisory = false ∧
        ∃ target ∈ S, e'.toTarget = .run target)

theorem Stuck.blocked {S : Set RunKey} (h : Stuck runs raw S) (hrun : run ∈ S) :
    Blocked runs raw run := by
  obtain ⟨facts, hf⟩ := Option.isSome_iff_exists.mp (tracked_iff.mp (h.tracked run hrun))
  refine ⟨h.internal run hrun, facts, hf, .inr (.inr ?_)⟩
  rcases h.waits run hrun with ⟨e, he, hfrom, -, hkind, target, htgt, hto⟩ |
    ⟨e, he, hfrom, group, hgroup, hall⟩
  · exact ⟨e, he, hfrom, hkind, target, hto, h.tracked target htgt⟩
  · obtain ⟨hkind, target, htgt, hto⟩ := hall e he hgroup
    exact ⟨e, he, hfrom, hkind, target, hto, h.tracked target htgt⟩

theorem Stuck.endless {S : Set RunKey} (h : Stuck runs raw S) (hrun : run ∈ S) :
    Endless (awaited runs raw) run := by
  refine ⟨S, hrun, fun r hr => ?_⟩
  have htracked := h.tracked r hr
  have hinternal := h.internal r hr
  rcases h.waits r hr with ⟨e, he, rfl, hgroup, hkind, target, htgt, hto⟩ |
    ⟨e, he, rfl, group, hgroup, hall⟩
  · refine ⟨target, htgt, mem_awaited.mpr ⟨e, he, ⟨htracked, hinternal, target, hto,
      h.tracked target htgt, fun hadv => ?_, fun g hg => ?_⟩, rfl, hto⟩⟩
    · rw [hkind] at hadv
      cases hadv
    · rw [hgroup] at hg
      cases hg
  · obtain ⟨hkind, target, htgt, hto⟩ := hall e he hgroup
    refine ⟨target, htgt, mem_awaited.mpr ⟨e, he, ⟨htracked, hinternal, target, hto,
      h.tracked target htgt, fun _ => h.blocked htgt, fun g hg => ?_⟩, rfl, hto⟩⟩
    -- every branch of the group waits for a member, and members are blocked
    obtain rfl : group = g := Option.some.inj (hgroup.symm.trans hg)
    intro e' he' hg'
    obtain ⟨-, target', htgt', hto'⟩ := hall e' he' hg'
    exact ⟨target', hto', h.blocked htgt'⟩

/-- Within the bounds every set of runs that hold each other up leads to a report, and past
the bounds the answer is that the detection is incomplete. -/
theorem no_deadlock_missed (runs : List (RunKey × RunFacts)) (raw : List WaitEdge)
    (bounds : WaitGraphBounds) :
    (¬ Exceeds runs raw bounds → ∀ S : Set RunKey, Stuck runs raw S →
      ∃ report, detect (build runs raw bounds) = some (.deadlock report)) ∧
    (Exceeds runs raw bounds →
      ∃ reason, detect (build runs raw bounds) = some (.incomplete reason)) := by
  constructor
  · intro hbound S hstuck
    obtain ⟨run, hrun⟩ := hstuck.nonempty
    exact detect_of_endless hbound (hstuck.tracked run hrun) (hstuck.endless hrun)
  · exact detect_incomplete

def agent (id : String) : RunKey := (WorkKey.backgroundAgent id).run 1

def waitFor (waiter target : String) (group : Option ℕ) : WaitEdge :=
  ⟨agent waiter, .run (agent target), .agentWait, group, "wait"⟩

def parkedAgents : List (RunKey × RunFacts) :=
  [(agent "a", ⟨true, false, 1⟩), (agent "b", ⟨true, false, 1⟩), (agent "c", ⟨false, false, 1⟩),
    (agent "d", ⟨true, false, 1⟩)]

def askEachOther : List WaitEdge := [waitFor "a" "d" none, waitFor "d" "a" none]

theorem askEachOther_stuck : Stuck parkedAgents askEachOther {agent "a", agent "d"} := by
  constructor
  · exact ⟨agent "a", by simp⟩
  · rintro run (rfl | rfl)
    · exact mem_map.mpr ⟨_, mem_cons_self, rfl⟩
    · exact mem_map.mpr ⟨(agent "d", ⟨true, false, 1⟩), by decide, rfl⟩
  · rintro run - ⟨e, he, -, hext⟩
    revert e
    decide
  · rintro run (rfl | rfl)
    · exact .inl ⟨waitFor "a" "d" none, by decide, rfl, rfl, rfl, agent "d", by simp, rfl⟩
    · exact .inl ⟨waitFor "d" "a" none, by decide, rfl, rfl, rfl, agent "a", by simp, rfl⟩

theorem askEachOther_within : ¬ Exceeds parkedAgents askEachOther .default := by
  unfold Exceeds
  decide

/-- Two runs that ask each other are reported, and past a bound of one run the detection says
that it is incomplete. -/
theorem mutual_wait_found :
    (∃ report, detect (build parkedAgents askEachOther .default) =
      some (.deadlock report)) ∧
    ∃ reason, detect (build parkedAgents askEachOther ⟨1, 16384⟩) =
      some (.incomplete reason) :=
  ⟨(no_deadlock_missed _ _ _).1 askEachOther_within _ askEachOther_stuck,
    (no_deadlock_missed _ _ _).2 (.inl (by decide))⟩

def Open (runs : List (RunKey × RunFacts)) (X : Set RunKey) : WaitTarget → Prop
  | .run target => target ∈ X ∨ ¬ Tracked runs target
  | _ => True

/-- Nothing but waits blocks the run, and they end once the runs of `X` progress. -/
structure Freed (runs : List (RunKey × RunFacts)) (raw : List WaitEdge) (X : Set RunKey)
    (run : RunKey) : Prop where
  admitted : ∀ facts, factsOf runs run = some facts → facts.waitingForCapacity = false
  ungrouped : ∀ e ∈ raw, e.fromRun = run → e.group = none → ∃ target ∈ X, e.toTarget = .run target
  grouped : ∀ e ∈ raw, e.fromRun = run → ∀ group, e.group = some group →
    ∃ e' ∈ raw, e'.group = some group ∧ Open runs X e'.toTarget

/-- The runs that progress at once, and those that progress when the runs of `X` do. -/
def progressStep (runs : List (RunKey × RunFacts)) (raw : List WaitEdge) :
    Set RunKey →o Set RunKey where
  toFun X := { run | ∃ node, (markedNodes runs raw).lookup run = some node ∧
    (node.blocked = false ∨ node.waitingOnExternal = true ∨ Freed runs raw X run) }
  monotone' X Y hXY := by
    rintro run ⟨node, hnode, hblocked | hext | hfreed⟩
    · exact ⟨node, hnode, .inl hblocked⟩
    · exact ⟨node, hnode, .inr (.inl hext)⟩
    · refine ⟨node, hnode, .inr (.inr ⟨hfreed.admitted, fun e he hfrom hg => ?_,
        fun e he hfrom group hg => ?_⟩)⟩
      · obtain ⟨target, htarget, hto⟩ := hfreed.ungrouped e he hfrom hg
        exact ⟨target, hXY htarget, hto⟩
      · obtain ⟨e', he', hg', hopen⟩ := hfreed.grouped e he hfrom group hg
        refine ⟨e', he', hg', ?_⟩
        cases hto : e'.toTarget with
        | run target =>
          rw [hto] at hopen
          exact hopen.imp_left fun h => hXY h
        | _ => trivial

def Progresses (runs : List (RunKey × RunFacts)) (raw : List WaitEdge) (run : RunKey) : Prop :=
  run ∈ (progressStep runs raw).lfp

/-- The wait lies on a circle of kept waits and is one of an await-any of which every branch is
marked blocked, one of them only by waits that end. -/
structure AnsweredAwait (runs : List (RunKey × RunFacts)) (raw : List WaitEdge) (e : WaitEdge) :
    Prop where
  kept : Kept runs raw e
  circle : ∃ target, e.toTarget = .run target ∧
    Relation.ReflTransGen (fun waiter next => next ∈ awaited runs raw waiter) target e.fromRun
  answered : ∃ group, e.group = some group ∧ ∃ e' ∈ raw, e'.group = some group ∧
    ∃ branch, e'.toTarget = .run branch ∧ Freed runs raw { r | Progresses runs raw r } branch

theorem step_progresses {X : Set RunKey} (hX : ∀ r ∈ X, Progresses runs raw r)
    (h : run ∈ progressStep runs raw X) : Progresses runs raw run := by
  rw [Progresses, ← OrderHom.map_lfp]
  exact (progressStep runs raw).monotone' hX h

theorem progresses_of_step
    (h : run ∈ progressStep runs raw { r | Progresses runs raw r }) : Progresses runs raw run :=
  step_progresses (fun _ hr => hr) h

theorem Kept.blocked {e : WaitEdge} (h : Kept runs raw e) (he : e ∈ raw)
    (hkind : e.kind.isAdvisory = false) : Blocked runs raw e.fromRun := by
  obtain ⟨htracked, hinternal, target, hto, htgt, -⟩ := h
  obtain ⟨facts, hf⟩ := Option.isSome_iff_exists.mp (tracked_iff.mp htracked)
  exact ⟨hinternal, facts, hf, .inr (.inr ⟨e, he, rfl, hkind, target, hto, htgt⟩)⟩

/-- What is marked blocked progresses only by waits that end. -/
theorem Progresses.freed (h : Progresses runs raw run) (hblocked : Blocked runs raw run) :
    Freed runs raw { r | Progresses runs raw r } run := by
  rw [Progresses, ← OrderHom.map_lfp] at h
  obtain ⟨node, hnode, hunblocked | hext | hfreed⟩ := h
  · have hb := (markedNodes_spec hnode).blocked.mpr hblocked
    rw [hunblocked] at hb
    cases hb
  · exact absurd ((markedNodes_spec hnode).external.mp hext) hblocked.1
  · exact hfreed

theorem Freed.progresses (h : Freed runs raw { r | Progresses runs raw r } run)
    (htracked : Tracked runs run) : Progresses runs raw run := by
  obtain ⟨node, hnode⟩ := Option.isSome_iff_exists.mp ((markedNodes_isSome raw).mpr htracked)
  exact progresses_of_step ⟨node, hnode, .inr (.inr h)⟩

/-- Runs that hold each other up do not progress. -/
theorem Stuck.not_progresses {S : Set RunKey} (h : Stuck runs raw S) (hrun : run ∈ S) :
    ¬ Progresses runs raw run := by
  have hclosed : progressStep runs raw { r | r ∉ S } ≤ { r | r ∉ S } := by
    rintro r ⟨node, hnode, hcases⟩ hr
    have hspec := markedNodes_spec hnode
    rcases hcases with hunblocked | hext | hfreed
    · have hb := hspec.blocked.mpr (h.blocked hr)
      rw [hunblocked] at hb
      cases hb
    · exact h.internal r hr (hspec.external.mp hext)
    · rcases h.waits r hr with ⟨e, he, hfrom, hnone, -, target, htarget, hto⟩ |
        ⟨e, he, hfrom, group, hgroup, hall⟩
      · obtain ⟨target', hout, hto'⟩ := hfreed.ungrouped e he hfrom hnone
        obtain rfl : target = target' := WaitTarget.run.inj (hto.symm.trans hto')
        exact hout htarget
      · obtain ⟨e', he', hg', hopen⟩ := hfreed.grouped e he hfrom group hgroup
        obtain ⟨-, target, htarget, hto⟩ := hall e' he' hg'
        rw [hto] at hopen
        exact hopen.elim (fun hout => hout htarget) fun hun => hun (h.tracked target htarget)
  exact fun hprogress => OrderHom.lfp_le _ hclosed hprogress hrun

theorem participants_circle {target : RunKey}
    (h : detect (build runs raw bounds) = some (.deadlock report))
    (hrun : run ∈ report.participants) (htgt : target ∈ report.participants) :
    Relation.ReflTransGen (fun waiter next => next ∈ awaited runs raw waiter) run target := by
  have hreach := ((mem_participants h run).mp hrun).reaches ((mem_participants h target).mp htgt)
  exact Relation.ReflTransGen.mono (fun _ _ hnext => Onward.mem hnext) _ _ hreach

theorem participants_stuck (hkinds : ∀ e ∈ raw, e.kind.isAdvisory = false)
    (h : detect (build runs raw bounds) = some (.deadlock report))
    (hnone : ∀ e ∈ raw, ¬ AnsweredAwait runs raw e) :
    ∀ run ∈ report.participants, ¬ Progresses runs raw run := by
  -- the progressing runs that are not reported are closed under the step
  have hclosed : progressStep runs raw { r | Progresses runs raw r ∧ r ∉ report.participants } ≤
      { r | Progresses runs raw r ∧ r ∉ report.participants } := by
    intro run hstep
    refine ⟨step_progresses (fun r hr => hr.1) hstep, fun hin => ?_⟩
    obtain ⟨e, he, hkept, rfl, target, htgt, hto⟩ := participant_waits h hin
    obtain ⟨node, hnode, hcases⟩ := hstep
    have hspec := markedNodes_spec hnode
    rcases hcases with hunblocked | hext | hfreed
    · have hb := hspec.blocked.mpr (hkept.blocked he (hkinds e he))
      rw [hunblocked] at hb
      cases hb
    · exact hkept.2.1 (hspec.external.mp hext)
    · cases hg : e.group with
      | none =>
        obtain ⟨t, ht, hto'⟩ := hfreed.ungrouped e he rfl hg
        obtain rfl : target = t := WaitTarget.run.inj (hto.symm.trans hto')
        exact ht.2 htgt
      | some group =>
        obtain ⟨e', he', hg', hopen⟩ := hfreed.grouped e he rfl group hg
        obtain ⟨-, -, -, -, -, -, hall⟩ := id hkept
        obtain ⟨branch, hto', hblocked⟩ := hall group hg e' he' hg'
        obtain ⟨-, facts, hf, -⟩ := id hblocked
        rw [hto'] at hopen
        have hbranch : Progresses runs raw branch := by
          rcases hopen with hin' | huntracked
          · exact hin'.1
          · exact absurd (tracked_iff.mpr (by rw [hf]; rfl)) huntracked
        exact hnone e he ⟨hkept, ⟨target, hto, participants_circle h htgt hin⟩,
          group, hg, e', he', hg', branch, hto', hbranch.freed hblocked⟩
  intro run hin hrun
  exact (OrderHom.lfp_le _ hclosed hrun).2 hin

/-- No reported run progresses if no await-any on a circle of kept waits has a branch whose waits
end. Where one has, a deadlock is reported all the same, and wrongly if its waiter is reported and
the other waits of the waiter end too. -/
theorem reports_stuck_unless_await_answered (runs : List (RunKey × RunFacts))
    (raw : List WaitEdge) (bounds : WaitGraphBounds)
    (hkinds : ∀ e ∈ raw, e.kind.isAdvisory = false) :
    ((∀ e ∈ raw, ¬ AnsweredAwait runs raw e) →
      ∀ report, detect (build runs raw bounds) = some (.deadlock report) →
        ∀ run ∈ report.participants, ¬ Progresses runs raw run) ∧
    (∀ e ∈ raw, AnsweredAwait runs raw e → ¬ Exceeds runs raw bounds →
      ∃ report, detect (build runs raw bounds) = some (.deadlock report) ∧
        (e.fromRun ∈ report.participants →
          Freed runs raw { r | Progresses runs raw r } e.fromRun →
          ∃ run ∈ report.participants, Progresses runs raw run)) := by
  constructor
  · intro hnone report hreport
    exact participants_stuck hkinds hreport hnone
  · intro e he hawait hbound
    obtain ⟨target, hto, hback⟩ := hawait.circle
    have hnext : target ∈ awaited runs raw e.fromRun :=
      mem_awaited.mpr ⟨e, he, hawait.kept, rfl, hto⟩
    obtain ⟨report, hreport⟩ := detect_of_endless hbound hawait.kept.1
      (endless_of_cycle (Relation.TransGen.head' hnext hback))
    exact ⟨report, hreport, fun hin hfreed => ⟨_, hin, hfreed.progresses hawait.kept.1⟩⟩

/-- `a` awaits any of `b` and `d`, which both wait for `a`. -/
def awaitAnyStuck : List WaitEdge :=
  [waitFor "a" "b" (some 1), waitFor "a" "d" (some 1), waitFor "b" "a" none, waitFor "d" "a" none]

theorem awaitAnyStuck_stuck :
    Stuck parkedAgents awaitAnyStuck {agent "a", agent "b", agent "d"} := by
  constructor
  · exact ⟨agent "a", by simp⟩
  · rintro run (rfl | rfl | rfl)
    · exact mem_map.mpr ⟨_, mem_cons_self, rfl⟩
    · exact mem_map.mpr ⟨(agent "b", ⟨true, false, 1⟩), by decide, rfl⟩
    · exact mem_map.mpr ⟨(agent "d", ⟨true, false, 1⟩), by decide, rfl⟩
  · rintro run - ⟨e, he, -, hext⟩
    revert e
    decide
  · rintro run (rfl | rfl | rfl)
    · refine .inr ⟨waitFor "a" "b" (some 1), by decide, rfl, 1, rfl, fun e he hg => ?_⟩
      simp only [awaitAnyStuck, mem_cons, not_mem_nil, or_false] at he
      rcases he with rfl | rfl | rfl | rfl
      · exact ⟨rfl, agent "b", by simp, rfl⟩
      · exact ⟨rfl, agent "d", by simp, rfl⟩
      · cases hg
      · cases hg
    · exact .inl ⟨waitFor "b" "a" none, by decide, rfl, rfl, rfl, agent "a", by simp, rfl⟩
    · exact .inl ⟨waitFor "d" "a" none, by decide, rfl, rfl, rfl, agent "a", by simp, rfl⟩

theorem awaitAnyStuck_unanswered {e : WaitEdge} :
    ¬ AnsweredAwait parkedAgents awaitAnyStuck e := by
  rintro ⟨-, -, group, hg, e', he', hg', branch, hto, hfreed⟩
  have hnot : ∀ {X : Set RunKey}, (agent "a" ∈ X → False) → ∀ id, waitFor id "a" none ∈
      awaitAnyStuck → ¬ Freed parkedAgents awaitAnyStuck X (agent id) := by
    intro X hX id hmem h
    obtain ⟨target, htarget, heq⟩ := h.ungrouped _ hmem rfl rfl
    obtain rfl := WaitTarget.run.inj heq
    exact hX htarget
  have ha : ¬ Progresses parkedAgents awaitAnyStuck (agent "a") :=
    awaitAnyStuck_stuck.not_progresses (by simp)
  simp only [awaitAnyStuck, mem_cons, not_mem_nil, or_false] at he'
  rcases he' with rfl | rfl | rfl | rfl
  · obtain rfl := WaitTarget.run.inj hto
    exact hnot ha "b" (by decide) hfreed
  · obtain rfl := WaitTarget.run.inj hto
    exact hnot ha "d" (by decide) hfreed
  · cases hg'
  · cases hg'

/-- An await-any with both branches on the circle is reported, and no reported run progresses. -/
theorem mutual_wait_stuck :
    (∀ e ∈ awaitAnyStuck, e.kind.isAdvisory = false) ∧
    ∃ report, detect (build parkedAgents awaitAnyStuck .default) = some (.deadlock report) ∧
      ∀ run ∈ report.participants, ¬ Progresses parkedAgents awaitAnyStuck run := by
  refine ⟨by decide, ⟨[agent "a", agent "b"], [waitFor "a" "b" (some 1),
    waitFor "b" "a" none], waitFor "b" "a" none, 1⟩, by decide, ?_⟩
  exact (reports_stuck_unless_await_answered parkedAgents awaitAnyStuck .default
    (by decide)).1 (fun _ _ => awaitAnyStuck_unanswered) _ (by decide)

/-- `a` awaits any of `b` and `d`, `d` waits for `a`, and `b` waits for `c`, which runs. -/
def awaitAnyWaits : List WaitEdge :=
  [waitFor "a" "b" (some 1), waitFor "a" "d" (some 1), waitFor "b" "c" none, waitFor "d" "a" none]

theorem running_agent_progresses : Progresses parkedAgents awaitAnyWaits (agent "c") :=
  progresses_of_step ⟨_, rfl, .inl (by decide)⟩

theorem branch_agent_progresses : Progresses parkedAgents awaitAnyWaits (agent "b") := by
  refine progresses_of_step ⟨_, rfl, .inr (.inr ⟨?_, ?_, ?_⟩)⟩
  · decide
  · intro e he hfrom _
    refine ⟨agent "c", running_agent_progresses, ?_⟩
    revert e
    decide
  · intro e he hfrom
    have hgroup : e.group = none := by
      revert e
      decide
    simp [hgroup]

theorem awaiting_agent_progresses : Progresses parkedAgents awaitAnyWaits (agent "a") := by
  refine progresses_of_step ⟨_, rfl, .inr (.inr ⟨?_, ?_, ?_⟩)⟩
  · decide
  · intro e he hfrom hnone
    have hgroup : e.group = some 1 := by
      clear hnone
      revert e
      decide
    rw [hnone] at hgroup
    cases hgroup
  · intro e he hfrom group hg
    have hgroup : e.group = some 1 := by
      clear hg
      revert e
      decide
    obtain rfl : 1 = group := Option.some.inj (hgroup.symm.trans hg)
    exact ⟨waitFor "a" "b" (some 1), by decide, rfl, .inl branch_agent_progresses⟩

/-- `a` and `d` are reported although `a` progresses once `b` is done. -/
theorem await_any_with_live_branch_reported :
    (∀ e ∈ awaitAnyWaits, e.kind.isAdvisory = false) ∧
    (∀ entry ∈ parkedAgents, entry.2.parked = true → ∃ e ∈ awaitAnyWaits, e.fromRun = entry.1) ∧
    ∃ report, detect (build parkedAgents awaitAnyWaits .default) =
      some (.deadlock report) ∧
      ∃ run ∈ report.participants, Progresses parkedAgents awaitAnyWaits run := by
  refine ⟨by decide, by decide, ?_⟩
  refine ⟨⟨[agent "a", agent "d"], [waitFor "a" "d" (some 1), waitFor "d" "a" none],
    waitFor "d" "a" none, 1⟩, by decide, agent "a", by simp, awaiting_agent_progresses⟩

end DeadlockDetector
