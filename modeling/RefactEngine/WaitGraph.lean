import RefactEngine.DepthFirst
import RefactEngine.WorkIdentity
import Mathlib.Order.FixedPoints
import Mathlib.Order.CompletePartialOrder

/-! # The wait-for graph and its cycle detector

Nodes are runs. An edge says that one run is blocked until another does something. A wait on
a human, a process or a timer takes its run out of the graph. The members of one await-any
share a group.
-/
namespace DeadlockDetector

open WorkIdentity DepthFirst

inductive WaitKind where
  | child
  | agentWait
  | question
  | approval
  | capacity
  deriving DecidableEq

def WaitKind.isAdvisory : WaitKind → Bool
  | .capacity => true
  | _ => false

inductive WaitTarget where
  | run (key : RunKey)
  | user
  | process (id : String)
  | timer
  deriving DecidableEq

def WaitTarget.run? : WaitTarget → Option RunKey
  | .run key => some key
  | _ => none

def WaitTarget.isExternal : WaitTarget → Bool
  | .run _ => false
  | _ => true

structure WaitEdge where
  fromRun : RunKey
  toTarget : WaitTarget
  kind : WaitKind
  group : Option ℕ
  detail : String
  deriving DecidableEq

structure WaitGraphBounds where
  maxNodes : ℕ
  maxEdges : ℕ

def WaitGraphBounds.default : WaitGraphBounds := ⟨4096, 16384⟩

structure RunFacts where
  parked : Bool
  waitingForCapacity : Bool
  version : ℕ
  deriving DecidableEq

structure WaitNode where
  run : RunKey
  blocked : Bool
  waitingOnExternal : Bool
  version : ℕ

abbrev Nodes := AList fun _ : RunKey => WaitNode

structure WaitGraph where
  nodes : Nodes
  edges : List WaitEdge
  rawEdges : ℕ
  incomplete : Option String

variable (runs : List (RunKey × RunFacts))

def collect : Nodes :=
  runs.foldl (fun nodes entry => nodes.insert entry.1
    { run := entry.1
      blocked := entry.2.parked || entry.2.waitingForCapacity
      waitingOnExternal := false
      version := entry.2.version }) ∅

variable (nodes : Nodes)

def incompleteReason (rawEdges : ℕ) (bounds : WaitGraphBounds) : Option String :=
  if bounds.maxNodes < nodes.keys.length then
    some ("graph too large: " ++ toString nodes.keys.length ++
      " runs exceed the configured bound of " ++ toString bounds.maxNodes ++
      ", deadlock detection incomplete")
  else if bounds.maxEdges < rawEdges then
    some ("graph too large: " ++ toString rawEdges ++
      " wait edges exceed the configured bound of " ++ toString bounds.maxEdges ++
      ", deadlock detection incomplete")
  else none

def markEdge (edge : WaitEdge) : Nodes :=
  match edge.toTarget with
  | .run target =>
    if !edge.kind.isAdvisory && (nodes.lookup target).isSome then
      nodes.modify edge.fromRun fun node => { node with blocked := true }
    else nodes
  | _ => nodes.modify edge.fromRun fun node => { node with waitingOnExternal := true }

def clearExternal : Nodes :=
  nodes.mapValues fun _ node =>
    if node.waitingOnExternal then { node with blocked := false } else node

/-- The flag that a group's viability is computed from; `progressable` in the source. -/
def targetBlocked (edge : WaitEdge) : Bool :=
  match edge.toTarget.run?.bind nodes.lookup with
  | none => false
  | some target => target.blocked

def markGroup (viable : AList fun _ : ℕ => Bool) (edge : WaitEdge) :
    AList fun _ : ℕ => Bool :=
  match edge.group with
  | none => viable
  | some group =>
    viable.insert group ((viable.lookup group).getD true && targetBlocked nodes edge)

def keeps (viable : AList fun _ : ℕ => Bool) (edge : WaitEdge) : Bool :=
  match nodes.lookup edge.fromRun with
  | none => false
  | some fromNode =>
    if fromNode.waitingOnExternal then false
    else
      match edge.toTarget.run?.bind nodes.lookup with
      | none => false
      | some target =>
        if edge.kind.isAdvisory && !target.blocked then false
        else
          match edge.group with
          | none => true
          | some group => (viable.lookup group).getD false

def markedNodes (raw : List WaitEdge) : Nodes :=
  clearExternal (raw.foldl markEdge (collect runs))

def WaitGraph.build (raw : List WaitEdge)
    (bounds : WaitGraphBounds) : WaitGraph :=
  let nodes := markedNodes runs raw
  let viable := raw.foldl (markGroup nodes) ∅
  { nodes := nodes
    edges := raw.filter (keeps nodes viable)
    rawEdges := raw.length
    incomplete := incompleteReason (collect runs) raw.length bounds }

def WaitGraph.adjacency (graph : WaitGraph) :
    AList fun _ : RunKey => List (Fin graph.edges.length) :=
  (List.finRange graph.edges.length).foldl (fun adjacency index =>
    adjacency.insert (graph.edges.get index).fromRun
      ((adjacency.lookup (graph.edges.get index).fromRun).getD [] ++ [index])) ∅

variable (graph : WaitGraph)

def WaitGraph.waits : Digraph RunKey (Fin graph.edges.length) where
  out run := (graph.adjacency.lookup run).getD []
  target index := (graph.edges.get index).toTarget.run?

structure DeadlockReport where
  participants : List RunKey
  cycle : List WaitEdge
  closingEdge : WaitEdge
  attempts : ℕ
  deriving DecidableEq

inductive Detection where
  | noDeadlock
  | deadlock (report : DeadlockReport)
  | incomplete (reason : String)
  | inconsistent (attempts : ℕ)
  deriving DecidableEq

def runRank (run : RunKey) : ℕ ×ₗ String ×ₗ ℕ :=
  toLex (match run.work.runtime with
    | .trajectory => 0
    | .backgroundAgent => 1, toLex (run.work.id, run.attempt))

def inOrder (runs : List RunKey) : List RunKey :=
  runs.insertionSort fun a b => runRank a ≤ runRank b

def WaitGraph.reach : List RunKey :=
  graph.nodes.keys ++ graph.edges.filterMap fun edge => edge.toTarget.run?

def WaitGraph.report (cycle : Cycle RunKey (Fin graph.edges.length)) :
    DeadlockReport where
  participants := cycle.participants
  cycle := cycle.edges.map graph.edges.get
  closingEdge := graph.edges.get cycle.closing
  attempts := 1

/-- No result stands for a search that ran out of fuel. -/
def detect : Option Detection :=
  match graph.incomplete with
  | some reason => some (.incomplete reason)
  | none =>
    match search graph.waits (budget graph.waits graph.reach) (inOrder graph.nodes.keys) ∅ with
    | .going _ => none
    | .finished _ => some .noDeadlock
    | .found cycle => some (.deadlock (graph.report cycle))

section Input

variable (runs : List (RunKey × RunFacts)) (raw : List WaitEdge)

def factsOf (run : RunKey) : Option RunFacts :=
  (runs.reverse.find? fun entry => entry.1 = run).map Prod.snd

def Tracked (run : RunKey) : Prop := run ∈ runs.map Prod.fst

def External (run : RunKey) : Prop :=
  ∃ e ∈ raw, e.fromRun = run ∧ e.toTarget.isExternal = true

def Blocked (run : RunKey) : Prop :=
  ¬ External raw run ∧ ∃ facts, factsOf runs run = some facts ∧
    (facts.parked = true ∨ facts.waitingForCapacity = true ∨
      ∃ e ∈ raw, e.fromRun = run ∧ e.kind.isAdvisory = false ∧
        ∃ t, e.toTarget = .run t ∧ Tracked runs t)

def AllBlocked (group : ℕ) : Prop :=
  ∀ e ∈ raw, e.group = some group → ∃ t, e.toTarget = .run t ∧ Blocked runs raw t

def Kept (e : WaitEdge) : Prop :=
  Tracked runs e.fromRun ∧ ¬ External raw e.fromRun ∧
    ∃ t, e.toTarget = .run t ∧ Tracked runs t ∧
      (e.kind.isAdvisory = true → Blocked runs raw t) ∧
      ∀ group, e.group = some group → AllBlocked runs raw group

end Input

variable {runs : List (RunKey × RunFacts)} {raw : List WaitEdge} {bounds : WaitGraphBounds}
  {run : RunKey} {nodes : Nodes} {edge : WaitEdge}

theorem run?_eq_some {target : WaitTarget} {t : RunKey} :
    target.run? = some t ↔ target = .run t := by
  cases target <;> simp [WaitTarget.run?]

theorem tracked_iff : Tracked runs run ↔ (factsOf runs run).isSome := by
  simp [Tracked, factsOf]

theorem collect_lookup :
    (collect runs).lookup run = (factsOf runs run).map fun facts =>
      ⟨run, facts.parked || facts.waitingForCapacity, false, facts.version⟩ := by
  induction runs using List.reverseRecOn with
  | nil => rfl
  | append_singleton runs entry ih =>
    rw [collect, List.foldl_concat, ← collect, AList.lookup_insert_if, ih, factsOf, factsOf,
      List.reverse_concat, List.find?_cons]
    by_cases h : run = entry.1
    · simp [h]
    · simp [h, Ne.symm h]

def marks (nodes : Nodes) (run : RunKey) (edge : WaitEdge) : Bool :=
  edge.fromRun = run && !edge.kind.isAdvisory &&
    (edge.toTarget.run?.bind nodes.lookup).isSome

theorem markEdge_lookup : (markEdge nodes edge).lookup run = (nodes.lookup run).map fun node =>
    { node with
      blocked := node.blocked || marks nodes run edge
      waitingOnExternal := node.waitingOnExternal ||
        (edge.fromRun = run && edge.toTarget.isExternal) } := by
  by_cases hrun : edge.fromRun = run
  · subst hrun
    cases ht : edge.toTarget with
    | run t =>
      have hm : marks nodes edge.fromRun edge =
          (!edge.kind.isAdvisory && (nodes.lookup t).isSome) := by
        simp [marks, ht, WaitTarget.run?]
      rw [hm]
      simp only [markEdge, ht]
      cases !edge.kind.isAdvisory && (nodes.lookup t).isSome with
      | true => simp [AList.lookup_modify, WaitTarget.isExternal]
      | false => simp [WaitTarget.isExternal]
    | _ => simp [markEdge, ht, marks, AList.lookup_modify, WaitTarget.run?, WaitTarget.isExternal]
  · have hne : run ≠ edge.fromRun := Ne.symm hrun
    have hm : marks nodes run edge = false := by simp [marks, hrun]
    rw [hm]
    unfold markEdge
    split
    · split <;> simp [AList.lookup_modify, hne, hrun]
    · simp [AList.lookup_modify, hne, hrun]

theorem marks_congr {nodes' : Nodes} (h : ∀ r, (nodes'.lookup r).isSome = (nodes.lookup r).isSome) :
    marks nodes' run = marks nodes run := by
  funext edge
  unfold marks
  cases edge.toTarget.run? with
  | none => rfl
  | some t =>
    rw [Option.bind_some, Option.bind_some, h t]

theorem markEdges_lookup : (raw.foldl markEdge nodes).lookup run = (nodes.lookup run).map
    fun node => { node with
      blocked := node.blocked || raw.any (marks nodes run)
      waitingOnExternal := node.waitingOnExternal ||
        raw.any fun edge => edge.fromRun = run && edge.toTarget.isExternal } := by
  induction raw generalizing nodes with
  | nil => simp
  | cons edge raw ih =>
    have hsome : ∀ r, ((markEdge nodes edge).lookup r).isSome = (nodes.lookup r).isSome := by
      intro r
      rw [markEdge_lookup, Option.isSome_map]
    rw [List.foldl_cons, ih, markEdge_lookup, Option.map_map, marks_congr hsome]
    congr 1
    funext node
    simp only [Function.comp_apply, List.any_cons, Bool.or_assoc]

theorem any_external (raw : List WaitEdge) (run : RunKey) :
    (raw.any fun edge => edge.fromRun = run && edge.toTarget.isExternal) = true ↔
    External raw run := by
  simp [External]

theorem any_marks (runs : List (RunKey × RunFacts)) (raw : List WaitEdge) (run : RunKey) :
    raw.any (marks (collect runs) run) = true ↔
    ∃ e ∈ raw, e.fromRun = run ∧ e.kind.isAdvisory = false ∧
      ∃ t, e.toTarget = .run t ∧ Tracked runs t := by
  rw [List.any_eq_true]
  refine exists_congr fun e => and_congr_right fun _ => ?_
  simp only [marks, Bool.and_eq_true, decide_eq_true_eq, Bool.not_eq_true', and_assoc]
  refine and_congr_right fun _ => and_congr_right fun _ => ?_
  cases e.toTarget with
  | run t => simp [WaitTarget.run?, collect_lookup, tracked_iff]
  | _ => simp [WaitTarget.run?]

structure NodeSpec (runs : List (RunKey × RunFacts)) (raw : List WaitEdge) (run : RunKey)
    (node : WaitNode) : Prop where
  tracked : Tracked runs run
  external : node.waitingOnExternal = true ↔ External raw run
  blocked : node.blocked = true ↔ Blocked runs raw run

theorem markedNodes_spec {node : WaitNode} (h : (markedNodes runs raw).lookup run = some node) :
    NodeSpec runs raw run node := by
  rw [markedNodes, clearExternal, AList.lookup_mapValues, markEdges_lookup, collect_lookup] at h
  cases hf : factsOf runs run with
  | none => simp [hf] at h
  | some facts =>
    rw [hf, Option.map_some, Option.map_some, Option.map_some] at h
    obtain rfl := Option.some.inj h
    have hext := any_external raw run
    have hmarks := any_marks runs raw run
    generalize (raw.any fun edge => edge.fromRun = run && edge.toTarget.isExternal) = external
      at hext h ⊢
    constructor
    · rw [tracked_iff, hf]
      rfl
    · cases external <;> simpa using hext
    · cases external with
      | true => simp [Blocked, hext.mp rfl]
      | false =>
        have hnot : ¬ External raw run := fun hE => Bool.false_ne_true (hext.mpr hE)
        simp only [Bool.or_false, Bool.false_eq_true, if_false, Bool.or_eq_true, hmarks, Blocked,
          hnot, not_false_eq_true, true_and, hf, Option.some.injEq, exists_eq_left', or_assoc]

theorem markedNodes_isSome (raw : List WaitEdge) :
    ((markedNodes runs raw).lookup run).isSome ↔ Tracked runs run := by
  rw [markedNodes, clearExternal, AList.lookup_mapValues, markEdges_lookup, collect_lookup,
    tracked_iff]
  simp

theorem targetBlocked_iff : targetBlocked (markedNodes runs raw) edge = true ↔
    ∃ t, edge.toTarget = .run t ∧ Blocked runs raw t := by
  unfold targetBlocked
  cases edge.toTarget with
  | run t =>
    simp only [WaitTarget.run?, Option.bind_some, WaitTarget.run.injEq, exists_eq_left']
    split
    · rename_i hnone
      have hnot : ¬ Tracked runs t := by
        rw [← markedNodes_isSome raw, hnone]
        simp
      simp only [Bool.false_eq_true, false_iff]
      rintro ⟨-, facts, hf, -⟩
      exact hnot (tracked_iff.mpr (by rw [hf]; rfl))
    · rename_i node hnode
      exact (markedNodes_spec hnode).blocked
  | _ => simp [WaitTarget.run?]

theorem markGroups_lookup (group : ℕ) (viable : AList fun _ : ℕ => Bool) :
    ((raw.foldl (markGroup nodes) viable).lookup group).getD false = true ↔
      (viable.lookup group).getD (raw.any fun e => e.group = some group) = true ∧
        ∀ e ∈ raw, e.group = some group → targetBlocked nodes e = true := by
  induction raw generalizing viable with
  | nil => simp
  | cons edge raw ih =>
    rw [List.foldl_cons, ih, List.forall_mem_cons, List.any_cons]
    unfold markGroup
    cases hg : edge.group with
    | none => simp
    | some g =>
      simp only [AList.lookup_insert_if, Option.some.injEq]
      by_cases h : group = g
      · subst h
        cases viable.lookup group <;> simp [and_assoc]
      · simp [h, Ne.symm h]

theorem viable_iff {group : ℕ} (hmem : edge ∈ raw) (hgroup : edge.group = some group) :
    ((raw.foldl (markGroup (markedNodes runs raw)) ∅).lookup group).getD false = true ↔
      AllBlocked runs raw group := by
  have hany : (raw.any fun e => e.group = some group) = true :=
    List.any_eq_true.mpr ⟨edge, hmem, by simp [hgroup]⟩
  rw [markGroups_lookup, AList.lookup_empty, Option.getD_none]
  simp only [hany, true_and, AllBlocked, targetBlocked_iff]

theorem keeps_iff (hmem : edge ∈ raw) :
    keeps (markedNodes runs raw) (raw.foldl (markGroup (markedNodes runs raw)) ∅) edge = true ↔
      Kept runs raw edge := by
  unfold keeps Kept
  split
  · rename_i hnone
    have hnot : ¬ Tracked runs edge.fromRun := by
      rw [← markedNodes_isSome raw, hnone]
      simp
    simp [hnot]
  · rename_i fromNode hfrom
    have hspec := markedNodes_spec hfrom
    by_cases hext : fromNode.waitingOnExternal = true
    · simp [hext, hspec.external.mp hext]
    · have hnot : ¬ External raw edge.fromRun := fun h => hext (hspec.external.mpr h)
      simp only [hext, Bool.false_eq_true, if_false, hspec.tracked, hnot, not_false_eq_true,
        true_and]
      cases ht : edge.toTarget with
      | run t =>
        simp only [WaitTarget.run?, Option.bind_some, WaitTarget.run.injEq, exists_eq_left']
        split
        · rename_i hnone
          have hnot : ¬ Tracked runs t := by
            rw [← markedNodes_isSome raw, hnone]
            simp
          simp [hnot]
        · rename_i target htgt
          have htspec := markedNodes_spec htgt
          have hgroup : (match edge.group with
              | none => true
              | some group => ((raw.foldl (markGroup (markedNodes runs raw)) ∅).lookup
                  group).getD false) = true ↔
              ∀ group, edge.group = some group → AllBlocked runs raw group := by
            cases hg : edge.group with
            | none => simp
            | some group => simp [viable_iff hmem hg]
          rw [← hgroup, ← htspec.blocked]
          simp only [htspec.tracked, true_and]
          cases edge.kind.isAdvisory <;> cases target.blocked <;> simp
      | _ => simp [WaitTarget.run?]

end DeadlockDetector
