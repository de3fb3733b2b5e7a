import Mathlib.Data.Char
import Mathlib.Data.List.Lex
import RefactEngine.AcyclicGraph
import RefactEngine.TextLines

/-! # Sub-goals of a goal

A declaration of lanes and edges is checked against the whole prospective graph before it is written
to the ledger; its replay is total and skips what is already there. A parent's decision reads the
lanes of its own edges.
-/
namespace SubGoals

open AcyclicGraph

abbrev Text := List Char

def rootSubGoalId : Text := "goal".toList

structure SubGoalOwner where
  runtime : Text
  id : Text
  deriving DecidableEq

inductive SubGoalEdgeKind where
  | required
  | optional
  deriving DecidableEq

inductive SubGoalOutcome where
  | notRun
  | dispatched
  | met
  | failed
  | blocked
  | superseded
  deriving DecidableEq

structure SubGoalNode where
  id : Text
  title : Text
  owner : Option SubGoalOwner
  criterionIds : List Text
  deriving DecidableEq

structure SubGoalEdge where
  parentId : Text
  childId : Text
  kind : SubGoalEdgeKind
  deriving DecidableEq

structure CriterionVerdict where
  id : Text
  met : Bool
  deriving DecidableEq

structure SubGoalReport where
  claimedOutcome : SubGoalOutcome
  criteriaVerdicts : List CriterionVerdict
  resultSummary : Text
  reportedAtMs : ℕ
  deriving DecidableEq

def SubGoalReport.metVerdict (report : SubGoalReport) (criterionId : Text) : Bool :=
  report.criteriaVerdicts.any fun verdict => decide (verdict.id = criterionId) && verdict.met

structure SubGoalDeclaration where
  nodes : List SubGoalNode
  edges : List SubGoalEdge
  deriving DecidableEq

inductive SubGoalDeclarationError where
  | emptyNodeId
  | reservedNodeId (nodeId : Text)
  | duplicateNode (nodeId : Text)
  | unknownNode (parentId childId missing : Text)
  | selfEdge (nodeId : Text)
  | cycle (participants : List Text)
  | depthExceeded (nodeId : Text) (depth maxDepth : ℕ)
  | fanOutExceeded (parentId : Text) (fanOut maxFanOut : ℕ)
  deriving DecidableEq

def quoted (id : Text) : Text := '\u0027' :: id ++ ['\u0027']

structure SubGoalLimits where
  maxDepth : ℕ
  maxFanOut : ℕ
  deriving DecidableEq

structure SubGoalNodeState where
  node : SubGoalNode
  dispatched : Bool
  superseded : Option Text
  report : Option SubGoalReport
  deriving DecidableEq

structure SubGoalGraph where
  nodes : List SubGoalNodeState
  edges : List SubGoalEdge
  deriving DecidableEq

def SubGoalGraph.default : SubGoalGraph := ⟨[], []⟩

variable (graph : SubGoalGraph)

def SubGoalGraph.ids : List Text := graph.nodes.map fun s => s.node.id

def SubGoalGraph.node (graph : SubGoalGraph) (nodeId : Text) : Option SubGoalNodeState :=
  graph.nodes.find? fun s => decide (s.node.id = nodeId)

def checkNodes (known : List Text) : List SubGoalNode → Except SubGoalDeclarationError (List Text)
  | [] => .ok known
  | node :: rest =>
    if node.id = [] then .error .emptyNodeId
    else if node.id = rootSubGoalId then .error (.reservedNodeId node.id)
    else if node.id ∈ known then .error (.duplicateNode node.id)
    else checkNodes (node.id :: known) rest

def addChild (adjacency : Adjacency Text) (edge : SubGoalEdge) : Adjacency Text :=
  let children := (adjacency.lookup edge.parentId).getD []
  adjacency.insert edge.parentId
    (if edge.childId ∈ children then children else children ++ [edge.childId])

def checkEdges (known : List Text) (adjacency : Adjacency Text) :
    List SubGoalEdge → Except SubGoalDeclarationError (Adjacency Text)
  | [] => .ok adjacency
  | edge :: rest =>
    if edge.parentId = edge.childId then .error (.selfEdge edge.parentId)
    else if edge.parentId ∉ known then
      .error (.unknownNode edge.parentId edge.childId edge.parentId)
    else if edge.childId ∉ known then
      .error (.unknownNode edge.parentId edge.childId edge.childId)
    else checkEdges known (addChild adjacency edge) rest

def checkFanOut (maxFanOut : ℕ) :
    List (Text × List Text) → Except SubGoalDeclarationError Unit
  | [] => .ok ()
  | (parent, children) :: rest =>
    if children.length > maxFanOut then .error (.fanOutExceeded parent children.length maxFanOut)
    else checkFanOut maxFanOut rest

def checkDepth (maxDepth : ℕ) : List (Text × ℕ) → Except SubGoalDeclarationError Unit
  | [] => .ok ()
  | (id, depth) :: rest =>
    if depth > maxDepth then .error (.depthExceeded id depth maxDepth)
    else checkDepth maxDepth rest

def validateDeclaration (declaration : SubGoalDeclaration)
    (limits : SubGoalLimits) : Except SubGoalDeclarationError Unit :=
  match checkNodes (rootSubGoalId :: graph.ids) declaration.nodes with
  | .error e => .error e
  | .ok known =>
    match checkEdges known ∅ (graph.edges ++ declaration.edges) with
    | .error e => .error e
    | .ok adjacency =>
      -- The parents in order; the known ids bound the depth of the search.
      match firstCycle adjacency (adjacency.inOrder.map Prod.fst) known with
      | some participants => .error (.cycle participants)
      | none =>
        match checkFanOut limits.maxFanOut adjacency.inOrder with
        | .error e => .error e
        | .ok () =>
          checkDepth limits.maxDepth (longestDepths rootSubGoalId adjacency.inOrder).inOrder

def addNode (node : SubGoalNode) : SubGoalGraph :=
  if node.id = [] ∨ node.id = rootSubGoalId ∨ (graph.node node.id).isSome then graph
  else { graph with nodes := graph.nodes ++ [⟨node, false, none, none⟩] }

def addEdge (edge : SubGoalEdge) : SubGoalGraph :=
  if graph.edges.any fun e => decide (e.parentId = edge.parentId ∧ e.childId = edge.childId) then
    graph
  else { graph with edges := graph.edges ++ [edge] }

def applyDeclaration (declaration : SubGoalDeclaration) : SubGoalGraph :=
  declaration.edges.foldl addEdge (declaration.nodes.foldl addNode graph)

def modifyNode (nodeId : Text) (f : SubGoalNodeState → SubGoalNodeState) :
    List SubGoalNodeState → List SubGoalNodeState
  | [] => []
  | s :: rest => if s.node.id = nodeId then f s :: rest else s :: modifyNode nodeId f rest

def SubGoalGraph.modify (nodeId : Text)
    (f : SubGoalNodeState → SubGoalNodeState) : SubGoalGraph :=
  ⟨modifyNode nodeId f graph.nodes, graph.edges⟩

def markDispatched (nodeId : Text) (owner : Option SubGoalOwner) :
    SubGoalGraph :=
  graph.modify nodeId fun s =>
    { s with
      dispatched := true
      node := { s.node with owner := if owner.isSome then owner else s.node.owner } }

def recordReport (nodeId : Text) (report : SubGoalReport) : SubGoalGraph :=
  graph.modify nodeId fun s => { s with dispatched := true, report := some report }

def supersede (nodeId reason : Text) : SubGoalGraph :=
  graph.modify nodeId fun s => { s with superseded := some reason }

def pushNew (ids : List Text) (id : Text) : List Text := if id ∈ ids then ids else ids ++ [id]

/-- The failed verdicts and the criteria that the lane owes and has no met verdict for. -/
def unmetCriteria (state : SubGoalNodeState) (report : SubGoalReport) : List Text :=
  let failed := report.criteriaVerdicts.foldl
    (fun unmet verdict => if verdict.met then unmet else pushNew unmet verdict.id) []
  state.node.criterionIds.foldl
    (fun unmet id => if report.metVerdict id then unmet else pushNew unmet id) failed

def subGoalEffectiveOutcome (state : SubGoalNodeState) : SubGoalOutcome × List Text :=
  if state.superseded.isSome then (.superseded, [])
  else
    match state.report with
    | none => (if state.dispatched then .dispatched else .notRun, state.node.criterionIds)
    | some report =>
      let unmet := unmetCriteria state report
      if unmet ≠ [] then (.failed, unmet)
      else
        match report.claimedOutcome with
        | .met => (.met, [])
        | .notRun => (.dispatched, [])
        | .dispatched => (.dispatched, [])
        | other => (other, [])

def SubGoalEdgeKind.label : SubGoalEdgeKind → Text
  | .required => "required".toList
  | .optional => "optional".toList

def laneReason (title nodeId : Text) (kind : SubGoalEdgeKind) (outcome : SubGoalOutcome)
    (unmet : List Text) : Text :=
  let name := if title = [] then nodeId else title
  kind.label ++ " sub-goal ".toList ++ quoted name ++
    match outcome with
    | .met => " is met".toList
    | .notRun => " was never dispatched [not_run] — this is not a result".toList
    | .dispatched => " is still running and has reported no verdict".toList
    | .blocked => " reported blocked".toList
    | .superseded => " was superseded".toList
    | .failed =>
      if unmet = [] then " reported failed".toList
      else " failed criteria: ".toList ++ ", ".toList.intercalate unmet

structure SubGoalLane where
  nodeId : Text
  title : Text
  kind : SubGoalEdgeKind
  owner : Option SubGoalOwner
  outcome : SubGoalOutcome
  dispatched : Bool
  unmetCriteria : List Text
  reason : Text
  deriving DecidableEq

structure SubGoalRollup where
  requiredTotal : ℕ
  requiredMet : ℕ
  lanes : List SubGoalLane
  deriving DecidableEq

def laneOf (kind : SubGoalEdgeKind) (state : SubGoalNodeState) : SubGoalLane :=
  let effective := subGoalEffectiveOutcome state
  { nodeId := state.node.id
    title := state.node.title
    kind
    owner := state.node.owner
    outcome := effective.1
    dispatched := state.dispatched
    unmetCriteria := effective.2
    reason := laneReason state.node.title state.node.id kind effective.1 effective.2 }

variable (rollup : SubGoalRollup)

def addLane (lane : SubGoalLane) : SubGoalRollup where
  requiredTotal := rollup.requiredTotal + if lane.kind = .required then 1 else 0
  requiredMet :=
    rollup.requiredMet + if lane.kind = .required ∧ lane.outcome = .met then 1 else 0
  lanes := rollup.lanes ++ [lane]

def rollEdge (edge : SubGoalEdge) :
    SubGoalRollup :=
  match graph.node edge.childId with
  | none => rollup
  | some state => addLane rollup (laneOf edge.kind state)

def aggregateSubGoals (parentId : Text) : SubGoalRollup :=
  (graph.edges.filter fun edge => decide (edge.parentId = parentId)).foldl (rollEdge graph)
    ⟨0, 0, []⟩

def SubGoalRollup.blocking : List SubGoalLane :=
  rollup.lanes.filter fun lane => decide (lane.kind = .required ∧ lane.outcome ≠ .met)

def SubGoalRollup.parentMayProceed : Bool := rollup.blocking.isEmpty

inductive Op where
  | declare (declaration : SubGoalDeclaration) (limits : SubGoalLimits)
  | dispatch (nodeId : Text) (owner : Option SubGoalOwner)
  | report (nodeId : Text) (report : SubGoalReport)
  | supersede (nodeId : Text) (reason : Text)
  deriving DecidableEq

/-- The graph, the edges of the accepted declarations in order, and the limits of the last one. -/
structure State where
  graph : SubGoalGraph
  declared : List SubGoalEdge
  limits : SubGoalLimits
  deriving DecidableEq

def step (s : State) : Op → State
  | .declare declaration limits =>
    match validateDeclaration s.graph declaration limits with
    | .error _ => s
    | .ok () =>
      { graph := applyDeclaration s.graph declaration
        declared := s.declared ++ declaration.edges
        limits }
  | .dispatch nodeId owner => { s with graph := markDispatched s.graph nodeId owner }
  | .report nodeId report => { s with graph := recordReport s.graph nodeId report }
  | .supersede nodeId reason => { s with graph := SubGoals.supersede s.graph nodeId reason }

def run (limits : SubGoalLimits) (ops : List Op) : State :=
  ops.foldl step ⟨.default, [], limits⟩

end SubGoals
