import Mathlib.Data.List.Dedup
import RefactEngine.SubGoals

/-! # Composition of sub-goals is sound

What an accepted declaration says about the union of the old and the new edges is true of the graph
after it, whose edges are among them. Reports change no id and no edge. A parent's decision is about
the lanes of its own required edges.
-/
namespace SubGoalSafety

open AcyclicGraph SubGoals List Relation

variable (graph : SubGoalGraph)

def Known (v : Text) : Prop := v = rootSubGoalId ∨ v ∈ graph.ids

def Linked (edges : List SubGoalEdge) (v w : Text) : Prop :=
  ∃ e ∈ edges, e.parentId = v ∧ e.childId = w

def Requires (v w : Text) : Prop :=
  ⟨v, w, .required⟩ ∈ graph.edges

inductive RootPath (graph : SubGoalGraph) : Text → ℕ → Prop where
  | start : RootPath graph rootSubGoalId 0
  | extend {v w n} : RootPath graph v n → Linked graph.edges v w → RootPath graph w (n + 1)

def distinctChildren (parent : Text) : List Text :=
  ((graph.edges.filter fun e => decide (e.parentId = parent)).map SubGoalEdge.childId).dedup

structure WellFormed (limits : SubGoalLimits) (graph : SubGoalGraph) : Prop where
  unique : graph.ids.Nodup
  named : ∀ v ∈ graph.ids, v ≠ rootSubGoalId
  known : ∀ e ∈ graph.edges, Known graph e.parentId ∧ Known graph e.childId
  acyclic : ∀ v, ¬ TransGen (Linked graph.edges) v v
  fanOut : ∀ parent, (distinctChildren graph parent).length ≤ limits.maxFanOut
  depth : ∀ v n, RootPath graph v n → n ≤ limits.maxDepth

def firstDeclared (declared : List SubGoalEdge) (parent child : Text) : Option SubGoalEdge :=
  declared.find? fun e => decide (e.parentId = parent ∧ e.childId = child)

/-- Each two sub-goals have at most one edge, and it is the first one declared for them. -/
structure FirstWins (edges declared : List SubGoalEdge) : Prop where
  once : (edges.map fun e => (e.parentId, e.childId)).Nodup
  mem : ∀ e, e ∈ edges ↔ firstDeclared declared e.parentId e.childId = some e

def LaneMet (v : Text) : Prop :=
  ∃ state, graph.node v = some state ∧ (subGoalEffectiveOutcome state).1 = .met

structure NodesAccepted (known : List Text) (nodes : List SubGoalNode) (known' : List Text) :
    Prop where
  mem : ∀ v, v ∈ known' ↔ v ∈ nodes.map SubGoalNode.id ∨ v ∈ known
  fresh : ∀ v ∈ nodes.map SubGoalNode.id, v ≠ [] ∧ v ≠ rootSubGoalId ∧ v ∉ known
  distinct : (nodes.map SubGoalNode.id).Nodup

variable (nodes : List SubGoalNode)

theorem nodesAccepted_of_checkNodes :
    ∀ known known', checkNodes known nodes = .ok known' → NodesAccepted known nodes known' := by
  induction nodes with
  | nil =>
    intro known known' h
    cases h
    exact ⟨fun v => by simp, fun v hv => absurd hv not_mem_nil, nodup_nil⟩
  | cons node rest ih =>
    intro known known' h
    rw [checkNodes] at h
    by_cases hempty : node.id = []
    · rw [if_pos hempty] at h; cases h
    by_cases hroot : node.id = rootSubGoalId
    · rw [if_neg hempty, if_pos hroot] at h; cases h
    by_cases hold : node.id ∈ known
    · rw [if_neg hempty, if_neg hroot, if_pos hold] at h; cases h
    rw [if_neg hempty, if_neg hroot, if_neg hold] at h
    obtain ⟨hmem, hfresh, hdist⟩ := ih _ _ h
    refine ⟨fun v => ?_, fun v hv => ?_, ?_⟩
    · rw [hmem v, map_cons, mem_cons, mem_cons, or_left_comm, or_assoc]
    · rcases mem_cons.mp hv with rfl | hv
      · exact ⟨hempty, hroot, hold⟩
      · obtain ⟨h1, h2, h3⟩ := hfresh v hv
        exact ⟨h1, h2, fun hk => h3 (mem_cons_of_mem _ hk)⟩
    · exact nodup_cons.mpr ⟨fun hm => (hfresh _ hm).2.2 mem_cons_self, hdist⟩

theorem children_addChild (adj : Adjacency Text) (e : SubGoalEdge) (v : Text) :
    children (addChild adj e) v =
      if v = e.parentId then pushNew (children adj v) e.childId else children adj v := by
  rw [children, addChild, AList.lookup_insert_if]
  by_cases hv : v = e.parentId
  · subst hv
    by_cases hw : e.childId ∈ (adj.lookup e.parentId).getD []
    · simp [pushNew, children, hw]
    · simp [pushNew, children, hw]
  · rw [if_neg hv, if_neg hv, children]

theorem mem_pushNew {ids : List Text} {id v : Text} : v ∈ pushNew ids id ↔ v ∈ ids ∨ v = id := by
  by_cases h : id ∈ ids
  · rw [pushNew, if_pos h]
    exact ⟨Or.inl, fun hv => hv.elim (fun hv => hv) fun he => he ▸ h⟩
  · rw [pushNew, if_neg h, mem_append, mem_singleton]

variable (edges : List SubGoalEdge)

theorem edge_foldl_addChild : ∀ (adj : Adjacency Text) (v w : Text),
    Edge (edges.foldl addChild adj) v w ↔ Linked edges v w ∨ Edge adj v w := by
  induction edges with
  | nil => intro adj v w; simp [Linked]
  | cons e edges ih =>
    intro adj v w
    have hstep : Edge (addChild adj e) v w ↔ (e.parentId = v ∧ e.childId = w) ∨ Edge adj v w := by
      rw [Edge, children_addChild]
      by_cases hv : v = e.parentId
      · subst hv
        rw [if_pos rfl, mem_pushNew, or_comm, Edge]
        simp [eq_comm]
      · rw [if_neg hv, Edge]
        simp [Ne.symm hv]
    have hlinked : Linked (e :: edges) v w ↔ (e.parentId = v ∧ e.childId = w) ∨ Linked edges v w := by
      simp [Linked]
    rw [foldl_cons, ih, hstep, hlinked, or_left_comm, or_assoc]

theorem parent_foldl_addChild : ∀ (adj : Adjacency Text) (v : Text),
    (edges.foldl addChild adj).lookup v ≠ none →
      (∃ e ∈ edges, e.parentId = v) ∨ adj.lookup v ≠ none := by
  induction edges with
  | nil => exact fun adj v h => Or.inr h
  | cons e edges ih =>
    intro adj v h
    rcases ih _ v h with ⟨e', he', hv⟩ | h
    · exact Or.inl ⟨e', mem_cons_of_mem _ he', hv⟩
    · rw [addChild, AList.lookup_insert_if] at h
      by_cases hv : v = e.parentId
      · exact Or.inl ⟨e, mem_cons_self, hv.symm⟩
      · rw [if_neg hv] at h
        exact Or.inr h

structure EdgesAccepted (known : List Text) (edges : List SubGoalEdge) : Prop where
  parent : ∀ e ∈ edges, e.parentId ∈ known
  child : ∀ e ∈ edges, e.childId ∈ known

theorem edgesAccepted_of_checkEdges {known : List Text} :
    ∀ adj adj', checkEdges known adj edges = .ok adj' →
      EdgesAccepted known edges ∧ adj' = edges.foldl addChild adj := by
  induction edges with
  | nil =>
    intro adj adj' h
    cases h
    exact ⟨⟨fun _ he => absurd he not_mem_nil, fun _ he => absurd he not_mem_nil⟩, rfl⟩
  | cons e edges ih =>
    intro adj adj' h
    rw [checkEdges] at h
    by_cases hself : e.parentId = e.childId
    · rw [if_pos hself] at h; cases h
    by_cases hparent : e.parentId ∈ known
    · by_cases hchild : e.childId ∈ known
      · rw [if_neg hself, if_neg (not_not_intro hparent), if_neg (not_not_intro hchild)] at h
        obtain ⟨⟨hp, hc⟩, hadj⟩ := ih _ _ h
        refine ⟨⟨fun e' he' => ?_, fun e' he' => ?_⟩, hadj⟩
        · rcases mem_cons.mp he' with rfl | he'
          · exact hparent
          · exact hp e' he'
        · rcases mem_cons.mp he' with rfl | he'
          · exact hchild
          · exact hc e' he'
      · rw [if_neg hself, if_neg (not_not_intro hparent), if_pos hchild] at h; cases h
    · rw [if_neg hself, if_pos hparent] at h; cases h

theorem fanOut_of_checkFanOut {maxFanOut : ℕ} (entries : List (Text × List Text)) :
    checkFanOut maxFanOut entries = .ok () → ∀ p ∈ entries, p.2.length ≤ maxFanOut := by
  induction entries with
  | nil => exact fun _ p hp => absurd hp not_mem_nil
  | cons entry rest ih =>
    intro h p hp
    rw [checkFanOut] at h
    by_cases hlen : entry.2.length > maxFanOut
    · rw [if_pos hlen] at h; cases h
    · rw [if_neg hlen] at h
      rcases mem_cons.mp hp with rfl | hp
      · omega
      · exact ih h p hp

theorem depth_of_checkDepth {maxDepth : ℕ} (entries : List (Text × ℕ)) :
    checkDepth maxDepth entries = .ok () → ∀ p ∈ entries, p.2 ≤ maxDepth := by
  induction entries with
  | nil => exact fun _ p hp => absurd hp not_mem_nil
  | cons entry rest ih =>
    intro h p hp
    rw [checkDepth] at h
    by_cases hdepth : entry.2 > maxDepth
    · rw [if_pos hdepth] at h; cases h
    · rw [if_neg hdepth] at h
      rcases mem_cons.mp hp with rfl | hp
      · omega
      · exact ih h p hp

/-- What is known of the edges of a graph and of a declaration together when it is accepted. -/
structure Accepted (graph : SubGoalGraph) (declaration : SubGoalDeclaration)
    (limits : SubGoalLimits) : Prop where
  nodes : ∀ v ∈ declaration.nodes.map SubGoalNode.id,
    v ≠ [] ∧ v ≠ rootSubGoalId ∧ v ∉ rootSubGoalId :: graph.ids
  distinct : (declaration.nodes.map SubGoalNode.id).Nodup
  known : ∀ e ∈ graph.edges ++ declaration.edges, ∀ v, v = e.parentId ∨ v = e.childId →
    v ∈ declaration.nodes.map SubGoalNode.id ∨ v ∈ rootSubGoalId :: graph.ids
  bounded : ∃ adj : Adjacency Text,
    (∀ v w, Edge adj v w ↔ Linked (graph.edges ++ declaration.edges) v w) ∧ Acyclic adj ∧
    (∀ v, (children adj v).length ≤ limits.maxFanOut) ∧
    ∀ v n, Path adj rootSubGoalId v n → n ≤ limits.maxDepth

theorem acyclic_of_checks {known : List Text} {edges : List SubGoalEdge}
    (hknown : EdgesAccepted known edges)
    (h : firstCycle (edges.foldl addChild ∅)
      ((edges.foldl addChild ∅).inOrder.map Prod.fst) known = none) :
    Acyclic (edges.foldl addChild ∅) := by
  have hedge : ∀ v w, Edge (edges.foldl addChild ∅) v w → Linked edges v w := by
    intro v w hvw
    rcases (edge_foldl_addChild edges ∅ v w).mp hvw with hl | he
    · exact hl
    · simp [Edge, children] at he
  apply acyclic_of_firstCycle _ _ _ h
  · intro v hv
    obtain ⟨⟨v', cs⟩, hmem, rfl⟩ := mem_map.mp hv
    have hl := AList.mem_inOrder.mp hmem
    rcases parent_foldl_addChild edges ∅ v' (by rw [hl]; simp) with ⟨e, he, rfl⟩ | hn
    · exact hknown.parent e he
    · simp at hn
  · intro v _ w hw
    obtain ⟨e, he, -, rfl⟩ := hedge v w hw
    exact hknown.child e he
  · intro v hv
    cases hl : (edges.foldl addChild ∅).lookup v with
    | none => rw [children, hl] at hv; exact absurd rfl hv
    | some cs => exact mem_map.mpr ⟨(v, cs), AList.mem_inOrder.mpr hl, rfl⟩

variable {graph : SubGoalGraph} {limits : SubGoalLimits} {declaration : SubGoalDeclaration}

theorem accepted_of_validate (h : validateDeclaration graph declaration limits = .ok ()) :
    Accepted graph declaration limits := by
  rw [validateDeclaration] at h
  split at h
  · cases h
  next known hnodes =>
    obtain ⟨hmem, hfresh, hdist⟩ := nodesAccepted_of_checkNodes _ _ _ hnodes
    split at h
    · cases h
    next adj hedges =>
      obtain ⟨hknown, rfl⟩ := edgesAccepted_of_checkEdges _ _ _ hedges
      split at h
      · cases h
      next hcycle =>
        have hacyclic := acyclic_of_checks hknown hcycle
        split at h
        · cases h
        next hfan =>
          refine ⟨hfresh, hdist, fun e he v hv => ?_, _, fun v w => ?_, hacyclic,
            fun v => ?_, fun v n hpath => ?_⟩
          · rw [← hmem]
            rcases hv with rfl | rfl
            · exact hknown.parent e he
            · exact hknown.child e he
          · rw [edge_foldl_addChild]
            simp [Edge, children]
          · rw [children]
            cases hl : (((graph.edges ++ declaration.edges).foldl addChild ∅).lookup v) with
            | none => exact Nat.zero_le _
            | some cs => exact fanOut_of_checkFanOut _ hfan (v, cs) (AList.mem_inOrder.mpr hl)
          · cases n with
            | zero => exact Nat.zero_le _
            | succ n =>
              obtain ⟨m, hm, hle⟩ := path_le_longestDepths hacyclic hpath
              have := depth_of_checkDepth _ h (v, m) (AList.mem_inOrder.mpr hm)
              exact le_trans hle this

theorem isSome_node_iff {v : Text} : (graph.node v).isSome ↔ v ∈ graph.ids := by
  rw [SubGoalGraph.node, List.find?_isSome, SubGoalGraph.ids]
  simp

theorem foldl_addNode : ∀ graph : SubGoalGraph,
    (∀ v ∈ nodes.map SubGoalNode.id, v ≠ [] ∧ v ≠ rootSubGoalId ∧ v ∉ graph.ids) →
    (nodes.map SubGoalNode.id).Nodup →
    (nodes.foldl addNode graph).ids = graph.ids ++ nodes.map SubGoalNode.id ∧
      (nodes.foldl addNode graph).edges = graph.edges := by
  induction nodes with
  | nil => exact fun graph _ _ => ⟨by simp, rfl⟩
  | cons node nodes ih =>
    intro graph hfresh hdist
    obtain ⟨hempty, hroot, hold⟩ := hfresh node.id mem_cons_self
    have hstep : addNode graph node = ⟨graph.nodes ++ [⟨node, false, none, none⟩], graph.edges⟩ := by
      rw [addNode, if_neg]
      rintro (h | h | h)
      · exact hempty h
      · exact hroot h
      · exact hold (isSome_node_iff.mp h)
    have hids : (addNode graph node).ids = graph.ids ++ [node.id] := by
      rw [hstep, SubGoalGraph.ids, SubGoalGraph.ids, map_append]
      rfl
    obtain ⟨hnotin, hnodup⟩ := nodup_cons.mp hdist
    have hrest : ∀ v ∈ nodes.map SubGoalNode.id,
        v ≠ [] ∧ v ≠ rootSubGoalId ∧ v ∉ (addNode graph node).ids := by
      intro v hv
      obtain ⟨he, hr, ho⟩ := hfresh v (mem_cons_of_mem _ hv)
      refine ⟨he, hr, fun hm => ?_⟩
      rw [hids, mem_append, mem_singleton] at hm
      rcases hm with hm | rfl
      · exact ho hm
      · exact hnotin hv
    obtain ⟨h1, h2⟩ := ih (addNode graph node) hrest hnodup
    refine ⟨?_, ?_⟩
    · simp only [foldl_cons, h1, hids, append_assoc, map_cons, cons_append,
        nil_append]
    · rw [foldl_cons, h2, hstep]

theorem addEdge_nodes (graph : SubGoalGraph) (e : SubGoalEdge) :
    (addEdge graph e).nodes = graph.nodes := by
  by_cases h : (graph.edges.any fun e' =>
      decide (e'.parentId = e.parentId ∧ e'.childId = e.childId)) = true
  · rw [addEdge, if_pos h]
  · rw [addEdge, if_neg h]

theorem foldl_addEdge_nodes (graph : SubGoalGraph) :
    (edges.foldl addEdge graph).nodes = graph.nodes := by
  induction edges generalizing graph with
  | nil => rfl
  | cons e edges ih => rw [foldl_cons, ih, addEdge_nodes]

theorem firstWins_addEdge {declared : List SubGoalEdge} (h : FirstWins graph.edges declared)
    (e : SubGoalEdge) : FirstWins (addEdge graph e).edges (declared ++ [e]) := by
  rw [addEdge]
  by_cases hany : (graph.edges.any fun x =>
      decide (x.parentId = e.parentId ∧ x.childId = e.childId)) = true
  · rw [if_pos hany]
    refine ⟨h.once, fun e' => ?_⟩
    rw [h.mem e', firstDeclared, firstDeclared, List.find?_append]
    cases hfind : declared.find? fun x =>
        decide (x.parentId = e'.parentId ∧ x.childId = e'.childId) with
    | some x => rfl
    | none =>
      -- Otherwise the edge that is there already would have been found.
      simp only [Option.none_or, reduceCtorEq, false_iff]
      intro hsome
      obtain ⟨hsame, -⟩ := List.find?_eq_some_iff_append.mp hsome
      obtain rfl : e = e' := mem_singleton.mp (List.mem_of_find?_eq_some hsome) |>.symm
      obtain ⟨x, hx, hxe⟩ := any_eq_true.mp hany
      have hfirst := (h.mem x).mp hx
      rw [of_decide_eq_true hxe |>.1, of_decide_eq_true hxe |>.2, firstDeclared, hfind] at hfirst
      cases hfirst
  · have hnew : firstDeclared declared e.parentId e.childId = none := by
      cases hfind : firstDeclared declared e.parentId e.childId with
      | none => rfl
      | some x =>
        rw [firstDeclared] at hfind
        have hx : x.parentId = e.parentId ∧ x.childId = e.childId := by
          simpa using List.find?_some hfind
        have hmem : x ∈ graph.edges := by rw [h.mem x, hx.1, hx.2, firstDeclared, hfind]
        exact absurd (any_eq_true.mpr ⟨x, hmem, decide_eq_true hx⟩) hany
    rw [if_neg hany]
    refine ⟨?_, fun e' => ?_⟩
    · rw [map_append, nodup_append]
      refine ⟨h.once, nodup_singleton _, ?_⟩
      rintro ends hends _ (_ | ⟨_, ⟨⟩⟩) rfl
      obtain ⟨x, hx, hxe⟩ := mem_map.mp hends
      exact hany (any_eq_true.mpr ⟨x, hx, decide_eq_true (Prod.mk.inj hxe)⟩)
    simp only [firstDeclared, List.find?_append, mem_append, mem_singleton]
    by_cases hee : e' = e
    · subst hee
      rw [firstDeclared] at hnew
      rw [hnew]
      simp
    · rw [h.mem e', firstDeclared]
      have hne : (List.find? (fun x => decide (x.parentId = e'.parentId ∧
          x.childId = e'.childId)) [e]) ≠ some e' := by
        intro hf
        exact hee (mem_singleton.mp (List.mem_of_find?_eq_some hf))
      simp only [hee, or_false]
      cases hfind : declared.find? fun x =>
          decide (x.parentId = e'.parentId ∧ x.childId = e'.childId) with
      | some x => rfl
      | none => simp only [Option.none_or, reduceCtorEq, hne]

theorem firstWins_foldl_addEdge :
    ∀ (graph : SubGoalGraph) (declared : List SubGoalEdge), FirstWins graph.edges declared →
      FirstWins (edges.foldl addEdge graph).edges (declared ++ edges) := by
  induction edges with
  | nil => exact fun graph declared h => by simpa using h
  | cons e edges ih =>
    intro graph declared h
    have hrest := ih _ _ (firstWins_addEdge h e)
    rwa [append_assoc] at hrest

theorem mem_foldl_addEdge : ∀ (graph : SubGoalGraph),
    ∀ e ∈ (edges.foldl addEdge graph).edges, e ∈ graph.edges ++ edges := by
  induction edges with
  | nil => exact fun graph e he => mem_append_left _ he
  | cons a edges ih =>
    intro graph e he
    rcases mem_append.mp (ih _ e he) with he | he
    · by_cases hany : (graph.edges.any fun x =>
          decide (x.parentId = a.parentId ∧ x.childId = a.childId)) = true
      · rw [addEdge, if_pos hany] at he
        exact mem_append_left _ he
      · rw [addEdge, if_neg hany] at he
        rcases mem_append.mp he with he | he
        · exact mem_append_left _ he
        · rw [mem_singleton.mp he]
          exact mem_append_right _ mem_cons_self
    · exact mem_append_right _ (mem_cons_of_mem _ he)

theorem wellFormed_applyDeclaration {limits' : SubGoalLimits} (h : WellFormed limits graph)
    (hacc : Accepted graph declaration limits') :
    WellFormed limits' (applyDeclaration graph declaration) := by
  obtain ⟨hnodes, hdist, hknown, adj, hadj, hacyclic, hfan, hdepth⟩ := hacc
  obtain ⟨hids, hedges⟩ := foldl_addNode declaration.nodes graph
    (fun v hv => ⟨(hnodes v hv).1, (hnodes v hv).2.1,
      fun hm => (hnodes v hv).2.2 (mem_cons_of_mem _ hm)⟩) hdist
  have hids' : (applyDeclaration graph declaration).ids =
      graph.ids ++ declaration.nodes.map SubGoalNode.id := by
    rw [← hids, applyDeclaration, SubGoalGraph.ids, foldl_addEdge_nodes, SubGoalGraph.ids]
  have hsub : ∀ e ∈ (applyDeclaration graph declaration).edges,
      e ∈ graph.edges ++ declaration.edges := by
    intro e he
    have := mem_foldl_addEdge declaration.edges _ e he
    rwa [hedges] at this
  have hlinked : ∀ v w, Linked (applyDeclaration graph declaration).edges v w → Edge adj v w := by
    rintro v w ⟨e, he, hv, hw⟩
    exact (hadj v w).mpr ⟨e, hsub e he, hv, hw⟩
  have hmember : ∀ v, v ∈ declaration.nodes.map SubGoalNode.id ∨ v ∈ rootSubGoalId :: graph.ids →
      Known (applyDeclaration graph declaration) v := by
    rintro v (hv | hv)
    · exact Or.inr (hids' ▸ mem_append_right _ hv)
    · rcases mem_cons.mp hv with rfl | hv
      · exact Or.inl rfl
      · exact Or.inr (hids' ▸ mem_append_left _ hv)
  constructor
  · rw [hids']
    refine nodup_append.mpr ⟨h.unique, hdist, fun v hv w hw he => ?_⟩
    exact (hnodes w hw).2.2 (he ▸ mem_cons_of_mem _ hv)
  · intro v hv
    rw [hids', mem_append] at hv
    rcases hv with hv | hv
    · exact h.named v hv
    · exact (hnodes v hv).2.1
  · intro e he
    exact ⟨hmember _ (hknown e (hsub e he) _ (Or.inl rfl)),
      hmember _ (hknown e (hsub e he) _ (Or.inr rfl))⟩
  · intro v hcycle
    exact hacyclic v (TransGen.mono (fun _ _ hab => hlinked _ _ hab) _ _ hcycle)
  · intro parent
    have hsubset : distinctChildren (applyDeclaration graph declaration) parent ⊆
        children adj parent := by
      intro w hw
      obtain ⟨e, he, rfl⟩ := mem_map.mp (List.mem_dedup.mp hw)
      obtain ⟨he, hp⟩ := mem_filter.mp he
      exact hlinked parent e.childId ⟨e, he, of_decide_eq_true hp, rfl⟩
    exact le_trans (subperm_of_subset (nodup_dedup _) hsubset).length_le (hfan parent)
  · intro v n hpath
    apply hdepth v n
    induction hpath with
    | start => exact Path.start
    | extend _ hvw ih => exact AcyclicGraph.Path.extend ih (hlinked _ _ hvw)

variable {f : SubGoalNodeState → SubGoalNodeState}

theorem modifyNode_ids (hf : ∀ s, (f s).node.id = s.node.id) (nodeId : Text)
    (nodes : List SubGoalNodeState) :
    (modifyNode nodeId f nodes).map (fun s => s.node.id) = nodes.map fun s => s.node.id := by
  induction nodes with
  | nil => rfl
  | cons s rest ih =>
    rw [modifyNode]
    by_cases hs : s.node.id = nodeId
    · rw [if_pos hs, map_cons, map_cons, hf]
    · rw [if_neg hs, map_cons, map_cons, ih]

theorem wellFormed_modify (h : WellFormed limits graph) (hf : ∀ s, (f s).node.id = s.node.id)
    (nodeId : Text) : WellFormed limits (graph.modify nodeId f) := by
  have hids : (graph.modify nodeId f).ids = graph.ids := modifyNode_ids hf nodeId graph.nodes
  have hpath : ∀ v n, RootPath (graph.modify nodeId f) v n → RootPath graph v n := by
    intro v n hp
    induction hp with
    | start => exact RootPath.start
    | extend _ hvw ih => exact RootPath.extend ih hvw
  constructor
  · rw [hids]; exact h.unique
  · rw [hids]; exact h.named
  · intro e he
    have hk := h.known e he
    rwa [Known, Known, hids]
  · exact h.acyclic
  · exact h.fanOut
  · exact fun v n hp => h.depth v n (hpath v n hp)

structure Invariant (s : State) : Prop where
  wellFormed : WellFormed s.limits s.graph
  firstWins : FirstWins s.graph.edges s.declared

theorem invariant_start (limits : SubGoalLimits) : Invariant ⟨.default, [], limits⟩ := by
  have hlinked : ∀ v w, ¬ Linked [] v w := by
    rintro v w ⟨e, he, -⟩
    exact not_mem_nil he
  refine ⟨⟨nodup_nil, fun v hv => absurd hv not_mem_nil,
    fun e he => absurd he not_mem_nil, fun v hv => ?_, fun _ => Nat.zero_le _,
    fun v n hp => ?_⟩, ⟨nodup_nil, fun e => ?_⟩⟩
  · obtain ⟨w, hvw, -⟩ := TransGen.head'_iff.mp hv
    exact hlinked v w hvw
  · cases hp with
    | start => exact Nat.zero_le _
    | extend _ hvw => exact absurd hvw (hlinked _ _)
  · simp [firstDeclared, SubGoalGraph.default]

theorem invariant_step {s : State} (h : Invariant s) (op : Op) : Invariant (step s op) := by
  cases op with
  | declare declaration limits =>
    rw [step]
    cases hv : validateDeclaration s.graph declaration limits with
    | error e => exact h
    | ok u =>
      have hacc := accepted_of_validate hv
      refine ⟨wellFormed_applyDeclaration h.wellFormed hacc, ?_⟩
      apply firstWins_foldl_addEdge
      rw [(foldl_addNode declaration.nodes s.graph (fun v hv => ⟨(hacc.nodes v hv).1,
        (hacc.nodes v hv).2.1, fun hm => (hacc.nodes v hv).2.2 (mem_cons_of_mem _ hm)⟩)
        hacc.distinct).2]
      exact h.firstWins
  | dispatch nodeId owner =>
    refine ⟨wellFormed_modify h.wellFormed (fun s => ?_) _, h.firstWins⟩
    rfl
  | report nodeId report =>
    refine ⟨wellFormed_modify h.wellFormed (fun s => ?_) _, h.firstWins⟩
    rfl
  | supersede nodeId reason =>
    refine ⟨wellFormed_modify h.wellFormed (fun s => ?_) _, h.firstWins⟩
    rfl

theorem invariant_run (limits : SubGoalLimits) (ops : List Op) : Invariant (run limits ops) := by
  have hfold : ∀ (ops : List Op) (s : State), Invariant s → Invariant (ops.foldl step s) := by
    intro ops
    induction ops with
    | nil => exact fun s h => h
    | cons op ops ih => exact fun s h => ih _ (invariant_step h op)
  exact hfold ops _ (invariant_start limits)

theorem lanes_foldl : ∀ rollup : SubGoalRollup,
    (edges.foldl (rollEdge graph) rollup).lanes =
    rollup.lanes ++ edges.filterMap fun edge => (graph.node edge.childId).map (laneOf edge.kind) := by
  induction edges with
  | nil => intro rollup; simp
  | cons e edges ih =>
    intro rollup
    rw [foldl_cons, ih]
    cases hnode : graph.node e.childId with
    | none => simp [rollEdge, hnode]
    | some state => simp [rollEdge, hnode, addLane]

theorem parentMayProceed_iff {parent : Text} :
    (aggregateSubGoals graph parent).parentMayProceed = true ↔
      ∀ w, Requires graph parent w → ∀ state, graph.node w = some state →
        (subGoalEffectiveOutcome state).1 = .met := by
  rw [SubGoalRollup.parentMayProceed, List.isEmpty_iff, SubGoalRollup.blocking,
    filter_eq_nil_iff, aggregateSubGoals, lanes_foldl]
  simp only [nil_append, mem_filterMap, mem_filter, decide_eq_true_eq,
    Option.map_eq_some_iff]
  constructor
  · intro h w hw state hstate
    by_contra hne
    exact h (laneOf .required state) ⟨_, ⟨hw, rfl⟩, state, hstate, rfl⟩ ⟨rfl, hne⟩
  · rintro h lane ⟨e, ⟨he, rfl⟩, state, hstate, rfl⟩ ⟨hkind, hne⟩
    apply hne
    have hw : Requires graph e.parentId e.childId := by
      have hk : e.kind = .required := hkind
      rw [Requires, ← hk]
      exact he
    exact h e.childId hw state hstate

theorem node_of_reached (h : WellFormed limits graph) {v w : Text}
    (hv : ReflTransGen (Requires graph) rootSubGoalId v) (hvw : Requires graph v w) :
    ∃ state, graph.node w = some state := by
  have hlinked : ∀ a b, Requires graph a b → Linked graph.edges a b :=
    fun a b hab => ⟨_, hab, rfl, rfl⟩
  have hcycle : w ≠ rootSubGoalId := by
    rintro rfl
    have hreach := TransGen.tail' hv hvw
    exact h.acyclic _ (TransGen.mono (fun _ _ hab => hlinked _ _ hab) _ _ hreach)
  rcases (h.known _ hvw).2 with hw | hw
  · exact absurd hw hcycle
  · exact Option.isSome_iff_exists.mp (isSome_node_iff.mpr hw)

theorem parentMayProceed_iff_lanes (h : WellFormed limits graph) {v : Text}
    (hv : ReflTransGen (Requires graph) rootSubGoalId v) :
    (aggregateSubGoals graph v).parentMayProceed = true ↔
      ∀ w, Requires graph v w → LaneMet graph w := by
  rw [parentMayProceed_iff]
  constructor
  · intro hmet w hw
    obtain ⟨state, hstate⟩ := node_of_reached h hv hw
    exact ⟨state, hstate, hmet w hw state hstate⟩
  · intro hmet w hw state hstate
    obtain ⟨state', hstate', hout⟩ := hmet w hw
    rw [hstate, Option.some.injEq] at hstate'
    rwa [hstate']

theorem mayProceed_everywhere_iff (h : WellFormed limits graph) :
    (∀ v, ReflTransGen (Requires graph) rootSubGoalId v →
      (aggregateSubGoals graph v).parentMayProceed = true) ↔
    ∀ w, TransGen (Requires graph) rootSubGoalId w → LaneMet graph w := by
  constructor
  · intro hall w hw
    obtain ⟨v, hv, hvw⟩ := TransGen.tail'_iff.mp hw
    exact (parentMayProceed_iff_lanes h hv).mp (hall v hv) w hvw
  · intro hall v hv
    exact (parentMayProceed_iff_lanes h hv).mpr fun w hw =>
      hall w (TransGen.tail' hv hw)

/-- In every run the graph is well formed within the limits of the last accepted declaration, every
edge has the kind of its first accepted declaration, and the decision of the root is about the lanes
of its own required edges. -/
theorem composition_sound (limits : SubGoalLimits) (ops : List Op) :
    WellFormed (run limits ops).limits (run limits ops).graph ∧
    FirstWins (run limits ops).graph.edges (run limits ops).declared ∧
    ((aggregateSubGoals (run limits ops).graph rootSubGoalId).parentMayProceed = true ↔
      ∀ w, Requires (run limits ops).graph rootSubGoalId w →
        LaneMet (run limits ops).graph w) ∧
    ((∀ v, ReflTransGen (Requires (run limits ops).graph) rootSubGoalId v →
      (aggregateSubGoals (run limits ops).graph v).parentMayProceed = true) ↔
      ∀ w, TransGen (Requires (run limits ops).graph) rootSubGoalId w →
        LaneMet (run limits ops).graph w) := by
  have h := invariant_run limits ops
  exact ⟨h.wellFormed, h.firstWins,
    parentMayProceed_iff_lanes h.wellFormed ReflTransGen.refl,
    mayProceed_everywhere_iff h.wellFormed⟩

/-- A lane declared optional stays optional when it is declared required, and a root may proceed
above a required lane that was never dispatched. -/
theorem required_edge_dropped_and_deep_lane_skipped :
    (∃ ops : List Op, ∃ e ∈ (run ⟨4, 16⟩ ops).declared,
      e.kind = .required ∧ e ∉ (run ⟨4, 16⟩ ops).graph.edges) ∧
    ∃ ops : List Op,
      (aggregateSubGoals (run ⟨4, 16⟩ ops).graph rootSubGoalId).parentMayProceed = true ∧
      ∃ w, TransGen (Requires (run ⟨4, 16⟩ ops).graph) rootSubGoalId w ∧
        ¬ LaneMet (run ⟨4, 16⟩ ops).graph w := by
  refine ⟨⟨[.declare ⟨[⟨['a'], [], none, []⟩], [⟨rootSubGoalId, ['a'], .optional⟩]⟩ ⟨4, 16⟩,
      .declare ⟨[], [⟨rootSubGoalId, ['a'], .required⟩]⟩ ⟨4, 16⟩],
      ⟨rootSubGoalId, ['a'], .required⟩, by decide, rfl, by decide⟩,
    [.declare ⟨[⟨['a'], [], none, []⟩, ⟨['b'], [], none, []⟩],
        [⟨rootSubGoalId, ['a'], .required⟩, ⟨['a'], ['b'], .required⟩]⟩ ⟨4, 16⟩,
      .report ['a'] ⟨.met, [], [], 1⟩], by decide, ['b'], ?_, ?_⟩
  · apply TransGen.tail (b := ['a'])
    · apply TransGen.single
      rw [Requires]
      decide
    · rw [Requires]
      decide
  · rintro ⟨state, hstate, hmet⟩
    have hlane : ((run ⟨4, 16⟩ [.declare ⟨[⟨['a'], [], none, []⟩, ⟨['b'], [], none, []⟩],
        [⟨rootSubGoalId, ['a'], .required⟩, ⟨['a'], ['b'], .required⟩]⟩ ⟨4, 16⟩,
        .report ['a'] ⟨.met, [], [], 1⟩]).graph.node ['b']) =
        some ⟨⟨['b'], [], none, []⟩, false, none, none⟩ := by decide
    rw [hlane, Option.some.injEq] at hstate
    subst hstate
    exact absurd hmet (by decide)

end SubGoalSafety
