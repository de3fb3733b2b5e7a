import Mathlib.Data.List.Nodup
import Mathlib.Data.List.Perm.Subperm

/-! # Search with a stack

The node on top is visited next and its successors whose keys are new are pushed. Successors may
repeat and may form cycles. Where keys name the nodes of a finite list, the search ends with every
node that can be reached, each once.
-/
namespace StackSearch

open List

variable {α κ : Type*} [DecidableEq κ]

structure State (α κ : Type*) where
  seen : List κ
  stack : List α
  visited : List α

variable (key : α → κ)

def push (s : State α κ) (node : α) : State α κ :=
  if key node ∈ s.seen then s
  else { s with seen := key node :: s.seen, stack := node :: s.stack }

def visit (next : α → List α) (s : State α κ) (node : α) (rest : List α) :
    State α κ :=
  (next node).foldl (push key) { s with stack := rest, visited := s.visited ++ [node] }

/-- `none` where the steps do not suffice. -/
def run (key : α → κ) (next : α → List α) : ℕ → State α κ → Option (State α κ)
  | steps, s =>
    match s.stack with
    | [] => some s
    | node :: rest =>
      match steps with
      | 0 => none
      | steps + 1 => run key next steps (visit key next s node rest)

def start (root : α) : State α κ := ⟨[key root], [root], []⟩

abbrev Reaches (next : α → List α) : α → α → Prop := Relation.ReflTransGen fun a b => b ∈ next a

/-- What is seen is what was visited or is on the stack. -/
structure Listed (key : α → κ) (next : α → List α) (nodes : List α) (root : α)
    (s : State α κ) : Prop where
  nodup : ((s.visited ++ s.stack).map key).Nodup
  seen_iff : ∀ k, k ∈ s.seen ↔ k ∈ (s.visited ++ s.stack).map key
  mem_nodes : ∀ node ∈ s.visited ++ s.stack, node ∈ nodes
  reached : ∀ node ∈ s.visited ++ s.stack, Reaches next root node
  root_seen : key root ∈ s.seen

structure Invariant (key : α → κ) (next : α → List α) (nodes : List α) (root : α)
    (s : State α κ) : Prop extends Listed key next nodes root s where
  closed : ∀ node ∈ s.visited, ∀ child ∈ next node, key child ∈ s.seen

variable {key : α → κ} {next : α → List α} {nodes : List α} {root : α} {s : State α κ}

variable (node : α)

@[simp]
theorem push_visited : (push key s node).visited = s.visited := by
  unfold push
  split_ifs <;> rfl

theorem seen_subset_push : s.seen ⊆ (push key s node).seen := by
  unfold push
  split_ifs
  · exact List.Subset.refl _
  · exact subset_cons_self _ _

theorem mem_seen_push : key node ∈ (push key s node).seen := by
  unfold push
  split_ifs with h
  · exact h
  · exact mem_cons_self

theorem Listed.push (h : Listed key next nodes root s) {node : α} (hnode : node ∈ nodes)
    (hreach : Reaches next root node) : Listed key next nodes root (push key s node) := by
  unfold StackSearch.push
  split_ifs with hseen
  · exact h
  · have hperm : (s.visited ++ node :: s.stack).Perm (node :: (s.visited ++ s.stack)) :=
      perm_middle
    have hnew : key node ∉ (s.visited ++ s.stack).map key := fun hin =>
      hseen ((h.seen_iff _).mpr hin)
    constructor
    case nodup =>
      rw [(hperm.map key).nodup_iff, map_cons, nodup_cons]
      exact ⟨hnew, h.nodup⟩
    case seen_iff =>
      intro k
      rw [(hperm.map key).mem_iff, map_cons, mem_cons, mem_cons, h.seen_iff]
    case mem_nodes =>
      intro other hother
      rcases mem_cons.mp (hperm.mem_iff.mp hother) with rfl | hother
      · exact hnode
      · exact h.mem_nodes other hother
    case reached =>
      intro other hother
      rcases mem_cons.mp (hperm.mem_iff.mp hother) with rfl | hother
      · exact hreach
      · exact h.reached other hother
    case root_seen => exact mem_cons_of_mem _ h.root_seen

variable (children : List α)

theorem foldl_push_visited (s : State α κ) : (children.foldl (push key) s).visited = s.visited := by
  induction children generalizing s with
  | nil => rfl
  | cons child rest ih => rw [foldl_cons, ih, push_visited]

theorem foldl_push_with (s : State α κ) (visited : List α) :
    children.foldl (push key) { s with visited := visited } =
      { children.foldl (push key) s with visited := visited } := by
  induction children generalizing s with
  | nil => rfl
  | cons child rest ih =>
    have hpush : push key { s with visited := visited } child =
        { push key s child with visited := visited } := by
      unfold push
      split_ifs <;> rfl
    rw [foldl_cons, hpush, ih, foldl_cons]

theorem seen_subset_foldl (s : State α κ) : s.seen ⊆ (children.foldl (push key) s).seen := by
  induction children generalizing s with
  | nil => exact List.Subset.refl _
  | cons child rest ih => exact List.Subset.trans (seen_subset_push child) (ih _)

theorem mem_seen_foldl {children : List α} {child : α} (hchild : child ∈ children)
    (s : State α κ) : key child ∈ (children.foldl (push key) s).seen := by
  induction children generalizing s with
  | nil => cases hchild
  | cons first rest ih =>
    rcases mem_cons.mp hchild with rfl | hchild
    · exact seen_subset_foldl rest _ (mem_seen_push child)
    · exact ih hchild _

theorem Listed.foldl {children : List α} (hnodes : ∀ child ∈ children, child ∈ nodes)
    (hreach : ∀ child ∈ children, Reaches next root child)
    (h : Listed key next nodes root s) :
    Listed key next nodes root (children.foldl (StackSearch.push key) s) := by
  induction children generalizing s with
  | nil => exact h
  | cons child rest ih =>
    apply ih (fun other hother => hnodes other (mem_cons_of_mem _ hother))
      (fun other hother => hreach other (mem_cons_of_mem _ hother))
    exact h.push (hnodes child mem_cons_self) (hreach child mem_cons_self)

omit [DecidableEq κ] in
theorem Listed.pop (h : Listed key next nodes root s) {node : α} {rest : List α}
    (hstack : s.stack = node :: rest) :
    Listed key next nodes root { s with stack := rest, visited := s.visited ++ [node] } := by
  have hsame : s.visited ++ [node] ++ rest = s.visited ++ s.stack := by
    rw [hstack, append_assoc, singleton_append]
  constructor
  case nodup => exact hsame ▸ h.nodup
  case seen_iff => exact hsame ▸ h.seen_iff
  case mem_nodes => exact hsame ▸ h.mem_nodes
  case reached => exact hsame ▸ h.reached
  case root_seen => exact h.root_seen

theorem Invariant.visit (h : Invariant key next nodes root s)
    (hnext : ∀ node ∈ nodes, ∀ child ∈ next node, child ∈ nodes) {node : α} {rest : List α}
    (hstack : s.stack = node :: rest) :
    Invariant key next nodes root (visit key next s node rest) := by
  have hlisted : node ∈ s.visited ++ s.stack := by
    rw [hstack]
    exact mem_append_right _ mem_cons_self
  refine ⟨(h.toListed.pop hstack).foldl (hnext node (h.mem_nodes node hlisted))
    (fun child hchild => (h.reached node hlisted).tail hchild), ?_⟩
  intro other hother child hchild
  unfold StackSearch.visit at hother ⊢
  rw [foldl_push_visited] at hother
  rcases mem_append.mp hother with hother | hother
  · exact seen_subset_foldl _ _ (h.closed other hother child hchild)
  · obtain rfl := mem_singleton.mp hother
    exact mem_seen_foldl hchild _

theorem visit_visited (rest : List α) :
    (visit key next s node rest).visited = s.visited ++ [node] :=
  foldl_push_visited _ _

omit [DecidableEq κ] in
theorem Invariant.length_le (h : Invariant key next nodes root s) :
    s.visited.length + s.stack.length ≤ nodes.length := by
  rw [← length_append]
  exact (h.nodup.of_map.subperm h.mem_nodes).length_le

omit [DecidableEq κ] in
theorem Invariant.start (hroot : root ∈ nodes) :
    Invariant key next nodes root (start key root) where
  nodup := nodup_singleton _
  seen_iff _ := Iff.rfl
  mem_nodes node hnode := mem_singleton.mp hnode ▸ hroot
  reached node hnode := mem_singleton.mp hnode ▸ .refl
  root_seen := mem_singleton_self _
  closed _ hnode := by cases hnode

theorem run_invariant (hnext : ∀ node ∈ nodes, ∀ child ∈ next node, child ∈ nodes) (steps : ℕ)
    (h : Invariant key next nodes root s) (hsteps : nodes.length ≤ s.visited.length + steps) :
    ∃ s', run key next steps s = some s' ∧ s'.stack = [] ∧ Invariant key next nodes root s' := by
  induction steps generalizing s with
  | zero =>
    have hlen := h.length_le
    have hstack : s.stack = [] := eq_nil_of_length_eq_zero (by omega)
    exact ⟨s, by rw [run, hstack], hstack, h⟩
  | succ steps ih =>
    rw [run]
    cases hstack : s.stack with
    | nil => exact ⟨s, rfl, hstack, h⟩
    | cons node rest =>
      apply ih (h.visit hnext hstack)
      rw [visit_visited, length_append, length_singleton]
      omega

omit [DecidableEq κ] in
theorem Invariant.mem_visited_iff (h : Invariant key next nodes root s)
    (hkey : (nodes.map key).Nodup) (hnext : ∀ node ∈ nodes, ∀ child ∈ next node, child ∈ nodes)
    (hroot : root ∈ nodes) (hstack : s.stack = []) (node : α) :
    node ∈ s.visited ↔ Reaches next root node := by
  have hvisited : s.visited ++ s.stack = s.visited := by
    rw [hstack, append_nil]
  -- A key that is seen belongs to a visit, and there is one node of that key.
  have hback : ∀ other ∈ nodes, key other ∈ s.seen → other ∈ s.visited := by
    intro other hother hseen
    obtain ⟨found, hfound, heq⟩ := mem_map.mp (hvisited ▸ (h.seen_iff _).mp hseen)
    have hfound_nodes : found ∈ nodes := h.mem_nodes found (mem_append_left _ hfound)
    obtain rfl := inj_on_of_nodup_map hkey hfound_nodes hother heq
    exact hfound
  constructor
  · intro hnode
    exact h.reached node (mem_append_left _ hnode)
  · intro hreach
    induction hreach with
    | refl => exact hback root hroot h.root_seen
    | tail _ hchild ih =>
      have hnode := h.mem_nodes _ (mem_append_left _ ih)
      exact hback _ (hnext _ hnode _ hchild) (h.closed _ ih _ hchild)

/-- One step for each node suffices to visit what can be reached, and nothing else. -/
theorem run_start (hkey : (nodes.map key).Nodup)
    (hnext : ∀ node ∈ nodes, ∀ child ∈ next node, child ∈ nodes) (hroot : root ∈ nodes)
    {steps : ℕ} (hsteps : nodes.length ≤ steps) :
    ∃ s, run key next steps (start key root) = some s ∧ (s.visited.map key).Nodup ∧
      ∀ node, node ∈ s.visited ↔ Reaches next root node := by
  have hstart : Invariant key next nodes root (start key root) := Invariant.start hroot
  obtain ⟨s, hrun, hstack, h⟩ := run_invariant hnext steps hstart
    (Nat.le_trans hsteps (Nat.le_add_left _ _))
  refine ⟨s, hrun, ?_, h.mem_visited_iff hkey hnext hroot hstack⟩
  have hnodup := h.nodup
  rw [hstack, append_nil] at hnodup
  exact hnodup

end StackSearch
