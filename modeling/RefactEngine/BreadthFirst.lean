import Mathlib.Data.List.Nodup
import Mathlib.Data.List.Perm.Subperm

/-! # Breadth-first walk

A work list of nodes, each known by a key. The children of a node whose keys are new go to the end
of the list. Where keys name nodes, the walk ends with every node below the first one, each once,
also if the nodes form cycles.
-/
namespace BreadthFirst

open List

variable {α κ : Type*} [DecidableEq κ]

def walk (key : α → κ) (children : α → List α) : ℕ → List κ → List α → Option (List α)
  | _, _, [] => some []
  | 0, _, _ :: _ => none
  | steps + 1, seen, node :: rest =>
    let fresh := (children node).filter fun child => key child ∉ seen
    (walk key children steps (seen ++ fresh.map key) (rest ++ fresh)).map (node :: ·)

def unseen (key : α → κ) (nodes : List α) (seen : List κ) : List α :=
  nodes.filter fun node => key node ∉ seen

structure Keyed (key : α → κ) (children : α → List α) (nodes : List α) : Prop where
  nodes_nodup : (nodes.map key).Nodup
  children_nodup : ∀ node, ((children node).map key).Nodup
  children_mem : ∀ node, ∀ child ∈ children node, child ∈ nodes

variable {key : α → κ} {children : α → List α} {nodes : List α}

omit [DecidableEq κ] in
theorem Keyed.injective (h : Keyed key children nodes) {a b : α} (ha : a ∈ nodes)
    (hb : b ∈ nodes) (hab : key a = key b) : a = b :=
  inj_on_of_nodup_map h.nodes_nodup ha hb hab

theorem length_unseen_append (h : Keyed key children nodes) (seen : List κ) (node : α) :
    (unseen key nodes (seen ++
        ((children node).filter fun child => key child ∉ seen).map key)).length +
      ((children node).filter fun child => key child ∉ seen).length ≤
        (unseen key nodes seen).length := by
  have hfresh : ∀ child ∈ (children node).filter (fun child => key child ∉ seen),
      child ∈ unseen key nodes seen := by
    intro child hchild
    obtain ⟨hmem, hnew⟩ := mem_filter.mp hchild
    exact mem_filter.mpr ⟨h.children_mem node child hmem, hnew⟩
  have hnodup : ((children node).filter fun child => key child ∉ seen).Nodup :=
    ((List.Nodup.of_map key (h.children_nodup node)).filter _)
  have hrest : ∀ a ∈ unseen key nodes (seen ++
      ((children node).filter fun child => key child ∉ seen).map key),
      a ∈ unseen key nodes seen ∧
        a ∉ (children node).filter fun child => key child ∉ seen := by
    intro a ha
    obtain ⟨hmem, hnew⟩ := mem_filter.mp ha
    simp only [mem_append, not_or, decide_eq_true_eq] at hnew
    refine ⟨mem_filter.mpr ⟨hmem, decide_eq_true hnew.1⟩, fun hin => ?_⟩
    exact hnew.2 (mem_map_of_mem hin)
  have hall : (unseen key nodes (seen ++
      ((children node).filter fun child => key child ∉ seen).map key) ++
        (children node).filter fun child => key child ∉ seen).Nodup := by
    apply List.Nodup.append ((List.Nodup.of_map key h.nodes_nodup).filter _) hnodup
    intro a ha hfr
    exact (hrest a ha).2 hfr
  have hin := append_subset.mpr ⟨fun a ha => (hrest a ha).1, hfresh⟩
  have hsub := List.Nodup.subperm hall hin
  have hlen := hsub.length_le
  rw [length_append] at hlen
  exact hlen

theorem walk_isSome (h : Keyed key children nodes) (steps : ℕ) :
    ∀ seen queue, queue.length + (unseen key nodes seen).length ≤ steps →
      (walk key children steps seen queue).isSome := by
  induction steps with
  | zero =>
    intro seen queue hle
    cases queue with
    | nil => rfl
    | cons node rest =>
      rw [length_cons] at hle
      omega
  | succ steps ih =>
    intro seen queue hle
    cases queue with
    | nil => rfl
    | cons node rest =>
      rw [walk, Option.isSome_map]
      apply ih
      have hstep := length_unseen_append h seen node
      rw [length_cons] at hle
      rw [length_append]
      omega

variable {visited queue : List α} {seen : List κ}

variable {steps : ℕ}

theorem walk_mem (hw : walk key children steps seen queue = some visited) :
    (∀ node ∈ queue, node ∈ visited) ∧
      ∀ node ∈ visited, node ∈ queue ∨ key node ∉ seen ∧ ∃ above, node ∈ children above := by
  induction steps generalizing seen queue visited with
  | zero =>
    cases queue with
    | nil => cases hw; exact ⟨fun _ h => h, fun _ h => Or.inl h⟩
    | cons node rest => cases hw
  | succ steps ih =>
    cases queue with
    | nil => cases hw; exact ⟨fun _ h => h, fun _ h => Or.inl h⟩
    | cons node rest =>
      rw [walk, Option.map_eq_some_iff] at hw
      obtain ⟨later, hw, rfl⟩ := hw
      obtain ⟨hqueue, hvisits⟩ := ih hw
      constructor
      · intro other hother
        rcases mem_cons.mp hother with rfl | hother
        · exact mem_cons_self
        · exact mem_cons_of_mem _ (hqueue other (mem_append_left _ hother))
      · intro other hother
        rcases mem_cons.mp hother with rfl | hother
        · exact Or.inl mem_cons_self
        · rcases hvisits other hother with hin | ⟨hnew, above, hin⟩
          · rcases mem_append.mp hin with hin | hin
            · exact Or.inl (mem_cons_of_mem _ hin)
            · obtain ⟨hchild, hnew⟩ := mem_filter.mp hin
              exact Or.inr ⟨of_decide_eq_true hnew, node, hchild⟩
          · exact Or.inr ⟨fun hin => hnew (mem_append_left _ hin), above, hin⟩

theorem walk_closed (hw : walk key children steps seen queue = some visited) :
    ∀ node ∈ visited, ∀ child ∈ children node,
      key child ∈ seen ∨ ∃ other ∈ visited, key other = key child := by
  induction steps generalizing seen queue visited with
  | zero =>
    cases queue with
    | nil => cases hw; exact nofun
    | cons node rest => cases hw
  | succ steps ih =>
    cases queue with
    | nil => cases hw; exact nofun
    | cons first rest =>
      rw [walk, Option.map_eq_some_iff] at hw
      obtain ⟨later, hw, rfl⟩ := hw
      intro node hnode child hchild
      have hfresh : ∀ other ∈ (children first).filter (fun child => key child ∉ seen),
          other ∈ later := fun other hother =>
        (walk_mem hw).1 other (mem_append_right _ hother)
      rcases mem_cons.mp hnode with rfl | hnode
      · by_cases hseen : key child ∈ seen
        · exact Or.inl hseen
        · have hin := hfresh child (mem_filter.mpr ⟨hchild, decide_eq_true hseen⟩)
          exact Or.inr ⟨child, mem_cons_of_mem _ hin, rfl⟩
      · rcases ih hw node hnode child hchild with hseen | ⟨other, hother, hkey⟩
        · rcases mem_append.mp hseen with hseen | hseen
          · exact Or.inl hseen
          · obtain ⟨other, hother, hkey⟩ := mem_map.mp hseen
            exact Or.inr ⟨other, mem_cons_of_mem _ (hfresh other hother), hkey⟩
        · exact Or.inr ⟨other, mem_cons_of_mem _ hother, hkey⟩

theorem walk_nodup (h : Keyed key children nodes)
    (hw : walk key children steps seen queue = some visited) (hqueue : (queue.map key).Nodup)
    (hseen : ∀ node ∈ queue, key node ∈ seen) : (visited.map key).Nodup := by
  induction steps generalizing seen queue visited with
  | zero =>
    cases queue with
    | nil => cases hw; exact nodup_nil
    | cons node rest => cases hw
  | succ steps ih =>
    cases queue with
    | nil => cases hw; exact nodup_nil
    | cons node rest =>
      rw [walk, Option.map_eq_some_iff] at hw
      obtain ⟨later, hw, rfl⟩ := hw
      rw [map_cons, nodup_cons] at hqueue
      have hnew : ∀ child ∈ (children node).filter (fun child => key child ∉ seen),
          key child ∉ seen := fun child hchild => of_decide_eq_true (mem_filter.mp hchild).2
      have hlater : (later.map key).Nodup := by
        apply ih hw
        · rw [map_append]
          apply List.Nodup.append hqueue.2
          · exact List.Nodup.sublist (List.Sublist.map key filter_sublist)
              (h.children_nodup node)
          · intro k hk hk'
            obtain ⟨a, ha, rfl⟩ := mem_map.mp hk
            obtain ⟨b, hb, hab⟩ := mem_map.mp hk'
            exact hnew b hb (hab ▸ hseen a (mem_cons_of_mem _ ha))
        · intro a ha
          rcases mem_append.mp ha with ha | ha
          · exact mem_append_left _ (hseen a (mem_cons_of_mem _ ha))
          · exact mem_append_right _ (mem_map_of_mem ha)
      rw [map_cons, nodup_cons]
      refine ⟨fun hin => ?_, hlater⟩
      obtain ⟨a, ha, hkey⟩ := mem_map.mp hin
      have hnode : key node ∈ seen := hseen node mem_cons_self
      rcases (walk_mem hw).2 a ha with hq | ⟨hnot, -⟩
      · rcases mem_append.mp hq with hq | hq
        · exact hqueue.1 (hkey ▸ mem_map_of_mem hq)
        · exact hnew a hq (hkey ▸ hnode)
      · exact hnot (mem_append_left _ (hkey ▸ hnode))

theorem walk_root (h : Keyed key children nodes) {root : α} (hroot : root ∈ nodes) :
    ∃ visited, walk key children nodes.length [key root] [root] = some visited ∧
      (visited.map key).Nodup ∧ (∀ node ∈ visited, node ∈ nodes) ∧
        ∀ node, Relation.ReflTransGen (fun a b => b ∈ children a) root node →
          node ∈ visited := by
  have hlen : [root].length + (unseen key nodes [key root]).length ≤ nodes.length := by
    have hsub : (root :: unseen key nodes [key root]).Subperm nodes := by
      apply List.Nodup.subperm
      · rw [nodup_cons]
        refine ⟨fun hin => ?_, (List.Nodup.of_map key h.nodes_nodup).filter _⟩
        exact of_decide_eq_true (mem_filter.mp hin).2 (mem_singleton_self _)
      · intro a ha
        rcases mem_cons.mp ha with rfl | ha
        · exact hroot
        · exact (mem_filter.mp ha).1
    have hle := hsub.length_le
    rw [length_cons] at hle
    rw [length_singleton]
    omega
  obtain ⟨visited, hw⟩ := Option.isSome_iff_exists.mp (walk_isSome h _ _ _ hlen)
  have hnodes : ∀ node ∈ visited, node ∈ nodes := by
    intro node hnode
    rcases (walk_mem hw).2 node hnode with hq | ⟨-, above, hin⟩
    · exact mem_singleton.mp hq ▸ hroot
    · exact h.children_mem above node hin
  have hfirst : root ∈ visited := (walk_mem hw).1 root (mem_singleton_self _)
  refine ⟨visited, hw, ?_, hnodes, fun node hbelow => ?_⟩
  · apply walk_nodup h hw
    · exact nodup_singleton _
    · intro node hnode
      exact mem_singleton.mp hnode ▸ mem_singleton_self _
  · induction hbelow with
    | refl => exact hfirst
    | @tail above child _ hchild ih =>
      have hmem := h.children_mem above child hchild
      rcases walk_closed hw above ih child hchild with hseen | ⟨other, hother, hkey⟩
      · exact h.injective hmem hroot (mem_singleton.mp hseen) ▸ hfirst
      · exact h.injective (hnodes other hother) hmem hkey ▸ hother

end BreadthFirst
