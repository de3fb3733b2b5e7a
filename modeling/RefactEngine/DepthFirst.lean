import RefactEngine.FiniteMap
import Mathlib.Data.List.Chain
import Mathlib.Algebra.Order.Ring.Nat

/-! # Depth-first search for a cycle

An iterative search with an explicit stack. A node is gray while it is on the stack and
black once all its edges have been followed. An edge into a gray node closes a cycle, which
is read off the stack. The stack is kept with its top first. The results are that a search
that ends without a cycle has put its nodes into an order in which every edge points back,
that a reported cycle is one, and that the number of steps is bounded.
-/
namespace DepthFirst

open List Relation

variable {V E : Type} [DecidableEq V]

structure Digraph (V E : Type) where
  out : V → List E
  target : E → Option V

inductive Color where
  | gray
  | black
  deriving DecidableEq

structure Frame (V E : Type) where
  node : V
  next : ℕ
  incoming : Option E

structure Search (V E : Type) where
  color : AList fun _ : V => Color
  depth : AList fun _ : V => ℕ
  stack : List (Frame V E)

structure Cycle (V E : Type) where
  participants : List V
  edges : List E
  closing : E
  deriving DecidableEq

inductive Outcome (S V E : Type) where
  | going (s : S)
  | finished (color : AList fun _ : V => Color)
  | found (cycle : Cycle V E)

def cycleFrom (stack : List (Frame V E)) (position : ℕ) (closing : E) : Cycle V E where
  participants := ((stack.take (stack.length - position)).map Frame.node).reverse
  edges := ((stack.take (stack.length - (position + 1))).filterMap Frame.incoming).reverse ++
    [closing]
  closing := closing

def push (s : Search V E) (stack : List (Frame V E)) (target : V) (edge : E) : Search V E where
  color := s.color.insert target .gray
  depth := s.depth.insert target stack.length
  stack := ⟨target, 0, some edge⟩ :: stack

def pop (s : Search V E) (node : V) (rest : List (Frame V E)) : Search V E where
  color := s.color.insert node .black
  depth := s.depth.erase node
  stack := rest

def step (g : Digraph V E) (s : Search V E) : Outcome (Search V E) V E :=
  match s.stack with
  | [] => .finished s.color
  | frame :: rest =>
    match (g.out frame.node)[frame.next]? with
    | none => .going (pop s frame.node rest)
    | some edge =>
      let stack := { frame with next := frame.next + 1 } :: rest
      match g.target edge with
      | none => .going { s with stack := stack }
      | some target =>
        match s.color.lookup target with
        | some .black => .going { s with stack := stack }
        | some .gray => .found (cycleFrom stack ((s.depth.lookup target).getD 0) edge)
        | none => .going (push s stack target edge)

/-- The loop; `going` means that the fuel did not suffice. -/
def walk (g : Digraph V E) : ℕ → Search V E → Outcome (Search V E) V E
  | 0, s => .going s
  | n + 1, s =>
    match step g s with
    | .going s' => walk g n s'
    | .finished color => .finished color
    | .found cycle => .found cycle

def startAt (color : AList fun _ : V => Color) (start : V) : Search V E where
  color := color.insert start .gray
  depth := (∅ : AList fun _ : V => ℕ).insert start 0
  stack := [⟨start, 0, none⟩]

/-- One walk from every node that has no color yet, with the colors of the walks before. -/
def search (g : Digraph V E) (fuel : ℕ) :
    List V → (AList fun _ : V => Color) → Outcome (Search V E) V E
  | [], color => .finished color
  | start :: starts, color =>
    match color.lookup start with
    | some _ => search g fuel starts color
    | none =>
      match walk g fuel (startAt color start) with
      | .going s => .going s
      | .finished color' => search g fuel starts color'
      | .found cycle => .found cycle

def budget (g : Digraph V E) (nodes : List V) : ℕ :=
  (nodes.map fun v => (g.out v).length + 1).sum + 1

def Closed (g : Digraph V E) : List V → Prop
  | [] => True
  | v :: done => (∀ e ∈ g.out v, ∀ w, g.target e = some w → w ∈ done) ∧ Closed g done

/-- The edges followed so far lead to finished nodes, the last one maybe to the frame above. -/
def Scanned (g : Digraph V E) (done : List V) : Option V → List (Frame V E) → Prop
  | _, [] => True
  | above, f :: rest =>
    (∀ e ∈ (g.out f.node).take f.next, ∀ w, g.target e = some w → w ∈ done ∨ above = some w) ∧
      Scanned g done (some f.node) rest

def Linked (g : Digraph V E) : List (Frame V E) → Prop
  | [] => True
  | [_] => True
  | f :: below :: rest =>
    (∃ e, f.incoming = some e ∧ e ∈ (g.out below.node).take below.next ∧
      g.target e = some f.node) ∧
      Linked g (below :: rest)

structure Invariant (g : Digraph V E) (nodes : List V) (start : V) (done : List V)
    (s : Search V E) : Prop where
  black : ∀ v, s.color.lookup v = some .black ↔ v ∈ done
  gray : ∀ v, s.color.lookup v = some .gray ↔ v ∈ s.stack.map Frame.node
  distinct : (s.stack.map Frame.node).Nodup
  depth : ∀ above f below, s.stack = above ++ f :: below →
    s.depth.lookup f.node = some below.length
  linked : Linked g s.stack
  scanned : Scanned g done none s.stack
  closed : Closed g done
  known : ∀ f ∈ s.stack, f.node ∈ nodes
  root : ∀ f, s.stack.getLast? = some f → f.node = start

variable {g : Digraph V E} {nodes done : List V} {start : V} {s : Search V E} {f : Frame V E}
  {rest : List (Frame V E)} {edge : E} {stack : List (Frame V E)}

omit [DecidableEq V] in
theorem Scanned.mono {done' : List V} {above above' : Option V} (h : Scanned g done above stack)
    (hd : ∀ w ∈ done, w ∈ done') (ha : ∀ w, above = some w → w ∈ done' ∨ above' = some w) :
    Scanned g done' above' stack := by
  induction stack generalizing above above' with
  | nil => trivial
  | cons f rest ih =>
    refine ⟨fun e he w hw => ?_, ih h.2 fun w hw => .inr hw⟩
    rcases h.1 e he w hw with hin | habove
    · exact .inl (hd w hin)
    · exact ha w habove

variable {target : V}

omit [DecidableEq V] in
theorem Scanned.advance (h : Scanned g done none (f :: rest))
    (hedge : (g.out f.node)[f.next]? = some edge) (htgt : g.target edge = some target) :
    Scanned g done (some target) ({ f with next := f.next + 1 } :: rest) := by
  refine ⟨fun e he w hw => ?_, h.2⟩
  rw [take_add_one, hedge, mem_append] at he
  rcases he with he | he
  · rcases h.1 e he w hw with hin | habove
    · exact .inl hin
    · cases habove
  · obtain rfl : e = edge := by simpa using he
    exact .inr (htgt.symm.trans hw)

omit [DecidableEq V] in
theorem Linked.tail (h : Linked g (f :: rest)) : Linked g rest := by
  cases rest with
  | nil => trivial
  | cons below rest => exact h.2

omit [DecidableEq V] in
theorem Linked.advance (h : Linked g (f :: rest)) (next : ℕ) :
    Linked g ({ f with next := next } :: rest) := by
  cases rest with
  | nil => trivial
  | cons below rest => exact h

theorem Invariant.node_ne (h : Invariant g nodes start done s) (hs : s.stack = f :: rest) :
    f.node ∉ rest.map Frame.node ∧ (rest.map Frame.node).Nodup := by
  have hd := h.distinct
  rw [hs, map_cons] at hd
  exact nodup_cons.mp hd

theorem Invariant.root_advance (h : Invariant g nodes start done s)
    (hs : s.stack = f :: rest) {next : ℕ} {x : Frame V E}
    (hx : ({ f with next := next } :: rest).getLast? = some x) : x.node = start := by
  cases rest with
  | nil =>
    obtain rfl := Option.some.inj hx
    exact h.root f (by rw [hs]; rfl)
  | cons y rest =>
    apply h.root
    rw [hs]
    exact hx

theorem Invariant.pop (h : Invariant g nodes start done s) (hs : s.stack = f :: rest)
    (hend : (g.out f.node)[f.next]? = none) :
    Invariant g nodes start (f.node :: done) (pop s f.node rest) := by
  obtain ⟨hnot, hnodup⟩ := h.node_ne hs
  have hscan := h.scanned
  rw [hs] at hscan
  have hall : (g.out f.node).take f.next = g.out f.node :=
    take_of_length_le (List.getElem?_eq_none_iff.mp hend)
  constructor
  · intro v
    simp only [DepthFirst.pop, AList.lookup_insert_if]
    by_cases hv : v = f.node
    · simp [hv]
    · simp [hv, h.black v]
  · intro v
    simp only [DepthFirst.pop, AList.lookup_insert_if]
    by_cases hv : v = f.node
    · subst hv
      simpa using hnot
    · rw [if_neg hv, h.gray v, hs, map_cons, mem_cons]
      exact ⟨fun hm => hm.resolve_left hv, .inr⟩
  · exact hnodup
  · intro above x below heq
    have hx : x.node ≠ f.node := by
      rintro hxf
      refine hnot (hxf ▸ mem_map_of_mem ?_)
      rw [show rest = above ++ x :: below from heq]
      simp
    simp only [DepthFirst.pop, AList.lookup_erase_if, if_neg hx]
    exact h.depth (f :: above) x below (by rw [hs, show rest = above ++ x :: below from heq]; rfl)
  · exact (hs ▸ h.linked).tail
  · exact hscan.2.mono (fun w hw => mem_cons_of_mem _ hw) fun w hw => by
      cases hw
      exact .inl mem_cons_self
  · refine ⟨fun e he w hw => ?_, h.closed⟩
    rcases hscan.1 e (hall.symm ▸ he) w hw with hin | habove
    · exact hin
    · cases habove
  · intro x hx
    exact h.known x (hs ▸ mem_cons_of_mem _ hx)
  · intro x hx
    apply h.root
    rw [hs, List.getLast?_cons, show rest.getLast? = some x from hx]
    rfl

theorem Invariant.skip (h : Invariant g nodes start done s) (hs : s.stack = f :: rest)
    (hedge : (g.out f.node)[f.next]? = some edge)
    (htgt : ∀ w, g.target edge = some w → w ∈ done) :
    Invariant g nodes start done { s with stack := { f with next := f.next + 1 } :: rest } := by
  have hmap : ({ f with next := f.next + 1 } :: rest : List (Frame V E)).map Frame.node =
      s.stack.map Frame.node := by rw [hs]; rfl
  have hscan := h.scanned
  rw [hs] at hscan
  constructor
  · exact h.black
  · intro v
    rw [h.gray v, ← hmap]
  · rw [hmap]
    exact h.distinct
  · intro above x below heq
    cases above with
    | nil =>
      obtain ⟨rfl, rfl⟩ := List.cons.inj heq
      exact h.depth [] f rest hs
    | cons y above =>
      obtain ⟨-, hrest⟩ := List.cons.inj heq
      exact h.depth (f :: above) x below (by rw [hs, hrest]; rfl)
  · exact Linked.advance (hs ▸ h.linked) _
  · refine ⟨fun e he w hw => ?_, hscan.2⟩
    rw [take_add_one, hedge, mem_append] at he
    rcases he with he | he
    · exact hscan.1 e he w hw
    · obtain rfl : e = edge := by simpa using he
      exact .inl (htgt w hw)
  · exact h.closed
  · intro x hx
    rcases mem_cons.mp hx with rfl | hx
    · exact h.known f (hs ▸ mem_cons_self)
    · exact h.known x (hs ▸ mem_cons_of_mem _ hx)
  · intro x hx
    exact h.root_advance hs hx

theorem Invariant.push (h : Invariant g nodes start done s) (hs : s.stack = f :: rest)
    (hedge : (g.out f.node)[f.next]? = some edge) (htgt : g.target edge = some target)
    (hnew : s.color.lookup target = none) (hknown : target ∈ nodes) :
    Invariant g nodes start done (push s ({ f with next := f.next + 1 } :: rest) target edge) := by
  have hmap : ({ f with next := f.next + 1 } :: rest : List (Frame V E)).map Frame.node =
      s.stack.map Frame.node := by rw [hs]; rfl
  have hnot : target ∉ s.stack.map Frame.node := by
    intro hm
    rw [← h.gray target, hnew] at hm
    cases hm
  have hscan := h.scanned
  rw [hs] at hscan
  constructor
  · intro v
    simp only [DepthFirst.push, AList.lookup_insert_if]
    by_cases hv : v = target
    · subst hv
      have hd : v ∉ done := fun hd => by simp [(h.black v).mpr hd] at hnew
      simp [hd]
    · simp [hv, h.black v]
  · intro v
    simp only [DepthFirst.push, AList.lookup_insert_if]
    rw [map_cons, hmap, mem_cons]
    by_cases hv : v = target
    · simp [hv]
    · rw [if_neg hv, h.gray v]
      exact ⟨.inr, fun hm => hm.resolve_left hv⟩
  · simp only [DepthFirst.push]
    rw [map_cons, hmap]
    exact nodup_cons.mpr ⟨hnot, h.distinct⟩
  · intro above x below heq
    simp only [DepthFirst.push] at heq ⊢
    cases above with
    | nil =>
      obtain ⟨rfl, rfl⟩ := List.cons.inj heq
      rw [AList.lookup_insert]
    | cons y above =>
      obtain ⟨-, hrest⟩ := List.cons.inj heq
      have hx : x.node ∈ s.stack.map Frame.node := by
        rw [← hmap, hrest]
        simp
      have hxt : x.node ≠ target := fun hxt => hnot (hxt ▸ hx)
      rw [AList.lookup_insert_ne hxt]
      cases above with
      | nil =>
        obtain ⟨rfl, rfl⟩ := List.cons.inj hrest
        exact h.depth [] f rest hs
      | cons z above =>
        obtain ⟨-, hrest⟩ := List.cons.inj hrest
        exact h.depth (f :: above) x below (by rw [hs, hrest]; rfl)
  · refine ⟨⟨edge, rfl, ?_, htgt⟩, Linked.advance (hs ▸ h.linked) _⟩
    rw [take_add_one, hedge]
    simp
  · exact ⟨fun e he => by simp at he, hscan.advance hedge htgt⟩
  · exact h.closed
  · intro x hx
    rcases mem_cons.mp hx with rfl | hx
    · exact hknown
    · rcases mem_cons.mp hx with rfl | hx
      · exact h.known f (hs ▸ mem_cons_self)
      · exact h.known x (hs ▸ mem_cons_of_mem _ hx)
  · intro x hx
    exact h.root_advance hs hx

def Trail (g : Digraph V E) : List V → List E → V → Prop
  | [], [], _ => True
  | v :: vs, e :: es, w => e ∈ g.out v ∧ g.target e = some (vs.headD w) ∧ Trail g vs es w
  | _, _, _ => False

structure IsCycle (g : Digraph V E) (c : Cycle V E) : Prop where
  simple : c.participants.Nodup
  trail : ∃ first others, c.participants = first :: others ∧
    Trail g c.participants c.edges first
  closing : c.edges.getLast? = some c.closing

variable {v w : V}

omit [DecidableEq V] in
theorem Trail.snoc {vs : List V} {es : List E} (h : Trail g vs es v) (he : edge ∈ g.out v)
    (hw : g.target edge = some w) : Trail g (vs ++ [v]) (es ++ [edge]) w := by
  induction vs generalizing es with
  | nil =>
    cases es with
    | nil => exact ⟨he, hw, trivial⟩
    | cons e es => exact h.elim
  | cons x vs ih =>
    cases es with
    | nil => exact h.elim
    | cons e es =>
      refine ⟨h.1, ?_, ih h.2.2⟩
      rw [h.2.1]
      cases vs <;> rfl

omit [DecidableEq V] in
theorem Trail.edge_of_mem {vs : List V} {es : List E} (h : Trail g vs es w) (hv : v ∈ vs) :
    ∃ e ∈ g.out v, ∃ u, g.target e = some u ∧ (u ∈ vs ∨ u = w) := by
  induction vs generalizing es with
  | nil => cases hv
  | cons x vs ih =>
    cases es with
    | nil => exact h.elim
    | cons e es =>
      rcases mem_cons.mp hv with rfl | hv
      · refine ⟨e, h.1, _, h.2.1, ?_⟩
        cases vs with
        | nil => exact .inr rfl
        | cons y vs => exact .inl (by simp)
      · obtain ⟨e', he', u, hu, hin⟩ := ih h.2.2 hv
        exact ⟨e', he', u, hu, hin.imp_left (mem_cons_of_mem _)⟩

omit [DecidableEq V] in
theorem IsCycle.edge_of_mem {c : Cycle V E} (h : IsCycle g c) (hv : v ∈ c.participants) :
    ∃ e ∈ g.out v, ∃ u ∈ c.participants, g.target e = some u := by
  obtain ⟨first, others, hcons, htrail⟩ := h.trail
  obtain ⟨e, he, u, hu, hin | rfl⟩ := htrail.edge_of_mem hv
  · exact ⟨e, he, u, hin, hu⟩
  · exact ⟨e, he, u, hcons ▸ mem_cons_self, hu⟩

omit [DecidableEq V] in
theorem Linked.trail (top : Frame V E) (segment below : List (Frame V E))
    (h : Linked g (top :: segment ++ below)) :
    Trail g (segment.map Frame.node).reverse
      ((top :: segment).dropLast.filterMap Frame.incoming).reverse top.node := by
  induction segment generalizing top with
  | nil => trivial
  | cons x segment ih =>
    obtain ⟨⟨e, hin, he, htgt⟩, hrest⟩ := h
    have hprev := ih x hrest
    rw [dropLast_cons_cons, filterMap_cons_some hin, reverse_cons,
      map_cons, reverse_cons]
    exact hprev.snoc (mem_of_mem_take he) htgt

omit [DecidableEq V] in
theorem cycleFrom_append (above below : List (Frame V E)) (x : Frame V E) (closing : E) :
    cycleFrom (above ++ x :: below) below.length closing =
      ⟨((above ++ [x]).map Frame.node).reverse,
        ((above ++ [x]).dropLast.filterMap Frame.incoming).reverse ++ [closing], closing⟩ := by
  have hlen : (above ++ x :: below).length = above.length + 1 + below.length := by
    rw [length_append, length_cons]
    omega
  have htop : (above ++ x :: below).length - below.length = (above ++ [x]).length := by
    rw [hlen, Nat.add_sub_cancel, length_append, length_singleton]
  have hinner : (above ++ x :: below).length - (below.length + 1) = above.length := by
    rw [hlen]
    omega
  rw [cycleFrom, htop, hinner, take_left, dropLast_concat,
    show above ++ x :: below = (above ++ [x]) ++ below by simp, take_left]

omit [DecidableEq V] in
theorem Linked.isCycle {above below : List (Frame V E)} {top x : Frame V E}
    (h : Linked g (above ++ x :: below)) (hd : ((above ++ x :: below).map Frame.node).Nodup)
    (htop : (above ++ [x]).head? = some top) (he : edge ∈ g.out top.node)
    (htgt : g.target edge = some x.node) :
    IsCycle g (cycleFrom (above ++ x :: below) below.length edge) := by
  have hsplit : above ++ x :: below = (above ++ [x]) ++ below := by simp
  rw [cycleFrom_append]
  constructor
  · rw [hsplit, map_append] at hd
    exact nodup_reverse.mpr (List.Nodup.of_append_left hd)
  · refine ⟨x.node, (above.map Frame.node).reverse, by simp, ?_⟩
    obtain ⟨segment, hseg⟩ := List.head?_eq_some_iff.mp htop
    rw [hsplit, hseg] at h
    rw [hseg, map_cons, reverse_cons]
    exact (h.trail top segment below).snoc he htgt
  · exact List.getLast?_concat

theorem Invariant.gray_split (h : Invariant g nodes start done s) (hs : s.stack = f :: rest)
    (hgray : s.color.lookup target = some .gray) (next : ℕ) :
    ∃ above x below, ({ f with next := next } :: rest : List (Frame V E)) =
      above ++ x :: below ∧ x.node = target ∧ s.depth.lookup target = some below.length := by
  obtain ⟨x, hx, rfl⟩ := mem_map.mp ((h.gray target).mp hgray)
  obtain ⟨above, below, hsplit⟩ := append_of_mem hx
  have hdepth := h.depth above x below hsplit
  rw [hs] at hsplit
  cases above with
  | nil =>
    obtain ⟨rfl, rfl⟩ := List.cons.inj hsplit
    exact ⟨[], _, rest, rfl, rfl, hdepth⟩
  | cons y above =>
    obtain ⟨rfl, rfl⟩ := List.cons.inj hsplit
    exact ⟨_ :: above, x, below, rfl, rfl, hdepth⟩

theorem Invariant.found (h : Invariant g nodes start done s) (hs : s.stack = f :: rest)
    (hedge : (g.out f.node)[f.next]? = some edge) (htgt : g.target edge = some target)
    (hgray : s.color.lookup target = some .gray) :
    IsCycle g (cycleFrom ({ f with next := f.next + 1 } :: rest)
      ((s.depth.lookup target).getD 0) edge) := by
  obtain ⟨above, x, below, hsplit, rfl, hdepth⟩ := h.gray_split hs hgray (f.next + 1)
  have hlinked : Linked g ({ f with next := f.next + 1 } :: rest) :=
    Linked.advance (hs ▸ h.linked) _
  have hd : (({ f with next := f.next + 1 } :: rest : List (Frame V E)).map Frame.node).Nodup := by
    have hstack := h.distinct
    rw [hs] at hstack
    exact hstack
  have htop : (above ++ [x]).head? = some { f with next := f.next + 1 } := by
    cases above with
    | nil => rw [(List.cons.inj hsplit).1]; rfl
    | cons y above => rw [(List.cons.inj hsplit).1]; rfl
  rw [hdepth, Option.getD_some]
  rw [hsplit] at hlinked hd ⊢
  exact hlinked.isCycle hd htop (mem_of_getElem? hedge) htgt

def Digraph.succ (g : Digraph V E) (v : V) : List V := (g.out v).filterMap g.target

def Endless (succ : V → List V) (v : V) : Prop :=
  ∃ S : Set V, v ∈ S ∧ ∀ u ∈ S, ∃ w ∈ S, w ∈ succ u

def Onward (succ : V → List V) (v w : V) : Prop :=
  ∃ before after, succ v = before ++ w :: after ∧ Endless succ w ∧
    ∀ u ∈ before, ¬ Endless succ u

def FirstEndless (succ : V → List V) (starts : List V) (start : V) : Prop :=
  ∃ before after, starts = before ++ start :: after ∧ Endless succ start ∧
    ∀ u ∈ before, ¬ Endless succ u

/-- The node lies on the loop into which the way onward from the first start runs. -/
def OnLoop (succ : V → List V) (starts : List V) (v : V) : Prop :=
  ∃ start, FirstEndless succ starts start ∧ ReflTransGen (Onward succ) start v ∧
    TransGen (Onward succ) v v

structure LoopFrom (succ : V → List V) (start : V) (participants : List V) : Prop where
  onward : ∀ v ∈ participants, ∃ w ∈ participants, Onward succ v w
  reached : ∀ v ∈ participants, ReflTransGen (Onward succ) start v
  around : ∀ v ∈ participants, TransGen (Onward succ) v v
  endless : Endless succ start

variable {starts : List V} {succ : V → List V}

omit [DecidableEq V] in
theorem endless_of_cycle
    (h : TransGen (fun a b => b ∈ succ a) v v) : Endless succ v := by
  refine ⟨{u | TransGen (fun a b => b ∈ succ a) u u}, h, fun u hu => ?_⟩
  obtain ⟨w, hw, hback⟩ := TransGen.head'_iff.mp hu
  exact ⟨w, TransGen.tail'_iff.mpr ⟨u, hback, hw⟩, hw⟩

omit [DecidableEq V] in
theorem Onward.mem (h : Onward succ v w) : w ∈ succ v := by
  obtain ⟨before, after, hsucc, -, -⟩ := h
  rw [hsucc]
  exact mem_append_right _ mem_cons_self

omit [DecidableEq V] in
theorem mem_succ : w ∈ g.succ v ↔ ∃ e ∈ g.out v, g.target e = some w :=
  mem_filterMap

variable {l : List V}

omit [DecidableEq V] in
theorem first_unique {P : V → Prop} {before after before' after' : List V}
    (h : l = before ++ v :: after) (hv : P v) (hbef : ∀ u ∈ before, ¬ P u)
    (h' : l = before' ++ w :: after') (hw : P w) (hbef' : ∀ u ∈ before', ¬ P u) : v = w := by
  induction before generalizing l before' with
  | nil =>
    cases before' with
    | nil =>
      obtain ⟨hvw, -⟩ := List.cons.inj (h.symm.trans h')
      exact hvw
    | cons u before' =>
      obtain ⟨rfl, -⟩ := List.cons.inj (h.symm.trans h')
      exact absurd hv (hbef' v mem_cons_self)
  | cons u before ih =>
    cases before' with
    | nil =>
      obtain ⟨rfl, -⟩ := List.cons.inj (h.symm.trans h')
      exact absurd hw (hbef u mem_cons_self)
    | cons u' before' =>
      obtain ⟨-, hrest⟩ := List.cons.inj (h.symm.trans h')
      exact ih rfl (fun x hx => hbef x (mem_cons_of_mem _ hx)) hrest
        fun x hx => hbef' x (mem_cons_of_mem _ hx)

omit [DecidableEq V] in
theorem onward_unique (succ : V → List V) : Relator.RightUnique (Onward succ) := by
  intro v w w' h h'
  obtain ⟨before, after, hsplit, hend, hbef⟩ := h
  obtain ⟨before', after', hsplit', hend', hbef'⟩ := h'
  exact first_unique hsplit hend hbef hsplit' hend' hbef'

variable {r : V → V → Prop}

omit [DecidableEq V] in
theorem reach_back (hr : Relator.RightUnique r) (hloop : TransGen r v v)
    (h : ReflTransGen r v w) : ReflTransGen r w v := by
  induction h with
  | refl => exact .refl
  | @tail x y _ hxy ih =>
    -- whether `x` is `v` or not, there is a first step from it on the way to `v`
    have hstep : ∃ z, r x z ∧ ReflTransGen r z v := by
      rcases ReflTransGen.cases_head ih with rfl | hhead
      · exact TransGen.head'_iff.mp hloop
      · exact hhead
    obtain ⟨z, hxz, hz⟩ := hstep
    obtain rfl := hr hxy hxz
    exact hz

omit [DecidableEq V] in
theorem LoopFrom.mem_of_reached {participants : List V} (h : LoopFrom succ start participants)
    (hv : v ∈ participants) (hreach : ReflTransGen (Onward succ) v w) :
    w ∈ participants := by
  induction hreach with
  | refl => exact hv
  | tail _ hxy ih =>
    obtain ⟨z, hz, hxz⟩ := h.onward _ ih
    obtain rfl := onward_unique succ hxy hxz
    exact hz

omit [DecidableEq V] in
/-- There is one loop, and it leads from each of its nodes to every other. -/
theorem OnLoop.reaches (h : OnLoop succ starts v) (hw : OnLoop succ starts w) :
    ReflTransGen (Onward succ) v w := by
  obtain ⟨start, ⟨before, after, hsplit, hend, hbef⟩, hreach, hloop⟩ := h
  obtain ⟨start', ⟨before', after', hsplit', hend', hbef'⟩, hreach', hloop'⟩ := hw
  obtain rfl := first_unique hsplit hend hbef hsplit' hend' hbef'
  rcases ReflTransGen.total_of_right_unique (onward_unique succ) hreach hreach' with hvw | hwv
  · exact hvw
  · exact reach_back (onward_unique succ) hloop' hwv

omit [DecidableEq V] in
theorem LoopFrom.mem_iff {participants : List V} (h : LoopFrom succ start participants)
    (hfirst : FirstEndless succ starts start) (hne : participants ≠ []) (v : V) :
    v ∈ participants ↔ OnLoop succ starts v := by
  have hon : ∀ x ∈ participants, OnLoop succ starts x := fun x hx =>
    ⟨start, hfirst, h.reached x hx, h.around x hx⟩
  refine ⟨hon v, fun hv => ?_⟩
  obtain ⟨x, hx⟩ := exists_mem_of_ne_nil _ hne
  exact h.mem_of_reached hx ((hon x hx).reaches hv)

omit [DecidableEq V] in
theorem Closed.not_endless (h : Closed g done) : ∀ v ∈ done, ¬ Endless g.succ v := by
  induction done with
  | nil => exact fun v hv => absurd hv not_mem_nil
  | cons x done ih =>
    have hrest := ih h.2
    intro v hv hend
    rcases mem_cons.mp hv with rfl | hv
    · obtain ⟨S, hS, htrap⟩ := hend
      obtain ⟨w, hw, hsucc⟩ := htrap v hS
      obtain ⟨e, he, htgt⟩ := mem_succ.mp hsucc
      exact hrest w (h.1 e he w htgt) ⟨S, hw, htrap⟩
    · exact hrest v hv hend

omit [DecidableEq V] in
theorem onward_of_followed (next : ℕ) (hend : Endless g.succ w)
    (hdone : ∀ u ∈ done, ¬ Endless g.succ u)
    (hscan : ∀ e ∈ (g.out v).take next, ∀ u, g.target e = some u → u ∈ done ∨ u = w)
    (hedge : ∃ e ∈ (g.out v).take next, g.target e = some w) : Onward g.succ v w := by
  have hmem : w ∈ ((g.out v).take next).filterMap g.target := mem_filterMap.mpr hedge
  obtain ⟨before, after, hsplit, hnot⟩ := eq_append_cons_of_mem hmem
  refine ⟨before, after ++ ((g.out v).drop next).filterMap g.target, ?_, hend, fun u hu => ?_⟩
  · rw [Digraph.succ, ← take_append_drop next (g.out v), filterMap_append, hsplit]
    simp
  · have hin : u ∈ ((g.out v).take next).filterMap g.target := by
      rw [hsplit]
      exact mem_append_left _ hu
    obtain ⟨e, he, htgt⟩ := mem_filterMap.mp hin
    rcases hscan e he u htgt with hd | rfl
    · exact hdone u hd
    · exact absurd hu hnot

omit [DecidableEq V] in
theorem Linked.chain {above : Option V} (h : Linked g stack) (hscan : Scanned g done above stack)
    (hdone : ∀ u ∈ done, ¬ Endless g.succ u) (hend : ∀ v ∈ stack.map Frame.node, Endless g.succ v) :
    (stack.map Frame.node).IsChain fun v w => Onward g.succ w v := by
  induction stack generalizing above with
  | nil => exact .nil
  | cons f rest ih =>
    have hrest := ih h.tail hscan.2 fun v hv => hend v (mem_cons_of_mem _ hv)
    cases rest with
    | nil => exact .singleton _
    | cons below rest =>
      obtain ⟨⟨e, -, he, htgt⟩, -⟩ := h
      refine isChain_cons_cons.mpr ⟨?_, hrest⟩
      refine onward_of_followed _ (hend f.node mem_cons_self) hdone ?_ ⟨e, he, htgt⟩
      intro e' he' u hu
      rcases hscan.2.1 e' he' u hu with hin | habove
      · exact .inl hin
      · exact .inr (Option.some.inj habove).symm

omit [DecidableEq V] in
/-- Every frame but the top one has an edge to the frame above. -/
theorem Linked.succ_mem (h : Linked g (f :: stack)) (hv : v ∈ stack.map Frame.node) :
    ∃ w ∈ (f :: stack).map Frame.node, w ∈ g.succ v := by
  induction stack generalizing f with
  | nil => cases hv
  | cons below rest ih =>
    obtain ⟨⟨e, -, he, htgt⟩, hrest⟩ := h
    rcases mem_cons.mp hv with rfl | hv
    · exact ⟨f.node, mem_cons_self, mem_succ.mpr ⟨e, mem_of_mem_take he, htgt⟩⟩
    · obtain ⟨w, hw, hsucc⟩ := ih hrest hv
      exact ⟨w, mem_cons_of_mem _ hw, hsucc⟩

omit [DecidableEq V] in
theorem reach_of_chain (h : l.IsChain fun v w => r w v) :
    l.Pairwise fun v w => ReflTransGen r w v := by
  have htrans : Trans (fun v w => ReflTransGen r w v)
      (fun v w => ReflTransGen r w v) (fun v w => ReflTransGen r w v) :=
    ⟨fun hvw hwx => hwx.trans hvw⟩
  rw [← isChain_iff_pairwise]
  exact h.imp fun v w hwv => ReflTransGen.single hwv

omit [DecidableEq V] in
theorem chain_next {a : V} (h : (a :: l).IsChain fun v w => r w v) (hv : v ∈ l) :
    ∃ w ∈ a :: l, r v w := by
  induction l generalizing a with
  | nil => cases hv
  | cons b l ih =>
    obtain ⟨hab, hrest⟩ := isChain_cons_cons.mp h
    rcases mem_cons.mp hv with rfl | hv
    · exact ⟨a, mem_cons_self, hab⟩
    · obtain ⟨w, hw, hvw⟩ := ih hrest hv
      exact ⟨w, mem_cons_of_mem _ hw, hvw⟩

omit [DecidableEq V] in
theorem LoopFrom.of_chain {front back : List V} {top x : V}
    (h : (front ++ x :: back).IsChain fun v w => Onward succ w v)
    (htop : (front ++ [x]).head? = some top) (hclose : Onward succ top x)
    (hlast : (front ++ x :: back).getLast? = some start) (hend : Endless succ start) :
    LoopFrom succ start (front ++ [x]).reverse := by
  have hreach := reach_of_chain h
  have hsplit : front ++ x :: back = (front ++ [x]) ++ back := by simp
  obtain ⟨segment, hseg⟩ := List.head?_eq_some_iff.mp htop
  have hup : ∀ v ∈ front ++ [x], ReflTransGen (Onward succ) v top := by
    intro v hv
    rw [hsplit, hseg] at hreach
    rw [hseg] at hv
    rcases mem_cons.mp hv with rfl | hv
    · exact .refl
    · exact (pairwise_cons.mp hreach).1 v (mem_append_left _ hv)
  have hfrom : ∀ v ∈ front ++ [x], ReflTransGen (Onward succ) x v := by
    intro v hv
    rcases mem_append.mp hv with hv | hv
    · exact (pairwise_append.mp hreach).2.2 v hv x mem_cons_self
    · obtain rfl := mem_singleton.mp hv
      exact .refl
  constructor
  · intro v hv
    rw [mem_reverse] at hv
    simp only [mem_reverse]
    have hchain : (top :: segment).IsChain fun v w => Onward succ w v := by
      rw [hsplit] at h
      exact hseg ▸ h.left_of_append
    rw [hseg] at hv ⊢
    rcases mem_cons.mp hv with rfl | hv
    · refine ⟨x, ?_, hclose⟩
      rw [← hseg]
      simp
    · exact chain_next hchain hv
  · intro v hv
    rw [mem_reverse] at hv
    obtain ⟨init, hinit⟩ := List.getLast?_eq_some_iff.mp hlast
    have hmem : v ∈ init ++ [start] := by
      rw [← hinit, hsplit]
      exact mem_append_left _ hv
    rw [hinit] at hreach
    rcases mem_append.mp hmem with hv | hv
    · exact (pairwise_append.mp hreach).2.2 v hv start mem_cons_self
    · obtain rfl := mem_singleton.mp hv
      exact .refl
  · intro v hv
    rw [mem_reverse] at hv
    exact TransGen.trans_right (hup v hv) (TransGen.head' hclose (hfrom v hv))
  · exact hend

theorem Invariant.loopFrom (h : Invariant g nodes start done s) (hs : s.stack = f :: rest)
    (hedge : (g.out f.node)[f.next]? = some edge) (htgt : g.target edge = some target)
    (hgray : s.color.lookup target = some .gray) :
    LoopFrom g.succ start (cycleFrom ({ f with next := f.next + 1 } :: rest)
      ((s.depth.lookup target).getD 0) edge).participants := by
  obtain ⟨above, x, below, hsplit, rfl, hdepth⟩ := h.gray_split hs hgray (f.next + 1)
  have hlinked : Linked g ({ f with next := f.next + 1 } :: rest) :=
    Linked.advance (hs ▸ h.linked) _
  have hscan := Scanned.advance (hs ▸ h.scanned) hedge htgt
  have hdone := h.closed.not_endless
  have hmem : x.node ∈ ({ f with next := f.next + 1 } :: rest : List (Frame V E)).map
      Frame.node := by
    rw [hsplit]
    simp
  have hend : ∀ v ∈ ({ f with next := f.next + 1 } :: rest : List (Frame V E)).map Frame.node,
      Endless g.succ v := by
    intro v hv
    refine ⟨{ u | u ∈ ({ f with next := f.next + 1 } :: rest : List (Frame V E)).map
      Frame.node }, hv, fun u hu => ?_⟩
    rcases mem_cons.mp hu with rfl | hu
    · exact ⟨x.node, hmem, mem_succ.mpr ⟨edge, mem_of_getElem? hedge, htgt⟩⟩
    · exact hlinked.succ_mem hu
  have hclose : Onward g.succ f.node x.node := by
    refine onward_of_followed (f.next + 1) (hend _ hmem) hdone ?_ ⟨edge, ?_, htgt⟩
    · intro e he u hu
      exact (hscan.1 e he u hu).imp_right fun heq => (Option.some.inj heq).symm
    · rw [take_add_one, hedge]
      simp
  have hchain := hlinked.chain hscan hdone hend
  have hlast : (({ f with next := f.next + 1 } :: rest : List (Frame V E)).map
      Frame.node).getLast? = some start := by
    have hsome := List.getLast?_eq_some_getLast
      (cons_ne_nil { f with next := f.next + 1 } rest)
    rw [List.getLast?_map, hsome, Option.map_some, h.root_advance hs hsome]
  have htop : (above.map Frame.node ++ [x.node]).head? = some f.node := by
    cases above with
    | nil => rw [← (List.cons.inj hsplit).1]; rfl
    | cons y above => rw [← (List.cons.inj hsplit).1]; rfl
  have hstart := hend start (List.mem_of_getLast? hlast)
  rw [hdepth, Option.getD_some]
  rw [hsplit, map_append, map_cons] at hchain hlast
  rw [hsplit, cycleFrom_append]
  simp only [map_append, map_cons, map_nil]
  exact LoopFrom.of_chain hchain htop hclose hlast hstart

def cost (g : Digraph V E) (v : V) : ℕ := (g.out v).length + 1

def fresh (g : Digraph V E) (color : AList fun _ : V => Color) (nodes : List V) : ℕ :=
  (nodes.map fun v => if color.lookup v = none then cost g v else 0).sum

def pending (g : Digraph V E) (stack : List (Frame V E)) : ℕ :=
  (stack.map fun f => (g.out f.node).length - f.next + 1).sum

def fuelLeft (g : Digraph V E) (nodes : List V) (s : Search V E) : ℕ :=
  fresh g s.color nodes + pending g s.stack

theorem fresh_insert_le (color : AList fun _ : V => Color) (nodes : List V) (v : V) (c : Color) :
    fresh g (color.insert v c) nodes ≤ fresh g color nodes := by
  induction nodes with
  | nil => exact le_rfl
  | cons x nodes ih =>
    simp only [fresh, map_cons, sum_cons] at ih ⊢
    rw [AList.lookup_insert_if]
    by_cases hx : x = v
    · rw [if_pos hx, if_neg (by simp)]
      omega
    · rw [if_neg hx]
      omega

variable {color : AList fun _ : V => Color}

theorem fresh_insert_new {nodes : List V} (hv : v ∈ nodes)
    (hnew : color.lookup v = none) (c : Color) :
    fresh g (color.insert v c) nodes + cost g v ≤ fresh g color nodes := by
  induction nodes with
  | nil => cases hv
  | cons x nodes ih =>
    have hle := fresh_insert_le (g := g) color nodes v c
    simp only [fresh, map_cons, sum_cons] at ih hle ⊢
    rw [AList.lookup_insert_if]
    by_cases hx : x = v
    · rw [if_pos hx, if_neg (by simp), hx, if_pos hnew]
      omega
    · rw [if_neg hx]
      have := ih ((mem_cons.mp hv).resolve_left fun heq => hx heq.symm)
      omega

theorem fresh_lt_budget (color : AList fun _ : V => Color) (nodes : List V) :
    fresh g color nodes < budget g nodes := by
  induction nodes with
  | nil => exact Nat.zero_lt_one
  | cons x nodes ih =>
    simp only [fresh, budget, map_cons, sum_cons] at ih ⊢
    have hx : (if color.lookup x = none then cost g x else 0) ≤ (g.out x).length + 1 := by
      split
      · exact le_rfl
      · exact Nat.zero_le _
    omega

def Covers (g : Digraph V E) (nodes : List V) : Prop :=
  ∀ v, ∀ e ∈ g.out v, ∀ w, g.target e = some w → w ∈ nodes

structure Advanced (g : Digraph V E) (nodes : List V) (start : V) (s s' : Search V E) : Prop where
  invariant : ∃ done, Invariant g nodes start done s'
  colored : ∀ v, s.color.lookup v ≠ none → s'.color.lookup v ≠ none
  less : fuelLeft g nodes s' < fuelLeft g nodes s

theorem ne_none_insert {c : Color} (h : color.lookup w ≠ none) :
    (color.insert v c).lookup w ≠ none := by
  rw [AList.lookup_insert_if]
  split
  · simp
  · exact h

theorem step_going {s' : Search V E} (h : Invariant g nodes start done s) (hc : Covers g nodes)
    (hstep : step g s = .going s') : Advanced g nodes start s s' := by
  unfold step at hstep
  split at hstep
  · cases hstep
  · rename_i f rest hs
    have hfuel : fuelLeft g nodes s = fresh g s.color nodes +
        ((g.out f.node).length - f.next + 1 + pending g rest) := by
      rw [fuelLeft, hs, pending, map_cons, sum_cons, ← pending]
    split at hstep
    · rename_i hend
      cases hstep
      refine ⟨⟨_, h.pop hs hend⟩, fun v hv => ne_none_insert hv, ?_⟩
      have hle := fresh_insert_le (g := g) s.color nodes f.node .black
      rw [hfuel, fuelLeft]
      simp only [pop]
      omega
    · rename_i edge hedge
      have hnext : f.next < (g.out f.node).length := (List.getElem?_eq_some_iff.mp hedge).1
      have hskip : fuelLeft g nodes { s with stack := { f with next := f.next + 1 } :: rest } <
          fuelLeft g nodes s := by
        rw [hfuel, fuelLeft, pending, map_cons, sum_cons, ← pending]
        simp only
        omega
      simp only at hstep
      split at hstep
      · rename_i htgt
        cases hstep
        exact ⟨⟨_, h.skip hs hedge fun w hw => by simp [htgt] at hw⟩, fun v hv => hv, hskip⟩
      · rename_i target htgt
        split at hstep
        · rename_i hblack
          cases hstep
          refine ⟨⟨_, h.skip hs hedge fun w hw => ?_⟩, fun v hv => hv, hskip⟩
          obtain rfl : target = w := Option.some.inj (htgt.symm.trans hw)
          exact (h.black target).mp hblack
        · cases hstep
        · rename_i hnew
          cases hstep
          have hknown := hc f.node edge (mem_of_getElem? hedge) target htgt
          refine ⟨⟨_, h.push hs hedge htgt hnew hknown⟩, fun v hv => ne_none_insert hv, ?_⟩
          have hless := fresh_insert_new (g := g) hknown hnew .gray
          rw [hfuel, fuelLeft]
          simp only [push, pending, map_cons, sum_cons]
          simp only [cost] at hless
          omega

theorem step_found {c : Cycle V E} (h : Invariant g nodes start done s)
    (hstep : step g s = .found c) : IsCycle g c ∧ LoopFrom g.succ start c.participants := by
  unfold step at hstep
  split at hstep
  · cases hstep
  · rename_i f rest hs
    split at hstep
    · cases hstep
    · rename_i edge hedge
      simp only at hstep
      split at hstep
      · cases hstep
      · rename_i target htgt
        split at hstep
        · cases hstep
        · rename_i hgray
          cases hstep
          exact ⟨h.found hs hedge htgt hgray, h.loopFrom hs hedge htgt hgray⟩
        · cases hstep

theorem step_finished (hstep : step g s = .finished color) : s.stack = [] ∧ color = s.color := by
  unfold step at hstep
  split at hstep
  · rename_i hs
    cases hstep
    exact ⟨hs, rfl⟩
  · simp only at hstep
    repeat' split at hstep
    all_goals cases hstep

structure Settled (g : Digraph V E) (done : List V) (color : AList fun _ : V => Color) :
    Prop where
  black : ∀ v, color.lookup v = some .black ↔ v ∈ done
  gray : ∀ v, color.lookup v ≠ some .gray
  closed : Closed g done

theorem Settled.mem (h : Settled g done color) (hv : color.lookup v ≠ none) : v ∈ done := by
  rw [← h.black v]
  cases hc : color.lookup v with
  | none => exact absurd hc hv
  | some c =>
    cases c with
    | gray => exact absurd hc (h.gray v)
    | black => rfl

theorem Settled.startAt (h : Settled g done color) {start : V}
    (hnew : color.lookup start = none) (hknown : start ∈ nodes) :
    Invariant g nodes start done (startAt color start : Search V E) := by
  constructor
  · intro v
    simp only [DepthFirst.startAt, AList.lookup_insert_if]
    by_cases hv : v = start
    · subst hv
      have hd : v ∉ done := fun hd => by simp [(h.black v).mpr hd] at hnew
      simp [hd]
    · simp [hv, h.black v]
  · intro v
    simp only [DepthFirst.startAt, AList.lookup_insert_if]
    by_cases hv : v = start
    · simp [hv]
    · simp [hv, h.gray v]
  · simp [DepthFirst.startAt]
  · intro above x below heq
    simp only [DepthFirst.startAt] at heq ⊢
    cases above with
    | nil =>
      obtain ⟨rfl, rfl⟩ := List.cons.inj heq
      rw [AList.lookup_insert]
      rfl
    | cons y above =>
      obtain ⟨-, hrest⟩ := List.cons.inj heq
      simp at hrest
  · trivial
  · refine ⟨fun e he => ?_, trivial⟩
    simp at he
  · exact h.closed
  · intro x hx
    obtain rfl := mem_singleton.mp hx
    exact hknown
  · intro x hx
    obtain rfl := Option.some.inj hx
    rfl

def WalkEnds (g : Digraph V E) (start : V) (color : AList fun _ : V => Color) :
    Outcome (Search V E) V E → Prop
  | .going _ => False
  | .finished color' => (∃ done, Settled g done color') ∧
      ∀ v, color.lookup v ≠ none → color'.lookup v ≠ none
  | .found cycle => IsCycle g cycle ∧ LoopFrom g.succ start cycle.participants

theorem Invariant.settled (h : Invariant g nodes start done s) (hs : s.stack = []) :
    Settled g done s.color := by
  refine ⟨h.black, fun v hv => ?_, h.closed⟩
  rw [h.gray v, hs] at hv
  cases hv

variable {o : Outcome (Search V E) V E}

variable {color' : AList fun _ : V => Color}

theorem WalkEnds.trans
    (hmono : ∀ v, color.lookup v ≠ none → color'.lookup v ≠ none) (h : WalkEnds g start color' o) :
    WalkEnds g start color o := by
  cases o with
  | going s => exact h
  | finished last => exact ⟨h.1, fun v hv => h.2 v (hmono v hv)⟩
  | found cycle => exact h

theorem walk_ends (n : ℕ) (h : Invariant g nodes start done s) (hc : Covers g nodes)
    (hfuel : fuelLeft g nodes s < n) : WalkEnds g start s.color (walk g n s) := by
  induction n generalizing s done with
  | zero => exact absurd hfuel (Nat.not_lt_zero _)
  | succ n ih =>
    rw [walk]
    split
    · rename_i s' hstep
      have hadv := step_going h hc hstep
      obtain ⟨done', hinv⟩ := hadv.invariant
      have hless := hadv.less
      exact WalkEnds.trans hadv.colored (ih hinv (by omega))
    · rename_i color hstep
      obtain ⟨hs, rfl⟩ := step_finished hstep
      exact ⟨⟨done, h.settled hs⟩, fun v hv => hv⟩
    · rename_i cycle hstep
      exact step_found h hstep

theorem fuelLeft_startAt {start : V} (hnew : color.lookup start = none) (hknown : start ∈ nodes) :
    fuelLeft g nodes (startAt color start : Search V E) < budget g nodes := by
  have hless := fresh_insert_new (g := g) hknown hnew .gray
  have hbound := fresh_lt_budget (g := g) color nodes
  simp only [fuelLeft, startAt, pending, map_cons, map_nil, sum_cons,
    sum_nil]
  simp only [cost] at hless
  omega

/-- What a search may end with: the first loop, or colors in which every start is finished. -/
def SearchEnds (g : Digraph V E) (starts : List V) (color : AList fun _ : V => Color) :
    Outcome (Search V E) V E → Prop
  | .going _ => False
  | .finished color' => ∃ done, Settled g done color' ∧ (∀ v ∈ starts, v ∈ done) ∧
      ∀ v, color.lookup v ≠ none → color'.lookup v ≠ none
  | .found cycle => IsCycle g cycle ∧
      ∃ start, FirstEndless g.succ starts start ∧ LoopFrom g.succ start cycle.participants

theorem SearchEnds.cons
    (hmono : ∀ v, color.lookup v ≠ none → color'.lookup v ≠ none) (hset : Settled g done color')
    (hstart : color'.lookup start ≠ none) (h : SearchEnds g starts color' o) :
    SearchEnds g (start :: starts) color o := by
  cases o with
  | going s => exact h
  | found cycle =>
    obtain ⟨hcycle, first, ⟨before, after, hsplit, hend, hbef⟩, hloop⟩ := h
    refine ⟨hcycle, first, ⟨start :: before, after, by rw [hsplit]; rfl, hend, fun u hu => ?_⟩,
      hloop⟩
    rcases mem_cons.mp hu with rfl | hu
    · exact hset.closed.not_endless u (hset.mem hstart)
    · exact hbef u hu
  | finished last =>
    obtain ⟨done', hset', hmem, hlast⟩ := h
    refine ⟨done', hset', fun v hv => ?_, fun v hv => hlast v (hmono v hv)⟩
    rcases mem_cons.mp hv with rfl | hv
    · exact hset'.mem (hlast v hstart)
    · exact hmem v hv

/-- A search with enough fuel ends. It reports the first loop, or it has finished every
start. -/
theorem search_ends (hc : Covers g nodes)
    (hknown : ∀ v ∈ starts, v ∈ nodes) (h : Settled g done color) :
    SearchEnds g starts color (search g (budget g nodes) starts color) := by
  induction starts generalizing color done with
  | nil => exact ⟨done, h, fun v hv => absurd hv not_mem_nil, fun v hv => hv⟩
  | cons start starts ih =>
    have hstart : start ∈ nodes := hknown start mem_cons_self
    have hrest : ∀ v ∈ starts, v ∈ nodes := fun v hv => hknown v (mem_cons_of_mem _ hv)
    rw [search]
    split
    · rename_i c hcolor
      exact SearchEnds.cons (fun v hv => hv) h (by simp [hcolor]) (ih hrest h)
    · rename_i hnew
      have hwalk := walk_ends (budget g nodes) (h.startAt hnew hstart) hc
        (fuelLeft_startAt hnew hstart)
      split
      · rename_i s hgoing
        rw [hgoing] at hwalk
        exact hwalk
      · rename_i color' hfinished
        rw [hfinished] at hwalk
        obtain ⟨⟨done', hset⟩, hmono⟩ := hwalk
        refine SearchEnds.cons (fun v hv => hmono v (ne_none_insert hv)) hset (hmono start ?_)
          (ih hrest hset)
        simp [startAt]
      · rename_i cycle hfound
        rw [hfound] at hwalk
        obtain ⟨hcycle, hloop⟩ := hwalk
        exact ⟨hcycle, start, ⟨[], starts, rfl, hloop.endless, by simp⟩, hloop⟩

theorem Settled.empty : Settled g [] (∅ : AList fun _ : V => Color) :=
  ⟨fun v => by simp, fun v => by simp, trivial⟩

theorem search_found {cycle : Cycle V E} (hc : Covers g nodes) (hknown : ∀ v ∈ starts, v ∈ nodes)
    (hfound : search g (budget g nodes) starts ∅ = .found cycle) :
    IsCycle g cycle ∧ ∀ v, v ∈ cycle.participants ↔ OnLoop g.succ starts v := by
  have hends : SearchEnds g starts ∅ (search g (budget g nodes) starts ∅) :=
    search_ends hc hknown Settled.empty
  rw [hfound] at hends
  obtain ⟨hcycle, start, hfirst, hloop⟩ := hends
  obtain ⟨first, others, hcons, -⟩ := hcycle.trail
  exact ⟨hcycle, hloop.mem_iff hfirst (by simp [hcons])⟩

theorem search_found_of_endless (hc : Covers g nodes) (hknown : ∀ v ∈ starts, v ∈ nodes)
    (hstart : start ∈ starts) (hend : Endless g.succ start) :
    ∃ cycle, search g (budget g nodes) starts ∅ = .found cycle := by
  have hends : SearchEnds g starts ∅ (search g (budget g nodes) starts ∅) :=
    search_ends hc hknown Settled.empty
  cases hout : search g (budget g nodes) starts (∅ : AList fun _ : V => Color) with
  | going s =>
    rw [hout] at hends
    exact hends.elim
  | found cycle => exact ⟨cycle, rfl⟩
  | finished color =>
    rw [hout] at hends
    obtain ⟨done', hset, hmem, -⟩ := hends
    exact absurd hend (hset.closed.not_endless start (hmem start hstart))

theorem search_not_going (hc : Covers g nodes) (hknown : ∀ v ∈ starts, v ∈ nodes) (s : Search V E) :
    search g (budget g nodes) starts ∅ ≠ .going s := by
  intro hgoing
  have hends : SearchEnds g starts ∅ (search g (budget g nodes) starts ∅) :=
    search_ends hc hknown Settled.empty
  rw [hgoing] at hends
  exact hends

end DepthFirst
