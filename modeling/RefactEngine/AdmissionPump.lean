import RefactEngine.AdmissionIndexes

/-! # What one turn of the pump can do

`pumpTurn_spec` says once, for every consistent state, that the loop body does not panic
and either finds no lane or admits one waiting ticket. `Choice` says which ticket may be
taken, `Rotation` what becomes of the rotation, and `afterAdmission` is the state left
behind. Later results about the scheduler start from these and not from the loop body.
-/
namespace AdmissionScheduler

open WorkIdentity CoordinationSettings List

structure Accounting (s : State) : Prop where
  active : ActiveExact s.entries s.activeTotal s.activeByProject s.activeByRoot
  queue : QueueExact s.entries s.queue
  runs : RunsExact s.entries s.byRun
  roots : RootsExact s.entries s.roots

structure Consistent (s : State) : Prop extends Accounting s where
  sequenced : Sequenced s.entries s.nextId s.nextSeq

namespace State

def Waiting (s : State) (id : TicketId) (e : Entry) : Prop :=
  s.entries.lookup id = some e ∧ e.state = .pending ∧ s.fits e = true

def inLane (s : State) (root : CheckoutKey) (slot : Slot) : Bool :=
  match s.entries.lookup (ofLex slot).2 with
  | none => false
  | some e => e.state = .pending ∧ s.fits e ∧ e.scope.root = root

def lane (s : State) (root : CheckoutKey) : List Slot := s.queue.elems.filter (s.inLane root)

variable (s : State)

theorem pushLane_getElem? (lanes : Lanes) (slot : Slot) (root : CheckoutKey) :
    (s.pushLane lanes slot)[root]? =
      if s.inLane root slot then some ((lanes[root]?).getD [] ++ [slot]) else lanes[root]? := by
  unfold pushLane inLane
  cases hl : s.entries.lookup (ofLex slot).2 with
  | none => simp
  | some e =>
    by_cases hp : e.state = .pending ∧ s.fits e = true
    · by_cases hr : e.scope.root = root
      · subst hr; simp [hp]
      · simp [hp, hr, Std.TreeMap.getElem?_alter]
    · have hn : ¬ (e.state = .pending ∧ s.fits e = true ∧ e.scope.root = root) :=
        fun h => hp ⟨h.1, h.2.1⟩
      simp only [hp, if_false]
      simp [hn]

private theorem foldl_pushLane (s : State) (slots : List Slot) (lanes : Lanes)
    (root : CheckoutKey) :
    (slots.foldl s.pushLane lanes)[root]? =
      if slots.filter (s.inLane root) = [] then lanes[root]?
      else some ((lanes[root]?).getD [] ++ slots.filter (s.inLane root)) := by
  induction slots generalizing lanes with
  | nil => simp
  | cons slot slots ih =>
    rw [foldl_cons, ih, pushLane_getElem?]
    by_cases h : s.inLane root slot = true
    · have hc : (slot :: slots).filter (s.inLane root) =
          slot :: slots.filter (s.inLane root) := by simp [h]
      rw [hc, if_neg (cons_ne_nil _ _), if_pos h]
      by_cases hf : slots.filter (s.inLane root) = []
      · rw [if_pos hf, hf]
      · rw [if_neg hf]; simp
    · have hc : (slot :: slots).filter (s.inLane root) = slots.filter (s.inLane root) := by
        simp [h]
      rw [hc, if_neg h]

theorem lanes_getElem? (root : CheckoutKey) :
    s.lanes[root]? = if s.lane root = [] then none else some (s.lane root) := by
  rw [lanes, foldl_pushLane, lane]
  split_ifs <;> simp

theorem lanes_contains (root : CheckoutKey) :
    s.lanes.contains root = true ↔ s.lane root ≠ [] := by
  rw [Std.TreeMap.contains_eq_isSome_getElem?, lanes_getElem?]
  split_ifs with h <;> simp [h]

theorem mem_flat_lanes (slot : Slot) :
    slot ∈ s.lanes.toList.flatMap (·.2) ↔ ∃ root, slot ∈ s.lane root := by
  simp only [mem_flatMap, Prod.exists, Std.TreeMap.mem_toList_iff_getElem?_eq_some,
    lanes_getElem?]
  constructor
  · rintro ⟨root, lane, hl, hs⟩
    split_ifs at hl
    cases hl
    exact ⟨root, hs⟩
  · rintro ⟨root, hs⟩
    exact ⟨root, s.lane root, by rw [if_neg (ne_nil_of_mem hs)], hs⟩

variable {s : State}

variable {root : CheckoutKey} {slot : Slot}

theorem mem_lane (h : Consistent s) : slot ∈ s.lane root ↔
      ∃ e, s.Waiting (ofLex slot).2 e ∧ e.seq = (ofLex slot).1 ∧ e.scope.root = root := by
  have hq := h.queue (ofLex slot).1 (ofLex slot).2
  rw [lane, mem_filter, ← SortedSet.mem_def]
  constructor
  · rintro ⟨hm, hin⟩
    obtain ⟨e, he, hp, hs⟩ := hq.mp hm
    simp only [inLane, he, decide_eq_true_eq] at hin
    exact ⟨e, ⟨he, hp, hin.2.1⟩, hs, hin.2.2⟩
  · rintro ⟨e, ⟨he, hp, hf⟩, hs, hr⟩
    exact ⟨hq.mpr ⟨e, he, hp, hs⟩, by simp [inLane, he, hp, hf, hr]⟩

variable {e : Entry}

theorem Waiting.mem_lane (h : Consistent s) {id : TicketId} (hw : s.Waiting id e) :
    toLex (e.seq, id) ∈ s.lane e.scope.root :=
  (State.mem_lane h).mpr ⟨e, hw, rfl, rfl⟩

theorem seekRoot_spec (lanes : Lanes) (roots seen : List CheckoutKey) (credit : ℕ) :
    (∃ pre root post, roots = pre ++ root :: post ∧ (∀ r ∈ pre, lanes.contains r = false) ∧
      lanes.contains root = true ∧
      seekRoot lanes roots.length (roots ++ seen) credit =
        .ok (some root, root :: post ++ (seen ++ pre), if pre = [] then credit else 0)) ∨
    ((∀ r ∈ roots, lanes.contains r = false) ∧
      seekRoot lanes roots.length (roots ++ seen) credit =
        .ok (none, seen ++ roots, if roots = [] then credit else 0)) := by
  induction roots generalizing seen credit with
  | nil => exact .inr ⟨by simp, by simp [seekRoot]⟩
  | cons r roots ih =>
    by_cases hr : lanes.contains r = true
    · refine .inl ⟨[], r, roots, rfl, by simp, hr, ?_⟩
      simp [seekRoot, hr]
    · have hstep : seekRoot lanes (r :: roots).length (r :: roots ++ seen) credit =
          seekRoot lanes roots.length (roots ++ (seen ++ [r])) 0 := by
        simp [seekRoot, hr]
      rw [hstep]
      have hr' : lanes.contains r = false := Bool.eq_false_iff.mpr hr
      rcases ih (seen ++ [r]) 0 with ⟨pre, root, post, hs, hpre, hroot, heq⟩ | ⟨hnone, heq⟩
      · refine .inl ⟨r :: pre, root, post, by simp [hs], ?_, hroot, ?_⟩
        · intro x hx
          rcases mem_cons.mp hx with rfl | hx
          · exact hr'
          · exact hpre x hx
        · rw [heq]; simp
      · refine .inr ⟨?_, ?_⟩
        · intro x hx
          rcases mem_cons.mp hx with rfl | hx
          · exact hr'
          · exact hnone x hx
        · rw [heq]; simp

private theorem mapM_ok {α β : Type} {f : α → Except Panic β} {g : α → β} {l : List α}
    (h : ∀ x ∈ l, f x = .ok (g x)) : l.mapM f = .ok (l.map g) := by
  induction l with
  | nil => rfl
  | cons a l ih =>
    rw [mapM_cons, h a mem_cons_self,
      ih fun x hx => h x (mem_cons_of_mem _ hx)]
    rfl

theorem minByKey_spec {K : Type} [LinearOrder K] {key : Slot → Except Panic K} {k : Slot → K}
    {slots : List Slot} (h : ∀ x ∈ slots, key x = .ok (k x)) (hne : slots ≠ []) :
    ∃ m, minByKey key slots = .ok (some m) ∧ m ∈ slots ∧ ∀ x ∈ slots, k m ≤ k x := by
  have hkeyed : (slots.mapM fun slot => do return (slot, ← key slot)) =
      (.ok (slots.map fun x => (x, k x)) : Except Panic _) :=
    mapM_ok fun x hx => by rw [h x hx]; rfl
  cases harg : (slots.map fun x => (x, k x)).argmin Prod.snd with
  | none => exact absurd (by simpa using argmin_eq_none.mp harg) hne
  | some m =>
    obtain ⟨x, hx, hxm⟩ := mem_map.mp (argmin_mem harg)
    refine ⟨m.1, ?_, ?_, fun y hy => ?_⟩
    · rw [minByKey, hkeyed]
      simp [bind, Except.bind, harg, pure, Except.pure]
    · rw [← hxm]; exact hx
    · have := le_of_mem_argmin (mem_map.mpr ⟨y, hy, rfl⟩) harg
      rw [← hxm] at this ⊢
      exact this

theorem naturalSlot_spec (h : Consistent s) (hl : s.lane root ≠ [])
    (fairnessTurn : Bool) : ∃ slot e, s.naturalSlot (s.lane root) fairnessTurn = .ok slot ∧
      s.Waiting (ofLex slot).2 e ∧ e.seq = (ofLex slot).1 ∧ e.scope.root = root ∧
      (fairnessTurn = true → ∀ id x, s.Waiting id x → x.scope.root = root →
        e.readySeq ≤ x.readySeq) ∧
      (fairnessTurn = false → ∀ id x, s.Waiting id x → x.scope.root = root →
        e.seq ≤ x.seq) := by
  cases fairnessTurn with
  | true =>
    let ready : Slot → ℕ := fun slot =>
      ((s.entries.lookup (ofLex slot).2).map Entry.readySeq).getD 0
    have hkey : ∀ slot ∈ s.lane root, s.readySeqOf slot = .ok (ready slot) := by
      intro slot hm
      obtain ⟨e, ⟨he, -⟩, -⟩ := (mem_lane h).mp hm
      simp [readySeqOf, entry, he, ready, bind, Except.bind, pure, Except.pure]
    obtain ⟨slot, heq, hm, hmin⟩ := minByKey_spec hkey hl
    obtain ⟨e, hw, hs, hr⟩ := (mem_lane h).mp hm
    refine ⟨slot, e, ?_, hw, hs, hr, fun _ id x hx hxr => ?_, by simp⟩
    · simp [naturalSlot, heq, unwrap, bind, Except.bind]
    · have hlane : toLex (x.seq, id) ∈ s.lane root := hxr ▸ hx.mem_lane h
      simpa [ready, hw.1, hx.1] using hmin _ hlane
  | false =>
    obtain ⟨slot, rest, hcons⟩ := exists_cons_of_ne_nil hl
    obtain ⟨e, hw, hs, hr⟩ := (mem_lane h).mp (hcons ▸ mem_cons_self)
    refine ⟨slot, e, ?_, hw, hs, hr, by simp, fun _ id x hx hxr => ?_⟩
    · simp [naturalSlot, hcons, unwrap]
    · have hlane : toLex (x.seq, id) ∈ s.lane root := hxr ▸ hx.mem_lane h
      obtain ⟨hq, hin⟩ := mem_filter.mp hlane
      have hle := SortedSet.head_filter_le hcons hq hin
      have := Prod.Lex.le_iff.mp hle
      simp only [ofLex_toLex] at this
      omega

theorem preemption_spec (h : Consistent s) {natural : Slot}
    (hn : s.Waiting (ofLex natural).2 e) (fairnessTurn : Bool) :
    (s.preemption s.lanes natural fairnessTurn = .ok none ∧
      (fairnessTurn = true ∨ s.settings.maxPriorityBurst ≤ s.priorityBurst ∨
        ∀ id x, s.Waiting id x → ¬ x.priority < e.priority)) ∨
    ∃ slot x, s.preemption s.lanes natural fairnessTurn = .ok (some slot) ∧
      fairnessTurn = false ∧ s.priorityBurst < s.settings.maxPriorityBurst ∧
      s.Waiting (ofLex slot).2 x ∧ x.seq = (ofLex slot).1 ∧ x.priority < e.priority ∧
      ∀ id y, s.Waiting id y →
        toLex (x.priority.rank, x.seq) ≤ toLex (y.priority.rank, y.seq) := by
  by_cases hoff : fairnessTurn = true ∨ s.priorityBurst ≥ s.settings.maxPriorityBurst
  · refine .inl ⟨?_, hoff.elim .inl fun hb => .inr (.inl hb)⟩
    simp only [preemption, hoff, if_true]
    rfl
  · obtain ⟨hf, hb⟩ := not_or.mp hoff
    let urgency : Slot → ℕ ×ₗ ℕ := fun slot =>
      toLex (((s.entries.lookup (ofLex slot).2).map fun x => x.priority.rank).getD 0,
        (ofLex slot).1)
    have hmem : ∀ id x, s.Waiting id x →
        toLex (x.seq, id) ∈ s.lanes.toList.flatMap (·.2) := fun id x hx =>
      (mem_flat_lanes s _).mpr ⟨x.scope.root, hx.mem_lane h⟩
    have hkey : ∀ slot ∈ s.lanes.toList.flatMap (·.2),
        s.urgencyOf slot = .ok (urgency slot) := by
      intro slot hm
      obtain ⟨root, hroot⟩ := (mem_flat_lanes s slot).mp hm
      obtain ⟨x, ⟨hx, -⟩, -⟩ := (mem_lane h).mp hroot
      simp [urgencyOf, entry, hx, urgency, bind, Except.bind, pure, Except.pure]
    obtain ⟨slot, heq, hm, hmin⟩ := minByKey_spec hkey (ne_nil_of_mem (hmem _ _ hn))
    obtain ⟨root, hroot⟩ := (mem_flat_lanes s slot).mp hm
    obtain ⟨x, hx, hxs, -⟩ := (mem_lane h).mp hroot
    have hleast : ∀ id y, s.Waiting id y →
        toLex (x.priority.rank, x.seq) ≤ toLex (y.priority.rank, y.seq) := by
      intro id y hy
      have := hmin _ (hmem id y hy)
      simpa [urgency, hx.1, hy.1, hxs] using this
    have hcompute : s.preemption s.lanes natural fairnessTurn =
        .ok (if x.priority < e.priority then some slot else none) := by
      simp only [preemption, hoff, if_false, heq, bind, Except.bind, entry, hx.1, hn.1]
      split_ifs <;> rfl
    by_cases hlt : x.priority < e.priority
    · exact .inr ⟨slot, x, by rw [hcompute, if_pos hlt], by simpa using hf,
        not_le.mp hb, hx, hxs, hlt, hleast⟩
    · refine .inl ⟨by rw [hcompute, if_neg hlt], .inr (.inr fun id y hy hlty => hlt ?_)⟩
      have := Prod.Lex.le_iff.mp (hleast id y hy)
      rw [WorkPriority.lt_def] at hlty ⊢
      simp only [ofLex_toLex] at this
      omega

def keptCredit (s : State) (passed : List CheckoutKey) : ℕ :=
  if passed = [] then s.rootCredit else 0

def afterAdmission (s : State) (a : Admission) (e : Entry) (roots : List CheckoutKey)
    (credit : ℕ) (last : Option CheckoutKey) : State :=
  { s with
    entries := s.entries.insert a.id { e with state := .active, waiter := none }
    queue := s.queue.erase (toLex (e.seq, a.id))
    activeTotal := s.activeTotal + 1
    activeByProject := s.activeByProject.bump e.scope.project
    activeByRoot := s.activeByRoot.bump e.scope.root
    lastRoot := last
    roots := roots
    rootCredit := credit
    resumeBurst :=
      if !a.fairnessTurn && 0 < e.parkCount then
        s.resumeBurst.insert a.root ((s.resumeBurst.lookup a.root).getD 0 + 1)
      else s.resumeBurst.erase a.root
    priorityBurst := if a.preempting then s.priorityBurst + 1 else 0
    channels := conclude s.channels e.waiter (.sent (.ok ())) }

structure Choice (s : State) (a : Admission) (e : Entry) : Prop where
  waiting : s.Waiting a.id e
  root : a.root = e.scope.root
  fairness : a.fairnessTurn = s.fairnessTurnOf a.turnRoot
  natural_root : a.preempting = false → a.root = a.turnRoot
  first_ready : a.preempting = false → a.fairnessTurn = true →
    ∀ id x, s.Waiting id x → x.scope.root = a.turnRoot → e.readySeq ≤ x.readySeq
  oldest : a.preempting = false → a.fairnessTurn = false →
    ∀ id x, s.Waiting id x → x.scope.root = a.turnRoot → e.seq ≤ x.seq
  undisputed : a.preempting = false → a.fairnessTurn = true ∨
    s.settings.maxPriorityBurst ≤ s.priorityBurst ∨
    ∀ id x, s.Waiting id x → ¬ x.priority < e.priority
  preempts : a.preempting = true →
    a.fairnessTurn = false ∧ s.priorityBurst < s.settings.maxPriorityBurst
  most_urgent : a.preempting = true → ∀ id x, s.Waiting id x →
    toLex (e.priority.rank, e.seq) ≤ toLex (x.priority.rank, x.seq)
  outranks : a.preempting = true → ∃ id x, s.Waiting id x ∧ x.scope.root = a.turnRoot ∧
    e.priority < x.priority

/-- What a turn does to the rotation: roots without a lane move to the tail, and a natural
turn spends a credit of the root it serves. -/
structure Rotation (s : State) (a : Admission) (pre post : List CheckoutKey) (s' : State) :
    Prop where
  split : s.roots = pre ++ a.turnRoot :: post
  passed : ∀ r ∈ pre, s.lane r = []
  turn : s.lane a.turnRoot ≠ []
  preempting : a.preempting = true → s'.roots = a.turnRoot :: (post ++ pre) ∧
    s'.rootCredit = s.keptCredit pre ∧ s'.lastRoot = s.lastRoot
  natural : a.preempting = false →
    s'.rootCredit = s.turnCredit a.turnRoot (s.keptCredit pre) - 1 ∧
    s'.lastRoot = some a.turnRoot ∧
    s'.roots = if s.turnCredit a.turnRoot (s.keptCredit pre) - 1 = 0
      then post ++ pre ++ [a.turnRoot] else a.turnRoot :: (post ++ pre)

structure AdmitStep (s : State) (a : Admission) (e : Entry) (s' : State) : Prop where
  choice : Choice s a e
  rotation : ∃ pre post, Rotation s a pre post s'
  effect : s' = s.afterAdmission a e s'.roots s'.rootCredit s'.lastRoot

structure BreakStep (s s' : State) : Prop where
  no_lane : ∀ r ∈ s.roots, s.lane r = []
  effect : s' = { s with rootCredit := if s.roots = [] then s.rootCredit else 0 }

private theorem spendCredit_spec (rest : List CheckoutKey)
    (hroots : s.roots = root :: rest) : s.spendCredit root = .ok { s with
      lastRoot := some root
      rootCredit := s.turnCredit root s.rootCredit - 1
      roots := if s.turnCredit root s.rootCredit - 1 = 0 then rest ++ [root]
        else root :: rest } := by
  change (if s.turnCredit root s.rootCredit - 1 = 0 then _ else _) = _
  split_ifs with h
  · rw [h, hroots]; rfl
  · rw [← hroots]; rfl

theorem admit_spec (turnRoot : CheckoutKey) (fairnessTurn preempting : Bool)
    {rest : List CheckoutKey} (he : s.entries.lookup (ofLex slot).2 = some e)
    (hs : e.seq = (ofLex slot).1) (hroots : s.roots = turnRoot :: rest)
    (hnat : preempting = false → e.scope.root = turnRoot) :
    ∃ s' a, s.admitSlot turnRoot fairnessTurn slot preempting = .ok (s', a) ∧
      a = ⟨(ofLex slot).2, e.scope.root, turnRoot, fairnessTurn, preempting⟩ ∧
      s' = s.afterAdmission a e s'.roots s'.rootCredit s'.lastRoot ∧
      (preempting = true → s'.roots = s.roots ∧ s'.rootCredit = s.rootCredit ∧
        s'.lastRoot = s.lastRoot) ∧
      (preempting = false → s'.rootCredit = s.turnCredit turnRoot s.rootCredit - 1 ∧
        s'.lastRoot = some turnRoot ∧
        s'.roots = if s.turnCredit turnRoot s.rootCredit - 1 = 0 then rest ++ [turnRoot]
          else turnRoot :: rest) := by
  have hslot : toLex (e.seq, (ofLex slot).2) = slot := by rw [hs]; rfl
  cases preempting with
  | true =>
    by_cases hb : (!fairnessTurn && decide (0 < e.parkCount)) = true
    all_goals
      refine ⟨_, _, by
        simp only [admitSlot, entry, he, bind, Except.bind, pure, Except.pure, spendBurst, hb,
          if_true]
        rfl, rfl, ?_, ?_, by simp⟩
      · simp [charge, activate, he, afterAdmission, hb, hslot]
      · simp [charge, activate, he]
  | false =>
    obtain rfl := hnat rfl
    by_cases hb : (!fairnessTurn && decide (0 < e.parkCount)) = true
    all_goals
      refine ⟨_, _, by
        simp only [admitSlot, entry, he, bind, Except.bind, pure, Except.pure, spendBurst, hb,
          if_true, Bool.false_eq_true, if_false]
        rw [spendCredit_spec rest (by exact hroots)], rfl, ?_, by simp, ?_⟩
      · simp [charge, activate, he, afterAdmission, hb, hslot]
      · simp only [charge, activate, he]
        exact fun _ => ⟨rfl, trivial, rfl⟩

private theorem pumpTurn_admits {s' : State} {roots : List CheckoutKey}
    {credit : ℕ} {lane : List Slot} {natural : Slot} {urgent : Option Slot} {a : Admission}
    (hseek : seekRoot s.lanes s.roots.length s.roots s.rootCredit = .ok (some root, roots, credit))
    (hlane : laneOf s.lanes root = .ok lane)
    (hnat : s.naturalSlot lane (s.fairnessTurnOf root) = .ok natural)
    (hurg : s.preemption s.lanes natural (s.fairnessTurnOf root) = .ok urgent)
    (hadm : ({ s with roots := roots, rootCredit := credit } : State).admitSlot root
      (s.fairnessTurnOf root) (urgent.getD natural) urgent.isSome = .ok (s', a)) :
    s.pumpTurn = .ok (s', some a) := by
  simp only [pumpTurn, hseek, bind, Except.bind, hlane]
  have hnat' : ({ s with roots := roots, rootCredit := credit } : State).naturalSlot lane
      (({ s with roots := roots, rootCredit := credit } : State).fairnessTurnOf root) =
      .ok natural := hnat
  have hurg' : ({ s with roots := roots, rootCredit := credit } : State).preemption s.lanes
      natural (({ s with roots := roots, rootCredit := credit } : State).fairnessTurnOf root) =
      .ok urgent := hurg
  have hadm' : ({ s with roots := roots, rootCredit := credit } : State).admitSlot root
      (({ s with roots := roots, rootCredit := credit } : State).fairnessTurnOf root)
      (urgent.getD natural) urgent.isSome = .ok (s', a) := hadm
  simp only [hnat', hurg', hadm']
  rfl

/-- The loop body never panics on a consistent state, and it breaks or admits. -/
theorem pumpTurn_spec (h : Consistent s) : (∃ s', s.pumpTurn = .ok (s', none) ∧ BreakStep s s') ∨
    ∃ s' a e, s.pumpTurn = .ok (s', some a) ∧ AdmitStep s a e s' := by
  have nolane : ∀ r, s.lanes.contains r = false → s.lane r = [] := by
    intro r hr
    by_contra hne
    rw [(lanes_contains s r).mpr hne] at hr
    cases hr
  rcases seekRoot_spec s.lanes s.roots [] s.rootCredit with
    ⟨pre, root, post, hsplit, hpre, hroot, hseek⟩ | ⟨hnone, hseek⟩
  · right
    simp only [append_nil, nil_append, cons_append] at hseek
    have hl : s.lane root ≠ [] := (lanes_contains s root).mp hroot
    have hlane : laneOf s.lanes root = .ok (s.lane root) := by
      simp [laneOf, lanes_getElem?, hl]
    obtain ⟨natural, e, hnat, hw, hseq, hr, hready, hold⟩ :=
      naturalSlot_spec h hl (s.fairnessTurnOf root)
    have hpass : ∀ r ∈ pre, s.lane r = [] := fun r hr => nolane r (hpre r hr)
    rcases preemption_spec h hw (s.fairnessTurnOf root) with ⟨hurg, hundisputed⟩ |
      ⟨slot, x, hurg, hf, hb, hx, hxs, hlt, hleast⟩
    · obtain ⟨s', a, hadm, ha, heff, -, hcredit⟩ :=
        admit_spec (s := { s with roots := root :: (post ++ pre), rootCredit := _ })
          root (s.fairnessTurnOf root) false hw.1 hseq rfl fun _ => hr
      refine ⟨s', a, e, pumpTurn_admits hseek hlane hnat hurg hadm, ?_⟩
      subst ha
      obtain ⟨hc, hlast, hroots⟩ := hcredit rfl
      exact {
        choice := ⟨hw, rfl, rfl, fun _ => hr, fun _ => hready, fun _ => hold,
          fun _ => hundisputed, by simp, by simp, by simp⟩
        rotation := ⟨pre, post, hsplit, hpass, hl, by simp, fun _ => ⟨hc, hlast, hroots⟩⟩
        effect := heff }
    · obtain ⟨s', a, hadm, ha, heff, hkeep, -⟩ :=
        admit_spec (s := { s with roots := root :: (post ++ pre), rootCredit := _ })
          root (s.fairnessTurnOf root) true hx.1 hxs rfl (by simp)
      refine ⟨s', a, x, pumpTurn_admits hseek hlane hnat hurg hadm, ?_⟩
      subst ha
      exact {
        choice := ⟨hx, rfl, rfl, by simp, by simp, by simp, by simp, fun _ => ⟨hf, hb⟩,
          fun _ => hleast, fun _ => ⟨_, e, hw, hr, hlt⟩⟩
        rotation := ⟨pre, post, hsplit, hpass, hl, fun _ => hkeep rfl, by simp⟩
        effect := heff }
  · left
    simp only [append_nil, nil_append] at hseek
    refine ⟨{ s with rootCredit := if s.roots = [] then s.rootCredit else 0 }, ?_,
      fun r hr => nolane r (hnone r hr), rfl⟩
    simp only [pumpTurn, hseek, bind, Except.bind]
    rfl

end State

end AdmissionScheduler
