import RefactEngine.AdmissionResumeFairness
import Mathlib.Algebra.Order.BigOperators.Group.Finset

/-! # Fair share across roots and classes

Urgency may take the turn only so many times in a row, and the rotation serves every root
that stands ahead of a waiting one at most a quantum before it. `allowance` is what is left
of that quantum: it never grows while the root waits, however the rotation changes.
-/
namespace AdmissionScheduler

open WorkIdentity CoordinationSettings State List

def admissions (turns : List Turn) : List Admission := turns.filterMap (·.admitted)

inductive Bursts (cap : ℕ) : ℕ → List Admission → Prop where
  | nil (b) : Bursts cap b []
  | preempting {b a l} : a.preempting = true → b < cap → Bursts cap (b + 1) l →
      Bursts cap b (a :: l)
  | natural {b a l} : a.preempting = false → Bursts cap 0 l → Bursts cap b (a :: l)

variable {block : List Admission}

theorem Bursts.length_le {cap b : ℕ} {l : List Admission} (h : Bursts cap b l)
    (hblock : block <+: l) (hall : ∀ a ∈ block, a.preempting = true) : block.length ≤ cap - b := by
  induction h generalizing block with
  | nil => simp [prefix_nil.mp hblock]
  | @preempting b a l _ hb _ ih =>
    cases block with
    | nil => simp
    | cons c block =>
      obtain ⟨-, hblock⟩ := cons_prefix_cons.mp hblock
      have := ih hblock fun x hx => hall x (mem_cons_of_mem _ hx)
      simp only [length_cons]
      omega
  | @natural b a l hp _ _ =>
    cases block with
    | nil => simp
    | cons c block =>
      obtain ⟨rfl, -⟩ := cons_prefix_cons.mp hblock
      rw [hall c mem_cons_self] at hp
      cases hp

theorem Bursts.infix_length_le {cap b : ℕ} {l : List Admission} (h : Bursts cap b l)
    (hblock : block <:+: l) (hall : ∀ a ∈ block, a.preempting = true) : block.length ≤ cap := by
  induction h with
  | nil => simp [infix_nil.mp hblock]
  | @preempting b a l hp hb hl ih =>
    rcases infix_cons_iff.mp hblock with hpre | hin
    · exact ((Bursts.preempting hp hb hl).length_le hpre hall).trans (Nat.sub_le _ _)
    · exact ih hin
  | @natural b a l hp hl ih =>
    have hfull : Bursts cap b (a :: l) := .natural hp hl
    rcases infix_cons_iff.mp hblock with hpre | hin
    · exact (hfull.length_le hpre hall).trans (Nat.sub_le _ _)
    · exact ih hin

theorem Bursts.length_bound {cap b : ℕ} {l : List Admission} (h : Bursts cap b l) :
    l.length ≤ (l.countP fun a => !a.preempting) * (cap + 1) + (cap - b) := by
  induction h with
  | nil => simp
  | preempting hp hb _ ih =>
    simp only [length_cons, countP_cons, hp, Bool.not_true, Bool.false_eq_true,
      if_false, Nat.add_zero]
    omega
  | @natural b a l hp _ ih =>
    simp only [length_cons, countP_cons, hp, Bool.not_false, if_true, Nat.succ_mul]
    omega

variable {s' : State}

theorem Bursts.turns {s : State} {turns : List Turn} (h : Turns s turns s') {more : List Admission}
    (hmore : Bursts s.settings.maxPriorityBurst s'.priorityBurst more) :
    Bursts s.settings.maxPriorityBurst s.priorityBurst (admissions turns ++ more) := by
  induction h with
  | full => simpa [admissions] using hmore
  | idle _ hb =>
    rw [hb.effect] at hmore
    simpa [admissions] using hmore
  | @admits s s₁ s₂ a x turns _ ha _ ih =>
    have hset := AdmitStep.settings ha
    have hburst : s₁.priorityBurst = if a.preempting then s.priorityBurst + 1 else 0 := by
      rw [ha.effect]; rfl
    rw [hset] at ih
    have hrest := ih hmore
    rw [hburst] at hrest
    cases hp : a.preempting with
    | true =>
      rw [hp, if_pos rfl] at hrest
      exact .preempting hp (ha.choice.preempts hp).2 hrest
    | false =>
      rw [hp, if_neg (by simp)] at hrest
      exact .natural hp hrest

theorem evict_priorityBurst (s : State) :
    s.evictParkedOverResidency.priorityBurst = s.priorityBurst := by
  obtain ⟨entries, heq, -⟩ := relabelled_evict s
  rw [heq]

variable {op : Op}

theorem State.Edit.priorityBurst {s s₁ : State} (h : Edit s op s₁) :
    s₁.priorityBurst = s.priorityBurst := by
  cases h with
  | wait => rfl
  | park => rw [evict_priorityBurst]; rfl
  | remove => simp only [settle, forgetRoot]; split_ifs <;> rfl
  | configure => rw [evict_priorityBurst]; rfl

theorem State.Quiet.priorityBurst {s : State} (h : Quiet s op s') :
    s'.priorityBurst = s.priorityBurst := by
  cases h <;> rfl

theorem State.Edit.settings {s s₁ : State} (h : Edit s op s₁)
    (hop : ∀ settings, op ≠ .configure settings) : s₁.settings = s.settings := by
  cases h with
  | wait => rfl
  | park => rw [evict_settings]; rfl
  | remove => simp [settle, erased]
  | configure => exact absurd rfl (hop _)

theorem Bursts.execution {s : State} {ops : List Op} {turns : List Turn}
    (h : Execution s ops turns s') (hops : ∀ op ∈ ops, ∀ settings, op ≠ .configure settings) :
    Bursts s.settings.maxPriorityBurst s.priorityBurst (admissions turns) := by
  induction h with
  | nil => exact .nil _
  | @cons s s₁ s₂ op ops turns more hp _ ih =>
    have hset := hp.settings (hops _ mem_cons_self)
    have hrest := ih fun op hm => hops op (mem_cons_of_mem _ hm)
    rw [hset] at hrest
    rw [admissions, filterMap_append]
    cases hp with
    | quiet hq => rw [hq.priorityBurst] at hrest; exact hrest
    | pumped he ht =>
      have hset' := he.settings (hops _ mem_cons_self)
      rw [← he.priorityBurst, ← hset']
      rw [← hset'] at hrest
      exact Bursts.turns ht hrest

def ahead (roots : List CheckoutKey) (root : CheckoutKey) : List CheckoutKey :=
  roots.takeWhile fun r => decide (r ≠ root)

variable {root r : CheckoutKey} {roots : List CheckoutKey}

theorem mem_ahead (h : r ∈ ahead roots root) : r ∈ roots ∧ r ≠ root :=
  ⟨( takeWhile_prefix _).subset h, by
    simpa using all_eq_true.mp all_takeWhile r h⟩

variable {pre : List CheckoutKey} (rest : List CheckoutKey)

theorem ahead_append_right (h : root ∉ pre) :
    ahead (pre ++ rest) root = pre ++ ahead rest root := by
  refine takeWhile_append_of_pos fun r hr => ?_
  simp only [decide_eq_true_eq]
  rintro rfl
  exact h hr

theorem ahead_append_left (h : root ∈ roots) : ahead (roots ++ rest) root = ahead roots root := by
  induction roots with
  | nil => cases h
  | cons x roots ih =>
    by_cases hx : x = root
    · subst hx
      simp [ahead]
    · have hmem : root ∈ roots := (mem_cons.mp h).resolve_left (Ne.symm hx)
      simp only [cons_append, ahead, takeWhile_cons, ne_eq, hx, not_false_iff,
        decide_true, if_true]
      exact congrArg (x :: ·) (ih hmem)

theorem ahead_cons_self (root : CheckoutKey) (rest : List CheckoutKey) :
    ahead (root :: rest) root = [] := by
  simp [ahead]

theorem ahead_cons_ne (h : r ≠ root) (rest : List CheckoutKey) :
    ahead (r :: rest) root = r :: ahead rest root := by
  simp [ahead, h]

theorem ahead_filter (h : r ≠ root) (roots : List CheckoutKey) :
    ahead (roots.filter (· ≠ r)) root = (ahead roots root).filter (· ≠ r) := by
  induction roots with
  | nil => rfl
  | cons x roots ih =>
    by_cases hx : x = root
    · subst hx
      simp [ahead, Ne.symm h]
    · by_cases hr : x = r
      · subst hr
        rw [ahead_cons_ne hx]
        simpa using ih
      · rw [ahead_cons_ne hx]
        simp only [filter_cons, ne_eq, hr, not_false_iff, decide_true, if_true]
        rw [ahead_cons_ne hx]
        exact congrArg (x :: ·) ih

/-- The root at the front may be spending a credit; any other root ahead has its quantum. -/
def allowance (s : State) (root r : CheckoutKey) : ℕ :=
  if r ∈ ahead s.roots root then
    if s.roots.head? = some r ∧ s.lastRoot = some r ∧ s.rootCredit ≠ 0 then s.rootCredit
    else max 1 (s.settings.rootQuantum r)
  else 0

/-- Between two configurations the credit is part of the quantum of the last root served. -/
def CreditBounded (s : State) : Prop :=
  ∀ r, s.lastRoot = some r → s.rootCredit ≤ s.settings.rootQuantum r

theorem allowance_le {s : State} (h : CreditBounded s) (root r : CheckoutKey) :
    allowance s root r ≤ if r ∈ ahead s.roots root then max 1 (s.settings.rootQuantum r)
      else 0 := by
  unfold allowance
  split_ifs with hr hc
  · exact (h r hc.2.1).trans (le_max_right _ _)
  · exact le_refl _
  · exact le_refl _

theorem turnCredit_le {s : State} (h : CreditBounded s) (root : CheckoutKey)
    (pre : List CheckoutKey) :
    s.turnCredit root (s.keptCredit pre) ≤ s.settings.rootQuantum root := by
  have hkept : s.keptCredit pre ≤ s.rootCredit := by
    unfold keptCredit
    split_ifs
    · exact le_refl _
    · exact Nat.zero_le _
  unfold turnCredit
  split_ifs with hc
  · exact le_refl _
  · obtain ⟨hlast, -⟩ := not_or.mp hc
    exact hkept.trans (h root (not_not.mp hlast))

theorem CreditBounded.admits {s : State} {a : Admission} {x : Entry} (h : CreditBounded s)
    (ha : AdmitStep s a x s') : CreditBounded s' := by
  intro r hr
  obtain ⟨pre, post, hrot⟩ := ha.rotation
  rw [AdmitStep.settings ha]
  cases hp : a.preempting with
  | true =>
    obtain ⟨-, hcredit, hlast⟩ := hrot.preempting hp
    rw [hlast] at hr
    rw [hcredit, keptCredit]
    split_ifs
    · exact h r hr
    · exact Nat.zero_le _
  | false =>
    obtain ⟨hcredit, hlast, -⟩ := hrot.natural hp
    rw [hlast] at hr
    obtain rfl := Option.some.inj hr
    rw [hcredit]
    exact (Nat.sub_le _ _).trans (turnCredit_le h _ _)

theorem CreditBounded.turns {s : State} {turns : List Turn} (ht : Turns s turns s')
    (h : CreditBounded s) : CreditBounded s' ∧ ∀ turn ∈ turns, CreditBounded turn.before := by
  induction ht with
  | full => exact ⟨h, by simp⟩
  | idle _ hb =>
    refine ⟨?_, by simpa using h⟩
    rw [hb.effect]
    intro r hr
    simp only
    split_ifs
    · exact h r hr
    · exact Nat.zero_le _
  | admits _ ha _ ih =>
    obtain ⟨hlast, hrest⟩ := ih (h.admits ha)
    refine ⟨hlast, fun turn hm => ?_⟩
    rcases mem_cons.mp hm with rfl | hm
    · exact h
    · exact hrest turn hm

def RootWaits (s : State) (root : CheckoutKey) : Prop :=
  ∃ id e, s.Waiting id e ∧ e.scope.root = root

theorem RootWaits.lane {s : State} (hs : Consistent s) (h : RootWaits s root) :
    s.lane root ≠ [] := by
  obtain ⟨id, e, hw, rfl⟩ := h
  exact ne_nil_of_mem (hw.mem_lane hs)

theorem naturalTurn_admits {s : State} {a : Admission} {x : Entry} (ha : AdmitStep s a x s')
    (r : CheckoutKey) : naturalTurn r ⟨s, some a⟩ = true ↔
      a.preempting = false ∧ a.turnRoot = r := by
  simp only [naturalTurn, Bool.and_eq_true, Bool.not_eq_true', decide_eq_true_eq]
  constructor
  · rintro ⟨hp, hr⟩
    exact ⟨hp, (ha.choice.natural_root hp).symm.trans hr⟩
  · rintro ⟨hp, hr⟩
    exact ⟨hp, (ha.choice.natural_root hp).trans hr⟩

variable {post : List CheckoutKey}

theorem ahead_admits {s : State} {a : Admission} (hrot : Rotation s a pre post s')
    (hmem : root ∈ s.roots) (hlane : s.lane root ≠ []) (hturn : a.turnRoot ≠ root) :
    ahead s.roots root = pre ++ a.turnRoot :: ahead post root ∧
      (ahead s'.roots root = ahead post root ∨
        ahead s'.roots root = a.turnRoot :: ahead post root) := by
  have hpre : root ∉ pre := fun h => hlane (hrot.passed root h)
  have hpost : root ∈ post := by
    rw [hrot.split] at hmem
    rcases mem_append.mp hmem with h | h
    · exact absurd h hpre
    · exact (mem_cons.mp h).resolve_left (Ne.symm hturn)
  have hfront : ahead (a.turnRoot :: (post ++ pre)) root = a.turnRoot :: ahead post root := by
    rw [ahead_cons_ne hturn, ahead_append_left _ hpost]
  refine ⟨by rw [hrot.split, ahead_append_right _ hpre, ahead_cons_ne hturn], ?_⟩
  cases hp : a.preempting with
  | true => rw [(hrot.preempting hp).1]; exact .inr hfront
  | false =>
    rw [(hrot.natural hp).2.2]
    split_ifs
    · rw [append_assoc, ahead_append_left _ hpost]
      exact .inl rfl
    · exact .inr hfront

theorem allowance_pos {s : State} (h : r ∈ ahead s.roots root) : 1 ≤ allowance s root r := by
  unfold allowance
  split_ifs with hc
  · exact Nat.one_le_iff_ne_zero.mpr hc.2.2
  · exact le_max_left _ _

theorem allowance_not_front {s : State} (hr : r ∈ ahead s.roots root) (h : s.roots.head? ≠ some r) :
    allowance s root r = max 1 (s.settings.rootQuantum r) := by
  unfold allowance
  rw [if_pos hr, if_neg fun hc => h hc.1]

theorem allowance_le_quantum {s : State} (root : CheckoutKey)
    (h : ¬ (s.roots.head? = some r ∧ s.lastRoot = some r ∧ s.rootCredit ≠ 0)) :
    allowance s root r ≤ max 1 (s.settings.rootQuantum r) := by
  unfold allowance
  split_ifs
  · exact le_refl _
  · exact Nat.zero_le _

theorem allowance_le_credit {s : State} (root : CheckoutKey)
    (h : s.roots.head? = some r ∧ s.lastRoot = some r ∧ s.rootCredit ≠ 0) :
    allowance s root r ≤ s.rootCredit := by
  unfold allowance
  split_ifs
  · exact le_refl _
  · exact Nat.zero_le _

theorem head?_ne_of_mem_post {turn : CheckoutKey} (hnd : (pre ++ turn :: post).Nodup)
    (hr : r ∈ post) : (pre ++ turn :: post).head? ≠ some r := by
  cases pre with
  | nil =>
    rintro heq
    obtain rfl : turn = r := by simpa using heq
    exact (nodup_cons.mp hnd).1 hr
  | cons p pre =>
    rintro heq
    obtain rfl : p = r := by simpa using heq
    exact (nodup_cons.mp hnd).1 (mem_append_right _ (mem_cons_of_mem _ hr))

theorem turnCredit_le_allowance {s : State} (hroots : s.roots = pre ++ r :: post)
    (hnd : s.roots.Nodup) (hr : r ∈ ahead s.roots root) :
    s.turnCredit r (s.keptCredit pre) ≤ allowance s root r := by
  cases pre with
  | nil =>
    have hhead : s.roots.head? = some r := by rw [hroots]; rfl
    have hkept : s.keptCredit [] = s.rootCredit := if_pos rfl
    unfold allowance turnCredit
    rw [if_pos hr, hkept]
    split_ifs with h1 h2 h2
    · exact absurd h1 (not_or.mpr ⟨not_not.mpr h2.2.1, h2.2.2⟩)
    · exact le_max_right _ _
    · exact le_refl _
    · obtain ⟨hlast, hcredit⟩ := not_or.mp h1
      exact absurd ⟨hhead, not_not.mp hlast, hcredit⟩ h2
  | cons p pre =>
    have hne : s.roots.head? ≠ some r := by
      rw [hroots] at hnd ⊢
      rintro heq
      obtain rfl : p = r := by simpa using heq
      exact (nodup_cons.mp hnd).1 (mem_append_right _ mem_cons_self)
    have hkept : s.keptCredit (p :: pre) = 0 := if_neg (cons_ne_nil _ _)
    rw [allowance_not_front hr hne, turnCredit, hkept, if_pos (.inr rfl)]
    exact le_max_right _ _

theorem allowance_behind {s : State} {a : Admission} (hrot : Rotation s a pre post s')
    (hset : s'.settings = s.settings) (hnd : s.roots.Nodup) (hr : r ∈ ahead post root)
    (hbef : r ∈ ahead s.roots root) : allowance s' root r ≤ allowance s root r := by
  have hpost : r ∈ post := (mem_ahead hr).1
  rw [hrot.split] at hnd
  have hne : a.turnRoot ≠ r := by
    rintro rfl
    exact (nodup_cons.mp (nodup_append.mp hnd).2.1).1 hpost
  have hfull : allowance s root r = max 1 (s.settings.rootQuantum r) :=
    allowance_not_front hbef (hrot.split ▸ head?_ne_of_mem_post hnd hpost)
  have hspending : ¬ (s'.roots.head? = some r ∧ s'.lastRoot = some r ∧ s'.rootCredit ≠ 0) := by
    rintro ⟨hhead, hlast, -⟩
    cases hp : a.preempting with
    | true =>
      rw [(hrot.preempting hp).1] at hhead
      exact hne (by simpa using hhead)
    | false =>
      rw [(hrot.natural hp).2.1] at hlast
      exact hne (Option.some.inj hlast)
  rw [hfull, ← hset]
  exact allowance_le_quantum root hspending

theorem allowance_preempted {s : State} {a : Admission} (hrot : Rotation s a pre post s')
    (hset : s'.settings = s.settings) (hnd : s.roots.Nodup)
    (hbef : a.turnRoot ∈ ahead s.roots root) (hp : a.preempting = true) :
    allowance s' root a.turnRoot ≤ allowance s root a.turnRoot := by
  obtain ⟨hroots, hcredit, hlast⟩ := hrot.preempting hp
  cases pre with
  | nil =>
    have hhead : s.roots.head? = s'.roots.head? := by rw [hroots, hrot.split]; rfl
    have hkept : s'.rootCredit = s.rootCredit := hcredit.trans (if_pos rfl)
    unfold allowance
    rw [if_pos hbef, hset, hkept, hlast, hhead]
    split_ifs
    · exact le_refl _
    · exact le_refl _
    · exact Nat.zero_le _
    · exact Nat.zero_le _
  | cons p pre =>
    have hne : s.roots.head? ≠ some a.turnRoot := by
      rw [hrot.split] at hnd ⊢
      rintro heq
      obtain rfl : p = a.turnRoot := by simpa using heq
      exact (nodup_cons.mp hnd).1 (mem_append_right _ mem_cons_self)
    have hzero : s'.rootCredit = 0 := hcredit.trans (if_neg (cons_ne_nil _ _))
    rw [allowance_not_front hbef hne, ← hset]
    exact allowance_le_quantum root fun hc => hc.2.2 hzero

theorem allowance_served {s : State} {a : Admission} (hrot : Rotation s a pre post s')
    (hnd : s.roots.Nodup) (hpost : root ∈ post) (hbef : a.turnRoot ∈ ahead s.roots root)
    (hp : a.preempting = false) :
    allowance s' root a.turnRoot + 1 ≤ allowance s root a.turnRoot := by
  obtain ⟨hcredit, hlast, hroots⟩ := hrot.natural hp
  have hcover := turnCredit_le_allowance hrot.split hnd hbef
  have hpos := allowance_pos hbef
  have hnot : a.turnRoot ∉ post := by
    rw [hrot.split] at hnd
    exact (nodup_cons.mp (nodup_append.mp hnd).2.1).1
  by_cases hspent : s.turnCredit a.turnRoot (s.keptCredit pre) - 1 = 0
  · rw [if_pos hspent, append_assoc] at hroots
    have hgone : a.turnRoot ∉ ahead s'.roots root := by
      rw [hroots, ahead_append_left _ hpost]
      exact fun h => hnot (mem_ahead h).1
    rw [allowance, if_neg hgone]
    exact hpos
  · rw [if_neg hspent] at hroots
    have hfront : s'.roots.head? = some a.turnRoot := by rw [hroots]; rfl
    have hne : s'.rootCredit ≠ 0 := by rw [hcredit]; exact hspent
    have hle := allowance_le_credit root ⟨hfront, hlast, hne⟩
    omega

theorem allowance_admits {s : State} {a : Admission} {x : Entry} (hs : Consistent s)
    (ha : AdmitStep s a x s') (hmem : root ∈ s.roots) (hwait : RootWaits s root)
    (hnot : naturalTurn root ⟨s, some a⟩ = false) (r : CheckoutKey) :
    allowance s' root r + (if naturalTurn r ⟨s, some a⟩ then 1 else 0) ≤ allowance s root r := by
  obtain ⟨pre, post, hrot⟩ := ha.rotation
  have hset := AdmitStep.settings ha
  have hnd := hs.roots.nodup
  have hunserved : ∀ r, ¬ (a.preempting = false ∧ a.turnRoot = r) →
      naturalTurn r ⟨s, some a⟩ = false := fun r h =>
    Bool.eq_false_iff.mpr fun hn => h ((naturalTurn_admits ha r).mp hn)
  by_cases hturn : a.turnRoot = root
  · -- the turn was owed to `root` and urgency took it: `root` is at the front
    have hp : a.preempting = true := by
      by_contra hp
      rw [(naturalTurn_admits ha root).mpr ⟨by simpa using hp, hturn⟩] at hnot
      cases hnot
    rw [hunserved r (by simp [hp]), allowance, (hrot.preempting hp).1, hturn, ahead_cons_self]
    simp
  · obtain ⟨hbef, hafter⟩ := ahead_admits hrot hmem (hwait.lane hs) hturn
    have hpost : root ∈ post := by
      rw [hrot.split] at hmem
      rcases mem_append.mp hmem with h | h
      · exact absurd (hrot.passed root h) (hwait.lane hs)
      · exact (mem_cons.mp h).resolve_left (Ne.symm hturn)
    have hin : a.turnRoot ∈ ahead s.roots root := by rw [hbef]; simp
    by_cases hr : r = a.turnRoot
    · subst hr
      cases hp : a.preempting with
      | true =>
        rw [hunserved _ (by simp [hp])]
        exact allowance_preempted hrot hset hnd hin hp
      | false =>
        rw [(naturalTurn_admits ha _).mpr ⟨hp, rfl⟩, if_pos rfl]
        exact allowance_served hrot hnd hpost hin hp
    · rw [hunserved r fun h => hr h.2.symm]
      by_cases hr' : r ∈ ahead s'.roots root
      · have hpast : r ∈ ahead post root := by
          rcases hafter with h | h
          · rwa [h] at hr'
          · rw [h] at hr'; exact (mem_cons.mp hr').resolve_left hr
        exact allowance_behind hrot hset hnd hpast (by rw [hbef]; simp [hpast])
      · rw [allowance, if_neg hr']
        exact Nat.zero_le _

theorem allowance_turns {s : State} {turns : List Turn} (h : Turns s turns s') (hs : Consistent s)
    (hmem : root ∈ s.roots) (hwait : ∀ turn ∈ turns, RootWaits turn.before root)
    (hnot : naturalTurns root turns = 0) (r : CheckoutKey) :
    naturalTurns r turns + allowance s' root r ≤ allowance s root r := by
  induction h with
  | full => simp [naturalTurns]
  | idle _ hb =>
    have hlane := (hwait _ mem_cons_self).lane hs
    exact absurd (hb.no_lane root hmem) hlane
  | @admits s s₁ s₂ a x turns _ ha _ ih =>
    rw [naturalTurns_cons] at hnot
    have hstep := allowance_admits hs ha hmem (hwait _ mem_cons_self)
      (by by_contra hn; simp [hn] at hnot) r
    obtain ⟨pre, post, hrot⟩ := ha.rotation
    have hrest := ih (ha.consistent hs) (hrot.perm.mem_iff.mpr hmem)
      (fun turn hm => hwait turn (mem_cons_of_mem _ hm)) (by omega)
    rw [naturalTurns_cons]
    omega

/-- A write only takes a root away or adds one at the tail. -/
structure Reseated (s s₁ : State) : Prop where
  settings : s₁.settings = s.settings
  lastRoot : s₁.lastRoot = s.lastRoot
  rootCredit : s₁.rootCredit = s.rootCredit
  roots : s₁.roots = s.roots ∨ (∃ r, s₁.roots = s.roots.filter (· ≠ r)) ∨
    ∃ r, s₁.roots = s.roots ++ [r]

theorem evict_reseated (s : State) : Reseated s s.evictParkedOverResidency := by
  obtain ⟨entries, heq, -⟩ := relabelled_evict s
  rw [heq]
  exact ⟨rfl, rfl, rfl, .inl rfl⟩

theorem State.Edit.reseated {s s₁ : State} (h : Edit s op s₁)
    (hop : ∀ settings, op ≠ .configure settings) : Reseated s s₁ := by
  cases h with
  | wait => exact ⟨rfl, rfl, rfl, .inl rfl⟩
  | @park id x byProject byRoot _ _ _ _ _ =>
    have hev := evict_reseated (s.unseated id x byProject byRoot)
    exact ⟨hev.settings, hev.lastRoot, hev.rootCredit, hev.roots⟩
  | @remove op id x total byProject byRoot channel _ _ _ =>
    simp only [settle, forgetRoot]
    split_ifs
    · exact ⟨rfl, rfl, rfl, .inl rfl⟩
    · exact ⟨rfl, rfl, rfl, .inr (.inl ⟨x.scope.root, rfl⟩)⟩
  | configure => exact absurd rfl (hop _)

theorem State.Quiet.reseated {s : State} (h : Quiet s op s') : Reseated s s' := by
  cases h with
  | refuse => exact ⟨rfl, rfl, rfl, .inl rfl⟩
  | @reserve request _ =>
    refine ⟨rfl, rfl, rfl, ?_⟩
    simp only [reserved]
    split_ifs
    · exact .inl rfl
    · exact .inr (.inr ⟨_, rfl⟩)
  | flag => exact ⟨rfl, rfl, rfl, .inl rfl⟩

theorem Reseated.creditBounded {s s₁ : State} (h : Reseated s s₁) (hc : CreditBounded s) :
    CreditBounded s₁ := by
  intro r hr
  rw [h.rootCredit, h.settings]
  exact hc r (h.lastRoot ▸ hr)

theorem Reseated.ahead {s s₁ : State} (h : Reseated s s₁) (hold : root ∈ s.roots)
    (hmem : root ∈ s₁.roots) (hr : r ∈ ahead s₁.roots root) :
    r ∈ ahead s.roots root ∧ (s.roots.head? = some r → s₁.roots.head? = some r) := by
  rcases h.roots with heq | ⟨x, heq⟩ | ⟨x, heq⟩
  · rw [heq] at hr ⊢
    exact ⟨hr, id⟩
  · rw [heq] at hmem hr ⊢
    have hx : x ≠ root := by
      rintro rfl
      simp at hmem
    rw [ahead_filter hx] at hr
    obtain ⟨hin, hne⟩ := mem_filter.mp hr
    refine ⟨hin, fun hhead => ?_⟩
    obtain ⟨rest, hrest⟩ := List.head?_eq_some_iff.mp hhead
    rw [hrest]
    simp only [filter_cons, hne, if_true, List.head?_cons]
  · rw [heq] at hr ⊢
    rw [ahead_append_left _ hold] at hr
    refine ⟨hr, fun hhead => ?_⟩
    rw [List.head?_append, hhead]
    rfl

theorem Reseated.allowance {s s₁ : State} (h : Reseated s s₁) (hc : CreditBounded s)
    (hold : root ∈ s.roots) (hmem : root ∈ s₁.roots) (r : CheckoutKey) :
    allowance s₁ root r ≤ allowance s root r := by
  by_cases hr : r ∈ AdmissionScheduler.ahead s₁.roots root
  · obtain ⟨hr', hfront⟩ := h.ahead hold hmem hr
    by_cases hhead : s.roots.head? = some r
    · unfold AdmissionScheduler.allowance
      rw [if_pos hr, if_pos hr', hfront hhead, hhead, h.lastRoot, h.rootCredit, h.settings]
    · rw [allowance_not_front hr' hhead, ← h.settings]
      refine (allowance_le (h.creditBounded hc) root r).trans ?_
      rw [if_pos hr]
  · rw [AdmissionScheduler.allowance, if_neg hr]
    exact Nat.zero_le _

theorem runOps_cons {s : State} {ops : List Op} {turns : List Turn}
    (h : runOps s (op :: ops) = .ok (s', turns)) :
    ∃ s₁ first more, perform s op = .ok (s₁, first) ∧ runOps s₁ ops = .ok (s', more) ∧
      turns = first ++ more := by
  simp only [runOps, bind, Except.bind] at h
  cases hp : perform s op with
  | error err => simp [hp] at h
  | ok r =>
    simp only [hp] at h
    cases hr : runOps r.1 ops with
    | error err => simp [hr] at h
    | ok q =>
      simp only [hr, pure, Except.pure, Except.ok.injEq, Prod.mk.injEq] at h
      exact ⟨r.1, r.2, q.2, rfl, by rw [hr, ← h.1], h.2.symm⟩

theorem State.Turns.roots_perm {s : State} {turns : List Turn} (h : Turns s turns s') :
    s'.roots.Perm s.roots := by
  induction h with
  | full => exact .refl _
  | idle _ hb => rw [hb.effect]
  | admits _ ha _ ih =>
    obtain ⟨pre, post, hrot⟩ := ha.rotation
    exact ih.trans hrot.perm

def KeepsRoot (s : State) (ops : List Op) (root : CheckoutKey) : Prop :=
  ∀ before after s' turns, ops = before ++ after → runOps s before = .ok (s', turns) →
    root ∈ s'.roots

theorem KeepsRoot.tail {s s₁ : State} {ops : List Op} {first : List Turn}
    (h : KeepsRoot s (op :: ops) root) (hp : perform s op = .ok (s₁, first)) :
    KeepsRoot s₁ ops root := by
  intro before after s' turns heq hrun
  refine h (op :: before) after s' (first ++ turns) (by simp [heq]) ?_
  simp [runOps, hp, hrun, bind, Except.bind, pure, Except.pure]

theorem allowance_performed {s : State} {turns : List Turn} (hs : Consistent s)
    (hc : CreditBounded s) (h : Performed s op s' turns)
    (hop : ∀ settings, op ≠ .configure settings) (hmem : root ∈ s.roots) (hmem' : root ∈ s'.roots)
    (hwait : ∀ turn ∈ turns, RootWaits turn.before root) (hnot : naturalTurns root turns = 0)
    (r : CheckoutKey) :
    CreditBounded s' ∧ naturalTurns r turns + allowance s' root r ≤ allowance s root r := by
  cases h with
  | quiet hq =>
    have hre := hq.reseated
    refine ⟨hre.creditBounded hc, ?_⟩
    simpa [naturalTurns] using hre.allowance hc hmem hmem' r
  | @pumped s₁ _ _ he ht =>
    have hre := he.reseated hop
    have hs₁ := he.consistent hs
    have hmem₁ : root ∈ s₁.roots := ht.roots_perm.mem_iff.mp hmem'
    have hturns := allowance_turns ht hs₁ hmem₁ hwait hnot r
    have hwrite := hre.allowance hc hmem hmem₁ r
    exact ⟨(CreditBounded.turns ht (hre.creditBounded hc)).1, hturns.trans hwrite⟩

theorem allowance_run {ops : List Op} {s : State} {turns : List Turn} (hs : Consistent s)
    (hc : CreditBounded s) (hrun : runOps s ops = .ok (s', turns))
    (hops : ∀ op ∈ ops, ∀ settings, op ≠ .configure settings) (hkeep : KeepsRoot s ops root)
    (hwait : ∀ turn ∈ turns, RootWaits turn.before root) (hnot : naturalTurns root turns = 0)
    (r : CheckoutKey) : naturalTurns r turns + allowance s' root r ≤ allowance s root r := by
  induction ops generalizing s turns with
  | nil =>
    cases hrun
    simp [naturalTurns]
  | cons op ops ih =>
    have hmem : root ∈ s.roots := hkeep [] (op :: ops) s [] rfl rfl
    obtain ⟨s₁, first, more, hp, hrest, rfl⟩ := runOps_cons hrun
    have hmem₁ : root ∈ s₁.roots := (hkeep.tail hp) [] ops s₁ [] rfl rfl
    have hperf := performed_of_perform hs hp
    rw [naturalTurns, countP_append] at hnot ⊢
    obtain ⟨hc₁, hfirst⟩ := allowance_performed hs hc hperf (hops _ mem_cons_self) hmem
      hmem₁ (fun turn hm => hwait turn (mem_append_left _ hm))
      (by unfold naturalTurns; omega) r
    have hmore := ih (hperf.consistent hs) hc₁ hrest
      (fun op hm => hops op (mem_cons_of_mem _ hm)) (hkeep.tail hp)
      (fun turn hm => hwait turn (mem_append_right _ hm)) (by unfold naturalTurns; omega)
    unfold naturalTurns at hfirst hmore
    omega

theorem CreditBounded.performed {s : State} {turns : List Turn} (hc : CreditBounded s)
    (h : Performed s op s' turns) :
    CreditBounded s' ∧ ∀ turn ∈ turns, CreditBounded turn.before := by
  cases h with
  | quiet hq => exact ⟨hq.reseated.creditBounded hc, by simp⟩
  | @pumped s₁ _ _ he ht =>
    refine CreditBounded.turns ht ?_
    by_cases hop : ∃ settings, op = .configure settings
    · obtain ⟨settings, rfl⟩ := hop
      cases he with
      | remove _ hcase _ => simp at hcase
      | configure _ =>
        have hset : CreditBounded (s.configured settings) := by
          intro r hr
          have hlast : s.lastRoot = some r := hr
          simp only [configured, hlast, Option.map_some, Option.getD_some]
          exact min_le_right _ _
        exact (evict_reseated _).creditBounded hset
    · exact (he.reseated fun settings heq => hop ⟨settings, heq⟩).creditBounded hc

theorem Execution.iterations {s : State} {ops : List Op} {turns : List Turn}
    (h : Execution s ops turns s') (hs : Consistent s) (hc : CreditBounded s) :
    CreditBounded s' ∧ ∀ turn ∈ turns, Consistent turn.before ∧ CreditBounded turn.before := by
  induction h with
  | nil => exact ⟨hc, by simp⟩
  | @cons s s₁ s₂ op ops turns more hp _ ih =>
    obtain ⟨hc₁, hfirst⟩ := hc.performed hp
    obtain ⟨hlast, hmore⟩ := ih (hp.consistent hs) hc₁
    refine ⟨hlast, fun turn hm => ?_⟩
    rcases mem_append.mp hm with hm | hm
    · refine ⟨?_, hfirst turn hm⟩
      cases hp with
      | quiet => cases hm
      | pumped he ht => exact turn_consistent ht (he.consistent hs) turn hm
    · exact hmore turn hm

/-- A moment of a run: between two operations, or before an iteration of a pump. `first` are
the turns that the operation in progress still takes, and `s₁` is the state it leaves. -/
inductive Moment : State → State → List Turn → Prop where
  | between {s} : Reachable s → Moment s s []
  | iterating {settings ops s₀ turns turn s₁ first} :
      runOps (new settings) ops = .ok (s₀, turns) → turn ∈ turns →
      turn.before.pump = .ok (s₁, first) → Moment turn.before s₁ first

theorem Moment.spec {s s₁ : State} {first : List Turn} (h : Moment s s₁ first) :
    Consistent s ∧ CreditBounded s ∧ ((s₁ = s ∧ first = []) ∨ Turns s first s₁) := by
  have hnew : ∀ settings, CreditBounded (new settings) := by
    intro settings r hr
    cases hr
  cases h with
  | between hreach =>
    obtain ⟨settings, ops, turns, heq⟩ := hreach
    obtain ⟨s', turns', heq', hx⟩ := runOps_spec (consistent_new settings) ops
    rw [heq] at heq'
    cases heq'
    exact ⟨hx.consistent (consistent_new settings),
      (hx.iterations (consistent_new settings) (hnew settings)).1, .inl ⟨rfl, rfl⟩⟩
  | @iterating settings ops s₀ turns turn _ _ hrun hm hpump =>
    obtain ⟨s', turns', heq', hx⟩ := runOps_spec (consistent_new settings) ops
    rw [hrun] at heq'
    cases heq'
    obtain ⟨hc, hb⟩ := (hx.iterations (consistent_new settings) (hnew settings)).2 turn hm
    obtain ⟨s'', first', heq, hturns, -⟩ := pump_spec hc
    rw [hpump] at heq
    cases heq
    exact ⟨hc, hb, .inr hturns⟩

def naturalRoots (turns : List Turn) : List CheckoutKey :=
  ((admissions turns).filter fun a => !a.preempting).map (·.root)

theorem naturalTurns_eq_count (r : CheckoutKey) (turns : List Turn) :
    naturalTurns r turns = (naturalRoots turns).count r := by
  induction turns with
  | nil => rfl
  | cons turn turns ih =>
    rw [naturalTurns_cons, ih]
    cases ha : turn.admitted with
    | none => simp [naturalTurn, naturalRoots, admissions, ha]
    | some a =>
      cases hp : a.preempting with
      | true => simp [naturalTurn, naturalRoots, admissions, ha, hp]
      | false =>
        by_cases hr : a.root = r
        · subst hr
          simp [naturalTurn, naturalRoots, admissions, ha, hp]
        · simp [naturalTurn, naturalRoots, admissions, ha, hp, hr]

theorem length_le_sum_of_count_le {bound : List CheckoutKey} (f : CheckoutKey → ℕ)
    (hnd : bound.Nodup) (h : ∀ r, roots.count r ≤ if r ∈ bound then f r else 0) :
    roots.length ≤ (bound.map f).sum := by
  have hmem : ∀ r ∈ (roots : Multiset CheckoutKey), r ∈ bound.toFinset := by
    intro r hr
    by_contra hnot
    have hzero := h r
    rw [if_neg fun hm => hnot (mem_toFinset.mpr hm)] at hzero
    exact absurd (count_pos_iff.mpr (Multiset.mem_coe.mp hr)) (by omega)
  have hcard := Multiset.sum_count_eq_card hmem
  rw [Multiset.coe_card] at hcard
  rw [← sum_toFinset f hnd, ← hcard]
  refine Finset.sum_le_sum fun r hr => ?_
  have := h r
  rw [if_pos (mem_toFinset.mp hr)] at this
  simpa using this

theorem countP_natural (turns : List Turn) :
    ((admissions turns).countP fun a => !a.preempting) = (naturalRoots turns).length := by
  rw [naturalRoots, length_map, countP_eq_length_filter]

theorem Moment.bursts {s s₁ : State} {first more : List Turn} {ops : List Op}
    (h : Moment s s₁ first) (hrun : runOps s₁ ops = .ok (s', more))
    (hops : ∀ op ∈ ops, ∀ settings, op ≠ .configure settings) :
    Bursts s.settings.maxPriorityBurst s.priorityBurst (admissions (first ++ more)) := by
  obtain ⟨hs, -, hcase⟩ := h.spec
  rw [admissions, filterMap_append]
  rcases hcase with ⟨rfl, rfl⟩ | hturns
  · obtain ⟨s'', turns, heq, hx⟩ := runOps_spec hs ops
    rw [hrun] at heq
    cases heq
    exact Bursts.execution hx hops
  · obtain ⟨s'', turns, heq, hx⟩ := runOps_spec (hturns.consistent hs) ops
    rw [hrun] at heq
    cases heq
    have hmore := Bursts.execution hx hops
    rw [hturns.settings.1] at hmore
    exact Bursts.turns hturns hmore

theorem Moment.allowance {s s₁ : State} {first more : List Turn} {ops : List Op}
    (h : Moment s s₁ first) (hrun : runOps s₁ ops = .ok (s', more))
    (hops : ∀ op ∈ ops, ∀ settings, op ≠ .configure settings) (hkeep : KeepsRoot s₁ ops root)
    (hwait : ∀ turn ∈ first ++ more, RootWaits turn.before root)
    (hnot : naturalTurns root (first ++ more) = 0) (r : CheckoutKey) :
    naturalTurns r (first ++ more) ≤
      if r ∈ ahead s.roots root then max 1 (s.settings.rootQuantum r) else 0 := by
  obtain ⟨hs, hc, hcase⟩ := h.spec
  refine le_trans ?_ (allowance_le hc root r)
  rcases hcase with ⟨rfl, rfl⟩ | hturns
  · have := allowance_run hs hc hrun hops hkeep hwait hnot r
    rw [nil_append]
    omega
  · rw [naturalTurns, countP_append] at hnot ⊢
    have hmem₁ : root ∈ s₁.roots := hkeep [] ops s₁ [] rfl rfl
    have hfirst := allowance_turns hturns hs (hturns.roots_perm.mem_iff.mp hmem₁)
      (fun turn hm => hwait turn (mem_append_left _ hm)) (by unfold naturalTurns; omega) r
    have hmore := allowance_run (hturns.consistent hs) (CreditBounded.turns hturns hc).1 hrun hops
      hkeep (fun turn hm => hwait turn (mem_append_right _ hm))
      (by unfold naturalTurns; omega) r
    unfold naturalTurns at hfirst hmore
    omega

/-- From any moment on and until the next configuration, urgency takes at most a full burst
in a row. While a root keeps an entry and has a ticket that fits whenever the loop body runs,
each root ahead of it takes at most a quantum before it, any other root nothing, and so the
number of admissions before its turn is bounded. -/
theorem fair_share {s s₁ s' : State} {first more : List Turn} {ops : List Op}
    (hmoment : Moment s s₁ first) (hrun : runOps s₁ ops = .ok (s', more))
    (hops : ∀ op ∈ ops, ∀ settings, op ≠ .configure settings) :
    (∀ block, block <:+: admissions (first ++ more) →
      block.length = s.settings.maxPriorityBurst + 1 → ∃ a ∈ block, a.preempting = false) ∧
    ∀ root, KeepsRoot s₁ ops root →
      (∀ turn ∈ first ++ more, RootWaits turn.before root) →
      naturalTurns root (first ++ more) = 0 →
      (∀ r, naturalTurns r (first ++ more) ≤
        if r ∈ ahead s.roots root then max 1 (s.settings.rootQuantum r) else 0) ∧
      (admissions (first ++ more)).length ≤
        (((ahead s.roots root).map fun r => max 1 (s.settings.rootQuantum r)).sum + 1) *
          (s.settings.maxPriorityBurst + 1) := by
  have hbursts := hmoment.bursts hrun hops
  refine ⟨fun block hblock hlen => ?_, fun root hkeep hwait hnot => ?_⟩
  · by_contra hnone
    have hall : ∀ a ∈ block, a.preempting = true := by
      intro a ha
      by_contra hp
      exact hnone ⟨a, ha, by simpa using hp⟩
    have := hbursts.infix_length_le hblock hall
    omega
  · have hshare := hmoment.allowance hrun hops hkeep hwait hnot
    refine ⟨hshare, ?_⟩
    have hnd : (ahead s.roots root).Nodup :=
      hmoment.spec.1.roots.nodup.sublist (takeWhile_sublist _)
    have hsum := length_le_sum_of_count_le (fun r => max 1 (s.settings.rootQuantum r)) hnd
      fun r => naturalTurns_eq_count r (first ++ more) ▸ hshare r
    have hlen := hbursts.length_bound
    rw [countP_natural] at hlen
    have hmul := Nat.mul_le_mul_right (s.settings.maxPriorityBurst + 1) hsum
    rw [Nat.succ_mul]
    omega

def rootRequest (name : String) (root : CheckoutKey) : AdmissionRequest :=
  ⟨(WorkKey.trajectory name).run 1, ⟨"project", root⟩, 0, none⟩

def enter (id : TicketId) (name : String) (root : CheckoutKey) : List Op :=
  [.reserve (rootRequest name root), .beginWait id]

theorem rootWaits_iff {s : State} : RootWaits s root ↔ (s.entries.entries.any fun e =>
      decide (e.2.state = .pending ∧ s.fits e.2 = true ∧ e.2.scope.root = root)) = true := by
  rw [AList.any_values_iff (fun e : Entry =>
    decide (e.state = .pending ∧ s.fits e = true ∧ e.scope.root = root))]
  simp [RootWaits, Waiting, and_assoc]

instance (s : State) (root : CheckoutKey) : Decidable (RootWaits s root) :=
  decidable_of_iff _ rootWaits_iff.symm

/-- The root ahead takes its one turn, and the waiting root is next. -/
theorem fair_share_of_two_roots :
    ∃ s s' more, Moment s s [] ∧ runOps s [.abandon 1] = .ok (s', more) ∧
      naturalTurns "second" more = 1 ∧ naturalTurns "second" more ≤ 1 ∧
      (admissions more).length ≤ (2 + 1) * 5 := by
  obtain ⟨s, turns, hbefore, -⟩ := runOps_spec (consistent_new oneSeat)
    (enter 1 "a" "first" ++ enter 2 "b" "second" ++ enter 3 "c" "third")
  have hmoment : Moment s s [] := .between ⟨oneSeat, _, turns, hbefore⟩
  obtain ⟨s', more, hrun, -⟩ := runOps_spec hmoment.spec.1 [.abandon 1]
  have hview : ((runOps (new oneSeat) (enter 1 "a" "first" ++ enter 2 "b" "second" ++
      enter 3 "c" "third")).toOption.bind fun r =>
      (runOps r.1 [.abandon 1]).toOption.map fun q => decide (
        r.1.roots = ["first", "second", "third"] ∧ q.1.roots = ["third", "second"] ∧
        (∀ turn ∈ q.2, RootWaits turn.before "third") ∧ naturalTurns "third" q.2 = 0 ∧
        naturalTurns "second" q.2 = 1)) = some true := by decide
  have hset : s.settings = oneSeat := by
    obtain ⟨s'', turns', heq, hx⟩ := runOps_spec (consistent_new oneSeat)
      (enter 1 "a" "first" ++ enter 2 "b" "second" ++ enter 3 "c" "third")
    rw [hbefore] at heq
    cases heq
    exact hx.settings (by simp [enter])
  simp only [hbefore, hrun, Except.toOption, Option.bind_some, Option.map_some,
    Option.some.injEq, decide_eq_true_eq] at hview
  obtain ⟨hroots, hroots', hwait, hnot, hcount⟩ := hview
  have hkeep : KeepsRoot s [.abandon 1] "third" := by
    intro before after s₂ t heq hr
    rcases before with - | ⟨op, before⟩
    · cases hr
      rw [hroots]; simp
    · obtain ⟨rfl, hnil⟩ := List.cons.inj heq
      obtain ⟨rfl, -⟩ := append_eq_nil_iff.mp hnil.symm
      rw [hrun] at hr
      cases hr
      rw [hroots']; simp
  obtain ⟨hshare, hlen⟩ := (fair_share hmoment hrun (by simp)).2 "third" hkeep hwait hnot
  have hsecond := hshare "second"
  rw [hroots, hset] at hsecond hlen
  exact ⟨s, s', more, hmoment, hrun, hcount, hsecond.trans (by decide),
    hlen.trans (by decide)⟩

/-- The share of a root that has a fitting ticket at every iteration, with nothing said
about the time in between. -/
def ShareAtIterations : Prop :=
  ∀ s s₁ s' first more ops root, Moment s s₁ first → runOps s₁ ops = .ok (s', more) →
    (∀ op ∈ ops, ∀ settings, op ≠ .configure settings) → root ∈ s.roots →
    (∀ turn ∈ first ++ more, RootWaits turn.before root) →
    naturalTurns root (first ++ more) = 0 →
    ∀ r, naturalTurns r (first ++ more) ≤
      if r ∈ ahead s.roots root then max 1 (s.settings.rootQuantum r) else 0

/-- While the seat is taken no iteration runs. The only ticket of `"second"` is cancelled
then, so that its next one stands behind a root that came later. -/
theorem cancelled_root_loses_its_place : ¬ ShareAtIterations := by
  intro hclaim
  obtain ⟨s, turns, hbefore, -⟩ := runOps_spec (consistent_new oneSeat)
    (enter 1 "a" "first" ++ enter 2 "b" "second")
  have hmoment : Moment s s [] := .between ⟨oneSeat, _, turns, hbefore⟩
  obtain ⟨s', more, hrun, -⟩ := runOps_spec hmoment.spec.1
    (.cancel 2 :: enter 3 "c" "third" ++ enter 4 "d" "second" ++ [.abandon 1])
  have hview : ((runOps (new oneSeat)
      (enter 1 "a" "first" ++ enter 2 "b" "second")).toOption.bind fun r =>
      (runOps r.1 (.cancel 2 :: enter 3 "c" "third" ++ enter 4 "d" "second" ++
        [.abandon 1])).toOption.map fun q => decide (
        r.1.roots = ["first", "second"] ∧
        (∀ turn ∈ q.2, RootWaits turn.before "second") ∧ naturalTurns "second" q.2 = 0 ∧
        naturalTurns "third" q.2 = 1)) = some true := by decide
  simp only [hbefore, hrun, Except.toOption, Option.bind_some, Option.map_some,
    Option.some.injEq, decide_eq_true_eq] at hview
  obtain ⟨hroots, hwait, hnot, hcount⟩ := hview
  have hshare := hclaim s s s' [] more _ "second" hmoment hrun (by simp [enter])
    (by rw [hroots]; simp) hwait hnot "third"
  rw [nil_append, hcount, hroots, if_neg (by decide)] at hshare
  omega

end AdmissionScheduler
