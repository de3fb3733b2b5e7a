import RefactEngine.AdmissionCapacity

/-! # How often a waiting ticket is passed over

A resumed ticket keeps its original age and is served before a younger one that has waited
longer. The burst counter of a root bounds this: once it is spent, the ticket that became
ready first has its turn. `debt` counts what may still pass a waiting ticket. Every natural
turn of the root pays for itself, unless a preemption has reset the counter.
-/
namespace AdmissionScheduler

open WorkIdentity CoordinationSettings State List

def Reachable (s : State) : Prop :=
  ∃ settings ops turns, runOps (new settings) ops = .ok (s, turns)

variable {s : State}

theorem Reachable.consistent (h : Reachable s) : Consistent s := by
  obtain ⟨settings, ops, turns, heq⟩ := h
  obtain ⟨s', turns', heq', hx⟩ := runOps_spec (consistent_new settings) ops
  rw [heq] at heq'
  cases heq'
  exact hx.consistent (consistent_new settings)

def naturalTurn (root : CheckoutKey) (turn : Turn) : Bool :=
  match turn.admitted with
  | none => false
  | some a => !a.preempting && decide (a.root = root)

def naturalTurns (root : CheckoutKey) (turns : List Turn) : ℕ :=
  turns.countP (naturalTurn root)

/-- Whenever the loop body ran, the ticket was pending and fitted, and it was not taken. -/
structure PassedOver (t : TicketId) (turns : List Turn) : Prop where
  waiting : ∀ turn ∈ turns, ∃ e, turn.before.Waiting t e
  unserved : ∀ turn ∈ turns, ∀ a, turn.admitted = some a → a.id ≠ t

def burstOf (s : State) (root : CheckoutKey) : ℕ := (s.resumeBurst.lookup root).getD 0

/-- A preemption takes a never parked ticket of the same root that came after `t` in both
orders, and with it the burst that the root had built up. -/
def ResetsBurst (t : TicketId) (turn : Turn) : Prop :=
  ∃ a ∈ turn.admitted, ∃ x ∈ turn.before.entries.lookup a.id,
    ∃ e ∈ turn.before.entries.lookup t, a.preempting = true ∧ x.scope.root = e.scope.root ∧
      x.parkCount = 0 ∧ e.seq < x.seq ∧ e.readySeq < x.readySeq ∧
      0 < burstOf turn.before e.scope.root

def readyAhead (s : State) (e : Entry) : ℕ :=
  s.entries.countValues fun x =>
    decide (x.scope.root = e.scope.root ∧ x.state = .pending ∧ x.readySeq < e.readySeq)

/-- The older tickets of the root that have never held a permit. -/
def freshAhead (s : State) (e : Entry) : ℕ :=
  s.entries.countValues fun x =>
    decide (x.scope.root = e.scope.root ∧ x.state ≠ .active ∧ x.parkCount = 0 ∧ x.seq < e.seq)

/-- Each ticket ahead may take one turn and be followed by one burst of resumed tickets. -/
def debt (s : State) (e : Entry) : ℕ :=
  (readyAhead s e + freshAhead s e) * (s.settings.maxResumeBurst + 1) +
    (s.settings.maxResumeBurst - burstOf s e.scope.root)

theorem debt_paid {k k' : ℕ} (M b b' : ℕ) (h : k' + 1 ≤ k) :
    k' * (M + 1) + (M - b') + 1 ≤ k * (M + 1) + (M - b) := by
  have := Nat.mul_le_mul_right (M + 1) h
  rw [Nat.succ_mul] at this
  omega

variable {s' : State} {e : Entry}

theorem debt_mono (hset : s'.settings = s.settings) (hready : readyAhead s' e ≤ readyAhead s e)
    (hfresh : freshAhead s' e ≤ freshAhead s e)
    (hburst : burstOf s' e.scope.root = burstOf s e.scope.root) : debt s' e ≤ debt s e := by
  unfold debt
  rw [hset, hburst]
  have := Nat.mul_le_mul_right (s.settings.maxResumeBurst + 1) (Nat.add_le_add hready hfresh)
  omega

variable {a : Admission} {x : Entry}

theorem burstOf_admits (h : AdmitStep s a x s') (root : CheckoutKey) : burstOf s' root =
      if x.scope.root = root then
        if a.fairnessTurn = false ∧ 0 < x.parkCount then burstOf s root + 1 else 0
      else burstOf s root := by
  have hroot := h.choice.root
  rw [h.effect]
  simp only [burstOf, afterAdmission]
  rw [hroot]
  by_cases hr : x.scope.root = root
  · subst hr
    by_cases hc : a.fairnessTurn = false ∧ 0 < x.parkCount
    · simp [hc]
    · have hc' : (!a.fairnessTurn && decide (0 < x.parkCount)) = false := by
        cases hf : a.fairnessTurn <;> simp_all
      simp [hc, hc']
  · split_ifs
    · simp [Ne.symm hr]
    · simp [Ne.symm hr]

theorem readyAhead_admits (h : AdmitStep s a x s') (e : Entry) : readyAhead s' e +
      (if x.scope.root = e.scope.root ∧ x.readySeq < e.readySeq then 1 else 0) =
        readyAhead s e := by
  have hc := AList.countValues_insert_old
    (fun y : Entry => decide (y.scope.root = e.scope.root ∧ y.state = .pending ∧
      y.readySeq < e.readySeq)) { x with state := .active, waiter := none } h.found
  have hp := h.choice.waiting.2.1
  rw [h.effect]
  simpa [readyAhead, afterAdmission, hp] using hc

theorem freshAhead_admits (h : AdmitStep s a x s') (e : Entry) : freshAhead s' e +
      (if x.scope.root = e.scope.root ∧ x.parkCount = 0 ∧ x.seq < e.seq then 1 else 0) =
        freshAhead s e := by
  have hc := AList.countValues_insert_old
    (fun y : Entry => decide (y.scope.root = e.scope.root ∧ y.state ≠ .active ∧
      y.parkCount = 0 ∧ y.seq < e.seq)) { x with state := .active, waiter := none } h.found
  have hp := h.choice.waiting.2.1
  rw [h.effect]
  simpa [freshAhead, afterAdmission, hp] using hc

variable {t : TicketId}

theorem natural_admit_ahead (hs : Consistent s) (h : AdmitStep s a x s') (ht : s.Waiting t e)
    (hne : a.id ≠ t) (hnat : a.preempting = false) (hroot : x.scope.root = e.scope.root) :
    x.readySeq < e.readySeq ∨ (x.parkCount = 0 ∧ x.seq < e.seq) ∨
      (a.fairnessTurn = false ∧ 0 < x.parkCount ∧
        burstOf s e.scope.root < s.settings.maxResumeBurst) := by
  have hturn : e.scope.root = a.turnRoot := by
    rw [← h.choice.natural_root hnat, h.choice.root, hroot]
  have hfair := h.choice.fairness
  cases hf : a.fairnessTurn with
  | true =>
    have hle := h.choice.first_ready hnat hf t e ht hturn
    have hinj := hs.sequenced.ready_inj a.id x t e h.found ht.1
    exact .inl (lt_of_le_of_ne hle fun heq => hne (hinj heq))
  | false =>
    have hle := h.choice.oldest hnat hf t e ht hturn
    have hinj := hs.sequenced.seq_inj a.id x t e h.found ht.1
    have hlt : x.seq < e.seq := lt_of_le_of_ne hle fun heq => hne (hinj heq)
    rcases Nat.eq_zero_or_pos x.parkCount with h0 | hpos
    · exact .inr (.inl ⟨h0, hlt⟩)
    · refine .inr (.inr ⟨rfl, hpos, ?_⟩)
      rw [hf, fairnessTurnOf, ← hturn] at hfair
      simpa [burstOf] using hfair

theorem preempting_admit_ahead (hs : Consistent s) (h : AdmitStep s a x s') (ht : s.Waiting t e)
    (hne : a.id ≠ t) (hpre : a.preempting = true) (hroot : x.scope.root = e.scope.root)
    (hreset : ¬ ResetsBurst t ⟨s, some a⟩) :
    x.readySeq < e.readySeq ∨ (x.parkCount = 0 ∧ x.seq < e.seq) ∨
      (a.fairnessTurn = false ∧ 0 < x.parkCount) ∨ burstOf s e.scope.root = 0 := by
  have hfair := (h.choice.preempts hpre).1
  rcases Nat.eq_zero_or_pos x.parkCount with h0 | hpos
  · by_contra hall
    push Not at hall
    obtain ⟨hready, hseq, -, hburst⟩ := hall
    have hready' : e.readySeq < x.readySeq := lt_of_le_of_ne hready fun heq =>
      hne (hs.sequenced.ready_inj a.id x t e h.found ht.1 heq.symm)
    have hseq' : e.seq < x.seq := lt_of_le_of_ne (hseq h0) fun heq =>
      hne (hs.sequenced.seq_inj a.id x t e h.found ht.1 heq.symm)
    exact hreset ⟨a, rfl, x, h.found, e, ht.1, hpre, hroot, h0, hseq', hready',
      Nat.pos_of_ne_zero hburst⟩
  · exact .inr (.inr (.inl ⟨hfair, hpos⟩))

theorem AdmitStep.settings (h : AdmitStep s a x s') : s'.settings = s.settings := by
  rw [h.effect]; rfl

theorem debt_admits (hs : Consistent s) (h : AdmitStep s a x s') (ht : s.Waiting t e)
    (hne : a.id ≠ t) (hreset : ¬ ResetsBurst t ⟨s, some a⟩) :
    debt s' e + (if naturalTurn e.scope.root ⟨s, some a⟩ then 1 else 0) ≤ debt s e := by
  have hready := readyAhead_admits h e
  have hfresh := freshAhead_admits h e
  have hburst := burstOf_admits h e.scope.root
  simp only [naturalTurn, h.choice.root, debt, AdmitStep.settings h]
  by_cases hroot : x.scope.root = e.scope.root
  · simp only [hroot, true_and, if_true, decide_true, Bool.and_true] at hready hfresh hburst ⊢
    by_cases hahead : x.readySeq < e.readySeq ∨ (x.parkCount = 0 ∧ x.seq < e.seq)
    · -- a ticket ahead of `e` leaves, which pays for a whole new burst
      have hk : readyAhead s' e + freshAhead s' e + 1 ≤ readyAhead s e + freshAhead s e := by
        rcases hahead with h1 | h1
        · rw [if_pos h1] at hready; omega
        · rw [if_pos h1] at hfresh; omega
      have hpaid := debt_paid s.settings.maxResumeBurst (burstOf s e.scope.root)
        (burstOf s' e.scope.root) hk
      split_ifs <;> omega
    · obtain ⟨h1, h2⟩ := not_or.mp hahead
      rw [if_neg h1] at hready
      rw [if_neg h2] at hfresh
      have hk : readyAhead s' e + freshAhead s' e = readyAhead s e + freshAhead s e := by omega
      rw [hk]
      cases hp : a.preempting with
      | false =>
        -- the burst has room, so the resumed ticket uses one of its turns
        obtain ⟨hf, hpos, hlt⟩ := ((natural_admit_ahead hs h ht hne hp hroot).resolve_left
          h1).resolve_left h2
        rw [hburst, if_pos ⟨hf, hpos⟩]
        simp only [Bool.not_false, if_true]
        omega
      | true =>
        simp only [Bool.not_true, Bool.false_eq_true, if_false]
        rcases ((preempting_admit_ahead hs h ht hne hp hroot hreset).resolve_left
          h1).resolve_left h2 with hc | hzero
        · rw [hburst, if_pos hc]; omega
        · rw [hzero]; omega
  · simp only [hroot, false_and, if_false, decide_false, Bool.and_false, Bool.false_eq_true,
      Nat.add_zero] at hready hfresh hburst ⊢
    rw [hready, hfresh, hburst]

theorem naturalTurns_cons (root : CheckoutKey) (turn : Turn) (turns : List Turn) :
    naturalTurns root (turn :: turns) =
      naturalTurns root turns + if naturalTurn root turn then 1 else 0 :=
  countP_cons

theorem debt_turns {turns : List Turn} (h : Turns s turns s') (hs : Consistent s)
    (he : s.entries.lookup t = some e) (hpass : PassedOver t turns)
    (hreset : ∀ turn ∈ turns, ¬ ResetsBurst t turn) : s'.entries.lookup t = some e ∧
      naturalTurns e.scope.root turns + debt s' e ≤ debt s e := by
  induction h with
  | full => exact ⟨he, by simp [naturalTurns]⟩
  | idle _ hb =>
    rw [hb.effect]
    exact ⟨he, by simp [naturalTurns, naturalTurn, debt, readyAhead, freshAhead, burstOf]⟩
  | @admits s s₁ s₂ a x turns _ ha _ ih =>
    have hne : a.id ≠ t := hpass.unserved _ mem_cons_self a rfl
    have hw : s.Waiting t e := by
      obtain ⟨y, hy⟩ := hpass.waiting _ mem_cons_self
      have hye : y = e := Option.some.inj (hy.1.symm.trans he)
      exact hye ▸ hy
    have hkeep : s₁.entries.lookup t = some e := by
      rw [ha.lookup t, if_neg (Ne.symm hne), he]
    have hstep := debt_admits hs ha hw hne (hreset _ mem_cons_self)
    obtain ⟨hlast, hrest⟩ := ih (ha.consistent hs) hkeep
      ⟨fun turn hm => hpass.waiting turn (mem_cons_of_mem _ hm),
        fun turn hm => hpass.unserved turn (mem_cons_of_mem _ hm)⟩
      fun turn hm => hreset turn (mem_cons_of_mem _ hm)
    refine ⟨hlast, ?_⟩
    rw [naturalTurns_cons]
    omega

theorem evict_lookup (he : s.entries.lookup t = some e) (hp : e.state ≠ .parked) :
    s.evictParkedOverResidency.entries.lookup t = some e := by
  obtain ⟨ids, hids, entries, heq, hl⟩ := s.evictParkedOverResidency_spec
  rw [heq]
  have hnot : t ∉ ids := by
    intro hm
    obtain ⟨y, hy, hparked⟩ := hids t hm
    rw [he] at hy
    cases hy
    exact hp hparked
  simp only [hl t, if_neg hnot, he]

theorem evict_countValues (s : State) {p : Entry → Bool}
    (hp : ∀ x : Entry, x.state = .parked → p (evict x) = p x) :
    s.evictParkedOverResidency.entries.countValues p = s.entries.countValues p := by
  obtain ⟨ids, hids, entries, heq, hl⟩ := s.evictParkedOverResidency_spec
  rw [heq]
  refine AList.countValues_congr _ fun k => ?_
  simp only [hl k]
  split_ifs with hk
  · obtain ⟨x, hx, hparked⟩ := hids k hk
    simp [hx, hp x hparked]
  · rfl

theorem evict_burstOf (s : State) (root : CheckoutKey) :
    burstOf s.evictParkedOverResidency root = burstOf s root := by
  obtain ⟨entries, heq, -⟩ := relabelled_evict s
  rw [heq]
  rfl

theorem forgetRoot_burstOf (root : CheckoutKey) (he : s.entries.lookup t = some e) :
    burstOf (s.forgetRoot root) e.scope.root = burstOf s e.scope.root := by
  unfold forgetRoot
  split_ifs with hroot
  · rfl
  · have hne : e.scope.root ≠ root := fun heq => hroot (hasRoot_iff.mpr ⟨t, e, he, heq⟩)
    simp only [burstOf]
    rw [AList.lookup_erase_if, if_neg hne]

variable {id : TicketId}

theorem debt_replace {old : Entry} (ho : s.entries.lookup id = some old)
    (hx : s'.entries = s.entries.insert id x) (hset : s'.settings = s.settings)
    (hburst : s'.resumeBurst = s.resumeBurst)
    (hready : x.scope.root = e.scope.root → x.state = .pending → e.readySeq ≤ x.readySeq)
    (hfresh : x.scope.root = e.scope.root ∧ x.state ≠ .active ∧ x.parkCount = 0 ∧
        x.seq < e.seq →
      old.scope.root = e.scope.root ∧ old.state ≠ .active ∧ old.parkCount = 0 ∧
        old.seq < e.seq) :
    debt s' e ≤ debt s e := by
  refine debt_mono hset ?_ ?_ (by rw [burstOf, hburst]; rfl)
  · have hc := AList.countValues_insert_old (fun y : Entry => decide (y.scope.root =
      e.scope.root ∧ y.state = .pending ∧ y.readySeq < e.readySeq)) x ho
    have hno : ¬ (x.scope.root = e.scope.root ∧ x.state = .pending ∧
        x.readySeq < e.readySeq) := fun h => absurd h.2.2 (not_lt.mpr (hready h.1 h.2.1))
    simp only [hno, decide_false, Bool.false_eq_true, if_false] at hc
    simp only [readyAhead, hx]
    omega
  · have hc := AList.countValues_insert_old (fun y : Entry => decide (y.scope.root =
      e.scope.root ∧ y.state ≠ .active ∧ y.parkCount = 0 ∧ y.seq < e.seq)) x ho
    simp only [freshAhead, hx]
    by_cases hn : x.scope.root = e.scope.root ∧ x.state ≠ .active ∧ x.parkCount = 0 ∧
        x.seq < e.seq
    · have hold := hfresh hn
      simp only [hn, hold, ne_eq, not_false_iff, and_self, decide_true, if_true] at hc
      exact le_of_eq (by simpa using hc)
    · simp only [hn, decide_false, Bool.false_eq_true, if_false, Nat.add_zero] at hc
      omega

theorem debt_evict (s : State) (e : Entry) : debt s.evictParkedOverResidency e = debt s e := by
  simp only [debt, readyAhead, freshAhead, evict_settings, evict_burstOf]
  rw [evict_countValues s (by intro x hx; simp [evict, hx]),
    evict_countValues s (by intro x hx; simp [evict, hx])]

variable {s₁ : State} {op : Op}

/-- A pending ticket outlasts every write but its own removal, and no write adds to what is
ahead of it: new and resumed tickets join behind in the ready order. -/
theorem State.Edit.pending (hs : Consistent s) (h : Edit s op s₁)
    (hop : ∀ settings, op ≠ .configure settings) (he : s.entries.lookup t = some e)
    (hp : e.state = .pending) : s₁.entries.lookup t = none ∨
      (s₁.entries.lookup t = some e ∧ debt s₁ e ≤ debt s e) := by
  have hready := hs.sequenced.ready_lt t e he
  cases h with
  | @wait id x hx hst =>
    have hne : t ≠ id := by
      rintro rfl
      rw [he] at hx
      cases hx
      simp [hp] at hst
    refine .inr ⟨by simp only [queued, AList.lookup_insert_if, if_neg hne, he], ?_⟩
    refine debt_replace hx rfl rfl rfl (fun _ _ => hready.le) fun h => ⟨h.1, ?_, h.2.2⟩
    rcases hst with hst | hst | hst <;> simp [hst]
  | @park id x byProject byRoot hx ha _ _ _ =>
    have hne : t ≠ id := by
      rintro rfl
      rw [he] at hx
      cases hx
      simp [hp] at ha
    have hkeep : (s.unseated id x byProject byRoot).entries.lookup t = some e := by
      simp only [unseated, AList.lookup_insert_if, if_neg hne, he]
    refine .inr ⟨evict_lookup hkeep (by simp [hp]), ?_⟩
    rw [debt_evict]
    exact debt_replace hx rfl rfl rfl (by simp) (by simp)
  | @remove op id x total byProject byRoot channel hx _ _ =>
    by_cases hid : t = id
    · subst hid
      exact .inl (by simp [settle, erased])
    · have hkeep : (s.erased id x total byProject byRoot).entries.lookup t = some e := by
        simp only [erased, AList.lookup_erase_if, if_neg hid, he]
      refine .inr ⟨by simpa [settle] using hkeep, ?_⟩
      refine debt_mono (by simp [settle, erased]) ?_ ?_ ?_
      · have := AList.countValues_erase (fun y : Entry => decide (y.scope.root =
          e.scope.root ∧ y.state = .pending ∧ y.readySeq < e.readySeq)) hx
        simp only [readyAhead, settle, forgetRoot_entries, erased]
        omega
      · have := AList.countValues_erase (fun y : Entry => decide (y.scope.root =
          e.scope.root ∧ y.state ≠ .active ∧ y.parkCount = 0 ∧ y.seq < e.seq)) hx
        simp only [freshAhead, settle, forgetRoot_entries, erased]
        omega
      · exact forgetRoot_burstOf x.scope.root hkeep
  | configure => exact absurd rfl (hop _)

theorem State.Quiet.pending (hs : Consistent s) (h : Quiet s op s')
    (he : s.entries.lookup t = some e) (hp : e.state = .pending) :
    s'.entries.lookup t = some e ∧ debt s' e ≤ debt s e := by
  cases h with
  | refuse => exact ⟨he, le_refl _⟩
  | @reserve request _ =>
    have hid := hs.sequenced.id_lt t e he
    have hseq := hs.sequenced.seq_lt t e he
    have hn : s.entries.lookup s.nextId = none := by
      cases hx : s.entries.lookup s.nextId with
      | none => rfl
      | some y => exact absurd (hs.sequenced.id_lt _ y hx) (lt_irrefl _)
    refine ⟨by simp only [reserved, AList.lookup_insert_if, if_neg (Nat.ne_of_lt hid), he],
      debt_mono rfl ?_ ?_ rfl⟩
    · simp only [readyAhead, reserved]
      rw [AList.countValues_insert_new _ _ hn]
      simp [newEntry]
    · simp only [freshAhead, reserved]
      rw [AList.countValues_insert_new _ _ hn]
      simp [newEntry, hseq.le]
  | @flag op id x hx ha _ =>
    have hne : t ≠ id := by
      rintro rfl
      rw [he] at hx
      cases hx
      simp [hp] at ha
    refine ⟨by simp only [AList.lookup_insert_if, if_neg hne, he], ?_⟩
    exact debt_replace hx rfl rfl rfl (by simp [ha]) (by simp [ha])

structure Gone (s : State) (t : TicketId) : Prop where
  absent : s.entries.lookup t = none
  issued : t < s.nextId

theorem Gone.replace {y : Entry} (h : Gone s t) (hx : s.entries.lookup id = some x)
    (heq : s'.entries = s.entries.insert id y) (hid : s'.nextId = s.nextId) : Gone s' t := by
  have hne : t ≠ id := by
    rintro rfl
    rw [h.absent] at hx
    cases hx
  exact ⟨by rw [heq, AList.lookup_insert_if, if_neg hne, h.absent], hid ▸ h.issued⟩

theorem Gone.evict (h : Gone s t) : Gone s.evictParkedOverResidency t := by
  obtain ⟨entries, heq, hr⟩ := relabelled_evict s
  rw [heq]
  refine ⟨?_, h.issued⟩
  have := hr t
  rw [h.absent] at this
  cases hx : entries.lookup t with
  | none => rfl
  | some y => rw [hx] at this; cases this

theorem Gone.turns {turns : List Turn} (h : Turns s turns s') (hg : Gone s t) :
    Gone s' t ∧ ∀ turn ∈ turns, turn.before.entries.lookup t = none := by
  induction h with
  | full => exact ⟨hg, by simp⟩
  | idle _ hb => rw [hb.effect]; exact ⟨⟨hg.absent, hg.issued⟩, by simpa using hg.absent⟩
  | admits _ ha _ ih =>
    obtain ⟨hlast, hrest⟩ := ih (hg.replace ha.found (by rw [ha.effect]; rfl)
      (by rw [ha.effect]; rfl))
    refine ⟨hlast, fun turn hm => ?_⟩
    rcases mem_cons.mp hm with rfl | hm
    · exact hg.absent
    · exact hrest turn hm

@[simp] theorem forgetRoot_nextId (s : State) (root : CheckoutKey) :
    (s.forgetRoot root).nextId = s.nextId := by
  unfold forgetRoot
  split_ifs <;> rfl

theorem evict_nextId (s : State) : s.evictParkedOverResidency.nextId = s.nextId := by
  obtain ⟨entries, heq, -⟩ := relabelled_evict s
  rw [heq]

theorem State.Edit.nextId (h : Edit s op s₁) : s₁.nextId = s.nextId := by
  cases h with
  | wait => rfl
  | park => rw [evict_nextId]; rfl
  | remove => simp [settle, erased]
  | configure => rw [evict_nextId]; rfl

theorem Gone.edit (h : Edit s op s₁) (hg : Gone s t) : Gone s₁ t := by
  cases h with
  | wait hx _ => exact hg.replace hx rfl rfl
  | @park id x byProject byRoot hx _ _ _ _ =>
    have hg' : Gone (s.unseated id x byProject byRoot) t := hg.replace hx rfl rfl
    exact hg'.evict
  | remove hx _ _ =>
    refine ⟨?_, by simpa [settle, erased] using hg.issued⟩
    simp only [settle, forgetRoot_entries, erased, AList.lookup_erase_if]
    split_ifs
    · rfl
    · exact hg.absent
  | @configure settings _ =>
    have hg' : Gone (s.configured settings) t := ⟨hg.absent, hg.issued⟩
    exact hg'.evict

theorem Gone.quiet (h : Quiet s op s') (hg : Gone s t) : Gone s' t := by
  cases h with
  | refuse => exact ⟨hg.absent, hg.issued⟩
  | reserve =>
    refine ⟨?_, Nat.lt_succ_of_lt hg.issued⟩
    simp only [reserved, AList.lookup_insert_if, if_neg (Nat.ne_of_lt hg.issued), hg.absent]
  | flag hx _ _ => exact hg.replace hx rfl rfl

variable {ops : List Op}

theorem Gone.execution {turns : List Turn} (h : Execution s ops turns s') (hg : Gone s t) :
    ∀ turn ∈ turns, turn.before.entries.lookup t = none := by
  induction h with
  | nil => simp
  | cons hp _ ih =>
    cases hp with
    | quiet hq => exact ih (hg.quiet hq)
    | pumped he ht =>
      obtain ⟨hg', hturns⟩ := (hg.edit he).turns ht
      intro turn hm
      rcases mem_append.mp hm with hm | hm
      · exact hturns turn hm
      · exact ih hg' turn hm

/-- The loop body never runs again while `t` waits, since `t` does not come back. -/
theorem PassedOver.eq_nil {turns : List Turn} (h : PassedOver t turns)
    (hnone : ∀ turn ∈ turns, turn.before.entries.lookup t = none) : turns = [] := by
  cases turns with
  | nil => rfl
  | cons turn turns =>
    obtain ⟨e, he, -⟩ := h.waiting turn mem_cons_self
    rw [hnone turn mem_cons_self] at he
    cases he

variable {more : List Turn}

theorem PassedOver.left {turns : List Turn} (h : PassedOver t (turns ++ more)) :
    PassedOver t turns :=
  ⟨fun turn hm => h.waiting turn (mem_append_left _ hm),
    fun turn hm => h.unserved turn (mem_append_left _ hm)⟩

theorem PassedOver.right {turns : List Turn} (h : PassedOver t (turns ++ more)) :
    PassedOver t more :=
  ⟨fun turn hm => h.waiting turn (mem_append_right _ hm),
    fun turn hm => h.unserved turn (mem_append_right _ hm)⟩

theorem PassedOver.append {turns : List Turn} (h : PassedOver t turns) (h' : PassedOver t more) :
    PassedOver t (turns ++ more) :=
  ⟨fun turn hm => (mem_append.mp hm).elim (h.waiting turn) (h'.waiting turn),
    fun turn hm => (mem_append.mp hm).elim (h.unserved turn) (h'.unserved turn)⟩

theorem debt_execution {turns : List Turn} (h : Execution s ops turns s') (hs : Consistent s)
    (hops : ∀ op ∈ ops, ∀ settings, op ≠ .configure settings) (he : s.entries.lookup t = some e)
    (hp : e.state = .pending) (hpass : PassedOver t turns)
    (hreset : ∀ turn ∈ turns, ¬ ResetsBurst t turn) :
    naturalTurns e.scope.root turns ≤ debt s e := by
  induction h with
  | nil => simp [naturalTurns]
  | @cons s s₁ s₂ op ops turns more hstep hrest ih =>
    have hops' : ∀ op ∈ ops, ∀ settings, op ≠ .configure settings :=
      fun op hm => hops op (mem_cons_of_mem _ hm)
    have hreset' : ∀ turn ∈ more, ¬ ResetsBurst t turn :=
      fun turn hm => hreset turn (mem_append_right _ hm)
    cases hstep with
    | quiet hq =>
      obtain ⟨hkeep, hle⟩ := hq.pending hs he hp
      exact (ih (hq.consistent hs) hops' hkeep hpass hreset').trans hle
    | @pumped s₀ _ _ hedit hturns =>
      have hs₀ := hedit.consistent hs
      rcases hedit.pending hs (hops _ mem_cons_self) he hp with hnone | ⟨hkeep, hle⟩
      · -- `t` was cancelled or dropped: no turn of this run is left
        have hg : Gone s₀ t := ⟨hnone, hedit.nextId ▸ hs.sequenced.id_lt t e he⟩
        obtain ⟨hg', hnone'⟩ := hg.turns hturns
        have hnil : turns ++ more = [] := hpass.eq_nil fun turn hm => by
          rcases mem_append.mp hm with hm | hm
          · exact hnone' turn hm
          · exact hg'.execution hrest turn hm
        rw [hnil]
        simp [naturalTurns]
      · obtain ⟨hkeep', hpaid⟩ := debt_turns hturns hs₀ hkeep hpass.left
          fun turn hm => hreset turn (mem_append_left _ hm)
        have hmore := ih (hturns.consistent hs₀) hops' hkeep' hpass.right hreset'
        rw [naturalTurns, countP_append]
        exact le_trans (by unfold naturalTurns at hpaid hmore; omega) hle

/-- `t` begins to wait in `s`, and the run goes on under the same settings without it. -/
structure Overtaken (s : State) (t : TicketId) (e : Entry) (ops : List Op)
    (turns : List Turn) : Prop where
  reachable : Reachable s
  found : s.entries.lookup t = some e
  idle : e.state = .reserved ∨ e.state = .parked ∨ e.state = .evicted
  fixed : ∀ op ∈ ops, ∀ settings, op ≠ .configure settings
  run : ∃ s', runOps s (.beginWait t :: ops) = .ok (s', turns)
  passed : PassedOver t turns

/-- What the burst counter is meant to give: a bound from the settings and the number of
outstanding tickets alone. -/
def BoundedBypass : Prop :=
  ∀ settings : Settings, settings.validate = .ok () → ∃ bound : ℕ → ℕ,
    ∀ s t e ops turns, s.settings = settings → Overtaken s t e ops turns →
      naturalTurns e.scope.root turns ≤ bound s.outstanding

theorem debt_queued (he : s.entries.lookup t = some e) (x : Entry) : debt (s.queued t e) x ≤
      2 * s.outstanding * (s.settings.maxResumeBurst + 1) + s.settings.maxResumeBurst := by
  have hlen : (s.queued t e).entries.entries.length = s.outstanding :=
    AList.length_insert_old _ he
  have hready : readyAhead (s.queued t e) x ≤ s.outstanding :=
    hlen ▸ AList.countValues_le_length _ _
  have hfresh : freshAhead (s.queued t e) x ≤ s.outstanding :=
    hlen ▸ AList.countValues_le_length _ _
  have hset : (s.queued t e).settings = s.settings := rfl
  have hmul := Nat.mul_le_mul_right (s.settings.maxResumeBurst + 1)
    (show readyAhead (s.queued t e) x + freshAhead (s.queued t e) x ≤ 2 * s.outstanding by omega)
  unfold debt
  rw [hset]
  omega

/-- As long as no preemption resets the burst of its root behind its back, a waiting ticket
is passed over a bounded number of times, whatever else is done to the scheduler. -/
theorem bypass_bounded_unless_burst_reset {s : State} {t : TicketId} {e : Entry}
    {ops : List Op} {turns : List Turn} (h : Overtaken s t e ops turns)
    (hreset : ∀ turn ∈ turns, ¬ ResetsBurst t turn) :
    naturalTurns e.scope.root turns ≤
      2 * s.outstanding * (s.settings.maxResumeBurst + 1) + s.settings.maxResumeBurst := by
  have hs := h.reachable.consistent
  obtain ⟨s', hrun⟩ := h.run
  obtain ⟨s₁, turns₁, hwait, hturns, hs₁⟩ := beginWait_queued hs h.found h.idle
  obtain ⟨s₂, more, hops, hx⟩ := runOps_spec hs₁ ops
  have hsplit : turns = turns₁ ++ more := by
    simp only [runOps, perform, hwait, hops, Except.map, bind, Except.bind, pure,
      Except.pure, Except.ok.injEq, Prod.mk.injEq] at hrun
    exact hrun.2.symm
  subst hsplit
  -- the entry `t` waits with; its scope is the one it was reserved with
  let x : Entry := { e with
    state := .pending, readySeq := s.nextSeq, waiter := some s.nextChannel }
  have hx₀ : (s.queued t e).entries.lookup t = some x := AList.lookup_insert _
  obtain ⟨hx₁, hpaid⟩ := debt_turns hturns (consistent_queued hs h.found h.idle) hx₀
    h.passed.left fun turn hm => hreset turn (mem_append_left _ hm)
  have hrest := debt_execution hx hs₁ h.fixed hx₁ rfl h.passed.right
    fun turn hm => hreset turn (mem_append_right _ hm)
  have hbound := debt_queued h.found x
  have hroot : x.scope.root = e.scope.root := rfl
  rw [hroot] at hpaid hrest
  rw [naturalTurns, countP_append]
  unfold naturalTurns at hpaid hrest
  omega

def urgentRequest : AdmissionRequest := request "urgent" (some .userBlocking)

def onStage (o w : Entry) (n : TicketId) (u : Option Entry) (id : TicketId) : Option Entry :=
  if id = 1 then some o else if id = 2 then some w else if id = n then u else none

theorem onStage_old (o o' w : Entry) (n : TicketId) (u : Option Entry) (id : TicketId) :
    (if id = 1 then some o' else onStage o w n u id) = onStage o' w n u id := by
  unfold onStage
  split_ifs <;> rfl

variable {n : TicketId} {o w : Entry}

theorem onStage_new (hn : n ≠ 1 ∧ n ≠ 2) (u u' : Option Entry) (id : TicketId) :
    (if id = n then u' else onStage o w n u id) = onStage o w n u' id := by
  unfold onStage
  by_cases h : id = n
  · subst h; simp [hn]
  · simp [h]

structure Rivals (o w : Entry) : Prop where
  old_scope : o.scope = seatScope
  old_priority : o.priority = .normal
  old_run : o.run = (request "old" none).run
  old_kept : o.cancelRequested = false
  scope : w.scope = seatScope
  priority : w.priority = .normal
  run : w.run = (request "waiting" none).run
  pending : w.state = .pending
  older : o.seq < w.seq

structure Stage (s : State) (o w : Entry) (n : TicketId) (u : Option Entry) : Prop where
  consistent : Consistent s
  settings : s.settings = oneSeat
  rivals : Rivals o w
  entries : ∀ id, s.entries.lookup id = onStage o w n u id
  newcomer : n ≠ 1 ∧ n ≠ 2

variable {u : Option Entry}

theorem Stage.old (h : Stage s o w n u) : s.entries.lookup 1 = some o := h.entries 1

theorem Stage.waits (h : Stage s o w n u) : s.entries.lookup 2 = some w := h.entries 2

theorem Stage.new (h : Stage s o w n u) : s.entries.lookup n = u := by
  rw [h.entries n, onStage, if_neg h.newcomer.1, if_neg h.newcomer.2, if_pos rfl]

theorem Stage.cases (h : Stage s o w n u) (hx : s.entries.lookup id = some x) :
    (id = 1 ∧ x = o) ∨ (id = 2 ∧ x = w) ∨ (id = n ∧ u = some x) := by
  rw [h.entries id, onStage] at hx
  split_ifs at hx with h1 h2 h3
  · exact .inl ⟨h1, (Option.some.inj hx).symm⟩
  · exact .inr (.inl ⟨h2, (Option.some.inj hx).symm⟩)
  · exact .inr (.inr ⟨h3, hx⟩)

theorem Stage.fits (h : Stage s o w n u) (hfree : s.activeTotal = 0) (e : Entry) :
    s.fits e = true := by
  have hzero : activeCount s.entries = 0 := by rw [← h.consistent.active.total, hfree]
  have hproj : activeInProject s.entries e.scope.project ≤ activeCount s.entries :=
    countP_mono_left fun x _ hx => by
      simp only [decide_eq_true_eq] at hx ⊢
      exact hx.1
  have hroot : activeInRoot s.entries e.scope.root ≤ activeCount s.entries :=
    countP_mono_left fun x _ hx => by
      simp only [decide_eq_true_eq] at hx ⊢
      exact hx.1
  refine (fits_iff_room h.consistent e).mpr ⟨?_, ?_, ?_⟩ <;>
    · rw [h.settings]
      simp only [oneSeat]
      omega

theorem turns_full {turns : List Turn} (h : Turns s turns s')
    (hfull : s.settings.maxActiveEngine ≤ s.activeTotal) : turns = [] ∧ s' = s := by
  cases h with
  | full => exact ⟨rfl, rfl⟩
  | idle hlt => exact absurd hlt (not_lt.mpr hfull)
  | admits hlt => exact absurd hlt (not_lt.mpr hfull)

theorem turns_one_seat {turns : List Turn} (h : Turns s turns s') (hs : Consistent s)
    (hone : s.activeTotal + 1 = s.settings.maxActiveEngine) (hw : s.Waiting t e) :
    ∃ a x, turns = [⟨s, some a⟩] ∧ AdmitStep s a x s' := by
  cases h with
  | full hfull => omega
  | idle _ hb =>
    have hroot : e.scope.root ∈ s.roots := (hs.roots.exact _).mpr ⟨t, e, hw.1, rfl⟩
    have hmem := hw.mem_lane hs
    rw [hb.no_lane _ hroot] at hmem
    cases hmem
  | @admits _ s₁ _ a x turns _ ha ht =>
    have hfull : s₁.settings.maxActiveEngine ≤ s₁.activeTotal := by
      rw [ha.effect]
      simp only [afterAdmission]
      omega
    obtain ⟨rfl, rfl⟩ := turns_full ht hfull
    exact ⟨a, x, rfl, ha⟩

theorem Stage.outstanding (h : Stage s o w n none) : s.outstanding ≤ 2 := by
  have hsub : s.entries.keys ⊆ [1, 2] := by
    intro id hid
    obtain ⟨x, hx⟩ := Option.isSome_iff_exists.mp (AList.lookup_isSome.mpr hid)
    rw [h.entries id, onStage] at hx
    by_contra hnot
    simp only [mem_cons, not_mem_nil, or_false, not_or] at hnot
    simp [hnot.1, hnot.2] at hx
  have hlen := (subperm_of_subset s.entries.keys_nodup hsub).length_le
  simpa [State.outstanding, AList.keys, List.keys] using hlen

theorem Stage.arrive (h : Stage s o w n none) (hn : n = s.nextId) :
    perform s (.reserve urgentRequest) = .ok (s.reserved urgentRequest, []) ∧
      Stage (s.reserved urgentRequest) o w n (some (s.newEntry urgentRequest)) := by
  subst hn
  have hrun : s.byRun.lookup urgentRequest.run = none := by
    cases hl : s.byRun.lookup urgentRequest.run with
    | none => rfl
    | some id =>
      obtain ⟨x, hx, hxr⟩ := (h.consistent.runs _ _).mp hl
      rw [h.entries id, onStage] at hx
      split_ifs at hx
      · cases hx; rw [h.rivals.old_run] at hxr; exact absurd hxr (by decide)
      · cases hx; rw [h.rivals.run] at hxr; exact absurd hxr (by decide)
  have hout := h.outstanding
  have hqueued : s.counts.1 + s.counts.2.1 < 1024 := by
    have h1 : s.counts.1 ≤ s.outstanding :=
      AList.countValues_le_length (fun e : Entry => decide (e.state = .pending)) s.entries
    have h2 : s.counts.2.1 ≤ s.outstanding :=
      AList.countValues_le_length (fun e : Entry => decide (e.state = .reserved)) s.entries
    omega
  refine ⟨?_, consistent_reserved h.consistent hrun, h.settings, h.rivals, fun id => ?_,
    h.newcomer⟩
  · have hset : s.settings = oneSeat := h.settings
    have hreserve : s.reserve urgentRequest = (s.reserved urgentRequest, .ok s.nextId) := by
      unfold reserve
      rw [hset, hrun]
      have h1 : ¬ s.outstanding ≥ oneSeat.maxOutstanding := by
        have : oneSeat.maxOutstanding = 4096 := rfl
        omega
      have h2 : ¬ s.counts.1 + s.counts.2.1 ≥ oneSeat.maxPending := by
        have : oneSeat.maxPending = 1024 := rfl
        omega
      rw [if_neg (by decide), if_neg (by decide), if_neg (by simp), if_neg h1]
      simp only [if_neg h2]
    rw [perform, hreserve]
  · simp only [reserved, AList.lookup_insert_if, h.entries]
    exact onStage_new h.newcomer _ _ id

theorem Stage.queue (h : Stage s o w n u) (hfull : s.activeTotal = 1)
    (he : s.entries.lookup id = some e)
    (hst : e.state = .reserved ∨ e.state = .parked ∨ e.state = .evicted) :
    perform s (.beginWait id) = .ok (s.queued id e, []) := by
  obtain ⟨s', turns, hwait, hturns, -⟩ := beginWait_queued h.consistent he hst
  have hcap : (s.queued id e).settings.maxActiveEngine ≤ (s.queued id e).activeTotal := by
    have hone : s.settings.maxActiveEngine = 1 := by rw [h.settings]; rfl
    simp only [queued]
    omega
  obtain ⟨rfl, rfl⟩ := turns_full hturns hcap
  rw [perform, hwait]
  rfl

theorem Stage.swept {u : Entry} (h : Stage s o w n (some u)) (hu : u.state = .pending)
    (ho : o.state = .parked) : ∃ o', Stage s.evictParkedOverResidency o' w n (some u) ∧
      (o'.state = .parked ∨ o'.state = .evicted) ∧ o'.parkCount = o.parkCount := by
  obtain ⟨ids, hids, entries, heq, hl⟩ := s.evictParkedOverResidency_spec
  have hc := consistent_evict h.consistent
  have hkept : ∀ id, id ≠ 1 → id ∉ ids := by
    intro id hid hm
    obtain ⟨x, hx, hp⟩ := hids id hm
    rcases h.cases hx with ⟨rfl, -⟩ | ⟨-, rfl⟩ | ⟨-, hxu⟩
    · exact hid rfl
    · rw [h.rivals.pending] at hp; cases hp
    · cases hxu; rw [hu] at hp; cases hp
  rw [heq] at hc ⊢
  refine ⟨if 1 ∈ ids then evict o else o, ⟨hc, h.settings, ?_, fun id => ?_, h.newcomer⟩, ?_, ?_⟩
  · split_ifs
    · exact { h.rivals with }
    · exact h.rivals
  · rw [← onStage_old o]
    by_cases hid : id = 1
    · subst hid
      rw [hl 1, h.old, if_pos rfl]
      split_ifs <;> rfl
    · rw [hl id, if_neg (hkept id hid), if_neg hid, h.entries id]
  · split_ifs
    · exact .inr rfl
    · exact .inl ho
  · split_ifs <;> rfl

theorem Stage.no_fairness_turn (h : Stage s o w n u) (ha : AdmitStep s a x s')
    (hscope : ∀ y, u = some y → y.scope = seatScope) (hburst : burstOf s "root" ≤ 1) :
    a.fairnessTurn = false := by
  have hroots : ∀ id y, s.entries.lookup id = some y → y.scope.root = "root" := by
    intro id y hy
    rcases h.cases hy with ⟨-, rfl⟩ | ⟨-, rfl⟩ | ⟨-, hu⟩
    · rw [h.rivals.old_scope]; rfl
    · rw [h.rivals.scope]; rfl
    · rw [hscope y hu]; rfl
  obtain ⟨pre, post, hrot⟩ := ha.rotation
  have hmem : a.turnRoot ∈ s.roots := by rw [hrot.split]; simp
  obtain ⟨id, y, hy, hyr⟩ := (h.consistent.roots.exact _).mp hmem
  have hturn : a.turnRoot = "root" := by rw [← hyr, hroots id y hy]
  rw [ha.choice.fairness, hturn]
  have hcap : oneSeat.maxResumeBurst = 4 := rfl
  simp only [fairnessTurnOf, h.settings, hcap, decide_eq_false_iff_not, not_le]
  exact lt_of_le_of_lt hburst (by omega)

theorem Stage.newcomer_taken {u : Entry} (h : Stage s o w n (some u)) (ha : AdmitStep s a x s')
    (hfree : s.activeTotal = 0) (ho : o.state ≠ .pending) (hu : u.state = .pending)
    (hurgent : u.priority = .userBlocking) (hscope : u.scope = seatScope) (hyoung : w.seq < u.seq)
    (hburst : burstOf s "root" ≤ 1) (hcalm : s.priorityBurst = 0) :
    a.id = n ∧ x = u ∧ a.preempting = true ∧ a.fairnessTurn = false := by
  have hfair : a.fairnessTurn = false :=
    h.no_fairness_turn ha (by rintro y ⟨⟩; exact hscope) hburst
  have hw : s.Waiting 2 w := ⟨h.waits, h.rivals.pending, h.fits hfree w⟩
  have hn : s.Waiting n u := ⟨h.new, hu, h.fits hfree u⟩
  have hroots : u.scope.root = w.scope.root := by rw [hscope, h.rivals.scope]
  have hmine : (a.id = 2 ∧ x = w) ∨ (a.id = n ∧ x = u) := by
    rcases h.cases ha.found with ⟨-, rfl⟩ | hx | ⟨hid, hx⟩
    · exact absurd ha.choice.waiting.2.1 ho
    · exact .inl hx
    · exact .inr ⟨hid, (Option.some.inj hx).symm⟩
  cases hp : a.preempting with
  | true =>
    have hmost := ha.choice.most_urgent hp n u hn
    rcases hmine with ⟨-, rfl⟩ | ⟨hid, hx⟩
    · -- the waiting ticket is not the most urgent one
      rw [h.rivals.priority, hurgent] at hmost
      exact absurd (Prod.Lex.le_iff.mp hmost) (by simp [WorkPriority.rank])
    · exact ⟨hid, hx, rfl, hfair⟩
  | false =>
    have hturn := ha.choice.natural_root hp
    rw [ha.choice.root] at hturn
    rcases hmine with ⟨-, rfl⟩ | ⟨-, rfl⟩
    · rcases ha.choice.undisputed hp with hf | hspent | hcalmest
      · rw [hfair] at hf; cases hf
      · rw [hcalm, h.settings] at hspent
        exact absurd hspent (by decide)
      · refine absurd ?_ (hcalmest n u hn)
        rw [h.rivals.priority, hurgent]
        decide
    · have hold := ha.choice.oldest hp hfair 2 w hw (by rw [← hturn, hroots])
      exact absurd hyoung (not_lt.mpr hold)

theorem Stage.old_taken (h : Stage s o w n none) (ha : AdmitStep s a x s')
    (hfree : s.activeTotal = 0) (ho : o.state = .pending) (hburst : burstOf s "root" ≤ 1) :
    a.id = 1 ∧ x = o ∧ a.preempting = false ∧ a.fairnessTurn = false := by
  have hfair : a.fairnessTurn = false := h.no_fairness_turn ha (by simp) hburst
  have hold : s.Waiting 1 o := ⟨h.old, ho, h.fits hfree o⟩
  have hroots : o.scope.root = w.scope.root := by rw [h.rivals.old_scope, h.rivals.scope]
  have hclass : ∀ id y, s.Waiting id y → y.priority = .normal := by
    intro id y hy
    rcases h.cases hy.1 with ⟨-, rfl⟩ | ⟨-, rfl⟩ | ⟨-, hu⟩
    · exact h.rivals.old_priority
    · exact h.rivals.priority
    · cases hu
  have hp : a.preempting = false := by
    by_contra hp
    obtain ⟨id, y, hy, -, hlt⟩ := ha.choice.outranks (by simpa using hp)
    rw [hclass id y hy, hclass a.id x ha.choice.waiting] at hlt
    exact absurd hlt (by decide)
  rcases h.cases ha.found with ⟨hid, hx⟩ | ⟨-, rfl⟩ | ⟨-, hu⟩
  · exact ⟨hid, hx, hp, hfair⟩
  · have hturn := ha.choice.natural_root hp
    rw [ha.choice.root] at hturn
    have hle := ha.choice.oldest hp hfair 1 o hold (by rw [hroots, hturn])
    exact absurd h.rivals.older (not_lt.mpr hle)
  · cases hu

theorem Stage.preempted {u : Entry} (h : Stage s o w n (some u)) (hfull : s.activeTotal = 1)
    (ho : o.state = .active) (hu : u.state = .pending) (hurgent : u.priority = .userBlocking)
    (hnew : u.parkCount = 0) (hscope : u.scope = seatScope) (hyoung : w.seq < u.seq)
    (hburst : burstOf s "root" ≤ 1) (hcalm : s.priorityBurst = 0) :
    ∃ s' o' turn, perform s (.park 1) = .ok (s', [turn]) ∧
      Stage s' o' w n (some { u with state := .active, waiter := none }) ∧
      s'.activeTotal = 1 ∧ burstOf s' "root" = 0 ∧ s'.nextId = s.nextId ∧
      (o'.state = .parked ∨ o'.state = .evicted) ∧ 0 < o'.parkCount ∧
      PassedOver 2 [turn] ∧ naturalTurns "root" [turn] = 0 := by
  obtain ⟨byProject, byRoot, hbp, hbr, s', turns, hpark, hturns, hs'⟩ :=
    park_active h.consistent h.old ho h.rivals.old_kept
  set s₀ := s.unseated 1 o byProject byRoot with hs₀
  have hstage₀ : Stage s₀ { o with
      state := .parked, parkCount := o.parkCount + 1, parkedSeq := s.nextSeq } w n (some u) := by
    obtain ⟨_, _, hbp', hbr', hc⟩ := consistent_unseated h.consistent h.old ho
    obtain rfl := Option.some.inj (hbp.symm.trans hbp')
    obtain rfl := Option.some.inj (hbr.symm.trans hbr')
    refine ⟨hc, h.settings, { h.rivals with }, fun id => ?_, h.newcomer⟩
    rw [← onStage_old o, ← h.entries id]
    exact AList.lookup_insert_if _ _ _ _
  obtain ⟨o', hstage, hidle, hcount⟩ := hstage₀.swept hu rfl
  obtain ⟨entries, heq, -⟩ := relabelled_evict s₀
  have hfree : s₀.evictParkedOverResidency.activeTotal = 0 := by
    rw [heq]
    simp [hs₀, unseated, hfull]
  have hburst₁ : burstOf s₀.evictParkedOverResidency "root" ≤ 1 := by
    rw [evict_burstOf]; exact hburst
  have hcalm₁ : s₀.evictParkedOverResidency.priorityBurst = 0 := by rw [heq]; exact hcalm
  have hnext₁ : s₀.evictParkedOverResidency.nextId = s.nextId := evict_nextId s₀
  obtain ⟨a, x, rfl, ha⟩ := turns_one_seat hturns hstage.consistent
    (by rw [hfree, hstage.settings]; rfl) ⟨hstage.waits, hstage.rivals.pending, hstage.fits hfree w⟩
  obtain ⟨hid, rfl, hp, hf⟩ := hstage.newcomer_taken ha hfree
    (by rcases hidle with h0 | h0 <;> simp [h0]) hu hurgent hscope hyoung hburst₁ hcalm₁
  refine ⟨s', o', _, by rw [perform, hpark]; rfl, ?_, ?_, ?_, ?_, hidle,
    hcount ▸ Nat.succ_pos _, ⟨?_, ?_⟩, ?_⟩
  · refine ⟨hs', ?_, hstage.rivals, fun id => ?_, h.newcomer⟩
    · rw [ha.effect]; exact hstage.settings
    · rw [ha.lookup id, hid, hstage.entries id]
      exact onStage_new h.newcomer _ _ id
  · rw [ha.effect]
    simp [afterAdmission, hfree]
  · rw [burstOf_admits ha "root", hscope, hnew]
    simp [seatScope]
  · rw [ha.effect]; exact hnext₁
  · intro turn hm
    obtain rfl := mem_singleton.mp hm
    exact ⟨w, hstage.waits, hstage.rivals.pending, hstage.fits hfree w⟩
  · intro turn hm b hb
    obtain rfl := mem_singleton.mp hm
    cases hb
    rw [hid]
    exact h.newcomer.2
  · simp [naturalTurns, naturalTurn, hp]

theorem Stage.resumed {u : Entry} (h : Stage s o w n (some u)) (hfull : s.activeTotal = 1)
    (ho : o.state = .pending) (hparked : 0 < o.parkCount) (hu : u.state = .active)
    (hburst : burstOf s "root" = 0) : ∃ s' turn, perform s (.abandon n) = .ok (s', [turn]) ∧
      Stage s' { o with state := .active, waiter := none } w n none ∧
      s'.activeTotal = 1 ∧ burstOf s' "root" = 1 ∧ s'.priorityBurst = 0 ∧
      s'.nextId = s.nextId ∧ PassedOver 2 [turn] ∧ naturalTurns "root" [turn] = 1 := by
  obtain ⟨total, byProject, byRoot, hrel, s', turns, hdrop, hturns, hs'⟩ :=
    abandon_present h.consistent h.new
  set s₁ := ((s.erased n u total byProject byRoot).forgetRoot u.scope.root).settle u.waiter
    .closed with hs₁
  have hstage : Stage s₁ o w n none := by
    refine ⟨consistent_erased h.consistent h.new hrel _ _, ?_, h.rivals, fun id => ?_,
      h.newcomer⟩
    · simpa [hs₁, settle, erased] using h.settings
    · simp only [hs₁, settle, forgetRoot_entries, erased, AList.lookup_erase_if, h.entries]
      exact onStage_new h.newcomer _ _ id
  have hfree : s₁.activeTotal = 0 := by
    have htotal := (hrel.active hu).1
    simp only [hs₁, settle, forgetRoot]
    split_ifs <;> simp [erased, htotal, hfull]
  have hburst₁ : burstOf s₁ "root" = 0 := by
    have hkeep : (s.erased n u total byProject byRoot).entries.lookup 2 = some w := by
      simp only [erased, AList.lookup_erase_if, if_neg (Ne.symm h.newcomer.2), h.waits]
    have := forgetRoot_burstOf u.scope.root hkeep
    rw [h.rivals.scope] at this
    exact this.trans hburst
  obtain ⟨a, x, rfl, ha⟩ := turns_one_seat hturns hstage.consistent
    (by rw [hfree, hstage.settings]; rfl)
    ⟨hstage.waits, hstage.rivals.pending, hstage.fits hfree w⟩
  obtain ⟨hid, rfl, hp, hf⟩ := hstage.old_taken ha hfree ho (by omega)
  have hroot : a.root = "root" := by rw [ha.choice.root, h.rivals.old_scope]; rfl
  refine ⟨s', _, hdrop, ?_, ?_, ?_, ?_, ?_, ⟨?_, ?_⟩, ?_⟩
  · refine ⟨hs', ?_, { h.rivals with }, fun id => ?_, h.newcomer⟩
    · rw [ha.effect]; exact hstage.settings
    · rw [ha.lookup id, hid, hstage.entries id]
      exact onStage_old _ _ _ _ _ id
  · rw [ha.effect]
    simp [afterAdmission, hfree]
  · rw [burstOf_admits ha "root", if_pos (by rw [h.rivals.old_scope]; rfl), if_pos ⟨hf, hparked⟩,
      hburst₁]
  · rw [ha.effect]
    simp [afterAdmission, hp]
  · rw [ha.effect]
    simp [afterAdmission, hs₁, settle, erased]
  · intro turn hm
    obtain rfl := mem_singleton.mp hm
    exact ⟨w, hstage.waits, hstage.rivals.pending, hstage.fits hfree w⟩
  · intro turn hm b hb
    obtain rfl := mem_singleton.mp hm
    cases hb
    rw [hid]
    decide
  · simp [naturalTurns, naturalTurn, hp, hroot]

theorem runOps_append {s₂ : State} {more : List Op} {turns turns' : List Turn}
    (h : runOps s ops = .ok (s₁, turns)) (h' : runOps s₁ more = .ok (s₂, turns')) :
    runOps s (ops ++ more) = .ok (s₂, turns ++ turns') := by
  induction ops generalizing s turns with
  | nil => cases h; simpa using h'
  | cons op ops ih =>
    simp only [runOps, bind, Except.bind] at h
    simp only [cons_append, runOps, bind, Except.bind]
    cases hp : perform s op with
    | error err => simp [hp] at h
    | ok r =>
      simp only [hp] at h ⊢
      cases hr : runOps r.1 ops with
      | error err => simp [hr] at h
      | ok q =>
        simp only [hr, pure, Except.pure, Except.ok.injEq, Prod.mk.injEq] at h
        obtain ⟨hq, rfl⟩ := h
        have hrest : runOps r.1 (ops ++ more) = .ok (s₂, q.2 ++ turns') :=
          ih (by rw [hr, ← hq])
        simp [hrest, pure, Except.pure]

def round (n : TicketId) : List Op :=
  [.reserve urgentRequest, .beginWait n, .park 1, .beginWait 1, .abandon n]

def rounds : ℕ → TicketId → List Op
  | 0, _ => []
  | k + 1, n => round n ++ rounds k (n + 1)

theorem rounds_fixed (k : ℕ) (n : TicketId) :
    ∀ op ∈ rounds k n, ∀ settings, op ≠ .configure settings := by
  induction k generalizing n with
  | zero => simp [rounds]
  | succ k ih =>
    intro op hop
    rcases mem_append.mp hop with hop | hop
    · simp only [round, mem_cons, not_mem_nil, or_false] at hop
      rcases hop with rfl | rfl | rfl | rfl | rfl <;> simp
    · exact ih (n + 1) op hop

structure Starving (s : State) : Prop where
  stage : ∃ o w, Stage s o w s.nextId none ∧ o.state = .active
  seated : s.activeTotal = 1
  burst : burstOf s "root" ≤ 1
  calm : s.priorityBurst = 0

theorem Starving.round (h : Starving s) :
    ∃ s' turns, runOps s (round s.nextId) = .ok (s', turns) ∧ Starving s' ∧
      s'.nextId = s.nextId + 1 ∧ PassedOver 2 turns ∧ naturalTurns "root" turns = 1 := by
  obtain ⟨o, w, h₀, ho⟩ := h.stage
  set n := s.nextId with hn
  obtain ⟨hreserve, h₁⟩ := h₀.arrive hn
  set u := s.newEntry urgentRequest
  have hqueue := h₁.queue h.seated h₁.new (.inl rfl)
  set s₂ := (s.reserved urgentRequest).queued n u
  have h₂ : Stage s₂ o w n (some { u with
      state := .pending
      readySeq := (s.reserved urgentRequest).nextSeq
      waiter := some (s.reserved urgentRequest).nextChannel }) := by
    refine ⟨consistent_queued h₁.consistent h₁.new (.inl rfl), h₁.settings, h₁.rivals,
      fun id => ?_, h₁.newcomer⟩
    rw [← onStage_new h₁.newcomer (some u), ← h₁.entries id]
    exact AList.lookup_insert_if _ _ _ _
  have hyoung : w.seq < u.seq := h₀.consistent.sequenced.seq_lt 2 w h₀.waits
  obtain ⟨s₃, o₃, turn₃, hpark, h₃, hseat₃, hburst₃, hnext₃, hidle, hcount, hpass₃,
    hnat₃⟩ :=
    h₂.preempted h.seated ho rfl rfl rfl rfl hyoung h.burst h.calm
  have hresume := h₃.queue hseat₃ h₃.old (.inr hidle)
  have h₄ : Stage (s₃.queued 1 o₃) { o₃ with
      state := .pending, readySeq := s₃.nextSeq, waiter := some s₃.nextChannel } w n
      (some { u with
        state := .active
        readySeq := (s.reserved urgentRequest).nextSeq
        waiter := none }) := by
    refine ⟨consistent_queued h₃.consistent h₃.old (.inr hidle), h₃.settings,
      { h₃.rivals with }, fun id => ?_, h₃.newcomer⟩
    rw [← onStage_old o₃, ← h₃.entries id]
    exact AList.lookup_insert_if _ _ _ _
  obtain ⟨s₅, turn₅, hdrop, h₅, hseat₅, hburst₅, hcalm₅, hnext₅, hpass₅, hcount₅⟩ :=
    h₄.resumed hseat₃ rfl hcount rfl hburst₃
  have hnext : s₅.nextId = n + 1 := by rw [hnext₅]; exact hnext₃
  have hissued : 2 < n := h₀.consistent.sequenced.id_lt 2 w h₀.waits
  have h₅' : Stage s₅ { o₃ with
      state := .active, readySeq := s₃.nextSeq, waiter := none } w s₅.nextId none := by
    refine ⟨h₅.consistent, h₅.settings, h₅.rivals, fun id => ?_, ?_⟩
    · rw [h₅.entries id, onStage, onStage, ite_self, ite_self]
    · rw [hnext]
      exact ⟨Nat.ne_of_gt (Nat.lt_succ_of_lt (Nat.lt_of_succ_lt hissued)),
        Nat.ne_of_gt (Nat.lt_succ_of_lt hissued)⟩
  refine ⟨s₅, [turn₃, turn₅], ?_, ⟨⟨_, w, h₅', rfl⟩, hseat₅, hburst₅.le, hcalm₅⟩, hnext,
    hpass₃.append hpass₅, ?_⟩
  · simp only [AdmissionScheduler.round, runOps, hreserve, hqueue, hpark, hresume, hdrop, bind,
      Except.bind, pure, Except.pure]
    rfl
  · rw [naturalTurns_cons] at hnat₃ ⊢
    rw [hcount₅]
    simp only [naturalTurns, countP_nil] at hnat₃
    omega

theorem Starving.rounds (h : Starving s) (k : ℕ) :
    ∃ s' turns, runOps s (rounds k s.nextId) = .ok (s', turns) ∧ PassedOver 2 turns ∧
      naturalTurns "root" turns = k := by
  induction k generalizing s with
  | zero => exact ⟨s, [], rfl, ⟨by simp, by simp⟩, rfl⟩
  | succ k ih =>
    obtain ⟨s₁, turns, hrun, h₁, hnext, hpass, hcount⟩ := h.round
    obtain ⟨s₂, more, hrun', hpass', hcount'⟩ := ih h₁
    refine ⟨s₂, turns ++ more, ?_, hpass.append hpass', ?_⟩
    · rw [AdmissionScheduler.rounds]
      exact runOps_append hrun (hnext ▸ hrun')
    · rw [naturalTurns, countP_append]
      unfold naturalTurns at hcount hcount'
      omega

theorem Execution.settings {turns : List Turn} (h : Execution s ops turns s')
    (hops : ∀ op ∈ ops, ∀ settings, op ≠ .configure settings) : s'.settings = s.settings := by
  induction h with
  | nil => rfl
  | cons hp _ ih =>
    exact (ih fun op hm => hops op (mem_cons_of_mem _ hm)).trans
      (hp.settings (hops _ mem_cons_self))

def prelude : List Op :=
  [.reserve (request "old" none), .beginWait 1, .reserve (request "waiting" none)]

def oldEntry : Entry :=
  { run := (request "old" none).run, scope := seatScope, depth := 0, seq := 1, readySeq := 2,
    parkedSeq := 0, state := .active, priority := .normal, parkCount := 0, evictCount := 0,
    cancelRequested := false, waiter := none }

def waitingEntry : Entry :=
  { run := (request "waiting" none).run, scope := seatScope, depth := 0, seq := 3,
    readySeq := 3, parkedSeq := 0, state := .reserved, priority := .normal, parkCount := 0,
    evictCount := 0, cancelRequested := false, waiter := none }

structure AfterPrelude (s : State) : Prop where
  entries : s.entries.entries = [⟨2, waitingEntry⟩, ⟨1, oldEntry⟩]
  seated : s.activeTotal = 1
  burst : burstOf s "root" = 0
  calm : s.priorityBurst = 0
  nextId : s.nextId = 3

instance (s : State) : Decidable (AfterPrelude s) :=
  decidable_of_iff (s.entries.entries = [⟨2, waitingEntry⟩, ⟨1, oldEntry⟩] ∧
    s.activeTotal = 1 ∧ burstOf s "root" = 0 ∧ s.priorityBurst = 0 ∧ s.nextId = 3)
    ⟨fun ⟨h1, h2, h3, h4, h5⟩ => ⟨h1, h2, h3, h4, h5⟩,
      fun h => ⟨h.entries, h.seated, h.burst, h.calm, h.nextId⟩⟩

theorem exists_afterPrelude :
    ∃ s turns, runOps (new oneSeat) prelude = .ok (s, turns) ∧ s.settings = oneSeat ∧
      AfterPrelude s := by
  obtain ⟨s, turns, heq, hx⟩ := runOps_spec (consistent_new oneSeat) prelude
  have hview : ((runOps (new oneSeat) prelude).toOption.map fun r =>
      decide (AfterPrelude r.1)) = some true := by decide
  refine ⟨s, turns, heq, hx.settings (by simp [prelude]), ?_⟩
  rw [heq] at hview
  simpa [Except.toOption] using hview

theorem AfterPrelude.lookup (h : AfterPrelude s) (id : TicketId) :
    s.entries.lookup id = onStage oldEntry waitingEntry 3 none id := by
  have hl : s.entries.lookup id = List.dlookup id s.entries.entries := rfl
  rw [hl, h.entries, onStage, ite_self]
  by_cases h1 : id = 1
  · subst h1; rfl
  · by_cases h2 : id = 2
    · subst h2; rfl
    · simp [h1, h2, dlookup_cons_ne]

theorem AfterPrelude.starving (h : AfterPrelude s) (hs : Consistent s) (hset : s.settings =
      oneSeat) :
    perform s (.beginWait 2) = .ok (s.queued 2 waitingEntry, []) ∧
      Starving (s.queued 2 waitingEntry) ∧ (s.queued 2 waitingEntry).nextId = 3 := by
  have hfound : s.entries.lookup 2 = some waitingEntry := h.lookup 2
  obtain ⟨s', turns, hwait, hturns, hs'⟩ := beginWait_queued hs hfound (.inl rfl)
  have hcap : (s.queued 2 waitingEntry).settings.maxActiveEngine ≤
      (s.queued 2 waitingEntry).activeTotal := by
    have hone : s.settings.maxActiveEngine = 1 := by rw [hset]; rfl
    simp only [queued, h.seated]
    omega
  obtain ⟨rfl, rfl⟩ := turns_full hturns hcap
  have hnext : (s.queued 2 waitingEntry).nextId = 3 := h.nextId
  have hstage : Stage (s.queued 2 waitingEntry) oldEntry { waitingEntry with
      state := .pending, readySeq := s.nextSeq, waiter := some s.nextChannel }
      (s.queued 2 waitingEntry).nextId none := by
    refine ⟨hs', hset, ⟨rfl, rfl, rfl, rfl, rfl, rfl, rfl, rfl,
      show oldEntry.seq < waitingEntry.seq by decide⟩, fun id => ?_, ?_⟩
    · rw [hnext]
      simp only [queued, AList.lookup_insert_if, h.lookup, onStage, ite_self]
      by_cases h1 : id = 1
      · subst h1; rfl
      · by_cases h2 : id = 2
        · subst h2; rfl
        · simp only [h1, h2, if_false]
    · rw [hnext]; decide
  exact ⟨by rw [perform, hwait]; rfl,
    ⟨⟨oldEntry, _, hstage, rfl⟩, h.seated, h.burst.le.trans (Nat.zero_le 1), h.calm⟩, hnext⟩

instance (s : State) (t : TicketId) : Decidable (∃ e, s.Waiting t e) :=
  decidable_of_iff (∃ e ∈ s.entries.lookup t, e.state = .pending ∧ s.fits e = true) Iff.rfl

instance (t : TicketId) (turn : Turn) : Decidable (ResetsBurst t turn) :=
  inferInstanceAs (Decidable (∃ a ∈ turn.admitted, _))

/-- The first round already passes the ticket over, but has no burst to reset yet. -/
theorem bypass_bounded_first_round :
    ∃ s turns, Overtaken s 2 waitingEntry (round 3) turns ∧
      (∀ turn ∈ turns, ¬ ResetsBurst 2 turn) ∧ naturalTurns "root" turns = 1 ∧
      naturalTurns "root" turns ≤ 2 * s.outstanding * 5 + 4 := by
  obtain ⟨s, turns₀, hrun₀, hset, h⟩ := exists_afterPrelude
  have hreach : Reachable s := ⟨oneSeat, prelude, turns₀, hrun₀⟩
  obtain ⟨s', turns, hrun, -⟩ := runOps_spec hreach.consistent (.beginWait 2 :: round 3)
  have hview : ((runOps (new oneSeat) prelude).toOption.bind fun r =>
      (runOps r.1 (.beginWait 2 :: round 3)).toOption.map fun q => decide (
        (∀ turn ∈ q.2, ∃ e, turn.before.Waiting 2 e) ∧
        (∀ turn ∈ q.2, ∀ a ∈ turn.admitted, a.id ≠ 2) ∧
        (∀ turn ∈ q.2, ¬ ResetsBurst 2 turn) ∧
        naturalTurns "root" q.2 = 1)) = some true := by decide
  simp only [hrun₀, hrun, Except.toOption, Option.bind_some, Option.map_some,
    Option.some.injEq, decide_eq_true_eq] at hview
  obtain ⟨hwaiting, hunserved, hreset, hcount⟩ := hview
  have hover : Overtaken s 2 waitingEntry (round 3) turns :=
    ⟨hreach, h.lookup 2, .inl rfl, by simp [round], ⟨s', hrun⟩, hwaiting, hunserved⟩
  have hbound := bypass_bounded_unless_burst_reset hover hreset
  rw [hset] at hbound
  exact ⟨s, turns, hover, hreset, hcount, hbound⟩

theorem urgent_stream_starves : ¬ BoundedBypass := by
  intro hclaim
  obtain ⟨bound, hbound⟩ := hclaim oneSeat (by decide)
  obtain ⟨s, turns₀, hrun₀, hset, h⟩ := exists_afterPrelude
  have hreach : Reachable s := ⟨oneSeat, prelude, turns₀, hrun₀⟩
  obtain ⟨hwait, hstarving, hnext⟩ := h.starving hreach.consistent hset
  obtain ⟨s', turns, hrun, hpass, hcount⟩ := hstarving.rounds (bound s.outstanding + 1)
  have hover : Overtaken s 2 waitingEntry (rounds (bound s.outstanding + 1) 3) turns := by
    refine ⟨hreach, h.lookup 2, .inl rfl, ?_, ⟨s', ?_⟩, hpass⟩
    · exact rounds_fixed _ _
    · rw [hnext] at hrun
      simp only [runOps, hwait, hrun, bind, Except.bind, pure, Except.pure, nil_append]
  have := hbound s 2 waitingEntry _ turns hset hover
  have hroot : waitingEntry.scope.root = "root" := rfl
  rw [hroot, hcount] at this
  omega

end AdmissionScheduler
