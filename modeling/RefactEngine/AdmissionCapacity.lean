import RefactEngine.AdmissionAccounting

/-! # Capacity safety and work conservation

A permit is handed out only where all three caps leave room at that moment, and no
operation ends while a pending ticket still fits. Both follow from the turns of the pump
and from the writes before it, under whatever settings are in force.
-/
namespace AdmissionScheduler

open WorkIdentity CoordinationSettings State

/-- Room for one more active ticket of this scope, counted over the entries themselves. -/
structure Room (s : State) (scope : WorkScope) : Prop where
  engine : activeCount s.entries < s.settings.maxActiveEngine
  project : activeInProject s.entries scope.project < s.settings.maxActiveProject
  root : activeInRoot s.entries scope.root < s.settings.maxActiveRoot

variable {s : State}

theorem fits_iff_room (hs : Consistent s) (e : Entry) : s.fits e = true ↔ Room s e.scope := by
  have ht := hs.active.total
  have hp := hs.active.project.getD e.scope.project
  have hr := hs.active.root.getD e.scope.root
  unfold fits activeProject activeRoot
  rw [hp, hr, ht]
  split_ifs with h1 h2
  · exact ⟨by simp, fun h => absurd h.engine (not_lt.mpr h1)⟩
  · exact ⟨by simp, fun h => absurd h.project (not_lt.mpr h2)⟩
  · exact ⟨fun h => ⟨not_le.mp h1, not_le.mp h2, by simpa using h⟩, fun h => by simpa using h.root⟩

/-- No pending ticket fits: every free permit is out of reach of everyone waiting. -/
def Conserving (s : State) : Prop := ∀ id e, ¬ s.Waiting id e

variable {s' : State} {turns : List Turn}

theorem State.Turns.settings (h : Turns s turns s') :
    s'.settings = s.settings ∧ ∀ turn ∈ turns, turn.before.settings = s.settings := by
  induction h with
  | full => simp
  | idle _ hb => rw [hb.effect]; simp
  | admits _ ha _ ih =>
    have hs : _ = _ := congrArg State.settings ha.effect
    refine ⟨ih.1.trans hs, fun turn ht => ?_⟩
    rcases List.mem_cons.mp ht with rfl | ht
    · rfl
    · exact (ih.2 turn ht).trans hs

theorem State.Turns.conserving (h : Turns s turns s') (hs : Consistent s) : Conserving s' := by
  induction h with
  | full hcap =>
    rintro id e ⟨-, -, hf⟩
    simp [fits, hcap] at hf
  | @idle s s' _ hb =>
    rintro id e ⟨he, hp, hf⟩
    have hw : s.Waiting id e := by
      rw [hb.effect] at he hf
      exact ⟨he, hp, hf⟩
    have hroot : e.scope.root ∈ s.roots := (hs.roots.exact _).mpr ⟨id, e, hw.1, rfl⟩
    have hmem := hw.mem_lane hs
    rw [hb.no_lane _ hroot] at hmem
    cases hmem
  | admits _ ha _ ih => exact ih (ha.consistent hs)

def AdmittedBy (turns : List Turn) (id : TicketId) (scope : WorkScope) : Prop :=
  ∃ turn ∈ turns, ∃ a, turn.admitted = some a ∧ a.id = id ∧ Room turn.before scope

theorem turn_consistent (h : Turns s turns s') (hs : Consistent s) :
    ∀ turn ∈ turns, Consistent turn.before := by
  induction h with
  | full => simp
  | idle => simpa using hs
  | admits _ ha _ ih =>
    intro turn ht
    rcases List.mem_cons.mp ht with rfl | ht
    · exact hs
    · exact ih (ha.consistent hs) turn ht

variable {id : TicketId} {e' : Entry}

theorem became_active (h : Turns s turns s') (hs : Consistent s)
    (he' : s'.entries.lookup id = some e') (ha' : e'.state = .active) :
    (∃ e, s.entries.lookup id = some e ∧ e.state = .active) ∨
      AdmittedBy turns id e'.scope := by
  rcases h.lookup id with heq | ⟨e, -, -, heq, turn, hm, a, hadm, hid, -, hfits⟩
  · exact .inl ⟨e', heq ▸ he', ha'⟩
  · have hscope : e'.scope = e.scope := by
      rw [heq] at he'
      cases he'
      rfl
    exact .inr ⟨turn, hm, a, hadm, hid,
      hscope ▸ (fits_iff_room (turn_consistent h hs turn hm) e).mp hfits⟩

/-- No count grows, except up to the cap in force afterwards. -/
structure Shrinks (s s' : State) : Prop where
  engine : activeCount s'.entries ≤ max (activeCount s.entries) s'.settings.maxActiveEngine
  project : ∀ p, activeInProject s'.entries p ≤
    max (activeInProject s.entries p) s'.settings.maxActiveProject
  root : ∀ r, activeInRoot s'.entries r ≤
    max (activeInRoot s.entries r) s'.settings.maxActiveRoot

structure NoGrowth (s s' : State) : Prop where
  engine : activeCount s'.entries ≤ activeCount s.entries
  project : ∀ p, activeInProject s'.entries p ≤ activeInProject s.entries p
  root : ∀ r, activeInRoot s'.entries r ≤ activeInRoot s.entries r

variable {s₁ : State}

theorem NoGrowth.shrinks (h : NoGrowth s s₁) (h' : Shrinks s₁ s') : Shrinks s s' :=
  ⟨h'.engine.trans (max_le_max_right _ h.engine),
    fun p => (h'.project p).trans (max_le_max_right _ (h.project p)),
    fun r => (h'.root r).trans (max_le_max_right _ (h.root r))⟩

variable {e : Entry}

theorem admit_shrinks {a : Admission} (hs : Consistent s) (h : AdmitStep s a e s') :
    Shrinks s s' := by
  have hroom := (fits_iff_room hs e).mp h.choice.waiting.2.2
  have hne : e.state ≠ .active := by rw [h.choice.waiting.2.1]; simp
  rw [h.effect]
  constructor
  · have := activeCount_replace { e with state := .active, waiter := none } h.found
    simp only [hne, if_false, if_true] at this
    have := hroom.engine
    simp only [afterAdmission]
    omega
  · intro p
    have hcount := activeInProject_replace { e with state := .active, waiter := none } h.found p
    have hfree := hroom.project
    simp only [afterAdmission]
    by_cases hp : e.scope.project = p
    · subst hp
      simp only [hne, true_and, false_and, if_false, if_true] at hcount
      omega
    · simp only [hne, hp, and_false, if_false] at hcount
      omega
  · intro r
    have hcount := activeInRoot_replace { e with state := .active, waiter := none } h.found r
    have hfree := hroom.root
    simp only [afterAdmission]
    by_cases hr : e.scope.root = r
    · subst hr
      simp only [hne, true_and, false_and, if_false, if_true] at hcount
      omega
    · simp only [hne, hr, and_false, if_false] at hcount
      omega

theorem turns_shrinks (h : Turns s turns s') (hs : Consistent s) : Shrinks s s' := by
  induction h with
  | full => exact ⟨le_max_left _ _, fun _ => le_max_left _ _, fun _ => le_max_left _ _⟩
  | idle _ hb =>
    rw [hb.effect]
    exact ⟨le_max_left _ _, fun _ => le_max_left _ _, fun _ => le_max_left _ _⟩
  | @admits s s₁ s₂ a e turns _ ha ht ih =>
    have h1 := admit_shrinks hs ha
    have h2 := ih (ha.consistent hs)
    have hset : s₁.settings = s₂.settings := ht.settings.1.symm
    constructor
    · have := h1.engine; have := h2.engine; rw [hset] at *; omega
    · intro p; have := h1.project p; have := h2.project p; rw [hset] at *; omega
    · intro r; have := h1.root r; have := h2.root r; rw [hset] at *; omega

theorem replace_noGrowth (he : s.entries.lookup id = some e) (ha : e'.state ≠ .active)
    (heq : s'.entries = s.entries.insert id e') : NoGrowth s s' := by
  rw [show s' = { s' with entries := s.entries.insert id e' } by rw [← heq]]
  constructor
  · have := activeCount_replace e' he
    simp only [ha, if_false] at this
    simp only
    omega
  · intro p
    have := activeInProject_replace e' he p
    simp only [ha, false_and, if_false] at this
    simp only
    omega
  · intro r
    have := activeInRoot_replace e' he r
    simp only [ha, false_and, if_false] at this
    simp only
    omega

theorem erase_noGrowth (he : s.entries.lookup id = some e)
    (heq : s'.entries = s.entries.erase id) : NoGrowth s s' := by
  constructor
  · have := activeCount_erase he; rw [heq]; omega
  · intro p; have := activeInProject_erase he p; rw [heq]; omega
  · intro r; have := activeInRoot_erase he r; rw [heq]; omega

theorem relabel_noGrowth (h : Relabelled s.entries s'.entries) : NoGrowth s s' :=
  ⟨le_of_eq (h.countValues _ fun e e' hs => by simp [hs.active]).symm,
    fun p => le_of_eq (h.countValues _ fun e e' hs => by simp [hs.active, hs.scope]).symm,
    fun r => le_of_eq (h.countValues _ fun e e' hs => by simp [hs.active, hs.scope]).symm⟩

theorem NoGrowth.trans {s₂ : State} (h : NoGrowth s s₁) (h' : NoGrowth s₁ s₂) : NoGrowth s s₂ :=
  ⟨h'.engine.trans h.engine, fun p => (h'.project p).trans (h.project p),
    fun r => (h'.root r).trans (h.root r)⟩

theorem evict_noGrowth (s : State) : NoGrowth s s.evictParkedOverResidency := by
  obtain ⟨entries, heq, hr⟩ := relabelled_evict s
  rw [heq]
  exact relabel_noGrowth hr

@[simp] theorem forgetRoot_entries (s : State) (root : CheckoutKey) :
    (s.forgetRoot root).entries = s.entries := by
  unfold forgetRoot
  split_ifs <;> rfl

@[simp] theorem forgetRoot_settings (s : State) (root : CheckoutKey) :
    (s.forgetRoot root).settings = s.settings := by
  unfold forgetRoot
  split_ifs <;> rfl

variable {op : Op}

theorem State.Edit.noGrowth (h : Edit s op s₁) : NoGrowth s s₁ := by
  cases h with
  | wait he _ => exact replace_noGrowth he (by simp) rfl
  | park he _ _ _ _ =>
    exact NoGrowth.trans (replace_noGrowth he (by simp) rfl) (evict_noGrowth _)
  | remove he _ _ => exact erase_noGrowth he (by simp [settle, erased])
  | @configure settings _ =>
    have hset : NoGrowth s (s.configured settings) :=
      ⟨le_refl _, fun _ => le_refl _, fun _ => le_refl _⟩
    exact hset.trans (evict_noGrowth _)

theorem State.Edit.active_before (h : Edit s op s₁) (he' : s₁.entries.lookup id = some e')
    (ha' : e'.state = .active) : ∃ e, s.entries.lookup id = some e ∧ e.state = .active := by
  have evicted : ∀ s₀ : State, s₀.evictParkedOverResidency.entries.lookup id = some e' →
      ∃ e, s₀.entries.lookup id = some e ∧ e.state = .active := by
    intro s₀ hx
    obtain ⟨entries, heq, hr⟩ := relabelled_evict s₀
    rw [heq] at hx
    obtain ⟨e, he, hsame⟩ := hr.backward hx
    exact ⟨e, he, hsame.active.mp ha'⟩
  have replaced : ∀ {k x y}, (s.entries.insert k x).lookup id = some y → x.state ≠ .active →
      y.state = .active → ∃ e, s.entries.lookup id = some e ∧ e.state = .active := by
    intro k x y hy hx hya
    rw [AList.lookup_insert_if] at hy
    split_ifs at hy with hk
    · cases hy; exact absurd hya hx
    · exact ⟨y, hy, hya⟩
  cases h with
  | wait _ _ => exact replaced he' (by simp) ha'
  | park _ _ _ _ _ =>
    obtain ⟨y, hy, hya⟩ := evicted _ he'
    exact replaced hy (by simp) hya
  | remove _ _ _ =>
    simp only [settle, forgetRoot_entries, erased, AList.lookup_erase_if] at he'
    split_ifs at he'
    exact ⟨e', he', ha'⟩
  | @configure settings _ => exact evicted (s.configured settings) he'

theorem State.Quiet.active_before (h : Quiet s op s') (he' : s'.entries.lookup id = some e')
    (ha' : e'.state = .active) : ∃ e, s.entries.lookup id = some e ∧ e.state = .active := by
  cases h with
  | refuse => exact ⟨e', he', ha'⟩
  | reserve =>
    simp only [reserved, AList.lookup_insert_if] at he'
    split_ifs at he' with hk
    · cases he'; simp [newEntry] at ha'
    · exact ⟨e', he', ha'⟩
  | flag he ha _ =>
    simp only [AList.lookup_insert_if] at he'
    split_ifs at he' with hk
    · subst hk; exact ⟨_, he, ha⟩
    · exact ⟨e', he', ha'⟩

theorem State.Quiet.noGrowth (hs : Consistent s) (h : Quiet s op s') : NoGrowth s s' := by
  cases h with
  | refuse => exact ⟨le_refl _, fun _ => le_refl _, fun _ => le_refl _⟩
  | reserve hr =>
    have hs' := consistent_reserved hs hr
    refine ⟨?_, fun p => ?_, fun r => ?_⟩
    · rw [← hs'.active.total, ← hs.active.total]; rfl
    · rw [← hs'.active.project.getD, ← hs.active.project.getD]; rfl
    · rw [← hs'.active.root.getD, ← hs.active.root.getD]; rfl
  | flag he _ _ =>
    exact relabel_noGrowth (relabelled_insert he ⟨rfl, rfl, rfl, rfl, Iff.rfl, Iff.rfl⟩)

theorem evict_settings (s : State) : s.evictParkedOverResidency.settings = s.settings := by
  obtain ⟨entries, heq, -⟩ := relabelled_evict s
  rw [heq]

theorem State.Performed.settings (h : Performed s op s' turns)
    (hop : ∀ settings, op ≠ .configure settings) : s'.settings = s.settings := by
  cases h with
  | quiet hq => cases hq <;> rfl
  | pumped he ht =>
    rw [ht.settings.1]
    cases he with
    | wait => rfl
    | park => rw [evict_settings]; rfl
    | remove => simp [settle, erased]
    | configure => exact absurd rfl (hop _)

theorem State.Quiet.conserving (h : Quiet s op s') (hc : Conserving s) : Conserving s' := by
  intro id e ⟨he, hp, hf⟩
  cases h with
  | refuse => exact hc id e ⟨he, hp, hf⟩
  | reserve =>
    simp only [reserved, AList.lookup_insert_if] at he
    split_ifs at he with hk
    · cases he; simp [newEntry] at hp
    · exact hc id e ⟨he, hp, hf⟩
  | flag hx ha _ =>
    simp only [AList.lookup_insert_if] at he
    split_ifs at he with hk
    · cases he; simp [ha] at hp
    · exact hc id e ⟨he, hp, hf⟩

structure Admits (s s' : State) (turns : List Turn) : Prop where
  settings : ∀ turn ∈ turns, turn.before.settings = s'.settings
  room : ∀ turn ∈ turns, ∀ a, turn.admitted = some a →
    ∃ e, turn.before.entries.lookup a.id = some e ∧ e.state = .pending ∧
      Room turn.before e.scope
  only : ∀ id e', s'.entries.lookup id = some e' → e'.state = .active →
    (∃ e, s.entries.lookup id = some e ∧ e.state = .active) ∨ AdmittedBy turns id e'.scope

theorem turns_room (h : Turns s turns s') (hs : Consistent s) :
    ∀ turn ∈ turns, ∀ a, turn.admitted = some a →
      ∃ e, turn.before.entries.lookup a.id = some e ∧ e.state = .pending ∧
        Room turn.before e.scope := by
  induction h with
  | full => simp
  | idle => simp
  | @admits s s₁ s₂ a e turns _ ha _ ih =>
    intro turn ht b hb
    rcases List.mem_cons.mp ht with rfl | ht
    · obtain ⟨hfound, hp, hf⟩ := ha.choice.waiting
      cases hb
      exact ⟨e, hfound, hp, (fits_iff_room hs e).mp hf⟩
    · exact ih (ha.consistent hs) turn ht b hb

theorem State.Performed.admits (hs : Consistent s) (h : Performed s op s' turns) :
    Admits s s' turns := by
  cases h with
  | quiet hq =>
    exact ⟨by simp, by simp, fun id e' he' ha' => .inl (hq.active_before he' ha')⟩
  | pumped he ht =>
    have hs₁ := he.consistent hs
    refine ⟨fun turn hm => (ht.settings.2 turn hm).trans ht.settings.1.symm,
      turns_room ht hs₁, fun id e' he' ha' => ?_⟩
    rcases became_active ht hs₁ he' ha' with ⟨x, hx, hxa⟩ | hadm
    · exact .inl (he.active_before hx hxa)
    · exact .inr hadm

theorem State.Performed.shrinks (hs : Consistent s) (h : Performed s op s' turns) :
    Shrinks s s' := by
  cases h with
  | quiet hq =>
    exact (hq.noGrowth hs).shrinks
      ⟨le_max_left _ _, fun _ => le_max_left _ _, fun _ => le_max_left _ _⟩
  | pumped he ht => exact he.noGrowth.shrinks (turns_shrinks ht (he.consistent hs))

theorem State.Performed.conserving (hs : Consistent s) (h : Performed s op s' turns)
    (hc : Conserving s) : Conserving s' := by
  cases h with
  | quiet hq => exact hq.conserving hc
  | pumped he ht => exact ht.conserving (he.consistent hs)

theorem Execution.conserving {ops : List Op} (h : Execution s ops turns s') (hs : Consistent s)
    (hc : Conserving s) : Conserving s' := by
  induction h with
  | nil => exact hc
  | cons hp _ ih => exact ih (hp.consistent hs) (hp.conserving hs hc)

structure WithinCaps (s : State) : Prop where
  engine : activeCount s.entries ≤ s.settings.maxActiveEngine
  project : ∀ p, activeInProject s.entries p ≤ s.settings.maxActiveProject
  root : ∀ r, activeInRoot s.entries r ≤ s.settings.maxActiveRoot

theorem Execution.withinCaps {ops : List Op} (h : Execution s ops turns s') (hs : Consistent s)
    (hw : WithinCaps s) (hops : ∀ op ∈ ops, ∀ settings, op ≠ .configure settings) :
    WithinCaps s' := by
  induction h with
  | nil => exact hw
  | cons hp _ ih =>
    have hsh := hp.shrinks hs
    have hset := hp.settings (hops _ List.mem_cons_self)
    refine ih (hp.consistent hs) ⟨?_, fun p => ?_, fun r => ?_⟩
      fun op hop => hops op (List.mem_cons_of_mem _ hop)
    · exact hsh.engine.trans (max_le (by rw [hset]; exact hw.engine) (le_refl _))
    · exact (hsh.project p).trans (max_le (by rw [hset]; exact hw.project p) (le_refl _))
    · exact (hsh.root r).trans (max_le (by rw [hset]; exact hw.root r) (le_refl _))

/-- After any run no pending ticket fits, and the caps hold if the settings never changed.
Whatever operation comes next, it admits only where all three caps left room just before,
under the settings in force, and it lets no count grow beyond its cap. -/
theorem capacity_safety_and_work_conservation (settings : Settings) (ops : List Op) :
    ∃ s turns, runOps (new settings) ops = .ok (s, turns) ∧
      (∀ id e, s.entries.lookup id = some e → e.state = .pending → s.fits e = false) ∧
      ((∀ op ∈ ops, ∀ settings', op ≠ .configure settings') → WithinCaps s) ∧
      ∀ op, ∃ s' turns', perform s op = .ok (s', turns') ∧ Admits s s' turns' ∧
        Shrinks s s' := by
  have hnew := consistent_new settings
  obtain ⟨s, turns, heq, hx⟩ := runOps_spec hnew ops
  have hs := hx.consistent hnew
  have hcaps : WithinCaps (new settings) :=
    ⟨Nat.zero_le _, fun _ => Nat.zero_le _, fun _ => Nat.zero_le _⟩
  refine ⟨s, turns, heq, fun id e he hp => ?_, hx.withinCaps hnew hcaps, fun op => ?_⟩
  · have hc := hx.conserving hnew (by intro id e h; simp [Waiting, new] at h)
    exact Bool.eq_false_iff.mpr fun hf => hc id e ⟨he, hp, hf⟩
  · obtain ⟨s', turns', heq', hp⟩ := perform_spec hs op
    exact ⟨s', turns', heq', hp.admits hs, hp.shrinks hs⟩

def Entry.unserved (e : Entry) : Bool := e.state = .pending ∨ e.state = .active

def unserved (s : State) : ℕ := s.entries.countValues Entry.unserved

inductive GivesBack : State → ℕ → State → Prop where
  | done (s : State) : GivesBack s 0 s
  | give {s s₁ s' : State} {id : TicketId} {e : Entry} {turns : List Turn} {n : ℕ} :
      s.entries.lookup id = some e → e.state = .active → s.abandon id = .ok (s₁, turns) →
      GivesBack s₁ n s' → GivesBack s (n + 1) s'

structure Roomy (settings : Settings) : Prop where
  engine : 0 < settings.maxActiveEngine
  project : 0 < settings.maxActiveProject
  root : 0 < settings.maxActiveRoot

theorem roomy_of_validate {settings : Settings} (h : settings.validate = .ok ()) :
    Roomy settings := by
  have hnone : settings.violations = [] := by
    unfold Settings.validate at h
    split_ifs at h with hempty
    exact List.isEmpty_iff.mp hempty
  unfold Settings.violations at hnone
  simp only [List.append_eq_nil_iff, atLeast, ite_eq_right_iff] at hnone
  constructor
  all_goals
    by_contra hzero
    simp_all

theorem State.Performed.roomy (h : Performed s op s' turns) (hr : Roomy s.settings) :
    Roomy s'.settings := by
  by_cases hop : ∃ settings, op = .configure settings
  · obtain ⟨settings, rfl⟩ := hop
    cases h with
    | quiet hq => cases hq <;> exact hr
    | pumped he ht =>
      rw [ht.settings.1]
      cases he with
      | remove _ hcase _ => rcases hcase with h | ⟨-, h | ⟨_, h, -⟩⟩ <;> cases h
      | configure hv =>
        rw [evict_settings]
        exact roomy_of_validate hv
  · rw [h.settings fun settings heq => hop ⟨settings, heq⟩]
    exact hr

theorem Execution.roomy {ops : List Op} (h : Execution s ops turns s') (hr : Roomy s.settings) :
    Roomy s'.settings := by
  induction h with
  | nil => exact hr
  | cons hp _ ih => exact ih (hp.roomy hr)

theorem exists_active (hs : Consistent s) (hc : Conserving s) (hr : Roomy s.settings) {e : Entry}
    (he : s.entries.lookup id = some e) (hp : e.state = .pending) :
    ∃ k x, s.entries.lookup k = some x ∧ x.state = .active := by
  by_contra hnone
  push Not at hnone
  have hzero : ∀ p : Entry → Bool, (∀ x, p x = true → x.state = .active) →
      s.entries.countValues p = 0 := fun p himp =>
    Nat.eq_zero_of_not_pos fun hpos => by
      obtain ⟨k, x, hx, hpx⟩ := AList.exists_of_countValues_pos p hpos
      exact hnone k x hx (himp x hpx)
  refine hc id e ⟨he, hp, (fits_iff_room hs e).mpr ⟨?_, ?_, ?_⟩⟩
  · exact (hzero _ (by simp)).trans_lt hr.engine
  · exact (hzero _ (by simp +contextual)).trans_lt hr.project
  · exact (hzero _ (by simp +contextual)).trans_lt hr.root

theorem State.Turns.unserved (h : Turns s turns s') : unserved s' = unserved s := by
  induction h with
  | full => rfl
  | idle _ hb => rw [hb.effect]; rfl
  | @admits s s₁ _ a e _ _ ha _ ih =>
    have hcount := AList.countValues_insert_old Entry.unserved
      { e with state := .active, waiter := none } ha.found
    rw [ih, AdmissionScheduler.unserved, ha.effect]
    simpa [Entry.unserved, AdmissionScheduler.unserved, afterAdmission,
      ha.choice.waiting.2.1] using hcount

structure Served (s : State) (total : ℕ) : Prop where
  consistent : Consistent s
  conserving : Conserving s
  roomy : Roomy s.settings
  total : unserved s = total

theorem Served.give {n : ℕ} (h : Served s (n + 1)) {e : Entry}
    (he : s.entries.lookup id = some e) (ha : e.state = .active) :
    ∃ s' turns, s.abandon id = .ok (s', turns) ∧ Served s' n := by
  obtain ⟨total, byProject, byRoot, -, s', turns, heq, hturns, hs'⟩ :=
    abandon_present h.consistent he
  have hp : Performed s (.abandon id) s' turns := performed_of_perform h.consistent heq
  refine ⟨s', turns, heq, hs', hp.conserving h.consistent h.conserving, hp.roomy h.roomy, ?_⟩
  have hcount := AList.countValues_erase Entry.unserved he
  rw [Entry.unserved, ha, if_pos (by decide)] at hcount
  have htotal : unserved s = n + 1 := h.total
  rw [hturns.unserved]
  simp only [unserved, settle, forgetRoot_entries, erased] at htotal ⊢
  omega

theorem GivesBack.served {n total : ℕ} (h : GivesBack s n s') (hs : Served s total) :
    ∃ left, Served s' left ∧ left + n = total := by
  induction h generalizing total with
  | done s => exact ⟨total, hs, rfl⟩
  | @give s s₁ _ _ e _ n he ha hgive _ ih =>
    have hpos : 0 < total :=
      hs.total ▸ AList.countValues_pos_of_lookup _ he (by simp [Entry.unserved, ha])
    obtain ⟨total, rfl⟩ := Nat.exists_eq_succ_of_ne_zero hpos.ne'
    obtain ⟨s₂, turns, heq, hserved⟩ := hs.give he ha
    rw [hgive] at heq
    cases heq
    obtain ⟨left, hleft, hsum⟩ := ih hserved
    exact ⟨left, hleft, by omega⟩

/-- Whichever permits are given back one after another, each time one ticket less is unserved, and
while some ticket waits there is a permit that can be given back. -/
def ServesAll (s : State) : Prop :=
  ∀ n s', GivesBack s n s' → unserved s' + n = unserved s ∧
    ∀ id e, s'.entries.lookup id = some e → e.state = .pending → ∃ s'', GivesBack s' 1 s''

/-- After any run no ticket waits for ever: as many give-backs as there are unserved tickets leave
none that waits, and until then there is always a permit to give back. -/
theorem waiting_is_served (settings : Settings) (hvalid : settings.validate = .ok ())
    (ops : List Op) :
    ∃ s turns, runOps (new settings) ops = .ok (s, turns) ∧ ServesAll s := by
  have hnew := consistent_new settings
  obtain ⟨s, turns, heq, hx⟩ := runOps_spec hnew ops
  have hserved : Served s (unserved s) :=
    ⟨hx.consistent hnew, hx.conserving hnew (by intro id e h; simp [Waiting, new] at h),
      hx.roomy (roomy_of_validate hvalid), rfl⟩
  refine ⟨s, turns, heq, fun n s' hgives => ?_⟩
  obtain ⟨left, hleft, hsum⟩ := hgives.served hserved
  refine ⟨hleft.total ▸ hsum, fun id e he hp => ?_⟩
  obtain ⟨k, x, hk, hactive⟩ :=
    exists_active hleft.consistent hleft.conserving hleft.roomy he hp
  obtain ⟨_, _, _, -, s'', turns', hgive, -⟩ := abandon_present hleft.consistent hk
  exact ⟨s'', .give hk hactive hgive (.done s'')⟩

def oneSeat : Settings :=
  { CoordinationSettings.default with
    maxActiveEngine := 1, maxActiveProject := 1, maxActiveRoot := 1 }

def seatScope : WorkScope := ⟨"project", "root"⟩

def request (name : String) (priority : Option WorkPriority) : AdmissionRequest :=
  ⟨(WorkKey.trajectory name).run 1, seatScope, 0, priority⟩

def twoRuns : List Op :=
  [.reserve (request "first" none), .beginWait 1, .reserve (request "second" none), .beginWait 2]

theorem second_run_is_served : oneSeat.validate = .ok () ∧
    ∃ s turns, runOps (new oneSeat) twoRuns = .ok (s, turns) ∧
      (s.entries.lookup 1).map Entry.state = some .active ∧
      (s.entries.lookup 2).map Entry.state = some .pending ∧ ServesAll s := by
  obtain ⟨s, turns, heq, hserves⟩ := waiting_is_served oneSeat (by decide) twoRuns
  have hview : ((runOps (new oneSeat) twoRuns).toOption.map fun r =>
      ((r.1.entries.lookup 1).map Entry.state, (r.1.entries.lookup 2).map Entry.state)) =
      some (some .active, some .pending) := by decide
  rw [heq] at hview
  obtain ⟨hactive, hpending⟩ := Prod.mk.inj (Option.some.inj hview)
  exact ⟨by decide, s, turns, heq, hactive, hpending, hserves⟩

end AdmissionScheduler
