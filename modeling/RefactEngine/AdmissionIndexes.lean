import RefactEngine.AdmissionScheduler

/-! # The redundant indexes of the scheduler

Six indexes repeat what the entries say. Each is specified here against the entries
alone, with one lemma for each kind of write: replacing an entry, adding one and
removing one. The operations are followed through these lemmas and never unfolded again.
-/
namespace AdmissionScheduler

open WorkIdentity

abbrev Entries := AList fun _ : TicketId => Entry

variable (entries : Entries)

def activeCount : ℕ := entries.countValues (·.state = .active)

def activeInProject (project : ProjectKey) : ℕ :=
  entries.countValues fun e => e.state = .active ∧ e.scope.project = project

def activeInRoot (root : CheckoutKey) : ℕ :=
  entries.countValues fun e => e.state = .active ∧ e.scope.root = root

structure ActiveExact (entries : Entries) (total : ℕ)
    (byProject : AList fun _ : ProjectKey => ℕ) (byRoot : AList fun _ : CheckoutKey => ℕ) :
    Prop where
  total : total = activeCount entries
  project : AList.Counts byProject (activeInProject entries)
  root : AList.Counts byRoot (activeInRoot entries)

def QueueExact (queue : SortedSet Slot) : Prop :=
  ∀ seq id, toLex (seq, id) ∈ queue ↔
    ∃ e, entries.lookup id = some e ∧ e.state = .pending ∧ e.seq = seq

/-- Read from left to right `byRun` is a function, so both directions are injective. -/
def RunsExact (byRun : AList fun _ : RunKey => TicketId) : Prop :=
  ∀ run id, byRun.lookup run = some id ↔ ∃ e, entries.lookup id = some e ∧ e.run = run

structure RootsExact (entries : Entries) (roots : List CheckoutKey) : Prop where
  nodup : roots.Nodup
  exact : ∀ root, root ∈ roots ↔ ∃ id e, entries.lookup id = some e ∧ e.scope.root = root

structure Sequenced (entries : Entries) (nextId nextSeq : ℕ) : Prop where
  id_lt : ∀ id e, entries.lookup id = some e → id < nextId
  seq_lt : ∀ id e, entries.lookup id = some e → e.seq < nextSeq
  ready_lt : ∀ id e, entries.lookup id = some e → e.readySeq < nextSeq
  seq_inj : ∀ id e id' e', entries.lookup id = some e → entries.lookup id' = some e' →
    e.seq = e'.seq → id = id'
  ready_inj : ∀ id e id' e', entries.lookup id = some e → entries.lookup id' = some e' →
    e.readySeq = e'.readySeq → id = id'

theorem exists_lookup_insert {entries : Entries} {id : TicketId} {e' : Entry}
    {P : TicketId → Entry → Prop} {k : TicketId} :
    (∃ x, (entries.insert id e').lookup k = some x ∧ P k x) ↔
      if k = id then P k e' else ∃ x, entries.lookup k = some x ∧ P k x := by
  rw [AList.lookup_insert_if]
  split_ifs with h <;> simp

section Replace

variable {entries : Entries} {id : TicketId} {e e' : Entry}

theorem RunsExact.replace {byRun} (h : RunsExact entries byRun)
    (he : entries.lookup id = some e) (hr : e'.run = e.run) :
    RunsExact (entries.insert id e') byRun := by
  intro run k
  rw [h run k, exists_lookup_insert (P := fun _ x => x.run = run)]
  split_ifs with hk
  · subst hk; simp [he, hr]
  · rfl

theorem RootsExact.replace {roots} (h : RootsExact entries roots)
    (he : entries.lookup id = some e) (hr : e'.scope.root = e.scope.root) :
    RootsExact (entries.insert id e') roots := by
  refine ⟨h.nodup, fun root => ?_⟩
  rw [h.exact root]
  refine exists_congr fun k => ?_
  rw [exists_lookup_insert (P := fun _ x => x.scope.root = root)]
  split_ifs with hk
  · subst hk; simp [he, hr]
  · rfl

theorem QueueExact.keep {queue} (h : QueueExact entries queue)
    (he : entries.lookup id = some e) (hp : e'.state = .pending ↔ e.state = .pending)
    (hs : e'.seq = e.seq) : QueueExact (entries.insert id e') queue := by
  intro seq k
  rw [h seq k, exists_lookup_insert (P := fun _ x => x.state = .pending ∧ x.seq = seq)]
  split_ifs with hk
  · subst hk; simp [he, hp, hs]
  · rfl

theorem QueueExact.enqueue {queue} (h : QueueExact entries queue)
    (he : entries.lookup id = some e) (hp : e'.state = .pending) (hs : e'.seq = e.seq) :
    QueueExact (entries.insert id e') (queue.insert (toLex (e.seq, id))) := by
  intro seq k
  rw [SortedSet.mem_insert, h seq k,
    exists_lookup_insert (P := fun _ x => x.state = .pending ∧ x.seq = seq)]
  split_ifs with hk
  · subst hk
    simp only [he, hp, hs, Option.some.injEq, exists_eq_left', toLex_inj, Prod.mk.injEq,
      and_true, true_and]
    exact ⟨fun h => h.elim Eq.symm And.right, fun h => .inl h.symm⟩
  · simp [hk]

theorem QueueExact.dequeue {queue} (h : QueueExact entries queue)
    (he : entries.lookup id = some e) (hp : e'.state ≠ .pending) :
    QueueExact (entries.insert id e') (queue.erase (toLex (e.seq, id))) := by
  intro seq k
  rw [SortedSet.mem_erase, h seq k,
    exists_lookup_insert (P := fun _ x => x.state = .pending ∧ x.seq = seq)]
  split_ifs with hk
  · subst hk
    simp only [he, hp, Option.some.injEq, exists_eq_left', ne_eq, toLex_inj, Prod.mk.injEq,
      and_true, false_and, iff_false, not_and]
    exact fun hne hpe heq => hne heq.symm
  · simp [hk]

theorem Sequenced.replace {nextId nextSeq} (h : Sequenced entries nextId nextSeq)
    (he : entries.lookup id = some e) (hs : e'.seq = e.seq) (hr : e'.readySeq = e.readySeq) :
    Sequenced (entries.insert id e') nextId nextSeq := by
  have lift : ∀ k x, (entries.insert id e').lookup k = some x →
      ∃ y, entries.lookup k = some y ∧ x.seq = y.seq ∧ x.readySeq = y.readySeq := by
    intro k x hx
    rw [AList.lookup_insert_if] at hx
    split_ifs at hx with hk
    · subst hk; cases hx; exact ⟨e, he, hs, hr⟩
    · exact ⟨x, hx, rfl, rfl⟩
  constructor
  · intro k x hx
    obtain ⟨y, hy, -, -⟩ := lift k x hx
    exact h.id_lt k y hy
  · intro k x hx
    obtain ⟨y, hy, hxy, -⟩ := lift k x hx
    rw [hxy]; exact h.seq_lt k y hy
  · intro k x hx
    obtain ⟨y, hy, -, hxy⟩ := lift k x hx
    rw [hxy]; exact h.ready_lt k y hy
  · intro k x k' x' hx hx' heq
    obtain ⟨y, hy, hxy, -⟩ := lift k x hx
    obtain ⟨y', hy', hxy', -⟩ := lift k' x' hx'
    exact h.seq_inj k y k' y' hy hy' (by rw [← hxy, heq, hxy'])
  · intro k x k' x' hx hx' heq
    obtain ⟨y, hy, -, hxy⟩ := lift k x hx
    obtain ⟨y', hy', -, hxy'⟩ := lift k' x' hx'
    exact h.ready_inj k y k' y' hy hy' (by rw [← hxy, heq, hxy'])

theorem Sequenced.mono {nextId nextSeq} (h : Sequenced entries nextId nextSeq) :
    Sequenced entries nextId (nextSeq + 1) :=
  ⟨h.id_lt, fun k x hx => (h.seq_lt k x hx).trans (Nat.lt_succ_self _),
    fun k x hx => (h.ready_lt k x hx).trans (Nat.lt_succ_self _), h.seq_inj, h.ready_inj⟩

theorem Sequenced.ready {nextId nextSeq} (h : Sequenced entries nextId nextSeq)
    (he : entries.lookup id = some e) (hs : e'.seq = e.seq) (hr : e'.readySeq = nextSeq) :
    Sequenced (entries.insert id e') nextId (nextSeq + 1) := by
  have cases_lookup : ∀ k x, (entries.insert id e').lookup k = some x →
      (k = id ∧ x = e') ∨ (k ≠ id ∧ entries.lookup k = some x) := by
    intro k x hx
    rw [AList.lookup_insert_if] at hx
    split_ifs at hx with hk
    · exact .inl ⟨hk, (Option.some.inj hx).symm⟩
    · exact .inr ⟨hk, hx⟩
  have hseq := h.seq_lt id e he
  constructor
  · intro k x hx
    rcases cases_lookup k x hx with ⟨rfl, -⟩ | ⟨-, hx⟩
    · exact h.id_lt k e he
    · exact h.id_lt k x hx
  · intro k x hx
    rcases cases_lookup k x hx with ⟨rfl, rfl⟩ | ⟨-, hx⟩
    · omega
    · have := h.seq_lt k x hx; omega
  · intro k x hx
    rcases cases_lookup k x hx with ⟨rfl, rfl⟩ | ⟨-, hx⟩
    · omega
    · have := h.ready_lt k x hx; omega
  · intro k x k' x' hx hx' heq
    rcases cases_lookup k x hx with ⟨rfl, rfl⟩ | ⟨-, hy⟩ <;>
      rcases cases_lookup k' x' hx' with ⟨rfl, rfl⟩ | ⟨-, hy'⟩
    · rfl
    · exact h.seq_inj k e k' x' he hy' (by rw [← hs, heq])
    · exact h.seq_inj k x k' e hy he (by rw [← hs, heq])
    · exact h.seq_inj k x k' x' hy hy' heq
  · intro k x k' x' hx hx' heq
    rcases cases_lookup k x hx with ⟨rfl, rfl⟩ | ⟨-, hy⟩ <;>
      rcases cases_lookup k' x' hx' with ⟨rfl, rfl⟩ | ⟨-, hy'⟩
    · rfl
    · have := h.ready_lt k' x' hy'; omega
    · have := h.ready_lt k x hy; omega
    · exact h.ready_inj k x k' x' hy hy' heq

theorem activeCount_replace (e' : Entry) (he : entries.lookup id = some e) :
    activeCount (entries.insert id e') + (if e.state = .active then 1 else 0) =
      activeCount entries + (if e'.state = .active then 1 else 0) := by
  simpa [activeCount] using
    AList.countValues_insert_old (fun x : Entry => decide (x.state = .active)) e' he

theorem activeInProject_replace (e' : Entry) (he : entries.lookup id = some e)
    (project : ProjectKey) :
    activeInProject (entries.insert id e') project +
        (if e.state = .active ∧ e.scope.project = project then 1 else 0) =
      activeInProject entries project +
        (if e'.state = .active ∧ e'.scope.project = project then 1 else 0) := by
  simpa [activeInProject] using AList.countValues_insert_old
    (fun x : Entry => decide (x.state = .active ∧ x.scope.project = project)) e' he

theorem activeInRoot_replace (e' : Entry) (he : entries.lookup id = some e) (root : CheckoutKey) :
    activeInRoot (entries.insert id e') root +
        (if e.state = .active ∧ e.scope.root = root then 1 else 0) =
      activeInRoot entries root +
        (if e'.state = .active ∧ e'.scope.root = root then 1 else 0) := by
  simpa [activeInRoot] using AList.countValues_insert_old
    (fun x : Entry => decide (x.state = .active ∧ x.scope.root = root)) e' he

variable {total : ℕ} {byProject : AList fun _ : ProjectKey => ℕ}
  {byRoot : AList fun _ : CheckoutKey => ℕ}

theorem ActiveExact.keep (h : ActiveExact entries total byProject byRoot)
    (he : entries.lookup id = some e) (ha : e.state ≠ .active) (ha' : e'.state ≠ .active) :
    ActiveExact (entries.insert id e') total byProject byRoot := by
  refine ⟨?_, h.project.congr fun p => ?_, h.root.congr fun r => ?_⟩
  · have := activeCount_replace e' he
    simp only [ha, ha', if_false, Nat.add_zero] at this
    rw [h.total, this]
  · have := activeInProject_replace e' he p
    simpa [ha, ha'] using this.symm
  · have := activeInRoot_replace e' he r
    simpa [ha, ha'] using this.symm

theorem ActiveExact.charge (h : ActiveExact entries total byProject byRoot)
    (he : entries.lookup id = some e) (ha : e.state ≠ .active) (ha' : e'.state = .active)
    (hs : e'.scope = e.scope) :
    ActiveExact (entries.insert id e') (total + 1) (byProject.bump e.scope.project)
      (byRoot.bump e.scope.root) := by
  refine ⟨?_, (h.project.bump _).congr fun p => ?_, (h.root.bump _).congr fun r => ?_⟩
  · have := activeCount_replace e' he
    simp only [ha, ha', if_false, if_true, Nat.add_zero] at this
    rw [h.total, this]
  · have := activeInProject_replace e' he p
    simp only [ha, ha', hs, false_and, true_and, if_false, Nat.add_zero] at this
    rw [this]
    simp [eq_comm]
  · have := activeInRoot_replace e' he r
    simp only [ha, ha', hs, false_and, true_and, if_false, Nat.add_zero] at this
    rw [this]
    simp [eq_comm]

theorem ActiveExact.discharge {entries' : Entries}
    (h : ActiveExact entries total byProject byRoot) (he : entries.lookup id = some e)
    (ha : e.state = .active)
    (ht : activeCount entries' + 1 = activeCount entries)
    (hp : ∀ p, activeInProject entries' p + (if e.scope.project = p then 1 else 0) =
      activeInProject entries p)
    (hr : ∀ r, activeInRoot entries' r + (if e.scope.root = r then 1 else 0) =
      activeInRoot entries r) :
    ∃ byProject' byRoot', byProject.drop1 e.scope.project = some byProject' ∧
      byRoot.drop1 e.scope.root = some byRoot' ∧
      ActiveExact entries' (total - 1) byProject' byRoot' := by
  have hpos : 0 < activeInProject entries e.scope.project :=
    AList.countValues_pos_of_lookup _ he (by simp [ha])
  have hpos' : 0 < activeInRoot entries e.scope.root :=
    AList.countValues_pos_of_lookup _ he (by simp [ha])
  obtain ⟨byProject', hbp, hcp⟩ := h.project.drop1 hpos
  obtain ⟨byRoot', hbr, hcr⟩ := h.root.drop1 hpos'
  refine ⟨byProject', byRoot', hbp, hbr, ?_, hcp.congr fun p => ?_, hcr.congr fun r => ?_⟩
  · have := h.total; omega
  · have := hp p
    by_cases hq : p = e.scope.project
    · subst hq; simp only [if_true] at this ⊢; omega
    · simp only [hq, Ne.symm hq, if_false] at this ⊢; omega
  · have := hr r
    by_cases hq : r = e.scope.root
    · subst hq; simp only [if_true] at this ⊢; omega
    · simp only [hq, Ne.symm hq, if_false] at this ⊢; omega

theorem ActiveExact.discharge_replace (h : ActiveExact entries total byProject byRoot)
    (he : entries.lookup id = some e) (ha : e.state = .active) (ha' : e'.state ≠ .active) :
    ∃ byProject' byRoot', byProject.drop1 e.scope.project = some byProject' ∧
      byRoot.drop1 e.scope.root = some byRoot' ∧
      ActiveExact (entries.insert id e') (total - 1) byProject' byRoot' := by
  refine h.discharge he ha ?_ (fun p => ?_) fun r => ?_
  · simpa [ha, ha'] using activeCount_replace e' he
  · simpa [ha, ha'] using activeInProject_replace e' he p
  · simpa [ha, ha'] using activeInRoot_replace e' he r

end Replace

section Erase

variable {entries : Entries} {id : TicketId} {e : Entry}

theorem exists_lookup_erase {P : TicketId → Entry → Prop} {k : TicketId} :
    (∃ x, (entries.erase id).lookup k = some x ∧ P k x) ↔
      k ≠ id ∧ ∃ x, entries.lookup k = some x ∧ P k x := by
  rw [AList.lookup_erase_if]
  split_ifs with h <;> simp [h]

theorem RunsExact.erase {byRun} (h : RunsExact entries byRun)
    (he : entries.lookup id = some e) :
    RunsExact (entries.erase id) (byRun.erase e.run) := by
  have hid : byRun.lookup e.run = some id := (h e.run id).mpr ⟨e, he, rfl⟩
  intro run k
  rw [exists_lookup_erase (P := fun _ x => x.run = run), ← h run k, AList.lookup_erase_if]
  split_ifs with hr
  · subst hr
    simp [hid, eq_comm]
  · refine ⟨fun hk => ⟨?_, hk⟩, fun hk => hk.2⟩
    rintro rfl
    obtain ⟨x, hx, hxr⟩ := (h run k).mp hk
    rw [he] at hx
    exact hr ((Option.some.inj hx) ▸ hxr.symm)

theorem QueueExact.erase {queue} (h : QueueExact entries queue)
    (he : entries.lookup id = some e) :
    QueueExact (entries.erase id) (queue.erase (toLex (e.seq, id))) := by
  intro seq k
  rw [SortedSet.mem_erase, h seq k,
    exists_lookup_erase (P := fun _ x => x.state = .pending ∧ x.seq = seq)]
  by_cases hk : k = id
  · subst hk
    simp only [he, Option.some.injEq, exists_eq_left', ne_eq, toLex_inj, Prod.mk.injEq,
      and_true, not_true, false_and, iff_false, not_and]
    exact fun hne _ heq => hne heq.symm
  · simp [hk]

theorem RootsExact.erase_shared {roots} (h : RootsExact entries roots)
    (he : entries.lookup id = some e)
    (hs : ∃ k x, (entries.erase id).lookup k = some x ∧ x.scope.root = e.scope.root) :
    RootsExact (entries.erase id) roots := by
  refine ⟨h.nodup, fun root => ?_⟩
  rw [h.exact root]
  constructor
  · rintro ⟨k, x, hx, rfl⟩
    by_cases hk : k = id
    · subst hk
      rw [he] at hx
      cases hx
      exact hs
    · exact ⟨k, x, by rw [AList.lookup_erase_if, if_neg hk]; exact hx, rfl⟩
  · rintro ⟨k, x, hx, rfl⟩
    obtain ⟨-, y, hy, rfl⟩ := exists_lookup_erase (P := fun _ y => y = x).mp ⟨x, hx, rfl⟩
    exact ⟨k, y, hy, rfl⟩

theorem RootsExact.erase_last {roots} (h : RootsExact entries roots)
    (he : entries.lookup id = some e)
    (hs : ¬ ∃ k x, (entries.erase id).lookup k = some x ∧ x.scope.root = e.scope.root) :
    RootsExact (entries.erase id) (roots.filter (· ≠ e.scope.root)) := by
  refine ⟨h.nodup.filter _, fun root => ?_⟩
  rw [List.mem_filter, h.exact root]
  constructor
  · rintro ⟨⟨k, x, hx, rfl⟩, hne⟩
    have hk : k ≠ id := by
      rintro rfl
      rw [he] at hx
      cases hx
      simp at hne
    exact ⟨k, x, by rw [AList.lookup_erase_if, if_neg hk]; exact hx, rfl⟩
  · rintro ⟨k, x, hx, rfl⟩
    obtain ⟨-, y, hy, rfl⟩ := exists_lookup_erase (P := fun _ y => y = x).mp ⟨x, hx, rfl⟩
    exact ⟨⟨k, y, hy, rfl⟩, by simpa using fun heq => hs ⟨k, y, hx, heq⟩⟩

theorem Sequenced.erase {nextId nextSeq} (h : Sequenced entries nextId nextSeq) :
    Sequenced (entries.erase id) nextId nextSeq := by
  have lift : ∀ k x, (entries.erase id).lookup k = some x → entries.lookup k = some x := by
    intro k x hx
    rw [AList.lookup_erase_if] at hx
    split_ifs at hx
    exact hx
  exact ⟨fun k x hx => h.id_lt k x (lift k x hx), fun k x hx => h.seq_lt k x (lift k x hx),
    fun k x hx => h.ready_lt k x (lift k x hx),
    fun k x k' x' hx hx' => h.seq_inj k x k' x' (lift k x hx) (lift k' x' hx'),
    fun k x k' x' hx hx' => h.ready_inj k x k' x' (lift k x hx) (lift k' x' hx')⟩

variable {total : ℕ} {byProject : AList fun _ : ProjectKey => ℕ}
  {byRoot : AList fun _ : CheckoutKey => ℕ}

theorem activeCount_erase (he : entries.lookup id = some e) :
    activeCount (entries.erase id) + (if e.state = .active then 1 else 0) =
      activeCount entries := by
  simpa [activeCount] using
    AList.countValues_erase (fun x : Entry => decide (x.state = .active)) he

theorem activeInProject_erase (he : entries.lookup id = some e) (project : ProjectKey) :
    activeInProject (entries.erase id) project +
        (if e.state = .active ∧ e.scope.project = project then 1 else 0) =
      activeInProject entries project := by
  simpa [activeInProject] using AList.countValues_erase
    (fun x : Entry => decide (x.state = .active ∧ x.scope.project = project)) he

theorem activeInRoot_erase (he : entries.lookup id = some e) (root : CheckoutKey) :
    activeInRoot (entries.erase id) root +
        (if e.state = .active ∧ e.scope.root = root then 1 else 0) =
      activeInRoot entries root := by
  simpa [activeInRoot] using AList.countValues_erase
    (fun x : Entry => decide (x.state = .active ∧ x.scope.root = root)) he

theorem ActiveExact.erase_idle (h : ActiveExact entries total byProject byRoot)
    (he : entries.lookup id = some e) (ha : e.state ≠ .active) :
    ActiveExact (entries.erase id) total byProject byRoot := by
  refine ⟨?_, h.project.congr fun p => ?_, h.root.congr fun r => ?_⟩
  · rw [h.total]
    simpa [ha] using (activeCount_erase he).symm
  · simpa [ha] using (activeInProject_erase he p).symm
  · simpa [ha] using (activeInRoot_erase he r).symm

theorem ActiveExact.discharge_erase (h : ActiveExact entries total byProject byRoot)
    (he : entries.lookup id = some e) (ha : e.state = .active) :
    ∃ byProject' byRoot', byProject.drop1 e.scope.project = some byProject' ∧
      byRoot.drop1 e.scope.root = some byRoot' ∧
      ActiveExact (entries.erase id) (total - 1) byProject' byRoot' := by
  refine h.discharge he ha ?_ (fun p => ?_) fun r => ?_
  · simpa [ha] using activeCount_erase he
  · simpa [ha] using activeInProject_erase he p
  · simpa [ha] using activeInRoot_erase he r

end Erase

section Add

variable {entries : Entries} {id : TicketId} {e : Entry}

theorem RunsExact.add {byRun} (h : RunsExact entries byRun)
    (hn : entries.lookup id = none) (hr : byRun.lookup e.run = none) :
    RunsExact (entries.insert id e) (byRun.insert e.run id) := by
  intro run k
  rw [AList.lookup_insert_if, exists_lookup_insert (P := fun _ x => x.run = run)]
  by_cases hrun : run = e.run
  · subst hrun
    have hnone : ¬ ∃ x, entries.lookup k = some x ∧ x.run = e.run := by
      rw [← h e.run k, hr]; simp
    by_cases hk : k = id
    · simp [hk]
    · simp [hk, hnone, Ne.symm hk]
  · rw [if_neg hrun, h run k]
    by_cases hk : k = id
    · subst hk; simp [hn, Ne.symm hrun]
    · simp [hk]

theorem QueueExact.add {queue} (h : QueueExact entries queue)
    (hn : entries.lookup id = none) (hp : e.state ≠ .pending) :
    QueueExact (entries.insert id e) queue := by
  intro seq k
  rw [h seq k, exists_lookup_insert (P := fun _ x => x.state = .pending ∧ x.seq = seq)]
  split_ifs with hk
  · subst hk; simp [hn, hp]
  · rfl

theorem RootsExact.add {roots} (h : RootsExact entries roots)
    (hn : entries.lookup id = none) :
    RootsExact (entries.insert id e)
      (if e.scope.root ∈ roots then roots else roots ++ [e.scope.root]) := by
  have hmem : ∀ root, (∃ k x, (entries.insert id e).lookup k = some x ∧ x.scope.root = root) ↔
      root = e.scope.root ∨ root ∈ roots := by
    intro root
    rw [h.exact root]
    constructor
    · rintro ⟨k, x, hx, rfl⟩
      rw [AList.lookup_insert_if] at hx
      split_ifs at hx with hk
      · exact .inl (Option.some.inj hx ▸ rfl)
      · exact .inr ⟨k, x, hx, rfl⟩
    · rintro (rfl | ⟨k, x, hx, rfl⟩)
      · exact ⟨id, e, by simp, rfl⟩
      · refine ⟨k, x, ?_, rfl⟩
        rw [AList.lookup_insert_if, if_neg (by rintro rfl; rw [hn] at hx; cases hx)]
        exact hx
  split_ifs with hr
  · refine ⟨h.nodup, fun root => ?_⟩
    rw [hmem root]
    exact ⟨.inr, fun hm => hm.elim (fun heq => heq ▸ hr) fun hm => hm⟩
  · refine ⟨?_, fun root => ?_⟩
    · exact List.nodup_append.mpr ⟨h.nodup, List.nodup_singleton _, fun a ha b hb => by
        rintro rfl; exact hr (List.mem_singleton.mp hb ▸ ha)⟩
    · rw [hmem root, List.mem_append, List.mem_singleton]
      tauto

theorem Sequenced.add {nextId nextSeq} (h : Sequenced entries nextId nextSeq)
    (hs : e.seq = nextSeq) (hr : e.readySeq = nextSeq) :
    Sequenced (entries.insert nextId e) (nextId + 1) (nextSeq + 1) := by
  have cases_lookup : ∀ k x, (entries.insert nextId e).lookup k = some x →
      (k = nextId ∧ x = e) ∨ (entries.lookup k = some x ∧ k < nextId ∧ x.seq < nextSeq ∧
        x.readySeq < nextSeq) := by
    intro k x hx
    rw [AList.lookup_insert_if] at hx
    split_ifs at hx with hk
    · exact .inl ⟨hk, (Option.some.inj hx).symm⟩
    · exact .inr ⟨hx, h.id_lt k x hx, h.seq_lt k x hx, h.ready_lt k x hx⟩
  constructor
  · intro k x hx
    rcases cases_lookup k x hx with ⟨rfl, -⟩ | ⟨-, hk, -⟩
    · exact Nat.lt_succ_self _
    · exact Nat.lt_succ_of_lt hk
  · intro k x hx
    rcases cases_lookup k x hx with ⟨-, rfl⟩ | ⟨-, -, hk, -⟩ <;> omega
  · intro k x hx
    rcases cases_lookup k x hx with ⟨-, rfl⟩ | ⟨-, -, -, hk⟩ <;> omega
  · intro k x k' x' hx hx' heq
    rcases cases_lookup k x hx with ⟨rfl, rfl⟩ | ⟨hy, -, hq, -⟩ <;>
      rcases cases_lookup k' x' hx' with ⟨rfl, rfl⟩ | ⟨hy', -, hq', -⟩
    · rfl
    · omega
    · omega
    · exact h.seq_inj k x k' x' hy hy' heq
  · intro k x k' x' hx hx' heq
    rcases cases_lookup k x hx with ⟨rfl, rfl⟩ | ⟨hy, -, -, hq⟩ <;>
      rcases cases_lookup k' x' hx' with ⟨rfl, rfl⟩ | ⟨hy', -, -, hq'⟩
    · rfl
    · omega
    · omega
    · exact h.ready_inj k x k' x' hy hy' heq

variable {total : ℕ} {byProject : AList fun _ : ProjectKey => ℕ}
  {byRoot : AList fun _ : CheckoutKey => ℕ}

theorem ActiveExact.add (h : ActiveExact entries total byProject byRoot)
    (hn : entries.lookup id = none) (ha : e.state ≠ .active) :
    ActiveExact (entries.insert id e) total byProject byRoot := by
  refine ⟨?_, h.project.congr fun p => ?_, h.root.congr fun r => ?_⟩
  · rw [h.total, activeCount, activeCount, AList.countValues_insert_new _ e hn]
    simp [ha]
  · rw [activeInProject, activeInProject, AList.countValues_insert_new _ e hn]
    simp [ha]
  · rw [activeInRoot, activeInRoot, AList.countValues_insert_new _ e hn]
    simp [ha]

end Add

structure SameShape (e e' : Entry) : Prop where
  run : e'.run = e.run
  scope : e'.scope = e.scope
  seq : e'.seq = e.seq
  ready : e'.readySeq = e.readySeq
  active : e'.state = .active ↔ e.state = .active
  pending : e'.state = .pending ↔ e.state = .pending

theorem SameShape.refl (e : Entry) : SameShape e e := ⟨rfl, rfl, rfl, rfl, Iff.rfl, Iff.rfl⟩

def Relabelled (entries entries' : Entries) : Prop :=
  ∀ id, Option.Rel SameShape (entries.lookup id) (entries'.lookup id)

theorem relabelled_insert {entries : Entries} {id : TicketId} {e e' : Entry}
    (he : entries.lookup id = some e) (hs : SameShape e e') :
    Relabelled entries (entries.insert id e') := by
  intro k
  rw [AList.lookup_insert_if]
  split_ifs with hk
  · subst hk
    rw [he]
    exact .some hs
  · cases entries.lookup k with
    | none => exact .none
    | some x => exact .some (.refl x)

section Relabel

variable {entries entries' : Entries}

theorem Relabelled.forward (h : Relabelled entries entries') {id : TicketId} {e : Entry}
    (he : entries.lookup id = some e) :
    ∃ e', entries'.lookup id = some e' ∧ SameShape e e' := by
  have := h id
  rw [he] at this
  cases hx : entries'.lookup id with
  | none => rw [hx] at this; cases this
  | some e' => rw [hx] at this; cases this with | some hs => exact ⟨e', rfl, hs⟩

theorem Relabelled.backward (h : Relabelled entries entries') {id : TicketId} {e' : Entry}
    (he : entries'.lookup id = some e') :
    ∃ e, entries.lookup id = some e ∧ SameShape e e' := by
  have := h id
  rw [he] at this
  cases hx : entries.lookup id with
  | none => rw [hx] at this; cases this
  | some e => rw [hx] at this; cases this with | some hs => exact ⟨e, rfl, hs⟩

theorem Relabelled.exists_iff (h : Relabelled entries entries') {id : TicketId}
    {P Q : Entry → Prop} (hpq : ∀ e e', SameShape e e' → (P e ↔ Q e')) :
    (∃ e, entries.lookup id = some e ∧ P e) ↔ ∃ e, entries'.lookup id = some e ∧ Q e := by
  constructor
  · rintro ⟨e, he, hp⟩
    obtain ⟨e', he', hs⟩ := h.forward he
    exact ⟨e', he', (hpq e e' hs).mp hp⟩
  · rintro ⟨e', he', hq⟩
    obtain ⟨e, he, hs⟩ := h.backward he'
    exact ⟨e, he, (hpq e e' hs).mpr hq⟩

theorem Relabelled.countValues (h : Relabelled entries entries') (p : Entry → Bool)
    (hp : ∀ e e', SameShape e e' → p e = p e') :
    entries.countValues p = entries'.countValues p := by
  refine AList.countValues_congr p fun id => ?_
  cases hx : entries.lookup id with
  | none =>
    cases hx' : entries'.lookup id with
    | none => rfl
    | some e' => obtain ⟨e, he, -⟩ := h.backward hx'; rw [hx] at he; cases he
  | some e =>
    obtain ⟨e', he', hs⟩ := h.forward hx
    simp [he', hp e e' hs]

theorem RunsExact.relabel {byRun} (hr : RunsExact entries byRun)
    (h : Relabelled entries entries') : RunsExact entries' byRun := by
  intro run id
  rw [hr run id]
  exact h.exists_iff fun e e' hs => by rw [hs.run]

theorem QueueExact.relabel {queue} (hq : QueueExact entries queue)
    (h : Relabelled entries entries') : QueueExact entries' queue := by
  intro seq id
  rw [hq seq id]
  exact h.exists_iff fun e e' hs => by rw [hs.pending, hs.seq]

theorem RootsExact.relabel {roots} (hr : RootsExact entries roots)
    (h : Relabelled entries entries') : RootsExact entries' roots := by
  refine ⟨hr.nodup, fun root => ?_⟩
  rw [hr.exact root]
  exact exists_congr fun id => h.exists_iff fun e e' hs => by rw [hs.scope]

theorem Sequenced.relabel {nextId nextSeq} (hs : Sequenced entries nextId nextSeq)
    (h : Relabelled entries entries') : Sequenced entries' nextId nextSeq := by
  constructor
  · intro k x hx
    obtain ⟨y, hy, -⟩ := h.backward hx
    exact hs.id_lt k y hy
  · intro k x hx
    obtain ⟨y, hy, hxy⟩ := h.backward hx
    rw [hxy.seq]; exact hs.seq_lt k y hy
  · intro k x hx
    obtain ⟨y, hy, hxy⟩ := h.backward hx
    rw [hxy.ready]; exact hs.ready_lt k y hy
  · intro k x k' x' hx hx' heq
    obtain ⟨y, hy, hxy⟩ := h.backward hx
    obtain ⟨y', hy', hxy'⟩ := h.backward hx'
    exact hs.seq_inj k y k' y' hy hy' (by rw [← hxy.seq, heq, hxy'.seq])
  · intro k x k' x' hx hx' heq
    obtain ⟨y, hy, hxy⟩ := h.backward hx
    obtain ⟨y', hy', hxy'⟩ := h.backward hx'
    exact hs.ready_inj k y k' y' hy hy' (by rw [← hxy.ready, heq, hxy'.ready])

theorem ActiveExact.relabel {total byProject byRoot}
    (ha : ActiveExact entries total byProject byRoot) (h : Relabelled entries entries') :
    ActiveExact entries' total byProject byRoot := by
  refine ⟨?_, ha.project.congr fun p => ?_, ha.root.congr fun r => ?_⟩
  · rw [ha.total]
    exact h.countValues _ fun e e' hs => by simp [hs.active]
  · exact h.countValues _ fun e e' hs => by simp [hs.active, hs.scope]
  · exact h.countValues _ fun e e' hs => by simp [hs.active, hs.scope]

end Relabel

end AdmissionScheduler
