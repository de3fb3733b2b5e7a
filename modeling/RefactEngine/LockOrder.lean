import Mathlib.Data.List.Basic
import Mathlib.Data.Prod.Lex

/-! # Ordered acquisition of shared and exclusive locks

Agents acquire the locks of a plan one by one and let go of them in any pace once they close. A fair
lock also keeps an agent waiting behind a conflicting one that queued before it. If every plan
climbs in the rank of the locks, then two agents never hold a lock in conflict, and no agents wait
for each other in a circle.
-/
namespace LockOrder

open List

inductive Mode where
  | shared
  | exclusive
  deriving DecidableEq

def Mode.Conflicts (a b : Mode) : Prop := a = .exclusive ∨ b = .exclusive

instance (a b : Mode) : Decidable (a.Conflicts b) :=
  inferInstanceAs (Decidable (a = .exclusive ∨ b = .exclusive))

theorem Mode.Conflicts.symm {a b : Mode} (h : a.Conflicts b) : b.Conflicts a := Or.symm h

variable {Agent Lock Rank : Type} [DecidableEq Agent] [LinearOrder Rank]

/-- The locks an agent holds, in the order of their acquisition, and those it still has to get. -/
structure Task (Lock : Type) where
  held : List (Lock × Mode)
  rest : List (Lock × Mode)
  closing : Bool
  deriving DecidableEq

def Task.idle : Task Lock := ⟨[], [], false⟩

structure Table (Agent Lock : Type) where
  task : Agent → Task Lock
  queue : Lock → List Agent

def Table.initial : Table Agent Lock := ⟨fun _ => .idle, fun _ => []⟩

def Table.Wants (t : Table Agent Lock) (a : Agent) (l : Lock) (m : Mode) : Prop :=
  (l, m) ∈ (t.task a).rest.head?

def Table.Holds (t : Table Agent Lock) (a : Agent) (l : Lock) (m : Mode) : Prop :=
  (l, m) ∈ (t.task a).held

def Table.Ahead (t : Table Agent Lock) (l : Lock) (b a : Agent) : Prop :=
  b ∈ t.queue l ∧ (t.queue l).idxOf b < (t.queue l).idxOf a

/-- `a` waits for a lock, and `b` holds it or is before `a` in its queue, in conflict. -/
def Blocks (fair : Lock → Bool) (t : Table Agent Lock) (a b : Agent) : Prop :=
  ∃ l m m', a ∈ t.queue l ∧ t.Wants a l m ∧ m.Conflicts m' ∧
    (t.Holds b l m' ∨ fair l = true ∧ t.Ahead l b a ∧ t.Wants b l m')

inductive Event (Agent Lock : Type) where
  | start (a : Agent) (plan : List (Lock × Mode))
  | request (a : Agent) (l : Lock)
  | acquire (a : Agent) (l : Lock)
  | close (a : Agent)
  | release (a : Agent) (l : Lock)
  | finish (a : Agent)

def Table.setTask (t : Table Agent Lock) (a : Agent) (task : Task Lock) : Table Agent Lock :=
  { t with task := Function.update t.task a task }

def Table.leave (t : Table Agent Lock) (a : Agent) : Table Agent Lock :=
  { t with queue := fun l => (t.queue l).erase a }

def Climbs (rank : Lock → Rank) (plan : List (Lock × Mode)) : Prop :=
  plan.Pairwise fun x y => rank x.1 < rank y.1

variable [DecidableEq Lock]

def Table.enqueue (t : Table Agent Lock) (a : Agent) (l : Lock) : Table Agent Lock :=
  { t with queue := Function.update t.queue l (t.queue l ++ [a]) }

omit [DecidableEq Agent] in
theorem queue_enqueue (t : Table Agent Lock) (a : Agent) (l l' : Lock) :
    (t.enqueue a l).queue l' = if l' = l then t.queue l' ++ [a] else t.queue l' := by
  by_cases hl : l' = l
  · subst hl; simp [Table.enqueue]
  · simp [Table.enqueue, hl]

inductive Step (rank : Lock → Rank) (fair : Lock → Bool) :
    Table Agent Lock → Event Agent Lock → Table Agent Lock → Prop where
  | start {t a plan} : t.task a = .idle → Climbs rank plan →
      Step rank fair t (.start a plan) (t.setTask a ⟨[], plan, false⟩)
  | request {t a l m} : t.Wants a l m → (∀ l', a ∉ t.queue l') →
      Step rank fair t (.request a l) (t.enqueue a l)
  | acquire {t a l m rest} : (t.task a).rest = (l, m) :: rest → a ∈ t.queue l →
      (∀ b, ¬ Blocks fair t a b) →
      Step rank fair t (.acquire a l)
        ((t.leave a).setTask a ⟨(t.task a).held ++ [(l, m)], rest, (t.task a).closing⟩)
  | close {t a} : Step rank fair t (.close a) ((t.leave a).setTask a ⟨(t.task a).held, [], true⟩)
  | release {t a l} : (t.task a).closing = true →
      Step rank fair t (.release a l)
        (t.setTask a ⟨(t.task a).held.filter fun x => x.1 ≠ l, (t.task a).rest, true⟩)
  | finish {t a} : (t.task a).closing = true → (t.task a).held = [] → (t.task a).rest = [] →
      Step rank fair t (.finish a) (t.setTask a .idle)

inductive Reachable (rank : Lock → Rank) (fair : Lock → Bool) : Table Agent Lock → Prop where
  | initial : Reachable rank fair .initial
  | step {t e t'} : Reachable rank fair t → Step rank fair t e t' → Reachable rank fair t'

structure Sound (rank : Lock → Rank) (t : Table Agent Lock) : Prop where
  apart : ∀ a b l m m', a ≠ b → t.Holds a l m → t.Holds b l m' → ¬ m.Conflicts m'
  climbs : ∀ a, Climbs rank ((t.task a).held ++ (t.task a).rest)
  closed : ∀ a, (t.task a).closing = true → (t.task a).rest = []
  queued : ∀ a l, a ∈ t.queue l → ∃ m, t.Wants a l m
  nodup : ∀ l, (t.queue l).Nodup

section Updates

omit [DecidableEq Lock]

variable {t : Table Agent Lock} {a b : Agent} {l : Lock} {task : Task Lock}

@[simp] theorem task_setTask_self : (t.setTask a task).task a = task :=
  Function.update_self _ _ _

@[simp] theorem task_setTask_ne (h : b ≠ a) : (t.setTask a task).task b = t.task b :=
  Function.update_of_ne h _ _

@[simp] theorem queue_setTask : (t.setTask a task).queue l = t.queue l := rfl

@[simp] theorem task_leave : (t.leave a).task b = t.task b := rfl

@[simp] theorem queue_leave : (t.leave a).queue l = (t.queue l).erase a := rfl

end Updates

section Steps

variable {rank : Lock → Rank} {fair : Lock → Bool} {t t' : Table Agent Lock} {a : Agent}

omit [DecidableEq Lock]

omit [DecidableEq Agent] in
theorem sound_initial : Sound rank (.initial : Table Agent Lock) where
  apart := fun _ _ _ _ _ _ ha => absurd ha not_mem_nil
  climbs := fun _ => List.Pairwise.nil
  closed := fun _ hc => by cases hc
  queued := fun _ _ ha => absurd ha not_mem_nil
  nodup := fun _ => nodup_nil

theorem Sound.setTask (h : Sound rank t) {task : Task Lock} (hq : ∀ l, a ∉ t.queue l)
    (hheld : ∀ b l m m', b ≠ a → (l, m) ∈ task.held → t.Holds b l m' → ¬ m.Conflicts m')
    (hclimbs : Climbs rank (task.held ++ task.rest))
    (hclosed : task.closing = true → task.rest = []) : Sound rank (t.setTask a task) where
  apart := by
    intro b c l m m' hbc hb hc
    by_cases hba : b = a
    · subst hba
      have hcb : c ≠ b := fun he => hbc he.symm
      exact hheld c l m m' hcb (by simpa [Table.Holds] using hb)
        (by simpa [Table.Holds, hcb] using hc)
    · by_cases hca : c = a
      · subst hca
        intro hcon
        exact hheld b l m' m hba (by simpa [Table.Holds] using hc)
          (by simpa [Table.Holds, hba] using hb) hcon.symm
      · exact h.apart b c l m m' hbc (by simpa [Table.Holds, hba] using hb)
          (by simpa [Table.Holds, hca] using hc)
  climbs := by
    intro b
    by_cases hba : b = a
    · subst hba; simpa using hclimbs
    · simpa [hba] using h.climbs b
  closed := by
    intro b hb
    by_cases hba : b = a
    · subst hba
      simp only [task_setTask_self] at hb ⊢
      exact hclosed hb
    · simp only [task_setTask_ne hba] at hb ⊢
      exact h.closed b hb
  queued := by
    intro b l hb
    have hba : b ≠ a := fun he => hq l (he ▸ hb)
    obtain ⟨m, hm⟩ := h.queued b l hb
    exact ⟨m, by simpa [Table.Wants, hba] using hm⟩
  nodup := h.nodup

omit [DecidableEq Agent] in
theorem Sound.apart_of_subset (h : Sound rank t) {held : List (Lock × Mode)}
    (hs : ∀ x ∈ held, x ∈ (t.task a).held) (b : Agent) (l : Lock) (m m' : Mode) (hba : b ≠ a)
    (hl : (l, m) ∈ held) (hb : t.Holds b l m') : ¬ m.Conflicts m' :=
  h.apart a b l m m' (fun he => hba he.symm) (hs _ hl) hb

theorem Sound.leave (h : Sound rank t) (a : Agent) : Sound rank (t.leave a) where
  apart := h.apart
  climbs := h.climbs
  closed := h.closed
  queued := fun b l hb => h.queued b l (mem_of_mem_erase hb)
  nodup := fun l => (h.nodup l).erase a

theorem Sound.not_mem_leave (h : Sound rank t) (a : Agent) (l : Lock) :
    a ∉ (t.leave a).queue l :=
  List.Nodup.not_mem_erase (h.nodup l)

omit [DecidableEq Agent] in
theorem Sound.not_mem_queue (h : Sound rank t) (hr : (t.task a).rest = []) (l : Lock) :
    a ∉ t.queue l := by
  intro ha
  obtain ⟨m, hm⟩ := h.queued a l ha
  rw [Table.Wants, hr] at hm
  cases hm

theorem Sound.acquire (h : Sound rank t) {l : Lock} {m : Mode} {rest : List (Lock × Mode)}
    (hr : (t.task a).rest = (l, m) :: rest) (ha : a ∈ t.queue l)
    (hfree : ∀ b, ¬ Blocks fair t a b) :
    Sound rank
      ((t.leave a).setTask a ⟨(t.task a).held ++ [(l, m)], rest, (t.task a).closing⟩) := by
  apply (h.leave a).setTask (h.not_mem_leave a)
  · intro b l' m₁ m₂ hba hl hb
    rcases mem_append.mp hl with hl | hl
    · exact h.apart_of_subset (fun _ hx => hx) b l' m₁ m₂ hba hl hb
    · obtain ⟨rfl, rfl⟩ : l' = l ∧ m₁ = m := by simpa using hl
      intro hcon
      exact hfree b ⟨l', m₁, m₂, ha, by rw [Table.Wants, hr]; rfl, hcon, Or.inl hb⟩
  · have hclimbs := h.climbs a
    rw [hr] at hclimbs
    simpa using hclimbs
  · intro hc
    rw [h.closed a hc] at hr
    cases hr

end Steps

theorem sound_step {rank : Lock → Rank} {fair : Lock → Bool} {t t' : Table Agent Lock}
    {e : Event Agent Lock} (h : Sound rank t) (hs : Step rank fair t e t') : Sound rank t' := by
  cases hs with
  | @start a plan hidle hclimbs =>
    apply h.setTask
    · exact h.not_mem_queue (by rw [hidle]; rfl)
    · exact fun _ _ _ _ _ hl => absurd hl not_mem_nil
    · exact hclimbs
    · exact fun hc => by cases hc
  | @request a l m hw hq =>
    refine ⟨h.apart, h.climbs, h.closed, ?_, ?_⟩
    · intro b l' hb
      by_cases hl : l' = l
      · subst hl
        rw [queue_enqueue, if_pos rfl] at hb
        rcases mem_append.mp hb with hb | hb
        · exact h.queued b l' hb
        · rw [mem_singleton.mp hb]; exact ⟨m, hw⟩
      · rw [queue_enqueue, if_neg hl] at hb
        exact h.queued b l' hb
    · intro l'
      by_cases hl : l' = l
      · subst hl
        rw [queue_enqueue, if_pos rfl]
        exact nodup_append.mpr ⟨h.nodup l', pairwise_singleton _ _, fun b hb c hc he =>
          hq l' (by rw [← mem_singleton.mp hc, ← he]; exact hb)⟩
      · rw [queue_enqueue, if_neg hl]; exact h.nodup l'
  | @acquire a l m rest hr ha hfree => exact h.acquire hr ha hfree
  | @close a =>
    apply (h.leave a).setTask (h.not_mem_leave a)
    · exact h.apart_of_subset fun _ hx => hx
    · rw [append_nil]
      exact (h.climbs a).sublist (sublist_append_left _ _)
    · exact fun _ => rfl
  | @release a l hc =>
    have hrest := h.closed a hc
    apply h.setTask (h.not_mem_queue hrest)
    · exact h.apart_of_subset fun _ hx => mem_of_mem_filter hx
    · exact (h.climbs a).sublist (filter_sublist.append (List.Sublist.refl _))
    · exact fun _ => hrest
  | @finish a hc hheld hrest =>
    apply h.setTask (h.not_mem_queue hrest)
    · exact fun _ _ _ _ _ hl => absurd hl not_mem_nil
    · exact List.Pairwise.nil
    · exact fun hf => by cases hf

theorem sound_reachable {rank : Lock → Rank} {fair : Lock → Bool} {t : Table Agent Lock}
    (h : Reachable rank fair t) : Sound rank t := by
  induction h with
  | initial => exact sound_initial
  | step _ hs ih => exact sound_step ih hs

section Acyclic

variable {rank : Lock → Rank} {fair : Lock → Bool} {t : Table Agent Lock} {a b : Agent}

omit [DecidableEq Lock]

/-- What an agent in a queue waits for: a lock of higher rank, or the same one at an earlier place.
-/
def Table.place (t : Table Agent Lock) (rank : Lock → Rank) (a : Agent) (l : Lock) :
    Rank ×ₗ ℕᵒᵈ :=
  toLex (rank l, OrderDual.toDual ((t.queue l).idxOf a))

omit [DecidableEq Agent] in
theorem Sound.same_lock (h : Sound rank t) {l l' : Lock} (hl : a ∈ t.queue l)
    (hl' : a ∈ t.queue l') : l = l' := by
  obtain ⟨m, hm⟩ := h.queued a l hl
  obtain ⟨m', hm'⟩ := h.queued a l' hl'
  rw [Table.Wants, Option.mem_def] at hm hm'
  rw [hm] at hm'
  exact (Prod.ext_iff.mp (Option.some.inj hm')).1

theorem Blocks.place_lt (h : Sound rank t) (hb : Blocks fair t a b) {l l' : Lock}
    (hl : a ∈ t.queue l) (hl' : b ∈ t.queue l') :
    t.place rank a l < t.place rank b l' := by
  obtain ⟨k, m, m', hk, -, -, hcase⟩ := hb
  obtain rfl : k = l := h.same_lock hk hl
  rw [Table.place, Table.place, Prod.Lex.toLex_lt_toLex]
  rcases hcase with hheld | ⟨-, ⟨hbk, hidx⟩, -⟩
  · obtain ⟨n, hn⟩ := h.queued b l' hl'
    have hclimbs := pairwise_append.mp (h.climbs b)
    exact Or.inl (hclimbs.2.2 (k, m') hheld (l', n) (List.mem_of_mem_head? hn))
  · obtain rfl : k = l' := h.same_lock hbk hl'
    exact Or.inr ⟨rfl, hidx⟩

theorem Blocks.queued (hb : Blocks fair t a b) : ∃ l, a ∈ t.queue l := by
  obtain ⟨l, m, m', hl, -⟩ := hb
  exact ⟨l, hl⟩

end Acyclic

theorem acyclic {rank : Lock → Rank} {fair : Lock → Bool} {t : Table Agent Lock}
    (h : Reachable rank fair t) (a : Agent) :
    ¬ Relation.TransGen (Blocks fair t) a a := by
  have hs := sound_reachable h
  have hclimb : ∀ b, Relation.TransGen (Blocks fair t) a b → ∀ l l', a ∈ t.queue l →
      b ∈ t.queue l' → t.place rank a l < t.place rank b l' := by
    intro b hab
    induction hab with
    | single hb => exact fun l l' hl hl' => hb.place_lt hs hl hl'
    | tail _ hb ih =>
      intro l l' hl hl'
      obtain ⟨k, hk⟩ := hb.queued
      exact (ih l k hl hk).trans (hb.place_lt hs hk hl')
  intro hcycle
  obtain ⟨c, hac, -⟩ := Relation.TransGen.head'_iff.mp hcycle
  obtain ⟨l, hl⟩ := hac.queued
  exact lt_irrefl _ (hclimb a hcycle l l hl hl)

end LockOrder
