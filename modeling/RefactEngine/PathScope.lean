import Mathlib.Data.List.Infix
import RefactEngine.FiniteMap

/-! # Declared and enforced path scopes

A card declares the files it means to touch and how strictly that is meant. The registry keeps the
scope a run was accepted with and lets a later declaration only narrow it; an edit is decided
under the scope in force and the card's present mode.
-/
namespace PathScope

inductive ScopeGuardMode where
  | off
  | warn
  | reject
  | strict
  deriving DecidableEq

/-- No entries means that no scope is declared; an empty list of entries grants nothing. -/
structure Scope where
  entries : Option (List String)
  strict : Bool
  deriving DecidableEq

inductive ScopeOutcome where
  | allowed
  | warned (path : String) (scope : List String)
  | refused (path : String) (scope : List String)
  deriving DecidableEq

structure Limits where
  strictPathScopeDefault : Bool
  maxPathScopeEntries : ℕ
  maxOutstanding : ℕ
  deriving DecidableEq

def declared (entries : List String) (strict : Bool) : Scope :=
  ⟨if entries = [] then none else some entries, strict⟩

def Scope.isEnforced (scope : Scope) : Bool := scope.strict && scope.entries.isSome

def scopeForMode (mode : ScopeGuardMode) (targetFiles : List String) (limits : Limits) : Scope :=
  let strict := match mode with
    | .strict => true
    | .reject => limits.strictPathScopeDefault
    | .off | .warn => false
  declared targetFiles strict

def narrow (accepted current : Scope) : Scope where
  entries := match accepted.entries, current.entries with
    | none, current => current
    | some accepted, none => some accepted
    | some accepted, some current => some (current.filter fun entry => entry ∈ accepted)
  strict := accepted.strict || current.strict

/-- The file system: canonical paths, and the identity that aliases of one file share. -/
structure Host where
  identity : String → Except String String
  canonicalize : String → Option String

def components (path : String) : List String :=
  let chars := path.toList
  let parts := (chars.splitOn '/').map String.ofList
  (if chars.head? = some '/' then ["/"] else []) ++
    (if parts.head? = some "." then ["."] else []) ++
    parts.filter fun part => part ≠ "" && part ≠ "."

def trimStartSlashes (entry : String) : String :=
  String.ofList (entry.toList.dropWhile fun c => c = '/' || c = '\\')

def join (root entry : String) : String :=
  if root = "" || root.toList.getLast? = some '/' then root ++ entry else root ++ "/" ++ entry

variable (host : Host)

def contains (root : String) (entries : List String) (candidate : String) :
    Except String Bool :=
  let resolved := entries.filterMap fun entry =>
    (host.identity (join root (trimStartSlashes entry))).toOption
  match host.identity candidate with
  | .error error => .error error
  | .ok candidate => .ok (resolved.any fun entry =>
      candidate = entry || (components entry).isPrefixOf (components candidate))

def legacyOutcome (mode : ScopeGuardMode) (entries : List String)
    (candidate : String) : ScopeOutcome :=
  let canon := (host.canonicalize candidate).getD candidate
  let allowed := entries.any fun target =>
    (components (trimStartSlashes target)).isSuffixOf (components canon)
  let isTest := decide ("/tests/".toList <:+: canon.toList) ||
    ["_test.rs", ".test.ts", ".test.tsx"].any fun ending => ending.toList.isSuffixOf canon.toList
  if allowed || isTest then .allowed
  else match mode with
    | .reject => .refused canon entries
    | _ => .warned canon entries

def decideScope (mode : ScopeGuardMode) (scope : Scope) (root candidate : String)
    (limits : Limits) : Except String ScopeOutcome :=
  match scope.entries with
  | none => .ok .allowed
  | some entries =>
    if mode = .off then .ok .allowed
    else if scope.strict then
      if limits.maxPathScopeEntries < entries.length then
        .error (s!"declared path scope has {entries.length} entries but max_path_scope_entries is " ++
          s!"{limits.maxPathScopeEntries}; refusing to enforce an unbounded scope")
      else match contains host root entries candidate with
        | .error error => .error error
        | .ok true => .ok .allowed
        | .ok false => .ok (.refused candidate entries)
    else .ok (legacyOutcome host mode entries candidate)

abbrev Registry := AList fun _ : String => Scope

def narrowPathScope (maxOutstanding : ℕ) (scopes : Registry) (key : String) (current : Scope) :
    Scope × Registry :=
  match scopes.lookup key with
  | some accepted => (narrow accepted current, scopes.insert key (narrow accepted current))
  | none =>
    if maxOutstanding ≤ scopes.entries.length then (current, scopes)
    else (current, scopes.insert key current)

/-- What a card declares at one dispatch, resume or edit, with the settings of that moment. -/
structure Declaration where
  key : String
  mode : ScopeGuardMode
  targetFiles : List String
  limits : Limits
  deriving DecidableEq

variable (scopes : Registry)

def declare (d : Declaration) : Scope × Registry :=
  narrowPathScope d.limits.maxOutstanding scopes d.key (scopeForMode d.mode d.targetFiles d.limits)

def declareAll (run : List Declaration) : Registry :=
  run.foldl (fun scopes d => (declare scopes d).2) scopes

def verdict (d : Declaration) (root candidate : String) :
    Except String ScopeOutcome :=
  decideScope host d.mode (declare scopes d).1 root candidate d.limits

def Bounded (entries : List String) (scope : Scope) : Prop :=
  scope.strict = true ∧ ∃ kept, scope.entries = some kept ∧ ∀ entry ∈ kept, entry ∈ entries

variable {entries : List String}

theorem bounded_narrow {accepted : Scope} (h : Bounded entries accepted) (current : Scope) :
    Bounded entries (narrow accepted current) := by
  obtain ⟨hstrict, kept, hkept, hsub⟩ := h
  refine ⟨by simp [narrow, hstrict], ?_⟩
  cases hcur : current.entries with
  | none => exact ⟨kept, by simp [narrow, hkept, hcur], hsub⟩
  | some wanted =>
    refine ⟨wanted.filter fun entry => entry ∈ kept, by simp [narrow, hkept, hcur], ?_⟩
    intro entry hentry
    exact hsub entry (of_decide_eq_true (List.mem_filter.mp hentry).2)

def BoundedAt (entries : List String) (key : String) (scopes : Registry) : Prop :=
  ∃ scope, scopes.lookup key = some scope ∧ Bounded entries scope

variable {scopes : Registry} {d : Declaration} {key : String}

theorem lookup_declare_ne (h : key ≠ d.key) :
    (declare scopes d).2.lookup key = scopes.lookup key := by
  simp only [declare, narrowPathScope]
  cases scopes.lookup d.key with
  | some accepted => exact AList.lookup_insert_ne h
  | none =>
    dsimp only
    split
    · rfl
    · exact AList.lookup_insert_ne h

theorem declare_recorded {accepted : Scope} (h : scopes.lookup d.key = some accepted) :
    (declare scopes d).1 = narrow accepted (scopeForMode d.mode d.targetFiles d.limits) ∧
      (declare scopes d).2.lookup d.key = some (declare scopes d).1 := by
  simp [declare, narrowPathScope, h]

theorem lookup_declare_self
    (h : scopes.lookup d.key ≠ none ∨ scopes.entries.length < d.limits.maxOutstanding) :
    (declare scopes d).2.lookup d.key = some (declare scopes d).1 := by
  cases hlook : scopes.lookup d.key with
  | some accepted => exact (declare_recorded hlook).2
  | none =>
    have hroom : ¬ d.limits.maxOutstanding ≤ scopes.entries.length := by
      rcases h with h | h
      · exact absurd hlook h
      · omega
    simp [declare, narrowPathScope, hlook, hroom]

theorem boundedAt_declare (h : BoundedAt entries key scopes) (d : Declaration) :
    BoundedAt entries key (declare scopes d).2 := by
  obtain ⟨scope, hscope, hbounded⟩ := h
  by_cases hkey : key = d.key
  · subst hkey
    obtain ⟨heff, hlook⟩ := declare_recorded hscope
    exact ⟨_, hlook, heff ▸ bounded_narrow hbounded _⟩
  · exact ⟨scope, (lookup_declare_ne hkey).trans hscope, hbounded⟩

theorem boundedAt_declareAll (h : BoundedAt entries key scopes) (run : List Declaration) :
    BoundedAt entries key (declareAll scopes run) := by
  induction run generalizing scopes with
  | nil => exact h
  | cons d run ih => exact ih (boundedAt_declare h d)

theorem bounded_of_boundedAt (h : BoundedAt entries d.key scopes) :
    Bounded entries (declare scopes d).1 := by
  obtain ⟨scope, hscope, hbounded⟩ := h
  rw [(declare_recorded hscope).1]
  exact bounded_narrow hbounded _

variable {candidate root : String} {host : Host}

theorem contains_of_subset {kept : List String} (hsub : ∀ entry ∈ kept, entry ∈ entries)
    (h : contains host root entries candidate = .ok false) :
    contains host root kept candidate = .ok false := by
  simp only [contains] at h ⊢
  cases hidentity : host.identity candidate with
  | error error =>
    rw [hidentity] at h
    cases h
  | ok identity =>
    rw [hidentity] at h
    simp only [Except.ok.injEq, List.any_eq_false, List.mem_filterMap] at h ⊢
    rintro entry ⟨name, hname, hentry⟩
    exact h entry ⟨name, hsub name hname, hentry⟩

variable {mode : ScopeGuardMode} {limits : Limits} {scope : Scope}

theorem decideScope_refused {path : String}
    {named : List String} (henforced : scope.isEnforced = true)
    (h : decideScope host mode scope root candidate limits = .ok (.refused path named)) :
    ∃ entries, Bounded entries scope ∧ contains host root entries candidate = .ok false := by
  simp only [Scope.isEnforced, Bool.and_eq_true] at henforced
  obtain ⟨entries, hents⟩ := Option.isSome_iff_exists.mp henforced.2
  refine ⟨entries, ⟨henforced.1, entries, hents, fun _ h => h⟩, ?_⟩
  simp only [decideScope, hents, henforced.1, if_true] at h
  split at h
  · cases h
  · split at h
    · cases h
    · cases hcontains : contains host root entries candidate with
      | error error =>
        rw [hcontains] at h
        cases h
      | ok within =>
        cases within with
        | true =>
          rw [hcontains] at h
          cases h
        | false => rfl

theorem decideScope_bounded
    {outcome : ScopeOutcome} (hbounded : Bounded entries scope) (hmode : mode ≠ .off)
    (hcontains : contains host root entries candidate = .ok false)
    (h : decideScope host mode scope root candidate limits = .ok outcome) :
    ∃ named, outcome = .refused candidate named := by
  obtain ⟨hstrict, kept, hkept, hsub⟩ := hbounded
  simp only [decideScope, hkept, hstrict, if_true, if_neg hmode,
    contains_of_subset hsub hcontains] at h
  split at h
  · cases h
  · cases h
    exact ⟨kept, rfl⟩

def before (scopes : Registry) (run : List Declaration) (position : ℕ) : Registry :=
  declareAll scopes (run.take position)

theorem before_later {run : List Declaration} {i j : ℕ} (hij : i < j) (hd : run[i]? = some d) :
    before scopes run j =
      declareAll (declare (before scopes run i) d).2 ((run.drop (i + 1)).take (j - (i + 1))) := by
  have hsplit : run.take j = run.take i ++ d :: (run.drop (i + 1)).take (j - (i + 1)) := by
    have hj : j = (i + 1) + (j - (i + 1)) := by omega
    have htake : run.take (i + 1) = run.take i ++ [d] := by rw [List.take_add_one, hd]; rfl
    conv_lhs => rw [hj, List.take_add, htake]
    simp
  rw [before, hsplit, declareAll, List.foldl_append]
  rfl

/-- The claim of one pair of positions: a path that was refused under an enforced scope neither
passes nor is only warned about later. -/
def NeverWidened (host : Host) (scopes : Registry) (run : List Declaration) (i j : ℕ)
    (first later : Declaration) (root candidate : String) : Prop :=
  i < j → run[i]? = some first → run[j]? = some later → later.key = first.key →
  (declare (before scopes run i) first).1.isEnforced = true →
  (∃ path named, verdict host (before scopes run i) first root candidate =
    .ok (.refused path named)) →
  verdict host (before scopes run j) later root candidate ≠ .ok .allowed ∧
    ∀ path named, verdict host (before scopes run j) later root candidate ≠
      .ok (.warned path named)

/-- A recorded scope is never widened for a card whose guard is on. -/
theorem never_widened_while_on (host : Host) (scopes : Registry) (run : List Declaration)
    (i j : ℕ) (first later : Declaration) (root candidate : String)
    (hrecorded : (before scopes run i).lookup first.key ≠ none ∨
      (before scopes run i).entries.length < first.limits.maxOutstanding)
    (hon : later.mode ≠ .off) :
    NeverWidened host scopes run i j first later root candidate := by
  rintro hij hfirst hlater hkey henforced ⟨path, named, hrefused⟩
  obtain ⟨entries, hbounded, hcontains⟩ := decideScope_refused henforced hrefused
  have hat : BoundedAt entries first.key (declare (before scopes run i) first).2 :=
    ⟨_, lookup_declare_self hrecorded, hbounded⟩
  have hlast : BoundedAt entries later.key (before scopes run j) := by
    rw [before_later hij hfirst, hkey]
    exact boundedAt_declareAll hat _
  have houtcome : ∀ outcome, verdict host (before scopes run j) later root candidate =
      .ok outcome → ∃ named, outcome = .refused candidate named :=
    fun outcome => decideScope_bounded (bounded_of_boundedAt hlast) hon hcontains
  constructor
  · intro hallowed
    obtain ⟨_, hcase⟩ := houtcome _ hallowed
    cases hcase
  · intro path named hwarned
    obtain ⟨_, hcase⟩ := houtcome _ hwarned
    cases hcase

def plainHost : Host := ⟨fun path => .ok path, fun path => some path⟩

def roomy : Limits := ⟨false, 100, 100⟩

def strictDeclaration : Declaration := ⟨"task/card", .strict, ["src"], roomy⟩

/-- A later declaration in another mode that names the refused file does not admit it. -/
theorem named_later_still_refused :
    verdict plainHost (before ∅ [strictDeclaration, ⟨"task/card", .warn, ["other.rs"], roomy⟩] 1)
      ⟨"task/card", .warn, ["other.rs"], roomy⟩ "/work" "/work/other.rs" ≠ .ok .allowed :=
  (never_widened_while_on plainHost ∅
    [strictDeclaration, ⟨"task/card", .warn, ["other.rs"], roomy⟩] 0 1 strictDeclaration
    ⟨"task/card", .warn, ["other.rs"], roomy⟩ "/work" "/work/other.rs" (.inr (by decide))
    (by decide) (by decide) rfl rfl rfl (by decide)
    ⟨"/work/other.rs", ["src"], by decide⟩).1

def tight : Limits := ⟨false, 100, 1⟩

/-- A guard that is switched off lets the refused file pass, and so does a registry that had no
room for the scope. -/
theorem widened_when_off_or_full :
    ¬ NeverWidened plainHost ∅ [strictDeclaration, ⟨"task/card", .off, ["src"], roomy⟩] 0 1
      strictDeclaration ⟨"task/card", .off, ["src"], roomy⟩ "/work" "/work/other.rs" ∧
    ¬ NeverWidened plainHost ∅
      [⟨"task/other", .warn, ["src"], tight⟩, ⟨"task/card", .strict, ["src"], tight⟩,
        ⟨"task/card", .warn, ["other.rs"], tight⟩] 1 2
      ⟨"task/card", .strict, ["src"], tight⟩ ⟨"task/card", .warn, ["other.rs"], tight⟩
      "/work" "/work/other.rs" := by
  constructor
  · intro h
    exact (h (by decide) rfl rfl rfl (by decide)
      ⟨"/work/other.rs", ["src"], by decide⟩).1 (by decide)
  · intro h
    exact (h (by decide) rfl rfl rfl (by decide)
      ⟨"/work/other.rs", ["src"], by decide⟩).1 (by decide)

end PathScope
