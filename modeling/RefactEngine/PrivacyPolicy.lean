import Mathlib.Data.List.Find
import Mathlib.Data.String.Basic
import RefactEngine.FiniteMap
import RefactEngine.SortedSet

/-! # Privacy policies

Ordered zones of path patterns, each with the destinations that may receive its files and what a
shell read of them does. A policy is compiled against the patterns and paths of a host; the
first zone with a matching pattern decides, and `normal` takes what no zone matches.
-/
namespace PrivacyPolicy

inductive ShellBehavior where
  | withhold
  | ask
  | deny
  deriving DecidableEq

def ShellBehavior.restrictWith : ShellBehavior → ShellBehavior → ShellBehavior
  | .deny, _ => .deny
  | _, .deny => .deny
  | .withhold, _ => .withhold
  | _, .withhold => .withhold
  | .ask, .ask => .ask

def ShellBehavior.strictness : ShellBehavior → ℕ
  | .ask => 0
  | .withhold => 1
  | .deny => 2

theorem ShellBehavior.strictness_restrictWith (a b : ShellBehavior) :
    (a.restrictWith b).strictness = max a.strictness b.strictness := by
  cases a <;> cases b <;> rfl

structure Zone where
  name : String
  patterns : List String
  sendTo : List String
  onShellRead : ShellBehavior

structure ProviderToolAccess where
  mcp : List String := ["*"]
  deriving DecidableEq

structure ToolAccess where
  providers : AList fun _ : String => ProviderToolAccess

def ToolAccess.mcpAllowed (access : ToolAccess) (provider server : String) : Bool :=
  match access.providers.lookup provider with
  | none => true
  | some access => access.mcp.any fun allowed => allowed = "*" || allowed = server

structure SubagentPolicy where
  reportDeclassifies : Bool := true
  deriving DecidableEq

structure Policy where
  blocked : List String
  zones : List Zone
  subagents : SubagentPolicy
  toolAccess : ToolAccess

inductive DestinationKind where
  | provider
  | mcp
  | subagentModel
  | completion
  deriving DecidableEq

structure Destination where
  id : String
  kind : DestinationKind
  displayName : String

def admits (allowed : List String) (name : String) : Bool :=
  allowed.any fun entry => entry = "*" || entry = name

def Destination.matchesSendTo (destination : Destination) (sendTo : List String) : Bool :=
  admits sendTo destination.id

theorem admits_iff {allowed : List String} {name : String} :
    admits allowed name = true ↔ "*" ∈ allowed ∨ name ∈ allowed := by
  simp only [admits, List.any_eq_true, Bool.or_eq_true, decide_eq_true_eq]
  constructor
  · rintro ⟨entry, hentry, rfl | rfl⟩
    · exact .inl hentry
    · exact .inr hentry
  · rintro (h | h)
    · exact ⟨_, h, .inl rfl⟩
    · exact ⟨_, h, .inr rfl⟩

def unionPatterns (target additions : List String) : List String :=
  additions.foldl (fun target p => if p ∈ target then target else target ++ [p]) target

def deduplicate (values : List String) : List String := unionPatterns [] values

def intersectDestinations (globals project : List String) : List String :=
  if "*" ∈ project then deduplicate globals
  else if "*" ∈ globals then deduplicate project
  else deduplicate (globals.filter fun destination => destination ∈ project)

def restrictZone (zone project : Zone) : Zone :=
  { zone with
    patterns := unionPatterns zone.patterns project.patterns
    sendTo := intersectDestinations zone.sendTo project.sendTo
    onShellRead := zone.onShellRead.restrictWith project.onShellRead }

def restrictFirst (project : Zone) : List Zone → List Zone
  | [] => []
  | zone :: rest =>
    if zone.name = project.name then restrictZone zone project :: rest
    else zone :: restrictFirst project rest

def newZone (project : Zone) : Zone :=
  { project with
    sendTo := []
    onShellRead := ShellBehavior.withhold.restrictWith project.onShellRead }

def insertBeforeNormal (zone : Zone) : List Zone → List Zone
  | [] => [zone]
  | other :: rest =>
    if other.name = "normal" then zone :: other :: rest
    else other :: insertBeforeNormal zone rest

def mergeZone (zones : List Zone) (project : Zone) : List Zone :=
  if zones.any fun zone => zone.name = project.name then restrictFirst project zones
  else insertBeforeNormal (newZone project) zones

def mergeProvider (providers : AList fun _ : String => ProviderToolAccess)
    (project : Σ _ : String, ProviderToolAccess) : AList fun _ : String => ProviderToolAccess :=
  let merged := (providers.lookup project.1).getD {}
  providers.insert project.1 ⟨intersectDestinations merged.mcp project.2.mcp⟩

def mergeProject (globals project : Policy) : Policy where
  blocked := unionPatterns globals.blocked project.blocked
  zones := project.zones.foldl mergeZone globals.zones
  subagents :=
    ⟨globals.subagents.reportDeclassifies && project.subagents.reportDeclassifies⟩
  toolAccess :=
    ⟨project.toolAccess.providers.entries.foldl mergeProvider globals.toolAccess.providers⟩

/-- Paths, their canonical forms and the glob language, as the host provides them. -/
structure Host (Path Pattern : Type) where
  /-- Composes the characters of a text that is not ASCII and lowers their case. -/
  foldUnicode : String → String
  parsePattern : String → Except String Pattern
  canonicalPatternAliases : String → List String
  isMatch : Pattern → String → Bool
  absolutePath : Path → Path
  canonicalize : Path → Path
  stripPrefix : Path → Path → Option Path
  toStringLossy : Path → String

variable {Path Pattern : Type}

inductive PolicyError where
  | invalidGlob (pattern message : String)
  | invalidZoneName (name : String)
  deriving DecidableEq

variable (host : Host Path Pattern)

def normalize (value : String) : String :=
  let slashed := value.toList.map fun c => if c = '\\' then '/' else c
  if slashed.all fun c => c.toNat < 128 then String.ofList (slashed.map Char.toLower)
  else host.foldUnicode (String.ofList slashed)

def compilePattern (pattern : String) :
    Except PolicyError (List Pattern) :=
  match host.parsePattern (normalize host pattern) with
  | .error message => .error (.invalidGlob pattern message)
  | .ok compiled =>
    .ok (compiled :: (host.canonicalPatternAliases (normalize host pattern)).filterMap
      fun other => (host.parsePattern other).toOption)

def compilePatterns (host : Host Path Pattern) : List String → Except PolicyError (List Pattern)
  | [] => .ok []
  | pattern :: rest => do
    let compiled ← compilePattern host pattern
    let others ← compilePatterns host rest
    return compiled ++ others

structure CompiledZone (Pattern : Type) where
  zone : Zone
  patterns : List Pattern

structure CompiledPolicy (Pattern : Type) where
  zones : List (CompiledZone Pattern)
  normalIndex : ℕ
  normalIndex_lt : normalIndex < zones.length

def blockedZone (patterns : List String) : Zone := ⟨"blocked", patterns, [], .deny⟩

def normalZone : Zone := ⟨"normal", ["**"], ["*"], .withhold⟩

def effectiveLabel : List Char := "effective:".toList

def isReservedName (name : String) : Bool :=
  effectiveLabel.isPrefixOf name.toList || name.toList.contains '+'

def compileZones (host : Host Path Pattern) :
    List Zone → Except PolicyError (List (CompiledZone Pattern))
  | [] => .ok []
  | zone :: rest =>
    if isReservedName zone.name then .error (.invalidZoneName zone.name)
    else do
      let patterns ← compilePatterns host zone.patterns
      let others ← compileZones host rest
      return ⟨zone, patterns⟩ :: others

def compileBlocked (blocked : List String) :
    Except PolicyError (List (CompiledZone Pattern)) :=
  if blocked = [] then .ok []
  else do
    let patterns ← compilePatterns host blocked
    return [⟨blockedZone blocked, patterns⟩]

def withNormal (zones : List (CompiledZone Pattern)) :
    Except PolicyError (CompiledPolicy Pattern) :=
  match h : zones.findIdx? fun compiled => compiled.zone.name = "normal" with
  | some index => .ok ⟨zones, index, (List.findIdx?_eq_some_iff_getElem.mp h).choose⟩
  | none => do
    let patterns ← compilePatterns host normalZone.patterns
    return ⟨zones ++ [⟨normalZone, patterns⟩], zones.length, by simp⟩

def Policy.compile (policy : Policy) :
    Except PolicyError (CompiledPolicy Pattern) := do
  let blocked ← compileBlocked host policy.blocked
  let zones ← compileZones host policy.zones
  withNormal host (blocked ++ zones)

def relativeCandidates (paths roots canonicalRoots : List Path) :
    List Path :=
  (roots.zip canonicalRoots).flatMap fun (root, canonicalRoot) =>
    paths.flatMap fun path =>
      [root, canonicalRoot].filterMap fun candidateRoot => host.stripPrefix path candidateRoot

def basename (text : String) : Option String :=
  ((text.toList.splitOn '/').reverse.find? fun component => component ≠ []).map String.ofList

def normalizedCandidates (paths : List Path) : List String :=
  paths.flatMap fun path =>
    let normalized := normalize host (host.toStringLossy path)
    if normalized = "" then [] else (basename normalized).toList ++ [normalized]

def candidates (path : Path) (roots : List Path) : List String :=
  let roots := roots.map host.absolutePath
  let paths := [path, host.absolutePath path, host.canonicalize (host.absolutePath path)]
  normalizedCandidates host
    (paths ++ relativeCandidates host paths roots (roots.map host.canonicalize))

def CompiledZone.isMatch (host : Host Path Pattern) (texts : List String)
    (compiled : CompiledZone Pattern) : Bool :=
  compiled.patterns.any fun pattern => texts.any fun text => host.isMatch pattern text

variable (policy : CompiledPolicy Pattern)

def CompiledPolicy.normal : Zone :=
  (policy.zones.get ⟨policy.normalIndex, policy.normalIndex_lt⟩).zone

def CompiledPolicy.zoneForPathWithRoots (path : Path) (roots : List Path) : Zone :=
  match policy.zones.find? (CompiledZone.isMatch host (candidates host path roots)) with
  | some compiled => compiled.zone
  | none => policy.normal

def starMatch (pattern text : List Char) : Bool :=
  (pattern.foldl (fun rests c =>
    if c = '*' then rests.flatMap List.tails
    else rests.filterMap fun rest => if rest.head? = some c then some rest.tail else none)
    [text]).contains []

/-- Texts as paths below one directory, and patterns of literal characters and stars. -/
def starHost : Host String (List Char) where
  foldUnicode text := text
  parsePattern text := .ok text.toList
  canonicalPatternAliases _ := []
  isMatch pattern text := starMatch pattern text.toList
  absolutePath path := if path.toList.head? = some '/' then path else "/work/" ++ path
  canonicalize path := path
  stripPrefix path root :=
    if (root.toList ++ ['/']).isPrefixOf path.toList then
      some (String.ofList (path.toList.drop (root.length + 1)))
    else none
  toStringLossy path := path

def hits (texts : List String) (patterns : List String) : Bool :=
  patterns.any fun pattern =>
    match compilePattern host pattern with
    | .error _ => false
    | .ok compiled => compiled.any fun pattern => texts.any fun text => host.isMatch pattern text

theorem hits_append (host : Host Path Pattern) (texts left right : List String) :
    hits host texts (left ++ right) = (hits host texts left || hits host texts right) := by
  simp [hits]

variable {host : Host Path Pattern} {patterns : List String}

theorem hits_iff_exists {texts : List String} :
    hits host texts patterns = true ↔ ∃ pattern ∈ patterns, hits host texts [pattern] = true := by
  simp [hits]

def Policy.consulted (policy : Policy) : List Zone :=
  let zones := (if policy.blocked = [] then [] else [blockedZone policy.blocked]) ++ policy.zones
  if zones.any fun zone => zone.name = "normal" then zones else zones ++ [normalZone]

def firstNamed (name : String) (zones : List Zone) : Option Zone :=
  zones.find? fun zone => zone.name = name

def pick (hit : Zone → Bool) (zones : List Zone) : Zone :=
  (zones.find? hit).getD ((firstNamed "normal" zones).getD normalZone)

def Policy.classify (host : Host Path Pattern) (texts : List String) (policy : Policy) : Zone :=
  pick (fun zone => hits host texts zone.patterns) policy.consulted

def Sound (host : Host Path Pattern) (zones : List (CompiledZone Pattern)) : Prop :=
  ∀ compiled ∈ zones, compilePatterns host compiled.zone.patterns = .ok compiled.patterns

theorem ok_of_bind {ε α β : Type} {x : Except ε α} {f : α → Except ε β} {b : β}
    (h : x >>= f = .ok b) : ∃ a, x = .ok a ∧ f a = .ok b := by
  cases x with
  | error e => exact absurd h (by simp [Bind.bind, Except.bind])
  | ok a => exact ⟨a, rfl, h⟩

theorem compilePatterns_isMatch {compiled : List Pattern} (texts : List String)
    (h : compilePatterns host patterns = .ok compiled) :
    (compiled.any fun pattern => texts.any fun text => host.isMatch pattern text) =
      hits host texts patterns := by
  induction patterns generalizing compiled with
  | nil =>
    cases h
    rfl
  | cons pattern rest ih =>
    obtain ⟨first, hfirst, h⟩ := ok_of_bind h
    obtain ⟨others, hrest, h⟩ := ok_of_bind h
    cases h
    rw [List.any_append, ih hrest]
    simp [hits, hfirst]

variable {zones : List (CompiledZone Pattern)}

theorem Sound.isMatch (h : Sound host zones) (texts : List String) {compiled : CompiledZone Pattern}
    (hmem : compiled ∈ zones) :
    compiled.isMatch host texts = hits host texts compiled.zone.patterns :=
  compilePatterns_isMatch texts (h compiled hmem)

theorem Sound.cons {compiled : CompiledZone Pattern}
    (hc : compilePatterns host compiled.zone.patterns = .ok compiled.patterns)
    (hz : Sound host zones) : Sound host (compiled :: zones) := by
  intro other hmem
  rcases List.mem_cons.mp hmem with rfl | h
  · exact hc
  · exact hz other h

theorem Sound.nil : Sound host [] := by simp [Sound]

theorem Sound.append {left right : List (CompiledZone Pattern)} (hl : Sound host left)
    (hr : Sound host right) : Sound host (left ++ right) := by
  intro compiled hmem
  rcases List.mem_append.mp hmem with h | h
  · exact hl compiled h
  · exact hr compiled h

theorem compileZones_ok {zones : List Zone} {compiled : List (CompiledZone Pattern)}
    (h : compileZones host zones = .ok compiled) :
    compiled.map (·.zone) = zones ∧ Sound host compiled ∧
      ∀ zone ∈ zones, isReservedName zone.name = false := by
  induction zones generalizing compiled with
  | nil =>
    cases h
    exact ⟨rfl, Sound.nil, by simp⟩
  | cons zone rest ih =>
    by_cases hname : isReservedName zone.name = true
    · simp [compileZones, hname] at h
    rw [Bool.not_eq_true] at hname
    simp only [compileZones, hname, Bool.false_eq_true, if_false] at h
    obtain ⟨patterns, hpatterns, h⟩ := ok_of_bind h
    obtain ⟨others, hrest, h⟩ := ok_of_bind h
    cases h
    obtain ⟨hmap, hsound, hnames⟩ := ih hrest
    refine ⟨by simp [hmap], hsound.cons hpatterns, ?_⟩
    intro other hother
    rcases List.mem_cons.mp hother with rfl | hother
    · exact hname
    · exact hnames other hother

theorem compileBlocked_ok {blocked : List String} {compiled : List (CompiledZone Pattern)}
    (h : compileBlocked host blocked = .ok compiled) :
    compiled.map (·.zone) = (if blocked = [] then [] else [blockedZone blocked]) ∧
      Sound host compiled := by
  by_cases hempty : blocked = []
  · simp only [compileBlocked, hempty, if_true, Except.ok.injEq] at h
    subst h
    exact ⟨by simp [hempty], Sound.nil⟩
  · simp only [compileBlocked, hempty, if_false] at h
    obtain ⟨patterns, hpatterns, h⟩ := ok_of_bind h
    cases h
    exact ⟨by simp [hempty], Sound.nil.cons hpatterns⟩

/-- What compiling leaves: the zones of the policy in order, each with its own patterns. -/
structure CompiledFrom (host : Host Path Pattern) (policy : Policy)
    (compiled : CompiledPolicy Pattern) : Prop where
  zones : compiled.zones.map (·.zone) = policy.consulted
  sound : Sound host compiled.zones
  normal : firstNamed "normal" policy.consulted = some compiled.normal
  names : ∀ zone ∈ policy.zones, isReservedName zone.name = false

variable {compiled : CompiledPolicy Pattern}

theorem withNormal_ok (hsound : Sound host zones) (h : withNormal host zones = .ok compiled) :
    Sound host compiled.zones ∧
      compiled.zones.map (·.zone) =
        (if (zones.map (·.zone)).any fun zone => zone.name = "normal" then zones.map (·.zone)
         else zones.map (·.zone) ++ [normalZone]) ∧
      firstNamed "normal" (compiled.zones.map (·.zone)) = some compiled.normal := by
  unfold withNormal at h
  split at h
  next index hindex =>
    cases h
    obtain ⟨hlt, hname, hbef⟩ := List.findIdx?_eq_some_iff_getElem.mp hindex
    have hany : ((zones.map (·.zone)).any fun zone => zone.name = "normal") = true := by
      rw [List.any_map, List.any_eq_true]
      exact ⟨zones[index], List.getElem_mem hlt, hname⟩
    refine ⟨hsound, by rw [if_pos hany], ?_⟩
    rw [firstNamed, List.find?_eq_some_iff_getElem]
    refine ⟨hname, index, by simpa using hlt, ?_, ?_⟩
    · simp [CompiledPolicy.normal]
    · intro j hj
      simpa using hbef j hj
  next hnone =>
    obtain ⟨patterns, hpatterns, h⟩ := ok_of_bind h
    cases h
    have hnames := List.findIdx?_eq_none_iff.mp hnone
    have hany : ¬ ((zones.map (·.zone)).any fun zone => zone.name = "normal") = true := by
      rw [List.any_map, List.any_eq_true]
      rintro ⟨zone, hzone, hname⟩
      exact absurd hname (by simp [hnames zone hzone])
    refine ⟨hsound.append (Sound.nil.cons hpatterns), ?_, ?_⟩
    · rw [if_neg hany]
      simp
    · rw [firstNamed, List.map_append, List.find?_append, List.find?_eq_none.mpr]
      · simp [CompiledPolicy.normal, normalZone]
      · intro zone hzone hname
        exact hany (List.any_eq_true.mpr ⟨zone, hzone, hname⟩)

theorem compile_ok {policy : Policy} (h : policy.compile host = .ok compiled) :
    CompiledFrom host policy compiled := by
  obtain ⟨blocked, hblocked, h⟩ := ok_of_bind h
  obtain ⟨zones, hzones, h⟩ := ok_of_bind h
  obtain ⟨hmap, hsound⟩ := compileBlocked_ok hblocked
  obtain ⟨hmap', hsound', hnames⟩ := compileZones_ok hzones
  obtain ⟨hall, hcons, hnormal⟩ := withNormal_ok (hsound.append hsound') h
  rw [List.map_append, hmap, hmap'] at hcons
  have hzones' : compiled.zones.map (·.zone) = policy.consulted := hcons
  exact ⟨hzones', hall, hzones' ▸ hnormal, hnames⟩

theorem CompiledFrom.zoneForPathWithRoots {policy : Policy} (h : CompiledFrom host policy compiled)
    (path : Path) (roots : List Path) : compiled.zoneForPathWithRoots host path roots =
      policy.classify host (candidates host path roots) := by
  rw [Policy.classify, pick, h.normal, ← h.zones, List.find?_map,
    CompiledPolicy.zoneForPathWithRoots]
  have hfind : compiled.zones.find? (CompiledZone.isMatch host (candidates host path roots)) =
      compiled.zones.find? ((fun zone : Zone => hits host (candidates host path roots)
        zone.patterns) ∘ (·.zone)) := by
    apply List.find?_congr
    intro zone hzone
    exact h.sound.isMatch _ hzone
  rw [hfind]
  cases compiled.zones.find? _ <;> rfl

theorem pick_append_normal {hit : Zone → Bool} {zones : List Zone}
    (h : firstNamed "normal" zones = none) :
    pick hit (zones ++ [normalZone]) = pick hit zones := by
  have hlast : firstNamed "normal" (zones ++ [normalZone]) = some normalZone := by
    rw [firstNamed, List.find?_append, ← firstNamed, h]
    rfl
  rw [pick, pick, h, hlast, List.find?_append]
  cases zones.find? hit with
  | some zone => rfl
  | none =>
    by_cases hhit : hit normalZone = true
    · simp [hhit]
    · simp [hhit]

theorem pick_cons_blocked (hit : Zone → Bool) (patterns : List String) (zones : List Zone) :
    pick hit (blockedZone patterns :: zones) =
      if hit (blockedZone patterns) then blockedZone patterns else pick hit zones := by
  have hname : firstNamed "normal" (blockedZone patterns :: zones) = firstNamed "normal" zones :=
    List.find?_cons_of_neg (by simp [blockedZone])
  rw [pick, pick, hname, List.find?_cons]
  cases hit (blockedZone patterns) <;> rfl

theorem Policy.classify_eq (host : Host Path Pattern) (texts : List String) (policy : Policy) :
    policy.classify host texts =
      if hits host texts policy.blocked then blockedZone policy.blocked
      else pick (fun zone => hits host texts zone.patterns) policy.zones := by
  have hcons : policy.classify host texts =
      pick (fun zone => hits host texts zone.patterns)
        ((if policy.blocked = [] then [] else [blockedZone policy.blocked]) ++ policy.zones) := by
    simp only [Policy.classify, Policy.consulted]
    generalize (if policy.blocked = [] then [] else [blockedZone policy.blocked]) ++
      policy.zones = zones
    by_cases hany : (zones.any fun zone => zone.name = "normal") = true
    · rw [if_pos hany]
    · rw [if_neg hany]
      apply pick_append_normal
      rw [firstNamed, List.find?_eq_none]
      intro zone hzone hname
      exact hany (List.any_eq_true.mpr ⟨zone, hzone, hname⟩)
  rw [hcons]
  by_cases hblocked : policy.blocked = []
  · rw [if_pos hblocked, hblocked]
    rfl
  · rw [if_neg hblocked]
    exact pick_cons_blocked _ policy.blocked policy.zones

end PrivacyPolicy
