import Mathlib.Data.List.MinMax
import RefactEngine.PrivacyPolicy

/-! # The zone label of a message

Several files in one message get one zone: the destinations that all of them allow and the
strictest shell behaviour, under the name of one of their zones or under a joint label. The send
gate reads the permission back from the name alone.
-/
namespace ZoneLabels

open PrivacyPolicy hiding intersectDestinations

variable {Path Pattern : Type}

variable (policy : CompiledPolicy Pattern)

def zoneNamed (name : String) : Option Zone :=
  (policy.zones.find? fun compiled => compiled.zone.name = name).map (·.zone)

def zoneIndexNamed (name : String) : Option ℕ :=
  policy.zones.findIdx? fun compiled => compiled.zone.name = name

def intersectDestinations (left right : List String) : List String :=
  if "*" ∈ left then
    if "*" ∈ right then ["*"]
    else (SortedSet.ofList (right.filter fun destination => destination ≠ "*")).elems
  else if "*" ∈ right then
    (SortedSet.ofList (left.filter fun destination => destination ≠ "*")).elems
  else (SortedSet.ofList (left.filter fun destination => destination ∈ right)).elems

def canonicalDestinations (values : List String) : SortedSet String :=
  if "*" ∈ values then SortedSet.ofList ["*"] else SortedSet.ofList values

def sameDestinations (left right : List String) : Bool :=
  (canonicalDestinations left).elems = (canonicalDestinations right).elems

def strictestShellBehavior : ShellBehavior → ShellBehavior → ShellBehavior
  | .deny, _ => .deny
  | _, .deny => .deny
  | .ask, _ => .ask
  | _, .ask => .ask
  | .withhold, .withhold => .withhold

def commonSendTo (first : Zone) (rest : List Zone) : List String :=
  rest.foldl (fun allowed zone => intersectDestinations allowed zone.sendTo) first.sendTo

def commonShellRead (zones : List Zone) : ShellBehavior :=
  zones.foldl (fun strictest zone => strictestShellBehavior strictest zone.onShellRead) .withhold

def jointLabel (zones : List Zone) : String :=
  "effective:" ++ "+".intercalate (SortedSet.ofList (zones.map (·.name))).elems

def effectiveZone : List (ℕ × Zone) → Option Zone
  | [] => none
  | first :: rest =>
    let sendTo := commonSendTo first.2 (rest.map (·.2))
    let onShellRead := commonShellRead ((first :: rest).map (·.2))
    let bearers := (first :: rest).filter fun zone =>
      sameDestinations zone.2.sendTo sendTo && zone.2.onShellRead = onShellRead
    let name := match bearers.argmin (·.1) with
      | some zone => zone.2.name
      | none => jointLabel ((first :: rest).map (·.2))
    some ⟨name, [], sendTo, onShellRead⟩

def indexOf (zone : Zone) : ℕ :=
  (zoneIndexNamed policy zone.name).getD 0

def strictestZoneForPathsWithRoots (host : Host Path Pattern) (policy : CompiledPolicy Pattern)
    (paths roots : List Path) : Zone :=
  let zones := paths.map fun path =>
    let zone := policy.zoneForPathWithRoots host path roots
    (indexOf policy zone, zone)
  (effectiveZone zones).getD policy.normal

structure FileRecord where
  path : String
  zone : String

structure PrivacyAuditError where
  messageIndex : ℕ
  message : String
  deriving DecidableEq

structure Refusal where
  destination : Destination
  offending : List (ℕ × FileRecord)
  message : String

def recordIsAllowed (record : FileRecord) (destination : Destination)
    (policy : CompiledPolicy Pattern) : Bool :=
  if record.zone = "blocked" then false
  else match zoneNamed policy record.zone with
    | some zone => destination.matchesSendTo zone.sendTo
    | none =>
      if effectiveLabel.isPrefixOf record.zone.toList then
        let zoneNames := record.zone.toList.drop effectiveLabel.length
        zoneNames ≠ [] && (zoneNames.splitOn '+').all fun name =>
          match zoneNamed policy (String.ofList name) with
          | some zone => destination.matchesSendTo zone.sendTo
          | none => false
      else false

/-- Passes a value whose records the destination may receive. -/
def clear {T : Type} (privacyRecords : T → Except PrivacyAuditError (List (ℕ × FileRecord)))
    (value : T) (destination : Destination) (policy : CompiledPolicy Pattern) :
    Except Refusal T :=
  match privacyRecords value with
  | .error error => .error ⟨destination, [], error.message⟩
  | .ok records =>
    let offending := records.filter fun record => !recordIsAllowed record.2 destination policy
    match offending with
    | [] => .ok value
    | (index, record) :: _ =>
      .error ⟨destination, offending,
        s!"destination {destination.id} cannot receive message {index} path {record.path}"⟩

variable {policy : CompiledPolicy Pattern} {destination : Destination}

theorem clear_eq_ok {T : Type}
    {privacyRecords : T → Except PrivacyAuditError (List (ℕ × FileRecord))} {value cleared : T} :
    clear privacyRecords value destination policy = .ok cleared ↔
      cleared = value ∧ ∃ records, privacyRecords value = .ok records ∧
        ∀ record ∈ records, recordIsAllowed record.2 destination policy = true := by
  cases hrecs : privacyRecords value with
  | error error => simp [clear, hrecs]
  | ok records =>
    simp only [clear, hrecs, Except.ok.injEq, exists_eq_left']
    cases hoffending : records.filter fun record => !recordIsAllowed record.2 destination policy with
    | nil =>
      rw [List.filter_eq_nil_iff] at hoffending
      simp only [Except.ok.injEq]
      constructor
      · rintro rfl
        exact ⟨rfl, fun record hrec => by simpa using hoffending record hrec⟩
      · exact fun h => h.1.symm
    | cons record rest =>
      have hmem : record ∈ records.filter
          fun record => !recordIsAllowed record.2 destination policy := by simp [hoffending]
      have href := List.mem_filter.mp hmem
      simp only [reduceCtorEq, false_iff, not_and]
      intro _ hall
      simp [hall record href.1] at href

variable {allowed : List String}

theorem admits_star : admits allowed "*" = true ↔ "*" ∈ allowed := by
  rw [admits_iff, or_self]

variable {name : String}

theorem admits_of_notMem (h : "*" ∉ allowed) : admits allowed name = true ↔ name ∈ allowed := by
  simp [admits_iff, h]

variable {left right : List String}

theorem admits_intersectDestinations : admits (intersectDestinations left right) name = true ↔
      admits left name = true ∧ admits right name = true := by
  rw [admits_iff, admits_iff, admits_iff, intersectDestinations]
  by_cases hl : "*" ∈ left
  · by_cases hr : "*" ∈ right
    · simp [hl, hr]
    · rw [if_pos hl, if_neg hr, ← SortedSet.mem_def, ← SortedSet.mem_def, SortedSet.mem_ofList,
        SortedSet.mem_ofList]
      have hname : name ∈ right → name ≠ "*" := fun h e => hr (e ▸ h)
      simp only [List.mem_filter, decide_eq_true_eq, hl, hr]
      tauto
  · by_cases hr : "*" ∈ right
    · rw [if_neg hl, if_pos hr, ← SortedSet.mem_def, ← SortedSet.mem_def, SortedSet.mem_ofList,
        SortedSet.mem_ofList]
      have hname : name ∈ left → name ≠ "*" := fun h e => hl (e ▸ h)
      simp only [List.mem_filter, decide_eq_true_eq, hl, hr]
      tauto
    · rw [if_neg hl, if_neg hr, ← SortedSet.mem_def, ← SortedSet.mem_def, SortedSet.mem_ofList,
        SortedSet.mem_ofList]
      simp [hl, hr]

variable {first : Zone} {rest : List Zone}

theorem admits_commonSendTo : admits (commonSendTo first rest) name = true ↔
      ∀ zone ∈ first :: rest, admits zone.sendTo name = true := by
  have hfold : ∀ (rest : List Zone) (allowed : List String),
      admits (rest.foldl (fun allowed zone => intersectDestinations allowed zone.sendTo) allowed)
        name = true ↔ admits allowed name = true ∧ ∀ zone ∈ rest, admits zone.sendTo name = true := by
    intro rest
    induction rest with
    | nil => simp
    | cons zone rest ih =>
      intro allowed
      rw [List.foldl_cons, ih, admits_intersectDestinations, List.forall_mem_cons, and_assoc]
  rw [commonSendTo, hfold, List.forall_mem_cons]

theorem mem_canonicalDestinations {values : List String} : name ∈ canonicalDestinations values ↔
      if "*" ∈ values then name = "*" else name ∈ values := by
  rw [canonicalDestinations]
  split <;> simp

theorem sameDestinations_iff : sameDestinations left right = true ↔
      ("*" ∈ left ↔ "*" ∈ right) ∧ ("*" ∉ left → ∀ name, name ∈ left ↔ name ∈ right) := by
  have hset : sameDestinations left right = true ↔
      ∀ name, name ∈ canonicalDestinations left ↔ name ∈ canonicalDestinations right := by
    rw [sameDestinations, decide_eq_true_iff]
    constructor
    · intro h name
      rw [SortedSet.mem_def, SortedSet.mem_def, h]
    · exact SortedSet.elems_ext
  rw [hset]
  simp only [mem_canonicalDestinations]
  by_cases hl : "*" ∈ left
  · by_cases hr : "*" ∈ right
    · simp [hl, hr]
    · simp only [hl, hr, if_true, if_false, iff_false, not_true_eq_false, false_and]
      intro h
      exact hr ((h "*").mp rfl)
  · by_cases hr : "*" ∈ right
    · simp only [hl, hr, if_true, if_false, iff_true, false_and, iff_false]
      intro h
      exact hl ((h "*").mpr rfl)
    · simp [hl, hr]

variable {zone : Zone}

theorem sameDestinations_commonSendTo (hzone : zone ∈ first :: rest) :
    sameDestinations zone.sendTo (commonSendTo first rest) = true ↔
      ∀ other ∈ first :: rest, ∀ name ∈ zone.sendTo, admits other.sendTo name = true := by
  have hstar : "*" ∈ commonSendTo first rest ↔ ∀ other ∈ first :: rest, "*" ∈ other.sendTo := by
    rw [← admits_star, admits_commonSendTo]
    simp only [admits_star]
  rw [sameDestinations_iff]
  by_cases hwild : "*" ∈ zone.sendTo
  · simp only [hwild, true_iff, hstar, not_true_eq_false, false_implies, and_true]
    constructor
    · intro h other hother name _
      exact admits_iff.mpr (.inl (h other hother))
    · intro h other hother
      exact admits_star.mp (h other hother "*" hwild)
  · have hnot : "*" ∉ commonSendTo first rest := fun h => hwild (hstar.mp h zone hzone)
    simp only [hwild, hnot, not_false_eq_true, forall_const, true_and]
    constructor
    · intro h other hother name hname
      have hcommon := (admits_of_notMem hnot).mpr ((h name).mp hname)
      exact admits_commonSendTo.mp hcommon other hother
    · intro h name
      rw [← admits_of_notMem hnot, admits_commonSendTo]
      constructor
      · exact fun hname other hother => h other hother name hname
      · exact fun hall => (admits_of_notMem hwild).mp (hall zone hzone)

def rank : ShellBehavior → ℕ
  | .withhold => 0
  | .ask => 1
  | .deny => 2

theorem rank_inj {a b : ShellBehavior} : rank a = rank b ↔ a = b := by
  cases a <;> cases b <;> simp [rank]

theorem rank_strictestShellBehavior (a b : ShellBehavior) :
    rank (strictestShellBehavior a b) = max (rank a) (rank b) := by
  cases a <;> cases b <;> rfl

variable {zones : List Zone}

theorem rank_commonShellRead_le {n : ℕ} :
    rank (commonShellRead zones) ≤ n ↔ ∀ zone ∈ zones, rank zone.onShellRead ≤ n := by
  have hfold : ∀ (zones : List Zone) (shell : ShellBehavior),
      rank (zones.foldl (fun strictest zone => strictestShellBehavior strictest zone.onShellRead)
        shell) ≤ n ↔ rank shell ≤ n ∧ ∀ zone ∈ zones, rank zone.onShellRead ≤ n := by
    intro zones
    induction zones with
    | nil => simp
    | cons zone zones ih =>
      intro shell
      rw [List.foldl_cons, ih, rank_strictestShellBehavior, max_le_iff, List.forall_mem_cons,
        and_assoc]
  rw [commonShellRead, hfold]
  exact and_iff_right (Nat.zero_le n)

theorem commonShellRead_eq_iff (hzone : zone ∈ zones) : zone.onShellRead = commonShellRead zones ↔
      ∀ other ∈ zones, rank other.onShellRead ≤ rank zone.onShellRead := by
  rw [← rank_commonShellRead_le, ← rank_inj]
  have hle := rank_commonShellRead_le.mp (le_refl (rank (commonShellRead zones))) zone hzone
  omega

theorem commonShellRead_perm {zones' : List Zone} (h : zones.Perm zones') :
    commonShellRead zones = commonShellRead zones' := by
  rw [← rank_inj]
  apply Nat.le_antisymm
  · rw [rank_commonShellRead_le]
    intro zone hzone
    exact rank_commonShellRead_le.mp le_rfl zone (h.mem_iff.mp hzone)
  · rw [rank_commonShellRead_le]
    intro zone hzone
    exact rank_commonShellRead_le.mp le_rfl zone (h.mem_iff.mpr hzone)

theorem exists_commonShellRead (h : zones ≠ []) :
    ∃ zone ∈ zones, zone.onShellRead = commonShellRead zones := by
  by_contra hno
  push Not at hno
  have hlt : ∀ zone ∈ zones, rank zone.onShellRead < rank (commonShellRead zones) := by
    intro zone hzone
    have hle := rank_commonShellRead_le.mp (le_refl (rank (commonShellRead zones))) zone hzone
    have hne := mt rank_inj.mp (hno zone hzone)
    omega
  obtain ⟨zone, hzone⟩ := List.exists_mem_of_ne_nil zones h
  have hpos := hlt zone hzone
  have hle : rank (commonShellRead zones) ≤ rank (commonShellRead zones) - 1 := by
    rw [rank_commonShellRead_le]
    intro other hother
    have := hlt other hother
    omega
  omega

structure Bears (zones : List Zone) (zone : Zone) : Prop where
  mem : zone ∈ zones
  destinations : ∀ other ∈ zones, ∀ name ∈ zone.sendTo, admits other.sendTo name = true
  shellReads : ∀ other ∈ zones, rank other.onShellRead ≤ rank zone.onShellRead

theorem Bears.admits_iff (h : Bears zones zone) :
    admits zone.sendTo name = true ↔ ∀ other ∈ zones, admits other.sendTo name = true := by
  refine ⟨?_, fun hall => hall zone h.mem⟩
  intro hadmits other hother
  rcases PrivacyPolicy.admits_iff.mp hadmits with hstar | hname
  · exact PrivacyPolicy.admits_iff.mpr (.inl (admits_star.mp (h.destinations other hother _ hstar)))
  · exact h.destinations other hother name hname

def bearers (policy : CompiledPolicy Pattern) (first : Zone) (rest : List Zone) :
    List (ℕ × Zone) :=
  ((first :: rest).map fun zone => (indexOf policy zone, zone)).filter fun zone =>
    sameDestinations zone.2.sendTo (commonSendTo first rest) &&
      zone.2.onShellRead = commonShellRead (first :: rest)

theorem mem_bearers {index : ℕ} : (index, zone) ∈ bearers policy first rest ↔
      index = indexOf policy zone ∧ Bears (first :: rest) zone := by
  rw [bearers, List.mem_filter, Bool.and_eq_true, decide_eq_true_eq, List.mem_map]
  constructor
  · rintro ⟨⟨other, hother, heq⟩, hsame, hshell⟩
    cases heq
    exact ⟨rfl, hother, (sameDestinations_commonSendTo hother).mp hsame,
      (commonShellRead_eq_iff hother).mp hshell⟩
  · rintro ⟨rfl, hmem, hdest, hshell⟩
    exact ⟨⟨zone, hmem, rfl⟩, (sameDestinations_commonSendTo hmem).mpr hdest,
      (commonShellRead_eq_iff hmem).mpr hshell⟩

theorem effectiveZone_cons (policy : CompiledPolicy Pattern) (first : Zone) (rest : List Zone) :
    effectiveZone ((first :: rest).map fun zone => (indexOf policy zone, zone)) =
      some ⟨match (bearers policy first rest).argmin (·.1) with
        | some zone => zone.2.name
        | none => jointLabel (first :: rest), [], commonSendTo first rest,
        commonShellRead (first :: rest)⟩ := by
  simp only [bearers, List.map_cons, effectiveZone, List.map_map, Function.comp_def, List.map_id']

theorem effectiveZone_spec (policy : CompiledPolicy Pattern) (hne : zones ≠ []) :
    ∃ common, effectiveZone (zones.map fun zone => (indexOf policy zone, zone)) = some common ∧
      common.onShellRead = commonShellRead zones ∧
      ((∃ zone, Bears zones zone ∧ common.name = zone.name) ∨
        (∀ zone, ¬ Bears zones zone) ∧ common.name = jointLabel zones) := by
  cases zones with
  | nil => exact absurd rfl hne
  | cons first rest =>
    refine ⟨_, effectiveZone_cons policy first rest, rfl, ?_⟩
    cases hmin : (bearers policy first rest).argmin (·.1) with
    | some pair =>
      obtain ⟨index, zone⟩ := pair
      obtain ⟨-, hbears⟩ := mem_bearers.mp (List.argmin_mem hmin)
      exact .inl ⟨zone, hbears, rfl⟩
    | none =>
      rw [List.argmin_eq_none] at hmin
      refine .inr ⟨fun zone hbears => ?_, rfl⟩
      have hmem := mem_bearers.mpr ⟨(rfl : indexOf policy zone = _), hbears⟩
      rw [hmin] at hmem
      cases hmem

structure Listed (policy : CompiledPolicy Pattern) (zone : Zone) : Prop where
  mem : zone ∈ policy.zones.map (·.zone)
  plain : isReservedName zone.name = false

theorem listed_of_mem {host : Host Path Pattern} {source : Policy}
    (h : CompiledFrom host source policy) (hzone : zone ∈ policy.zones.map (·.zone)) :
    Listed policy zone := by
  refine ⟨hzone, ?_⟩
  rw [h.zones, Policy.consulted] at hzone
  have hcases : zone ∈ ((if source.blocked = [] then [] else [blockedZone source.blocked]) ++
      source.zones) ++ [normalZone] := by
    revert hzone
    generalize (if source.blocked = [] then [] else [blockedZone source.blocked]) ++
      source.zones = zones
    intro hzone
    by_cases hany : (zones.any fun zone => zone.name = "normal") = true
    · rw [if_pos hany] at hzone
      exact List.mem_append_left _ hzone
    · rwa [if_neg hany] at hzone
  rw [List.mem_append, List.mem_append, List.mem_singleton] at hcases
  rcases hcases with (hblocked | hzones) | rfl
  · split at hblocked
    · cases hblocked
    · obtain rfl := List.mem_singleton.mp hblocked
      have hname : isReservedName "blocked" = false := by decide
      exact hname
  · exact h.names zone hzones
  · decide

variable (host : Host Path Pattern)

theorem zoneForPath_mem (policy : CompiledPolicy Pattern) (path : Path) (roots : List Path) :
    policy.zoneForPathWithRoots host path roots ∈ policy.zones.map (·.zone) := by
  rw [CompiledPolicy.zoneForPathWithRoots]
  split
  next compiled hfind => exact List.mem_map_of_mem (List.mem_of_find?_eq_some hfind)
  next => exact List.mem_map_of_mem (List.get_mem _ _)

theorem Listed.zoneNamed (h : Listed policy zone) :
    ∃ first, zoneNamed policy zone.name = some first := by
  obtain ⟨compiled, hmem, rfl⟩ := List.mem_map.mp h.mem
  have hsome : (policy.zones.find? fun other => other.zone.name = compiled.zone.name).isSome = true :=
    List.find?_isSome.mpr ⟨compiled, hmem, by simp⟩
  obtain ⟨first, hfirst⟩ := Option.isSome_iff_exists.mp hsome
  exact ⟨first.zone, by rw [ZoneLabels.zoneNamed, hfirst]; rfl⟩

theorem zoneNamed_name (h : zoneNamed policy name = some zone) :
    zone ∈ policy.zones.map (·.zone) ∧ zone.name = name := by
  obtain ⟨compiled, hfind, rfl⟩ := Option.map_eq_some_iff.mp h
  refine ⟨List.mem_map_of_mem (List.mem_of_find?_eq_some hfind), ?_⟩
  simpa using List.find?_some hfind

variable {record : FileRecord}

theorem recordIsAllowed_of_zoneNamed (h : zoneNamed policy record.zone = some first) :
    recordIsAllowed record destination policy = true ↔
      record.zone ≠ "blocked" ∧ destination.matchesSendTo first.sendTo = true := by
  by_cases hblocked : record.zone = "blocked"
  · simp [recordIsAllowed, hblocked]
  · simp [recordIsAllowed, hblocked, h]

theorem toList_jointLabel (zones : List Zone) :
    (jointLabel zones).toList = effectiveLabel ++
      ['+'].intercalate ((SortedSet.ofList (zones.map (·.name))).elems.map String.toList) := by
  simp only [jointLabel, String.toList_append, String.toList_intercalate]
  rfl

theorem isReservedName_jointLabel (zones : List Zone) : isReservedName (jointLabel zones) =
      true := by
  rw [isReservedName, toList_jointLabel, Bool.or_eq_true]
  left
  rw [List.isPrefixOf_iff_prefix]
  exact List.prefix_append _ _

theorem splitOn_jointLabel (hne : zones ≠ []) (hlisted : ∀ zone ∈ zones, Listed policy zone) :
    ((jointLabel zones).toList.drop effectiveLabel.length).splitOn '+' =
      (SortedSet.ofList (zones.map (·.name))).elems.map String.toList := by
  rw [toList_jointLabel, List.drop_left]
  apply List.splitOn_intercalate
  · intro text htext hplus
    obtain ⟨name, hname, rfl⟩ := List.mem_map.mp htext
    have hmem : name ∈ zones.map (·.name) := SortedSet.mem_ofList.mp hname
    obtain ⟨zone, hzone, rfl⟩ := List.mem_map.mp hmem
    have hplain := (hlisted zone hzone).plain
    simp only [isReservedName, Bool.or_eq_false_iff] at hplain
    simp [hplus] at hplain
  · intro hnil
    obtain ⟨zone, hzone⟩ := List.exists_mem_of_ne_nil zones hne
    have hmem : zone.name ∈ SortedSet.ofList (zones.map (·.name)) :=
      SortedSet.mem_ofList.mpr (List.mem_map_of_mem hzone)
    rw [SortedSet.mem_def, List.map_eq_nil_iff.mp hnil] at hmem
    cases hmem

theorem jointLabel_empty_iff (hne : zones ≠ []) (hlisted : ∀ zone ∈ zones, Listed policy zone) :
    (jointLabel zones).toList.drop effectiveLabel.length = [] ↔
      ∀ zone ∈ zones, zone.name = "" := by
  have hsplit := splitOn_jointLabel hne hlisted
  have hmem : ∀ name, name ∈ (SortedSet.ofList (zones.map (·.name))).elems ↔
      name ∈ zones.map (·.name) := fun name => SortedSet.mem_ofList
  constructor
  · intro hnil zone hzone
    rw [hnil, List.splitOn_nil] at hsplit
    have hname := List.mem_map_of_mem (f := String.toList)
      ((hmem zone.name).mpr (List.mem_map_of_mem hzone))
    rw [← hsplit, List.mem_singleton] at hname
    exact String.toList_inj.mp hname
  · intro hall
    obtain ⟨zone, hzone⟩ := List.exists_mem_of_ne_nil zones hne
    have helems : (SortedSet.ofList (zones.map (·.name))).elems = [""] := by
      have hset : (SortedSet.ofList (zones.map (·.name))).elems = (SortedSet.ofList [""]).elems := by
        apply SortedSet.elems_ext
        intro name
        rw [SortedSet.mem_ofList, SortedSet.mem_ofList, List.mem_map, List.mem_singleton]
        constructor
        · rintro ⟨other, hother, rfl⟩
          exact hall other hother
        · rintro rfl
          exact ⟨zone, hzone, hall zone hzone⟩
      rw [hset]
      rfl
    rw [toList_jointLabel, List.drop_left, helems]
    rfl

theorem zoneNamed_jointLabel (zones : List Zone)
    (hplain : ∀ zone ∈ policy.zones.map (·.zone), isReservedName zone.name = false) :
    zoneNamed policy (jointLabel zones) = none := by
  rw [Option.eq_none_iff_forall_ne_some]
  intro zone hzone
  obtain ⟨hmem, hname⟩ := zoneNamed_name hzone
  have hreserved := hplain zone hmem
  rw [hname, isReservedName_jointLabel zones] at hreserved
  cases hreserved

theorem recordIsAllowed_jointLabel
    (hplain : ∀ zone ∈ policy.zones.map (·.zone), isReservedName zone.name = false)
    (hne : zones ≠ []) (hlisted : ∀ zone ∈ zones, Listed policy zone)
    (hrec : record.zone = jointLabel zones) : recordIsAllowed record destination policy = true ↔
      (∃ zone ∈ zones, zone.name ≠ "") ∧ ∀ zone ∈ zones, ∃ first,
        zoneNamed policy zone.name = some first ∧
          destination.matchesSendTo first.sendTo = true := by
  have hreserved := isReservedName_jointLabel zones
  have hblocked : record.zone ≠ "blocked" := by
    rw [hrec]
    intro h
    rw [h] at hreserved
    exact absurd hreserved (by decide)
  have hnone : zoneNamed policy record.zone = none := by
    rw [hrec]
    exact zoneNamed_jointLabel zones hplain
  have hlabel : effectiveLabel.isPrefixOf record.zone.toList = true := by
    rw [hrec, toList_jointLabel, List.isPrefixOf_iff_prefix]
    exact List.prefix_append _ _
  simp only [recordIsAllowed, if_neg hblocked, hnone, if_pos hlabel]
  rw [hrec, splitOn_jointLabel hne hlisted, Bool.and_eq_true, decide_eq_true_eq, ne_eq,
    jointLabel_empty_iff hne hlisted, List.all_eq_true]
  push Not
  apply and_congr Iff.rfl
  constructor
  · intro hall zone hzone
    have hmem : zone.name ∈ (SortedSet.ofList (zones.map (·.name))).elems :=
      SortedSet.mem_ofList.mpr (List.mem_map_of_mem hzone)
    have hname := hall _ (List.mem_map_of_mem hmem)
    rw [String.ofList_toList] at hname
    cases hfirst : zoneNamed policy zone.name with
    | none =>
      rw [hfirst] at hname
      cases hname
    | some first =>
      rw [hfirst] at hname
      exact ⟨first, rfl, hname⟩
  · intro hall text htext
    obtain ⟨name, hname, rfl⟩ := List.mem_map.mp htext
    obtain ⟨zone, hzone, rfl⟩ := List.mem_map.mp (SortedSet.mem_ofList.mp hname)
    obtain ⟨first, hfirst, hmatch⟩ := hall zone hzone
    rw [String.ofList_toList, hfirst]
    exact hmatch

def zonesForPaths (host : Host Path Pattern) (policy : CompiledPolicy Pattern)
    (paths roots : List Path) : List Zone :=
  paths.map fun path => policy.zoneForPathWithRoots host path roots

theorem listed_zonesForPaths {host : Host Path Pattern} {source : Policy}
    (h : CompiledFrom host source policy) (paths roots : List Path) :
    ∀ zone ∈ zonesForPaths host policy paths roots, Listed policy zone := by
  intro zone hzone
  obtain ⟨path, -, rfl⟩ := List.mem_map.mp hzone
  exact listed_of_mem h (zoneForPath_mem host policy path roots)

/-- The label of the paths stands for exactly what all of them allow, and its shell behaviour
covers theirs in an order of strictness. -/
structure LabelCarries (strictness : ShellBehavior → ℕ) (host : Host Path Pattern)
    (policy : CompiledPolicy Pattern) (paths roots : List Path) : Prop where
  permission : ∀ (T : Type)
    (privacyRecords : T → Except PrivacyAuditError (List (ℕ × FileRecord))) (value : T)
    (index : ℕ) (record : FileRecord) (destination : Destination),
    record.zone = (strictestZoneForPathsWithRoots host policy paths roots).name →
    privacyRecords value = .ok [(index, record)] →
    ((∃ cleared, clear privacyRecords value destination policy = .ok cleared) ↔
      ∀ path ∈ paths, destination.matchesSendTo
        (policy.zoneForPathWithRoots host path roots).sendTo = true)
  order : ∀ paths', paths'.Perm paths →
    (strictestZoneForPathsWithRoots host policy paths' roots).onShellRead =
      (strictestZoneForPathsWithRoots host policy paths roots).onShellRead
  shellReads : ∀ path ∈ paths,
    strictness (policy.zoneForPathWithRoots host path roots).onShellRead ≤
      strictness (strictestZoneForPathsWithRoots host policy paths roots).onShellRead

/-- A zone allows what the first zone of its name allows, and nothing if it is called
`blocked`. -/
structure WellNamed (policy : CompiledPolicy Pattern) (zone : Zone) : Prop where
  reaches : ∀ first, zoneNamed policy zone.name = some first →
    ∀ name, admits first.sendTo name = true ↔ admits zone.sendTo name = true
  closed : zone.name = "blocked" → zone.sendTo = []

def GateReads (policy : CompiledPolicy Pattern) (label : String) (zones : List Zone) : Prop :=
  ∀ (destination : Destination) (record : FileRecord), record.zone = label →
    (recordIsAllowed record destination policy = true ↔
      ∀ zone ∈ zones, destination.matchesSendTo zone.sendTo = true)

theorem clear_single {T : Type}
    {privacyRecords : T → Except PrivacyAuditError (List (ℕ × FileRecord))} {value : T} {index : ℕ}
    (h : privacyRecords value = .ok [(index, record)]) :
    (∃ cleared, clear privacyRecords value destination policy = .ok cleared) ↔
      recordIsAllowed record destination policy = true := by
  simp only [clear_eq_ok, h, Except.ok.injEq, exists_eq_left', List.forall_mem_singleton,
    exists_eq_left]

theorem gateReads_of_bears (hlisted : Listed policy zone) (hbears : Bears zones zone)
    (hnamed : WellNamed policy zone) : GateReads policy zone.name zones := by
  intro destination record hrec
  obtain ⟨first, hfirst⟩ := hlisted.zoneNamed
  have hall : (∀ other ∈ zones, destination.matchesSendTo other.sendTo = true) ↔
      admits zone.sendTo destination.id = true := hbears.admits_iff.symm
  rw [recordIsAllowed_of_zoneNamed (hrec ▸ hfirst), hall, hrec, Destination.matchesSendTo,
    hnamed.reaches first hfirst]
  constructor
  · exact fun h => h.2
  · intro hadmits
    refine ⟨fun hblocked => ?_, hadmits⟩
    simp [hnamed.closed hblocked, admits] at hadmits

theorem exists_bears (hne : zones ≠ [])
    (h : ∀ zone ∈ zones, ∀ other ∈ zones, ∀ name,
      admits zone.sendTo name = true ↔ admits other.sendTo name = true) :
    ∃ zone, Bears zones zone := by
  obtain ⟨zone, hzone, hshell⟩ := exists_commonShellRead hne
  refine ⟨zone, hzone, ?_, (commonShellRead_eq_iff hzone).mp hshell⟩
  intro other hother name hname
  exact (h zone hzone other hother name).mp (admits_iff.mpr (.inr hname))

theorem gateReads_of_joint
    (hplain : ∀ zone ∈ policy.zones.map (·.zone), isReservedName zone.name = false)
    (hne : zones ≠ []) (hlisted : ∀ zone ∈ zones, Listed policy zone)
    (hnamed : ∀ zone ∈ zones, WellNamed policy zone) (hnone : ∀ zone, ¬ Bears zones zone) :
    GateReads policy (jointLabel zones) zones := by
  intro destination record hrec
  have hreach : ∀ zone ∈ zones, ∀ first, zoneNamed policy zone.name = some first →
      (destination.matchesSendTo first.sendTo = true ↔
        destination.matchesSendTo zone.sendTo = true) :=
    fun zone hzone first hfirst => (hnamed zone hzone).reaches first hfirst destination.id
  rw [recordIsAllowed_jointLabel hplain hne hlisted hrec]
  constructor
  · rintro ⟨-, hall⟩ zone hzone
    obtain ⟨first, hfirst, hmatch⟩ := hall zone hzone
    exact (hreach zone hzone first hfirst).mp hmatch
  · intro hall
    refine ⟨?_, ?_⟩
    · -- zones that share the empty name all allow what its first zone allows
      by_contra hempty
      push Not at hempty
      obtain ⟨zone, hbears⟩ := exists_bears hne fun zone hzone other hother name => by
        obtain ⟨first, hfirst⟩ := (hlisted zone hzone).zoneNamed
        have hname : zone.name = other.name :=
          (hempty zone hzone).trans (hempty other hother).symm
        exact ((hnamed zone hzone).reaches first hfirst name).symm.trans
          ((hnamed other hother).reaches first (hname ▸ hfirst) name)
      exact hnone zone hbears
    · intro zone hzone
      obtain ⟨first, hfirst⟩ := (hlisted zone hzone).zoneNamed
      exact ⟨first, hfirst, (hreach zone hzone first hfirst).mpr (hall zone hzone)⟩

theorem strictestZoneForPaths_spec (policy : CompiledPolicy Pattern) {paths : List Path}
    (roots : List Path) (hpaths : paths ≠ []) :
    (strictestZoneForPathsWithRoots host policy paths roots).onShellRead =
        commonShellRead (zonesForPaths host policy paths roots) ∧
      ((∃ zone, Bears (zonesForPaths host policy paths roots) zone ∧
          (strictestZoneForPathsWithRoots host policy paths roots).name = zone.name) ∨
        (∀ zone, ¬ Bears (zonesForPaths host policy paths roots) zone) ∧
          (strictestZoneForPathsWithRoots host policy paths roots).name =
            jointLabel (zonesForPaths host policy paths roots)) := by
  have hne : zonesForPaths host policy paths roots ≠ [] := by simpa [zonesForPaths] using hpaths
  obtain ⟨common, heff, hshell, hname⟩ := effectiveZone_spec policy hne
  have hstrictest : strictestZoneForPathsWithRoots host policy paths roots = common := by
    rw [zonesForPaths, List.map_map] at heff
    simp only [strictestZoneForPathsWithRoots]
    exact congrArg (·.getD policy.normal) heff
  rw [hstrictest]
  exact ⟨hshell, hname⟩

theorem strictestZoneForPaths_order (policy : CompiledPolicy Pattern) {paths paths' : List Path}
    (roots : List Path) (h : paths'.Perm paths) :
    (strictestZoneForPathsWithRoots host policy paths' roots).onShellRead =
      (strictestZoneForPathsWithRoots host policy paths roots).onShellRead := by
  by_cases hpaths : paths = []
  · subst hpaths
    rw [List.perm_nil.mp h]
  · have hpaths' : paths' ≠ [] := by
      rintro rfl
      exact hpaths (List.nil_perm.mp h)
    rw [(strictestZoneForPaths_spec host policy roots hpaths').1,
      (strictestZoneForPaths_spec host policy roots hpaths).1]
    exact commonShellRead_perm (h.map _)

/-- Where zones are well named, a label carries exactly the permission of its files. -/
theorem label_carries_permission (host : Host Path Pattern) (source : Policy)
    (policy : CompiledPolicy Pattern) (paths roots : List Path)
    (hcompiled : source.compile host = .ok policy) (hpaths : paths ≠ [])
    (hnamed : ∀ path ∈ paths, WellNamed policy (policy.zoneForPathWithRoots host path roots)) :
    LabelCarries rank host policy paths roots := by
  have hfrom := compile_ok hcompiled
  obtain ⟨hshell, hname⟩ := strictestZoneForPaths_spec host policy roots hpaths
  have hne : zonesForPaths host policy paths roots ≠ [] := by simpa [zonesForPaths] using hpaths
  have hlisted := listed_zonesForPaths hfrom paths roots
  have hwell : ∀ zone ∈ zonesForPaths host policy paths roots, WellNamed policy zone := by
    intro zone hzone
    obtain ⟨path, hpath, rfl⟩ := List.mem_map.mp hzone
    exact hnamed path hpath
  have hgate : GateReads policy (strictestZoneForPathsWithRoots host policy paths roots).name
      (zonesForPaths host policy paths roots) := by
    rcases hname with ⟨zone, hbears, hname⟩ | ⟨hnone, hname⟩
    · rw [hname]
      exact gateReads_of_bears (hlisted zone hbears.mem) hbears (hwell zone hbears.mem)
    · rw [hname]
      exact gateReads_of_joint (fun zone hzone => (listed_of_mem hfrom hzone).plain) hne hlisted
        hwell hnone
  refine ⟨?_, fun paths' => strictestZoneForPaths_order host policy roots, ?_⟩
  · intro T privacyRecords value index record destination hrecord hvalue
    rw [clear_single hvalue, hgate destination record hrecord]
    simp only [zonesForPaths, List.forall_mem_map]
  · intro path hpath
    rw [hshell]
    exact rank_commonShellRead_le.mp le_rfl _ (List.mem_map_of_mem hpath)

theorem wellNamed_of_distinct_names (hnames : (policy.zones.map (·.zone.name)).Nodup)
    (hlisted : Listed policy zone) (hclosed : zone.name = "blocked" → zone.sendTo = []) :
    WellNamed policy zone := by
  refine ⟨?_, hclosed⟩
  intro first hfirst name
  obtain ⟨hmem, hname⟩ := zoneNamed_name hfirst
  have hinj : ((policy.zones.map (·.zone)).map (·.name)).Nodup := by
    rw [List.map_map]
    exact hnames
  rw [List.inj_on_of_nodup_map hinj hmem hlisted.mem hname]

/-- Two zones that share one destination, one that asks before a shell read, and the rest. -/
def sharedPolicy : Policy where
  blocked := []
  zones := [⟨"a", ["a.txt"], ["trusted", "a-only"], .withhold⟩,
    ⟨"b", ["b.txt"], ["trusted", "b-only"], .withhold⟩, ⟨"c", ["c.txt"], ["trusted"], .ask⟩]
  subagents := {}
  toolAccess := ⟨∅⟩

/-- Two files of different zones get the joint label, which admits what they share. -/
theorem joint_label_carries : ∃ policy, sharedPolicy.compile starHost = .ok policy ∧
    LabelCarries rank starHost policy ["a.txt", "b.txt"] [] := by
  refine ⟨_, rfl, label_carries_permission starHost sharedPolicy _ _ _ rfl (by simp) ?_⟩
  intro path hpath
  have hfrom := @compile_ok _ _ starHost _ sharedPolicy rfl
  apply wellNamed_of_distinct_names (by decide)
  · exact listed_of_mem hfrom (zoneForPath_mem starHost _ path [])
  · revert path
    decide

/-- A file whose shell reads are withheld and one whose reads are asked for: the label asks,
which is weaker in the order of merging. -/
theorem asking_covers_withholding : ∃ policy, sharedPolicy.compile starHost = .ok policy ∧
    ¬ LabelCarries ShellBehavior.strictness starHost policy ["a.txt", "c.txt"] [] := by
  refine ⟨_, rfl, fun h => ?_⟩
  exact absurd (h.shellReads "a.txt" (by simp)) (by decide)

end ZoneLabels
