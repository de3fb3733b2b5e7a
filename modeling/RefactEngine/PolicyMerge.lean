import Mathlib.Data.List.Induction
import Mathlib.Data.List.TakeWhile
import RefactEngine.PrivacyPolicy

/-! # What a project's policy does to the global one

A merged zone is the global zone cut down by every project zone of its name, and the zones that
only the project names stand before `normal`. Which of them takes a path is read off the two
policies; a path that is moved to a wider zone is the one way in which a project can widen.
-/
namespace PolicyMerge

open PrivacyPolicy List

variable {Path Pattern : Type}

theorem mem_unionPatterns {target additions : List String} {p : String} :
    p ∈ unionPatterns target additions ↔ p ∈ target ∨ p ∈ additions := by
  induction additions generalizing target with
  | nil => simp [unionPatterns]
  | cons a rest ih =>
    have hstep : unionPatterns target (a :: rest) =
        unionPatterns (if a ∈ target then target else target ++ [a]) rest := rfl
    rw [hstep, ih]
    by_cases ha : a ∈ target
    · rw [if_pos ha, mem_cons]
      constructor
      · rintro (h | h)
        · exact .inl h
        · exact .inr (.inr h)
      · rintro (h | rfl | h)
        · exact .inl h
        · exact .inl ha
        · exact .inr h
    · rw [if_neg ha, mem_append, mem_singleton, mem_cons, or_assoc]

theorem mem_deduplicate {values : List String} {v : String} :
    v ∈ deduplicate values ↔ v ∈ values := by
  simp [deduplicate, mem_unionPatterns]

theorem unionPatterns_of_subset {target additions : List String}
    (h : ∀ p ∈ additions, p ∈ target) : unionPatterns target additions = target := by
  induction additions with
  | nil => rfl
  | cons a rest ih =>
    have ha : a ∈ target := h a mem_cons_self
    have hstep : unionPatterns target (a :: rest) = unionPatterns target rest := by
      simp [unionPatterns, ha]
    rw [hstep]
    exact ih fun p hp => h p (mem_cons_of_mem _ hp)

variable (host : Host Path Pattern) (texts : List String)

theorem hits_unionPatterns (target additions : List String) :
    hits host texts (unionPatterns target additions) =
      (hits host texts target || hits host texts additions) := by
  rw [← hits_append, Bool.eq_iff_iff, hits_iff_exists, hits_iff_exists]
  simp only [mem_unionPatterns, mem_append]

variable {name : String}

theorem admits_intersectDestinations {globals project : List String} :
    admits (intersectDestinations globals project) name = true ↔
      admits globals name = true ∧ admits project name = true := by
  rw [admits_iff, admits_iff, admits_iff, intersectDestinations]
  by_cases hp : "*" ∈ project
  · rw [if_pos hp, mem_deduplicate, mem_deduplicate]
    simp [hp]
  · rw [if_neg hp]
    by_cases hg : "*" ∈ globals
    · rw [if_pos hg, mem_deduplicate, mem_deduplicate]
      simp [hg]
    · rw [if_neg hg, mem_deduplicate, mem_deduplicate]
      simp [hp, hg]

def restrictAll (zone : Zone) (additions : List Zone) : Zone := additions.foldl restrictZone zone

theorem restrictAll_cons (zone a : Zone) (rest : List Zone) :
    restrictAll zone (a :: rest) = restrictAll (restrictZone zone a) rest := rfl

@[simp] theorem restrictAll_name (zone : Zone) (additions : List Zone) :
    (restrictAll zone additions).name = zone.name := by
  induction additions generalizing zone with
  | nil => rfl
  | cons a rest ih => exact ih (restrictZone zone a)

theorem hits_restrictAll (zone : Zone) (additions : List Zone) :
    hits host texts (restrictAll zone additions).patterns =
      (hits host texts zone.patterns || additions.any fun a => hits host texts a.patterns) := by
  induction additions generalizing zone with
  | nil => simp [restrictAll]
  | cons a rest ih =>
    rw [restrictAll_cons, ih, any_cons, ← Bool.or_assoc]
    congr 1
    exact hits_unionPatterns host texts zone.patterns a.patterns

variable {zone : Zone} {additions : List Zone}

theorem admits_restrictAll : admits (restrictAll zone additions).sendTo name = true ↔
      admits zone.sendTo name = true ∧ ∀ a ∈ additions, admits a.sendTo name = true := by
  induction additions generalizing zone with
  | nil => simp [restrictAll]
  | cons a rest ih =>
    rw [restrictAll_cons, ih, forall_mem_cons, ← and_assoc]
    have hsend : (restrictZone zone a).sendTo = intersectDestinations zone.sendTo a.sendTo := rfl
    rw [hsend, admits_intersectDestinations]

theorem le_strictness_restrictAll {n : ℕ} :
    n ≤ (restrictAll zone additions).onShellRead.strictness ↔
      n ≤ zone.onShellRead.strictness ∨ ∃ a ∈ additions, n ≤ a.onShellRead.strictness := by
  induction additions generalizing zone with
  | nil => simp [restrictAll]
  | cons a rest ih =>
    have hshell : (restrictZone zone a).onShellRead =
        zone.onShellRead.restrictWith a.onShellRead := rfl
    rw [restrictAll_cons, ih, hshell, ShellBehavior.strictness_restrictWith, le_max_iff, or_assoc,
      exists_mem_cons_iff]

theorem restrictZone_newZone (project : Zone) :
    restrictZone (newZone project) project = newZone project := by
  have hpatterns : unionPatterns project.patterns project.patterns = project.patterns :=
    unionPatterns_of_subset fun _ h => h
  have hsend : intersectDestinations [] project.sendTo = [] := by
    simp [intersectDestinations, deduplicate, unionPatterns]
  have hshell : (ShellBehavior.withhold.restrictWith project.onShellRead).restrictWith
      project.onShellRead = ShellBehavior.withhold.restrictWith project.onShellRead := by
    cases project.onShellRead <;> rfl
  simp only [restrictZone, newZone, hpatterns, hsend, hshell]

def sharing (name : String) (project : List Zone) : List Zone :=
  project.filter fun zone => zone.name = name

/-- Cuts each zone down by the project zones of its name; only the first of a name is cut. -/
def extendFirst (project : List Zone) (seen : List String) : List Zone → List Zone
  | [] => []
  | zone :: rest =>
    (if zone.name ∈ seen then zone else restrictAll zone (sharing zone.name project)) ::
      extendFirst project (zone.name :: seen) rest

/-- The zones that only the project names, each as its first mention makes it. -/
def newZones (seen : List String) : List Zone → List Zone
  | [] => []
  | zone :: rest =>
    if zone.name ∈ seen then newZones seen rest
    else newZone zone :: newZones (zone.name :: seen) rest

def isNormal (zone : Zone) : Bool := zone.name = "normal"

def names (zones : List Zone) : List String := zones.map (·.name)

def layout (globals project : List Zone) : List Zone :=
  globals.takeWhile (fun zone => !isNormal zone) ++
    ((newZones (names globals) project).filter (fun zone => !isNormal zone) ++
      ((newZones (names globals) project).filter isNormal ++
        globals.dropWhile (fun zone => !isNormal zone)))

variable {project : List Zone}

theorem sharing_append_of_ne (h : zone.name ≠ name) :
    sharing name (project ++ [zone]) = sharing name project := by
  simp [sharing, h]

theorem sharing_append_self (project : List Zone) (zone : Zone) :
    sharing zone.name (project ++ [zone]) = sharing zone.name project ++ [zone] := by
  simp [sharing]

theorem sharing_eq_nil (h : name ∉ names project) : sharing name project = [] := by
  rw [sharing, filter_eq_nil_iff]
  intro zone hzone hname
  exact h (mem_map.mpr ⟨zone, hzone, of_decide_eq_true hname⟩)

@[simp] theorem names_extendFirst (project : List Zone) (seen : List String)
    (zones : List Zone) : names (extendFirst project seen zones) = names zones := by
  induction zones generalizing seen with
  | nil => rfl
  | cons zone rest ih =>
    have hhead : (if zone.name ∈ seen then zone
        else restrictAll zone (sharing zone.name project)).name = zone.name := by
      split <;> simp
    simp only [names, extendFirst, map_cons, hhead, List.cons.injEq, true_and]
    exact ih (zone.name :: seen)

variable {seen : List String} {zones : List Zone}

theorem extendFirst_seen (h : name ∉ names zones) {seen' : List String}
    (hseen : ∀ n, n ≠ name → (n ∈ seen ↔ n ∈ seen')) :
    extendFirst project seen zones = extendFirst project seen' zones := by
  induction zones generalizing seen seen' with
  | nil => rfl
  | cons zone rest ih =>
    have hne : zone.name ≠ name := fun e => h (by simp [names, e])
    have hrest : name ∉ names rest := fun e => h (mem_cons_of_mem _ e)
    have hcons : ∀ n, n ≠ name → (n ∈ zone.name :: seen ↔ n ∈ zone.name :: seen') :=
      fun n hn => by simp only [mem_cons, hseen n hn]
    have htail := ih hrest hcons
    simp only [extendFirst, hseen _ hne, htail]

theorem extendFirst_project (h : zone.name ∈ seen ∨ zone.name ∉ names zones) :
    extendFirst (project ++ [zone]) seen zones = extendFirst project seen zones := by
  induction zones generalizing seen with
  | nil => rfl
  | cons other rest ih =>
    have hrest : zone.name ∈ other.name :: seen ∨ zone.name ∉ names rest := by
      rcases h with h | h
      · exact .inl (mem_cons_of_mem _ h)
      · exact .inr fun e => h (mem_cons_of_mem _ e)
    simp only [extendFirst, ih hrest, List.cons.injEq, and_true]
    by_cases hother : other.name ∈ seen
    · rw [if_pos hother, if_pos hother]
    · rw [if_neg hother, if_neg hother, sharing_append_of_ne]
      rintro hname
      rcases h with h | h
      · exact hother (hname ▸ h)
      · exact h (by simp [names, hname])

theorem restrictFirst_extendFirst (hseen : zone.name ∉ seen) (hmem : zone.name ∈ names zones) :
    restrictFirst zone (extendFirst project seen zones) =
      extendFirst (project ++ [zone]) seen zones := by
  induction zones generalizing seen with
  | nil => exact absurd hmem (by simp [names])
  | cons other rest ih =>
    by_cases hname : other.name = zone.name
    · have hother : other.name ∉ seen := hname ▸ hseen
      have htail : extendFirst (project ++ [zone]) (other.name :: seen) rest =
          extendFirst project (other.name :: seen) rest :=
        extendFirst_project (.inl (by simp [hname]))
      simp only [extendFirst, if_neg hother, restrictFirst, restrictAll_name, if_pos hname, htail]
      rw [hname, sharing_append_self, restrictAll, restrictAll, foldl_append]
      rfl
    · have hrest : zone.name ∈ names rest := by
        rcases mem_cons.mp hmem with h | h
        · exact absurd h.symm hname
        · exact h
      have hseen' : zone.name ∉ other.name :: seen := by
        rintro h
        rcases mem_cons.mp h with h | h
        · exact hname h.symm
        · exact hseen h
      have hhead : (if other.name ∈ seen then other
          else restrictAll other (sharing other.name project)).name ≠ zone.name := by
        split <;> simpa using hname
      simp only [extendFirst, restrictFirst, if_neg hhead, ih hseen' hrest,
        sharing_append_of_ne (Ne.symm hname)]

theorem insertBeforeNormal_extendFirst (hseen : zone.name ∉ seen) (hzones : zone.name ∉ names zones)
    (hproj : zone.name ∉ names project) :
    insertBeforeNormal (newZone zone) (extendFirst project seen zones) =
      extendFirst (project ++ [zone]) seen (insertBeforeNormal (newZone zone) zones) := by
  have hnew : restrictAll (newZone zone) (sharing zone.name (project ++ [zone])) =
      newZone zone := by
    rw [sharing_append_self, sharing_eq_nil hproj]
    exact restrictZone_newZone zone
  have hname : (newZone zone).name = zone.name := rfl
  induction zones generalizing seen with
  | nil => simp only [extendFirst, insertBeforeNormal, hname, if_neg hseen, hnew]
  | cons other rest ih =>
    have hne : zone.name ≠ other.name := fun e => hzones (by simp [names, e])
    have hrest : zone.name ∉ names rest := fun e => hzones (mem_cons_of_mem _ e)
    have hhead : (if other.name ∈ seen then other
        else restrictAll other (sharing other.name project)).name = other.name := by
      split <;> simp
    by_cases hnormal : other.name = "normal"
    · have hall : extendFirst (project ++ [zone]) (zone.name :: seen) (other :: rest) =
          extendFirst project seen (other :: rest) := by
        rw [extendFirst_project (.inl mem_cons_self)]
        exact extendFirst_seen hzones fun n hn => by simp [hn]
      have hfirst : extendFirst (project ++ [zone]) seen (newZone zone :: other :: rest) =
          newZone zone :: extendFirst project seen (other :: rest) := by
        rw [extendFirst, hname, if_neg hseen, hnew, hall]
      simp only [insertBeforeNormal, if_pos hnormal]
      rw [hfirst]
      simp only [extendFirst, insertBeforeNormal, hhead, if_pos hnormal]
    · have hseen' : zone.name ∉ other.name :: seen := by
        rintro h
        rcases mem_cons.mp h with h | h
        · exact hne h
        · exact hseen h
      simp only [extendFirst, insertBeforeNormal, hhead, if_neg hnormal, ih hseen' hrest,
        sharing_append_of_ne hne]

theorem newZones_append (seen : List String) (project : List Zone) (zone : Zone) :
    newZones seen (project ++ [zone]) =
      if zone.name ∈ seen ∨ zone.name ∈ names project then newZones seen project
      else newZones seen project ++ [newZone zone] := by
  induction project generalizing seen with
  | nil =>
    by_cases h : zone.name ∈ seen <;> simp [newZones, names, h]
  | cons other rest ih =>
    by_cases hother : other.name ∈ seen
    · have hiff : (zone.name ∈ seen ∨ zone.name ∈ names (other :: rest)) ↔
          (zone.name ∈ seen ∨ zone.name ∈ names rest) := by
        simp only [names, map_cons, mem_cons]
        constructor
        · rintro (h | h | h)
          · exact .inl h
          · exact .inl (h ▸ hother)
          · exact .inr h
        · rintro (h | h)
          · exact .inl h
          · exact .inr (.inr h)
      simp only [cons_append, newZones, if_pos hother, ih, hiff]
    · have hiff : (zone.name ∈ seen ∨ zone.name ∈ names (other :: rest)) ↔
          (zone.name ∈ other.name :: seen ∨ zone.name ∈ names rest) := by
        simp only [names, map_cons, mem_cons]
        tauto
      simp only [cons_append, newZones, if_neg hother, ih, hiff]
      split <;> rfl

theorem mem_names_newZones :
    name ∈ names (newZones seen project) ↔ name ∉ seen ∧ name ∈ names project := by
  induction project generalizing seen with
  | nil => simp [newZones, names]
  | cons zone rest ih =>
    by_cases h : zone.name ∈ seen
    · rw [newZones, if_pos h, ih]
      simp only [names, map_cons, mem_cons]
      constructor
      · rintro ⟨hn, hr⟩
        exact ⟨hn, .inr hr⟩
      · rintro ⟨hn, rfl | hr⟩
        · exact absurd h hn
        · exact ⟨hn, hr⟩
    · rw [newZones, if_neg h]
      have hnew : (newZone zone).name = zone.name := rfl
      simp only [names, map_cons, mem_cons, hnew]
      rw [show (newZones (zone.name :: seen) rest).map (·.name) =
        names (newZones (zone.name :: seen) rest) from rfl, ih]
      simp only [mem_cons, names]
      by_cases hname : name = zone.name
      · subst hname
        simp [h]
      · simp [hname]

theorem layout_perm (globals project : List Zone) :
    (layout globals project).Perm (globals ++ newZones (names globals) project) := by
  have hglobals : globals = globals.takeWhile (fun zone => !isNormal zone) ++
      globals.dropWhile (fun zone => !isNormal zone) := takeWhile_append_dropWhile.symm
  have hnew : ((newZones (names globals) project).filter (fun zone => !isNormal zone) ++
      (newZones (names globals) project).filter isNormal).Perm
      (newZones (names globals) project) :=
    perm_append_comm.trans (filter_append_perm isNormal _)
  rw [layout, ← append_assoc (List.filter _ _)]
  calc globals.takeWhile (fun zone => !isNormal zone) ++ ((_ ++ _) ++ _)
      |>.Perm (globals.takeWhile (fun zone => !isNormal zone) ++
        (globals.dropWhile (fun zone => !isNormal zone) ++
          newZones (names globals) project)) := by
        apply List.Perm.append_left
        exact perm_append_comm.trans (hnew.append_left _)
    _ = globals ++ newZones (names globals) project := by
        rw [← append_assoc, ← hglobals]

variable {globals : List Zone}

theorem mem_layout : zone ∈ layout globals project ↔
      zone ∈ globals ∨ zone ∈ newZones (names globals) project := by
  rw [(layout_perm globals project).mem_iff, mem_append]

theorem mem_names_layout :
    name ∈ names (layout globals project) ↔ name ∈ names globals ∨ name ∈ names project := by
  have hlayout : name ∈ names (layout globals project) ↔
      name ∈ names globals ∨ name ∈ names (newZones (names globals) project) := by
    simp only [names, mem_map, mem_layout]
    constructor
    · rintro ⟨zone, h | h, hname⟩
      · exact .inl ⟨zone, h, hname⟩
      · exact .inr ⟨zone, h, hname⟩
    · rintro (⟨zone, h, hname⟩ | ⟨zone, h, hname⟩)
      · exact ⟨zone, .inl h, hname⟩
      · exact ⟨zone, .inr h, hname⟩
  rw [hlayout, mem_names_newZones]
  tauto

theorem insertBeforeNormal_append {front back : List Zone} (zone : Zone)
    (hfront : ∀ other ∈ front, isNormal other = false)
    (hback : ∀ other, back.head? = some other → isNormal other = true) :
    insertBeforeNormal zone (front ++ back) = front ++ zone :: back := by
  induction front with
  | nil =>
    cases back with
    | nil => rfl
    | cons other rest =>
      have hnormal : other.name = "normal" := of_decide_eq_true (hback other rfl)
      simp [insertBeforeNormal, hnormal]
  | cons other rest ih =>
    have hnormal : ¬ other.name = "normal" := of_decide_eq_false (hfront other mem_cons_self)
    simp only [cons_append, insertBeforeNormal, if_neg hnormal, List.cons.injEq, true_and]
    exact ih fun o ho => hfront o (mem_cons_of_mem _ ho)

theorem head_dropWhile_normal (h : (zones.dropWhile fun zone => !isNormal zone).head? = some zone) :
    isNormal zone = true := by
  have := List.head?_dropWhile_not (fun zone => !isNormal zone) zones
  rw [h] at this
  simpa using this

variable {added : List Zone} {other : Zone}

theorem front_not_normal (h : other ∈ globals.takeWhile (fun zone => !isNormal zone) ++
      added.filter (fun zone => !isNormal zone)) :
    isNormal other = false := by
  rcases mem_append.mp h with h | h
  · simpa using mem_takeWhile_imp h
  · simpa using (mem_filter.mp h).2

theorem head_back_normal
    (h : (added.filter isNormal ++ globals.dropWhile (fun zone => !isNormal zone)).head? =
      some other) :
    isNormal other = true := by
  rw [List.head?_append] at h
  cases hfirst : (added.filter isNormal).head? with
  | none =>
    rw [hfirst] at h
    exact head_dropWhile_normal h
  | some first =>
    rw [hfirst] at h
    cases h
    exact (mem_filter.mp (List.mem_of_mem_head? hfirst)).2

theorem layout_append_new (hglobals : zone.name ∉ names globals)
    (hproj : zone.name ∉ names project) : layout globals (project ++ [zone]) =
      insertBeforeNormal (newZone zone) (layout globals project) := by
  have hnew : newZones (names globals) (project ++ [zone]) =
      newZones (names globals) project ++ [newZone zone] := by
    rw [newZones_append, if_neg (by tauto)]
  have hkind : isNormal (newZone zone) = isNormal zone := rfl
  have hfront : ∀ other ∈ globals.takeWhile (fun zone => !isNormal zone) ++
      (newZones (names globals) project).filter (fun zone => !isNormal zone),
      isNormal other = false := fun other => front_not_normal
  by_cases hnormal : isNormal zone = true
  · -- no zone is called `normal` yet, so the new one stands at the end
    have hname : zone.name = "normal" := of_decide_eq_true hnormal
    have hnone : (newZones (names globals) project).filter isNormal = [] := by
      rw [filter_eq_nil_iff]
      intro other hother hn
      have hmem := mem_map_of_mem (f := (·.name)) hother
      rw [show other.name = zone.name from (of_decide_eq_true hn).trans hname.symm] at hmem
      exact hproj (mem_names_newZones.mp hmem).2
    have hdrop : globals.dropWhile (fun zone => !isNormal zone) = [] := by
      rw [dropWhile_eq_nil_iff]
      intro other hother
      by_contra hn
      have hn : isNormal other = true := by simpa using hn
      exact hglobals (mem_map.mpr ⟨other, hother, (of_decide_eq_true hn).trans hname.symm⟩)
    have hhead : ∀ other, ([] : List Zone).head? = some other → isNormal other = true := by simp
    have hend := insertBeforeNormal_append (newZone zone) hfront hhead
    simp only [layout, hnew, filter_append, hnone, hdrop, append_nil]
    rw [append_nil] at hend
    rw [hend]
    simp [hkind, hnormal]
  · rw [Bool.not_eq_true] at hnormal
    have hback : ∀ other, ((newZones (names globals) project).filter isNormal ++
        globals.dropWhile (fun zone => !isNormal zone)).head? = some other →
        isNormal other = true := fun other => head_back_normal
    have hinsert := insertBeforeNormal_append (newZone zone) hfront hback
    simp only [append_assoc] at hinsert
    simp only [layout, hnew, filter_append, hinsert]
    simp [hkind, hnormal]

theorem layout_append_old (h : zone.name ∈ names globals ∨ zone.name ∈ names project) :
    layout globals (project ++ [zone]) = layout globals project := by
  have hnew : newZones (names globals) (project ++ [zone]) = newZones (names globals) project := by
    rw [newZones_append, if_pos h]
  simp only [layout, hnew]

theorem foldl_mergeZone (globals project : List Zone) :
    project.foldl mergeZone globals = extendFirst project [] (layout globals project) := by
  induction project using List.reverseRecOn with
  | nil =>
    have hlayout : layout globals [] = globals := by
      simp [layout, newZones, takeWhile_append_dropWhile]
    have hextend : ∀ (zones : List Zone) seen, extendFirst [] seen zones = zones := by
      intro zones
      induction zones with
      | nil => exact fun _ => rfl
      | cons zone rest ih =>
        intro seen
        simp [extendFirst, sharing, restrictAll, ih]
    rw [hlayout, hextend]
    rfl
  | append_singleton project zone ih =>
    rw [foldl_append, foldl_cons, foldl_nil, ih, mergeZone]
    have hany : ((extendFirst project [] (layout globals project)).any
        fun other => other.name = zone.name) = true ↔
        zone.name ∈ names (layout globals project) := by
      rw [← names_extendFirst project [] (layout globals project)]
      simp [names]
    by_cases hmem : zone.name ∈ names (layout globals project)
    · rw [if_pos (hany.mpr hmem), layout_append_old (mem_names_layout.mp hmem)]
      exact restrictFirst_extendFirst (by simp) hmem
    · have hboth := mt mem_names_layout.mpr hmem
      rw [not_or] at hboth
      rw [if_neg (mt hany.mp hmem), layout_append_new hboth.1 hboth.2]
      exact insertBeforeNormal_extendFirst (by simp) hmem hboth.2

/-- The project zones that cut a zone down when it stands behind zones of the names in `seen`. -/
def additionsFor (project : List Zone) (seen : List String) (zone : Zone) : List Zone :=
  if zone.name ∈ seen then [] else sharing zone.name project

/-- The first zone that passes the test by itself or by a project zone of its name, with the
project zones that cut it down. -/
def taker (hit : Zone → Bool) (project : List Zone) (seen : List String) :
    List Zone → Option (Zone × List Zone)
  | [] => none
  | zone :: rest =>
    if hit zone || (additionsFor project seen zone).any hit then
      some (zone, additionsFor project seen zone)
    else taker hit project (zone.name :: seen) rest

theorem find_extendFirst (project zones : List Zone) (seen : List String) :
    ((extendFirst project seen zones).find? fun zone => hits host texts zone.patterns) =
      (taker (fun zone => hits host texts zone.patterns) project seen zones).map
        fun taken => restrictAll taken.1 taken.2 := by
  induction zones generalizing seen with
  | nil => rfl
  | cons zone rest ih =>
    have hhead : (if zone.name ∈ seen then zone
        else restrictAll zone (sharing zone.name project)) =
        restrictAll zone (additionsFor project seen zone) := by
      unfold additionsFor
      split <;> rfl
    simp only [extendFirst, taker, hhead]
    generalize additionsFor project seen zone = additions
    rw [List.find?_cons, hits_restrictAll]
    cases (hits host texts zone.patterns || additions.any fun a => hits host texts a.patterns)
    · exact ih (zone.name :: seen)
    · rfl

variable {hit : Zone → Bool}

theorem taker_eq_none (h : taker hit project seen zones = none) : zones.find? hit = none := by
  induction zones generalizing seen with
  | nil => rfl
  | cons zone rest ih =>
    simp only [taker] at h
    split at h
    · cases h
    next hno =>
      rw [Bool.or_eq_true, not_or] at hno
      rw [List.find?_cons_of_neg hno.1]
      exact ih h

theorem taker_eq_some (h : taker hit project seen zones = some (zone, additions)) :
    ∃ front back, zones = front ++ zone :: back ∧ (∀ other ∈ front, hit other = false) ∧
      additions = if zone.name ∈ names front ∨ zone.name ∈ seen then []
        else sharing zone.name project := by
  induction zones generalizing seen with
  | nil => cases h
  | cons other rest ih =>
    simp only [taker] at h
    split at h
    · cases h
      exact ⟨[], rest, rfl, by simp, by simp [names, additionsFor]⟩
    next hno =>
      obtain ⟨front, back, hzones, hfront, hadditions⟩ := ih h
      refine ⟨other :: front, back, by rw [hzones]; rfl, ?_, ?_⟩
      · intro z hz
        rcases mem_cons.mp hz with rfl | hz
        · rw [Bool.or_eq_true, not_or] at hno
          exact Bool.eq_false_iff.mpr hno.1
        · exact hfront z hz
      · rw [hadditions]
        simp only [names, map_cons, mem_cons]
        congr 1
        apply propext
        tauto

theorem names_newZones_nodup (seen : List String) (project : List Zone) :
    (names (newZones seen project)).Nodup := by
  induction project generalizing seen with
  | nil => exact nodup_nil
  | cons zone rest ih =>
    by_cases h : zone.name ∈ seen
    · rw [newZones, if_pos h]
      exact ih seen
    · rw [newZones, if_neg h]
      refine nodup_cons.mpr ⟨?_, ih (zone.name :: seen)⟩
      intro hmem
      exact (mem_names_newZones.mp hmem).1 mem_cons_self

theorem exists_newZone (h : zone ∈ newZones seen project) :
    ∃ made ∈ project, zone = newZone made := by
  induction project generalizing seen with
  | nil => cases h
  | cons other rest ih =>
    by_cases hother : other.name ∈ seen
    · rw [newZones, if_pos hother] at h
      obtain ⟨made, hmade, heq⟩ := ih h
      exact ⟨made, mem_cons_of_mem _ hmade, heq⟩
    · rw [newZones, if_neg hother] at h
      rcases mem_cons.mp h with rfl | h
      · exact ⟨other, mem_cons_self, rfl⟩
      · obtain ⟨made, hmade, heq⟩ := ih h
        exact ⟨made, mem_cons_of_mem _ hmade, heq⟩

variable {provider server : String}

variable {providers : AList fun _ : String => ProviderToolAccess}

theorem mcpAllowed_iff : ToolAccess.mcpAllowed ⟨providers⟩ provider server = true ↔
      admits ((providers.lookup provider).getD {}).mcp server = true := by
  simp only [ToolAccess.mcpAllowed, admits]
  cases providers.lookup provider with
  | none => simp
  | some access => rfl

theorem mcpAllowed_of_mergeProvider {project : Σ _ : String, ProviderToolAccess}
    (h : ToolAccess.mcpAllowed ⟨mergeProvider providers project⟩ provider server = true) :
    ToolAccess.mcpAllowed ⟨providers⟩ provider server = true := by
  rw [mcpAllowed_iff] at h ⊢
  rw [mergeProvider, AList.lookup_insert_if] at h
  by_cases hp : provider = project.1
  · rw [if_pos hp, Option.getD_some] at h
    rw [hp]
    exact (admits_intersectDestinations.mp h).1
  · rwa [if_neg hp] at h

theorem mcpAllowed_of_foldl {entries : List (Σ _ : String, ProviderToolAccess)}
    (h : ToolAccess.mcpAllowed ⟨entries.foldl mergeProvider providers⟩ provider server = true) :
    ToolAccess.mcpAllowed ⟨providers⟩ provider server = true := by
  induction entries generalizing providers with
  | nil => exact h
  | cons entry rest ih => exact mcpAllowed_of_mergeProvider (ih h)

structure NarrowedAt (host : Host Path Pattern) (globals project : Policy)
    (compiled merged : CompiledPolicy Pattern) (path : Path) (roots : List Path) : Prop where
  destinations : ∀ destination : Destination,
    destination.matchesSendTo (merged.zoneForPathWithRoots host path roots).sendTo = true →
    destination.matchesSendTo (compiled.zoneForPathWithRoots host path roots).sendTo = true
  shellReads : (compiled.zoneForPathWithRoots host path roots).onShellRead.strictness ≤
    (merged.zoneForPathWithRoots host path roots).onShellRead.strictness
  servers : ∀ provider server,
    (mergeProject globals project).toolAccess.mcpAllowed provider server = true →
    globals.toolAccess.mcpAllowed provider server = true

structure NoWider (zone : Zone) (additions : List Zone) (own : Zone) : Prop where
  destinations : ∀ destination : Destination, destination.matchesSendTo zone.sendTo = true →
    (∀ a ∈ additions, destination.matchesSendTo a.sendTo = true) →
    destination.matchesSendTo own.sendTo = true
  shellReads : own.onShellRead.strictness ≤ zone.onShellRead.strictness ∨
    ∃ a ∈ additions, own.onShellRead.strictness ≤ a.onShellRead.strictness

/-- The path is blocked, stays with the zone that matches it already, or is moved by a pattern of
the project: to a global zone that gives no more than its own, or to a new zone, which denies
shell reads if its own zone does. -/
def KeepsPath (host : Host Path Pattern) (globals project : Policy) (texts : List String)
    (own : Zone) : Prop :=
  hits host texts globals.blocked = true ∨ hits host texts project.blocked = true ∨
    match taker (fun zone => hits host texts zone.patterns) project.zones []
      (layout globals.zones project.zones) with
    | none => True
    | some (zone, additions) =>
      if zone.name ∈ names globals.zones then
        hits host texts zone.patterns = true ∨ NoWider zone additions own
      else own.onShellRead = .deny → ∃ a ∈ additions, a.onShellRead = .deny

def Narrower (zone own : Zone) : Prop :=
  (∀ destination : Destination, destination.matchesSendTo zone.sendTo = true →
    destination.matchesSendTo own.sendTo = true) ∧
  own.onShellRead.strictness ≤ zone.onShellRead.strictness

theorem narrower_restrictAll {own : Zone} :
    Narrower (restrictAll zone additions) own ↔ NoWider zone additions own := by
  simp only [Narrower, Destination.matchesSendTo, admits_restrictAll, le_strictness_restrictAll]
  constructor
  · rintro ⟨hd, hs⟩
    exact ⟨fun d hz ha => hd d ⟨hz, ha⟩, hs⟩
  · rintro ⟨hd, hs⟩
    exact ⟨fun d h => hd d h.1 h.2, hs⟩

theorem noWider_self (zone : Zone) (additions : List Zone) : NoWider zone additions zone :=
  ⟨fun _ h _ => h, .inl le_rfl⟩

theorem find_layout (hit : Zone → Bool) (globals project : List Zone)
    (hname : zone.name ∈ names globals) (h : (layout globals project).find? hit = some zone) :
    globals.find? hit = some zone := by
  have hglobals : globals = globals.takeWhile (fun zone => !isNormal zone) ++
      globals.dropWhile (fun zone => !isNormal zone) := takeWhile_append_dropWhile.symm
  -- a zone that only the project names cannot be the one that was found
  have hother : ∀ zones : List Zone, (∀ z ∈ zones, z ∈ newZones (names globals) project) →
      zones.find? hit ≠ some zone := by
    intro zones hzones hfind
    have hmem := mem_map_of_mem (f := (·.name)) (hzones zone (List.mem_of_find?_eq_some hfind))
    exact (mem_names_newZones.mp hmem).1 hname
  rw [layout, List.find?_append, List.find?_append, List.find?_append] at h
  rw [hglobals, List.find?_append]
  cases hfront : (globals.takeWhile fun zone => !isNormal zone).find? hit with
  | some first =>
    rw [hfront] at h
    exact h
  | none =>
    rw [hfront, Option.none_or] at h
    rw [Option.none_or]
    cases hnew : ((newZones (names globals) project).filter fun zone => !isNormal zone).find? hit with
    | some first =>
      rw [hnew, Option.some_or] at h
      exact absurd (hnew.trans h) (hother _ fun z hz => (mem_filter.mp hz).1)
    | none =>
      rw [hnew, Option.none_or] at h
      cases hnormal : ((newZones (names globals) project).filter isNormal).find? hit with
      | some first =>
        rw [hnormal, Option.some_or] at h
        exact absurd (hnormal.trans h) (hother _ fun z hz => (mem_filter.mp hz).1)
      | none =>
        rwa [hnormal, Option.none_or] at h

theorem firstNamed_extendFirst (h : name ∉ seen) :
    firstNamed name (extendFirst project seen zones) =
      (firstNamed name zones).map fun zone => restrictAll zone (sharing name project) := by
  induction zones generalizing seen with
  | nil => rfl
  | cons zone rest ih =>
    by_cases hname : zone.name = name
    · have hseen : zone.name ∉ seen := hname ▸ h
      simp only [firstNamed, extendFirst, if_neg hseen]
      rw [List.find?_cons_of_pos (by simpa using hname),
        List.find?_cons_of_pos (by simpa using hname), hname]
      rfl
    · have hhead : (if zone.name ∈ seen then zone
          else restrictAll zone (sharing zone.name project)).name ≠ name := by
        split <;> simpa using hname
      have hseen : name ∉ zone.name :: seen := by
        rintro hmem
        rcases mem_cons.mp hmem with rfl | hmem
        · exact hname rfl
        · exact h hmem
      have hrest := ih hseen
      simp only [firstNamed] at hrest
      simp only [firstNamed, extendFirst]
      rw [List.find?_cons_of_neg (by simpa using hhead), List.find?_cons_of_neg (by simpa using hname)]
      exact hrest

theorem noWider_newZone {made own : Zone} : NoWider (newZone made) additions own ↔
      own.onShellRead.strictness ≤ (newZone made).onShellRead.strictness ∨
        ∃ a ∈ additions, own.onShellRead.strictness ≤ a.onShellRead.strictness := by
  constructor
  · exact fun h => h.shellReads
  · refine fun h => ⟨?_, h⟩
    intro destination hsend
    exact absurd hsend (by simp [Destination.matchesSendTo, newZone, admits])

theorem narrower_normal (hnone : taker hit project [] (layout globals project) = none)
    (hfind : (extendFirst project [] (layout globals project)).find? hit = none) :
    Narrower (pick hit (extendFirst project [] (layout globals project))) (pick hit globals) := by
  have hlayout := List.find?_eq_none.mp (taker_eq_none hnone)
  have hglobals : globals.find? hit = none :=
    List.find?_eq_none.mpr fun zone hzone => hlayout zone (mem_layout.mpr (.inl hzone))
  rw [pick, pick, hglobals, hfind, firstNamed_extendFirst not_mem_nil]
  simp only [Option.getD_none]
  cases hfirst : firstNamed "normal" (layout globals project) with
  | none =>
    have hno : firstNamed "normal" globals = none := by
      rw [firstNamed, List.find?_eq_none] at hfirst ⊢
      exact fun zone hzone => hfirst zone (mem_layout.mpr (.inl hzone))
    rw [hno]
    exact ⟨fun _ h => h, le_rfl⟩
  | some zone =>
    have hname : zone.name = "normal" := by
      simpa using List.find?_some hfirst
    simp only [Option.map_some, Option.getD_some]
    rw [narrower_restrictAll]
    by_cases hmem : zone.name ∈ names globals
    · have hown : firstNamed "normal" globals = some zone :=
        find_layout _ globals project hmem hfirst
      rw [hown]
      exact noWider_self zone _
    · have hno : firstNamed "normal" globals = none := by
        rw [firstNamed, List.find?_eq_none]
        intro other hother hnormal
        apply hmem
        rw [hname]
        exact mem_map.mpr ⟨other, hother, of_decide_eq_true hnormal⟩
      have hnew : zone ∈ newZones (names globals) project := by
        rcases mem_layout.mp (List.mem_of_find?_eq_some hfirst) with h | h
        · exact absurd (mem_map_of_mem h) hmem
        · exact h
      obtain ⟨made, -, rfl⟩ := exists_newZone hnew
      rw [hno, noWider_newZone]
      left
      change 1 ≤ (ShellBehavior.withhold.restrictWith made.onShellRead).strictness
      rw [ShellBehavior.strictness_restrictWith]
      exact le_max_left 1 _

theorem additions_of_new (hname : zone.name ∉ names globals)
    (h : taker hit project [] (layout globals project) = some (zone, additions)) :
    ∃ made ∈ additions, zone = newZone made := by
  obtain ⟨front, back, hlayout, -, hadditions⟩ := taker_eq_some h
  have hnew : zone ∈ newZones (names globals) project := by
    have hmem : zone ∈ layout globals project := by simp [hlayout]
    rcases mem_layout.mp hmem with h | h
    · exact absurd (mem_map_of_mem h) hname
    · exact h
  have hcount : (names (layout globals project)).count zone.name ≤ 1 := by
    have hperm := (layout_perm globals project).map (·.name)
    rw [map_append] at hperm
    have hzero : (globals.map (·.name)).count zone.name = 0 := count_eq_zero.mpr hname
    rw [names, hperm.count_eq, count_append, hzero, Nat.zero_add]
    exact nodup_iff_count_le_one.mp (names_newZones_nodup _ _) zone.name
  have hfront : zone.name ∉ names front := by
    rw [hlayout, names, map_append, map_cons, count_append,
      count_cons_self] at hcount
    apply count_eq_zero.mp
    rw [names]
    omega
  rw [if_neg (by simp [hfront])] at hadditions
  obtain ⟨made, hmade, hzone⟩ := exists_newZone hnew
  refine ⟨made, ?_, hzone⟩
  rw [hadditions, sharing, mem_filter, hzone]
  exact ⟨hmade, decide_eq_true rfl⟩

theorem narrower_taker {host : Host Path Pattern} {texts : List String}
    (h : taker (fun zone => hits host texts zone.patterns) project []
      (layout globals project) = some (zone, additions)) :
    Narrower (restrictAll zone additions)
        (pick (fun zone => hits host texts zone.patterns) globals) ↔
      if zone.name ∈ names globals then hits host texts zone.patterns = true ∨
        NoWider zone additions (pick (fun zone => hits host texts zone.patterns) globals)
      else (pick (fun zone => hits host texts zone.patterns) globals).onShellRead = .deny →
        ∃ a ∈ additions, a.onShellRead = .deny := by
  rw [narrower_restrictAll]
  by_cases hname : zone.name ∈ names globals
  · rw [if_pos hname]
    refine ⟨.inr, ?_⟩
    rintro (hhit | hwider)
    · obtain ⟨front, back, hlayout, hfront, -⟩ := taker_eq_some h
      have hfind : (layout globals project).find? (fun zone => hits host texts zone.patterns) =
          some zone := by
        rw [List.find?_eq_some_iff_append]
        exact ⟨hhit, front, back, hlayout, fun other hother => by simp [hfront other hother]⟩
      have hown := find_layout _ globals project hname hfind
      rw [pick, hown]
      exact noWider_self zone additions
    · exact hwider
  · rw [if_neg hname]
    obtain ⟨made, hmade, rfl⟩ := additions_of_new hname h
    rw [noWider_newZone]
    generalize (pick (fun zone => hits host texts zone.patterns) globals).onShellRead = own
    have hmax : (newZone made).onShellRead.strictness = max 1 made.onShellRead.strictness :=
      ShellBehavior.strictness_restrictWith .withhold made.onShellRead
    have hdeny : ∀ shell : ShellBehavior, 2 ≤ shell.strictness → shell = .deny := by
      intro shell
      cases shell <;> simp [ShellBehavior.strictness]
    constructor
    · rintro (hle | ⟨a, ha, hle⟩) rfl
      · refine ⟨made, hmade, hdeny _ ?_⟩
        change 2 ≤ _ at hle
        omega
      · exact ⟨a, ha, hdeny _ hle⟩
    · intro hshell
      by_cases hown : own = .deny
      · obtain ⟨a, ha, hd⟩ := hshell hown
        exact .inr ⟨a, ha, by rw [hown, hd]⟩
      · refine .inl ?_
        have hlt : own.strictness ≤ 1 := by
          cases own <;> simp [ShellBehavior.strictness] at hown ⊢
        omega

/-- A project narrows the global policy at a path exactly when it does not move the path to a
wider zone. -/
theorem narrowed_iff_keepsPath (host : Host Path Pattern) (globals project : Policy)
    (compiled merged : CompiledPolicy Pattern) (path : Path) (roots : List Path)
    (hglobals : globals.compile host = .ok compiled)
    (hmerged : (mergeProject globals project).compile host = .ok merged) :
    NarrowedAt host globals project compiled merged path roots ↔
      KeepsPath host globals project (candidates host path roots)
        (compiled.zoneForPathWithRoots host path roots) := by
  have hnarrowed : NarrowedAt host globals project compiled merged path roots ↔
      Narrower (merged.zoneForPathWithRoots host path roots)
        (compiled.zoneForPathWithRoots host path roots) :=
    ⟨fun h => ⟨h.destinations, h.shellReads⟩,
      fun h => ⟨h.1, h.2, fun _ _ hserver => mcpAllowed_of_foldl hserver⟩⟩
  rw [hnarrowed, (compile_ok hglobals).zoneForPathWithRoots,
    (compile_ok hmerged).zoneForPathWithRoots, KeepsPath]
  generalize candidates host path roots = texts
  have hblocked : hits host texts (mergeProject globals project).blocked =
      (hits host texts globals.blocked || hits host texts project.blocked) :=
    hits_unionPatterns host texts globals.blocked project.blocked
  have hzones : (mergeProject globals project).zones =
      extendFirst project.zones [] (layout globals.zones project.zones) :=
    foldl_mergeZone globals.zones project.zones
  rw [Policy.classify_eq host texts (mergeProject globals project), hblocked, hzones]
  by_cases hany : (hits host texts globals.blocked || hits host texts project.blocked) = true
  · -- a blocked path may be sent nowhere, and its shell reads are denied
    have hdeny : ∀ own : Zone, Narrower (blockedZone (mergeProject globals project).blocked) own :=
      fun own => ⟨fun _ h => absurd h (by simp [Destination.matchesSendTo, blockedZone, admits]),
        by cases own.onShellRead <;> simp [blockedZone, ShellBehavior.strictness]⟩
    rw [if_pos hany]
    rw [Bool.or_eq_true] at hany
    exact iff_of_true (hdeny _) (by tauto)
  · rw [if_neg hany]
    rw [Bool.or_eq_true, not_or] at hany
    rw [Policy.classify_eq, if_neg hany.1]
    simp only [hany.1, hany.2, false_or, Bool.false_eq_true]
    have hfind := find_extendFirst host texts project.zones
      (layout globals.zones project.zones) []
    cases htaker : taker (fun zone => hits host texts zone.patterns) project.zones []
        (layout globals.zones project.zones) with
    | none =>
      rw [htaker] at hfind
      exact iff_of_true (narrower_normal htaker hfind) trivial
    | some taken =>
      rw [htaker] at hfind
      rw [pick, hfind]
      exact narrower_taker htaker

/-- A global policy with a guarded zone and a zone that is closed behind a public one. -/
def guardedPolicy : Policy where
  blocked := [".pem"]
  zones := [⟨"internal", ["*.rs"], ["*"], .withhold⟩, ⟨"secret", ["secret/*"], [], .deny⟩,
    ⟨"normal", ["*"], ["*"], .withhold⟩]
  subagents := {}
  toolAccess := ⟨∅⟩

def projectWith (zones : List Zone) : Policy := ⟨[], zones, {}, ⟨∅⟩⟩

/-- A project that moves `a.key` to the guarded zone. -/
theorem key_moved_to_secret : ∃ compiled merged,
    guardedPolicy.compile starHost = .ok compiled ∧
    (mergeProject guardedPolicy (projectWith [⟨"secret", ["*.key"], ["*"], .ask⟩])).compile
      starHost = .ok merged ∧
    NarrowedAt starHost guardedPolicy (projectWith [⟨"secret", ["*.key"], ["*"], .ask⟩])
      compiled merged "a.key" [] := by
  refine ⟨_, _, rfl, rfl, (narrowed_iff_keepsPath _ _ _ _ _ _ _ rfl rfl).mpr ?_⟩
  refine .inr (.inr (.inr ⟨?_, ?_⟩))
  · intro destination hsend
    exact absurd hsend (by simp [Destination.matchesSendTo, admits])
  · exact .inl (by decide)

/-- A project gives the public zone, which is consulted first, the pattern of the guarded one. -/
theorem secret_moved_to_internal : ∃ compiled merged,
    guardedPolicy.compile starHost = .ok compiled ∧
    (mergeProject guardedPolicy (projectWith [⟨"internal", ["secret/*"], ["*"],
      .withhold⟩])).compile
      starHost = .ok merged ∧
    ¬ NarrowedAt starHost guardedPolicy
      (projectWith [⟨"internal", ["secret/*"], ["*"], .withhold⟩])
      compiled merged "secret/key" [] := by
  refine ⟨_, _, rfl, rfl, ?_⟩
  intro h
  exact absurd (h.destinations ⟨"provider", .provider, "Provider"⟩ (by decide))
    (by decide)

end PolicyMerge
