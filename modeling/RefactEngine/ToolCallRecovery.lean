import Mathlib.Data.List.Nodup
import Mathlib.Data.List.Pairwise
import RefactEngine.JsonValues
import RefactEngine.TextCodes

/-! # Parallel tool calls

A call of `multi_tool_use.parallel` is replaced by the calls that its arguments list.
-/
namespace ToolCallRecovery

open JsonValues List

variable {F : Type}

def parallelName : String := "multi_tool_use.parallel"

def field (value : Json F) (key : String) : Option String := (value.get key).bind Json.asStr

def functionField (tc : Json F) (key : String) : Option String :=
  ((tc.get "function").bind (·.get key)).bind Json.asStr

def asArray : Json F → Option (List (Json F))
  | .arr items => some items
  | _ => none

def stripPrefix (start text : String) : String :=
  if start.toList <+: text.toList then String.ofList (text.toList.drop start.length) else text

def extractInnerToolName (inner : Json F) : String :=
  match field inner "recipient_name" with
  | some recipient => stripPrefix "functions." recipient
  | none =>
    (((field inner "tool_name").or (field inner "name")).or (functionField inner "name")).getD ""

def extractInnerToolArgs (inner : Json F) : Json F :=
  (((inner.get "parameters").or (inner.get "tool_input")).or (inner.get "arguments")).or
    ((inner.get "function").bind (·.get "arguments")) |>.getD (.obj [])

variable (print : Json F → String)

def argumentsText : Json F → String
  | .obj members => print (.obj members)
  | .str text => text
  | _ => "{}"

def innerArguments (inner : Json F) : String :=
  argumentsText print (extractInnerToolArgs inner)

variable (parse : String → Option (Json F))

/-- The calls that a call of this name with these arguments stands for; `parse` is
`serde_json::from_str`. -/
def listed (name arguments : String) :
    Option (List (Json F)) :=
  if name = parallelName then
    (parse arguments).bind fun args =>
      (((args.get "tool_uses").bind asArray).or (asArray args)).filter (!·.isEmpty)
  else none

def toolName (tc : Json F) : String := (functionField tc "name").getD ""

def innerCalls (tc : Json F) : Option (List (Json F)) :=
  listed parse (toolName tc) ((functionField tc "arguments").getD "{}")

def wrapperId (tc : Json F) : String := (field tc "id").getD "call_multi"

def childId (wrapper : String) (i : ℕ) : String := wrapper ++ "__" ++ toString i

def functionCall (id name arguments : String) (index : ℕ) : Json F :=
  .obj [("type", .str "function"), ("id", .str id), ("index", .nat index),
    ("function", .obj [("name", .str name), ("arguments", .str arguments)])]

variable (allowed : List String)

def admits (name : String) : Bool :=
  decide (name ≠ "") && (allowed.isEmpty || decide (name ∈ allowed))

def pushInner (wrapper : String)
    (result : List (Json F)) (inner : Json F × ℕ) : List (Json F) :=
  if admits allowed (extractInnerToolName inner.1) then
    result ++ [functionCall (childId wrapper inner.2) (extractInnerToolName inner.1)
      (innerArguments print inner.1) result.length]
  else result

def pushCall (print : Json F → String) (allowed : List String)
    (state : List (Json F) × Bool) (tc : Json F) : List (Json F) × Bool :=
  match innerCalls parse tc with
  | none => (state.1 ++ [tc], state.2)
  | some inners => (inners.zipIdx.foldl (pushInner print allowed (wrapperId tc)) state.1, true)

def insertMember (key : String) (value : Json F) :
    List (String × Json F) → List (String × Json F)
  | [] => [(key, value)]
  | (k, v) :: rest =>
    if k = key then (key, value) :: rest else (k, v) :: insertMember key value rest

def indexed (index : ℕ) : Json F → Json F
  | .obj members => .obj (insertMember "index" (.nat index) members)
  | value => value

def unwrapMultiToolUseParallel (print : Json F → String)
    (allowed : List String) (calls : List (Json F)) : List (Json F) :=
  let (result, anyUnwrapped) := calls.foldl (pushCall parse print allowed) ([], false)
  if anyUnwrapped then result.mapIdx indexed else result

def admitted (inners : List (Json F)) : List (Json F × ℕ) :=
  inners.zipIdx.filter fun inner =>
    decide (extractInnerToolName inner.1 ≠ "" ∧ extractInnerToolName inner.1 ∈ allowed)

def childOf (wrapper : String) (inner : Json F × ℕ) : Json F :=
  functionCall (childId wrapper inner.2) (extractInnerToolName inner.1)
    (innerArguments print inner.1) 0

def replacement (print : Json F → String)
    (allowed : List String) (tc : Json F) : List (Json F) :=
  match innerCalls parse tc with
  | none => [tc]
  | some inners => (admitted allowed inners).map (childOf print (wrapperId tc))

structure Unwrapped (parse : String → Option (Json F)) (print : Json F → String)
    (allowed : List String) (calls result : List (Json F)) : Prop where
  replaced : result.map (indexed 0) =
    (calls.flatMap (replacement parse print allowed)).map (indexed 0)
  named : ∀ tc ∈ calls, innerCalls parse tc ≠ none →
    ∀ child ∈ replacement parse print allowed tc, toolName child ∈ allowed
  ids : (result.map (field · "id")).Nodup
  indices : (∃ tc ∈ calls, innerCalls parse tc ≠ none) →
    result.map (·.get "index") = (range result.length).map fun i => some (.nat i)
  stable : unwrapMultiToolUseParallel parse print allowed result = result

/-- No id that is made for an inner call is taken, and no inner call lists calls itself. -/
structure Usable (parse : String → Option (Json F)) (print : Json F → String)
    (allowed : List String) (calls : List (Json F)) : Prop where
  apart : ∀ wrapper ∈ calls, ∀ inners, innerCalls parse wrapper = some inners →
    ∀ inner ∈ admitted allowed inners, ∀ tc ∈ calls, innerCalls parse tc = none →
      field tc "id" ≠ some (childId (wrapperId wrapper) inner.2)
  flat : ∀ wrapper ∈ calls, ∀ inners, innerCalls parse wrapper = some inners →
    ∀ inner ∈ admitted allowed inners,
      listed parse (extractInnerToolName inner.1) (innerArguments print inner.1) = none

variable {parse : String → Option (Json F)} {print : Json F → String} {allowed : List String}
  {calls : List (Json F)}

theorem insertMember_twice (key : String) (value value' : Json F)
    (members : List (String × Json F)) :
    insertMember key value (insertMember key value' members) = insertMember key value members := by
  induction members with
  | nil => simp [insertMember]
  | cons member rest ih =>
    obtain ⟨k, v⟩ := member
    by_cases hk : k = key
    · simp [insertMember, hk]
    · simp [insertMember, hk, ih]

theorem lookup_insertMember (key other : String) (value : Json F)
    (members : List (String × Json F)) :
    (insertMember key value members).lookup other =
      if other = key then some value else members.lookup other := by
  induction members with
  | nil =>
    rw [insertMember, lookup_cons]
    by_cases h : other = key
    · simp [h]
    · rw [if_neg h, beq_false_of_ne h]
  | cons member rest ih =>
    obtain ⟨k, v⟩ := member
    by_cases hk : k = key
    · subst hk
      rw [insertMember, if_pos rfl, lookup_cons, lookup_cons]
      by_cases h : other = k
      · simp [h]
      · rw [if_neg h, beq_false_of_ne h]
    · rw [insertMember, if_neg hk, lookup_cons, lookup_cons, ih]
      by_cases h : other = k
      · simp [h, hk]
      · rw [beq_false_of_ne h]

theorem indexed_twice (i j : ℕ) (tc : Json F) : indexed i (indexed j tc) = indexed i tc := by
  cases tc with
  | obj members => exact congrArg Json.obj (insertMember_twice _ _ _ _)
  | _ => rfl

theorem get_indexed {key : String} (hkey : key ≠ "index") (i : ℕ) (tc : Json F) :
    (indexed i tc).get key = tc.get key := by
  cases tc with
  | obj members =>
    rw [indexed, Json.get, lookup_insertMember, if_neg hkey]
    rfl
  | _ => rfl

@[simp] theorem field_indexed (i : ℕ) (tc : Json F) :
    field (indexed i tc) "id" = field tc "id" := by
  rw [field, get_indexed (by decide), field]

theorem wrapperId_indexed (i : ℕ) (tc : Json F) : wrapperId (indexed i tc) = wrapperId tc := by
  rw [wrapperId, field_indexed, wrapperId]

theorem functionField_indexed (i : ℕ) (tc : Json F) (key : String) :
    functionField (indexed i tc) key = functionField tc key := by
  rw [functionField, get_indexed (by decide), functionField]

@[simp] theorem innerCalls_indexed (i : ℕ) (tc : Json F) :
    innerCalls parse (indexed i tc) = innerCalls parse tc := by
  rw [innerCalls, toolName, functionField_indexed, functionField_indexed, innerCalls, toolName]

variable (id name arguments : String)

theorem indexed_functionCall (i j : ℕ) :
    indexed i (functionCall id name arguments j : Json F) = functionCall id name arguments i := rfl

theorem field_functionCall (i : ℕ) :
    field (functionCall id name arguments i : Json F) "id" = some id := rfl

theorem toolName_functionCall (i : ℕ) :
    toolName (functionCall id name arguments i : Json F) = name := rfl

theorem innerCalls_functionCall (i : ℕ) :
    innerCalls parse (functionCall id name arguments i) = listed parse name arguments := rfl

theorem childId_injective {a b : String} {i j : ℕ} (h : childId a i = childId b j) :
    a = b ∧ i = j := by
  have hchars := congrArg (fun text : String => text.toList.reverse) h
  simp only [childId, String.toList_append, Nat.toString_eq_ofList_toDigits, String.toList_ofList,
    reverse_append] at hchars
  have hclear : ∀ n : ℕ, '_' ∉ (Nat.toDigits 10 n).reverse := fun n h =>
    notMem_toDigits_ten (by decide) n (mem_reverse.mp h)
  have hsplit := @Delimits.terminated _ '_' _ _ ('_' :: a.toList.reverse)
    ('_' :: b.toList.reverse) (hclear i) (hclear j) (by simpa using hchars)
  refine ⟨?_, toDigits_ten_injective (reverse_injective hsplit.1)⟩
  exact String.toList_inj.mp (reverse_injective (cons.inj hsplit.2).2)

theorem foldl_pushInner (hallow : allowed ≠ []) (wrapper : String)
    (inners : List (Json F × ℕ)) (result : List (Json F)) :
    (inners.foldl (pushInner print allowed wrapper) result).map (indexed 0) =
      result.map (indexed 0) ++ ((inners.filter fun inner =>
        decide (extractInnerToolName inner.1 ≠ "" ∧ extractInnerToolName inner.1 ∈ allowed)).map
          (childOf print wrapper)).map (indexed 0) := by
  induction inners generalizing result with
  | nil => simp
  | cons inner inners ih =>
    rw [foldl_cons, ih, pushInner, filter_cons]
    have hadmits : admits allowed (extractInnerToolName inner.1) =
        decide (extractInnerToolName inner.1 ≠ "" ∧ extractInnerToolName inner.1 ∈ allowed) := by
      cases allowed with
      | nil => exact absurd rfl hallow
      | cons name names => simp [admits]
    rw [hadmits]
    split_ifs
    · simp [childOf, indexed_functionCall]
    · rfl

theorem foldl_pushCall (hallow : allowed ≠ []) (state : List (Json F) × Bool) :
    (calls.foldl (pushCall parse print allowed) state).1.map (indexed 0) =
        state.1.map (indexed 0) ++
          (calls.flatMap (replacement parse print allowed)).map (indexed 0) ∧
      (calls.foldl (pushCall parse print allowed) state).2 =
        (state.2 || calls.any fun tc => (innerCalls parse tc).isSome) := by
  induction calls generalizing state with
  | nil => simp
  | cons tc calls ih =>
    obtain ⟨hlist, hany⟩ := ih (pushCall parse print allowed state tc)
    rw [foldl_cons, hlist, hany, flatMap_cons, any_cons]
    cases hinner : innerCalls parse tc with
    | none => simp [pushCall, replacement, hinner]
    | some inners =>
      simp [pushCall, replacement, hinner, foldl_pushInner hallow, admitted]

theorem foldl_closed (h : ∀ tc ∈ calls, innerCalls parse tc = none) (state : List (Json F) × Bool) :
    calls.foldl (pushCall parse print allowed) state = (state.1 ++ calls, state.2) := by
  induction calls generalizing state with
  | nil => simp
  | cons tc calls ih =>
    rw [foldl_cons, ih fun other hother => h other (mem_cons_of_mem _ hother), pushCall,
      h tc mem_cons_self]
    simp

theorem mapIdx_indexed_congr {a b : List (Json F)} (h : a.map (indexed 0) = b.map (indexed 0)) :
    a.mapIdx indexed = b.mapIdx indexed := by
  have hmap : ∀ c : List (Json F), c.mapIdx indexed = (c.map (indexed 0)).mapIdx indexed := by
    intro c
    apply ext_getElem?
    intro i
    simp [indexed_twice, Function.comp_def]
  rw [hmap a, h, ← hmap b]

/-- Without a wrapper that opens nothing changes, otherwise every call is numbered again. -/
theorem unwrap_cases (parse : String → Option (Json F)) (print : Json F → String)
    (hallow : allowed ≠ []) (calls : List (Json F)) :
    ((∀ tc ∈ calls, innerCalls parse tc = none) ∧
      unwrapMultiToolUseParallel parse print allowed calls = calls) ∨
    ((∃ tc ∈ calls, innerCalls parse tc ≠ none) ∧
      unwrapMultiToolUseParallel parse print allowed calls =
        (calls.flatMap (replacement parse print allowed)).mapIdx indexed) := by
  by_cases hclosed : ∀ tc ∈ calls, innerCalls parse tc = none
  · refine Or.inl ⟨hclosed, ?_⟩
    rw [unwrapMultiToolUseParallel, foldl_closed hclosed]
    rfl
  · push Not at hclosed
    refine Or.inr ⟨hclosed, ?_⟩
    obtain ⟨hlist, hany⟩ :=
      @foldl_pushCall _ parse print _ calls hallow (([] : List (Json F)), false)
    have htrue : (calls.any fun tc => (innerCalls parse tc).isSome) = true := by
      simpa [any_eq_true, Option.isSome_iff_ne_none] using hclosed
    rw [htrue, Bool.or_true] at hany
    rw [unwrapMultiToolUseParallel]
    simp only [hany, if_true]
    exact mapIdx_indexed_congr (by simpa using hlist)

theorem flatMap_replacement (h : ∀ tc ∈ calls, innerCalls parse tc = none) :
    calls.flatMap (replacement parse print allowed) = calls := by
  induction calls with
  | nil => rfl
  | cons tc calls ih =>
    rw [flatMap_cons, replacement, h tc mem_cons_self,
      ih fun other hother => h other (mem_cons_of_mem _ hother)]
    rfl

theorem map_unwrap (hallow : allowed ≠ []) {β : Type*} {view : Json F → β}
    (hview : ∀ i tc, view (indexed i tc) = view tc) :
    (unwrapMultiToolUseParallel parse print allowed calls).map view =
      (calls.flatMap (replacement parse print allowed)).map view := by
  rcases unwrap_cases parse print hallow calls with ⟨hclosed, heq⟩ | ⟨-, heq⟩
  · rw [heq, flatMap_replacement hclosed]
  · rw [heq]
    apply ext_getElem?
    intro i
    simp [hview, Function.comp_def]

theorem mem_unwrap (hallow : allowed ≠ []) {β : Type*} {view : Json F → β}
    (hview : ∀ i tc, view (indexed i tc) = view tc) {tc : Json F}
    (h : tc ∈ unwrapMultiToolUseParallel parse print allowed calls) :
    ∃ wrapper ∈ calls, ∃ child ∈ replacement parse print allowed wrapper,
      view child = view tc := by
  have hmem : view tc ∈ (unwrapMultiToolUseParallel parse print allowed calls).map view :=
    mem_map_of_mem h
  rw [map_unwrap hallow hview] at hmem
  obtain ⟨child, hchild, heq⟩ := mem_map.mp hmem
  obtain ⟨wrapper, hwrapper, hpiece⟩ := mem_flatMap.mp hchild
  exact ⟨wrapper, hwrapper, child, hpiece, heq⟩

theorem closed_of_stable (hallow : allowed ≠ [])
    (h : unwrapMultiToolUseParallel parse print allowed calls = calls) :
    ∀ tc ∈ calls, innerCalls parse tc = none := by
  have hlen : ∀ n, ∀ tc ∈ calls, (wrapperId tc).length < n → innerCalls parse tc = none := by
    intro n
    induction n with
    | zero => exact fun _ _ h => absurd h (Nat.not_lt_zero _)
    | succ n ih =>
      intro tc htc hlt
      let view := fun tc : Json F => (innerCalls parse tc, wrapperId tc)
      have hview : ∀ i tc, view (indexed i tc) = view tc := by simp [view, wrapperId_indexed]
      obtain ⟨wrapper, hwrapper, child, hchild, heq⟩ := mem_unwrap hallow hview (h.symm ▸ htc)
      obtain ⟨hinner, hid⟩ := Prod.mk.inj heq
      rw [← hinner]
      rw [replacement] at hchild
      cases hopen : innerCalls parse wrapper with
      | none =>
        rw [hopen] at hchild
        rw [mem_singleton.mp hchild, hopen]
      | some inners =>
        rw [hopen] at hchild
        obtain ⟨inner, -, rfl⟩ := mem_map.mp hchild
        have hlong : (wrapperId tc).length = (childId (wrapperId wrapper) inner.2).length :=
          congrArg String.length hid.symm
        have hshort : (wrapperId wrapper).length < n := by
          have hsuffix : "__".length = 2 := rfl
          rw [childId, String.length_append, String.length_append] at hlong
          omega
        rw [ih wrapper hwrapper hshort] at hopen
        cases hopen
  exact fun tc htc => hlen _ tc htc (Nat.lt_succ_self _)

theorem stable_iff (hallow : allowed ≠ []) :
    unwrapMultiToolUseParallel parse print allowed
        (unwrapMultiToolUseParallel parse print allowed calls) =
      unwrapMultiToolUseParallel parse print allowed calls ↔
    ∀ wrapper ∈ calls, ∀ inners, innerCalls parse wrapper = some inners →
      ∀ inner ∈ admitted allowed inners,
        listed parse (extractInnerToolName inner.1) (innerArguments print inner.1) = none := by
  have hview : ∀ i (tc : Json F), innerCalls parse (indexed i tc) = innerCalls parse tc := by simp
  constructor
  · intro hstable wrapper hwrapper inners hopen inner hinner
    have hchild : childOf print (wrapperId wrapper) inner ∈
        calls.flatMap (replacement parse print allowed) := by
      refine mem_flatMap.mpr ⟨wrapper, hwrapper, ?_⟩
      rw [replacement, hopen]
      exact mem_map_of_mem hinner
    have hmem := mem_map_of_mem (f := innerCalls parse) hchild
    rw [← map_unwrap hallow hview] at hmem
    obtain ⟨tc, htc, heq⟩ := mem_map.mp hmem
    rw [closed_of_stable hallow hstable tc htc] at heq
    exact heq.symm
  · intro hflat
    have hclosed : ∀ tc ∈ unwrapMultiToolUseParallel parse print allowed calls,
        innerCalls parse tc = none := by
      intro tc htc
      obtain ⟨wrapper, hwrapper, child, hchild, heq⟩ := mem_unwrap hallow hview htc
      rw [← heq]
      rw [replacement] at hchild
      cases hopen : innerCalls parse wrapper with
      | none =>
        rw [hopen] at hchild
        rw [mem_singleton.mp hchild, hopen]
      | some inners =>
        rw [hopen] at hchild
        obtain ⟨inner, hinner, rfl⟩ := mem_map.mp hchild
        exact hflat wrapper hwrapper inners hopen inner hinner
    rcases unwrap_cases parse print hallow
      (unwrapMultiToolUseParallel parse print allowed calls) with ⟨-, heq⟩ | ⟨⟨tc, htc, hopen⟩, -⟩
    · exact heq
    · exact absurd (hclosed tc htc) hopen

theorem mem_ids_iff (tc : Json F) (id : Option String) :
    id ∈ (replacement parse print allowed tc).map (field · "id") ↔
      innerCalls parse tc = none ∧ id = field tc "id" ∨
      ∃ inners, innerCalls parse tc = some inners ∧ ∃ inner ∈ admitted allowed inners,
        id = some (childId (wrapperId tc) inner.2) := by
  rw [replacement]
  cases innerCalls parse tc with
  | none => simp
  | some inners =>
    simp only [map_map, mem_map, Function.comp_def, childOf, field_functionCall]
    simp [eq_comm]

theorem nodup_ids (tc : Json F) :
    ((replacement parse print allowed tc).map (field · "id")).Nodup := by
  rw [replacement]
  cases innerCalls parse tc with
  | none => simp
  | some inners =>
    have hnumbers : ((admitted allowed inners).map Prod.snd).Nodup := by
      refine Nodup.sublist (Sublist.map _ filter_sublist) ?_
      rw [zipIdx_map_snd]
      exact nodup_range'
    have hids : ((admitted allowed inners).map (childOf print (wrapperId tc))).map (field · "id") =
        ((admitted allowed inners).map Prod.snd).map fun i => some (childId (wrapperId tc) i) := by
      rw [map_map, map_map]
      rfl
    rw [hids]
    exact hnumbers.map fun i j h => (childId_injective (Option.some.inj h)).2

theorem ids_nodup_iff (hallow : allowed ≠ [])
    (hids : ∀ tc ∈ calls, field tc "id" = some (wrapperId tc))
    (hnodup : (calls.map (field · "id")).Nodup) :
    ((unwrapMultiToolUseParallel parse print allowed calls).map (field · "id")).Nodup ↔
      ∀ wrapper ∈ calls, ∀ inners, innerCalls parse wrapper = some inners →
        ∀ inner ∈ admitted allowed inners, ∀ tc ∈ calls, innerCalls parse tc = none →
          field tc "id" ≠ some (childId (wrapperId wrapper) inner.2) := by
  rw [map_unwrap hallow fun i tc => field_indexed i tc, map_flatMap, nodup_flatMap]
  constructor
  · rintro ⟨-, hdisj⟩ wrapper hwrapper inners hopen inner hinner tc htc hclosed heq
    have hne : tc ≠ wrapper := by
      rintro rfl
      rw [hopen] at hclosed
      cases hclosed
    have hsymm : Std.Symm (Function.onFun Disjoint
        fun tc => (replacement parse print allowed tc).map (field · "id")) :=
      ⟨fun _ _ h _ ha hb => h hb ha⟩
    exact hdisj.forall htc hwrapper hne
      ((mem_ids_iff tc _).mpr (Or.inl ⟨hclosed, heq.symm⟩))
      ((mem_ids_iff wrapper _).mpr (Or.inr ⟨inners, hopen, inner, hinner, rfl⟩))
  · intro hapart
    refine ⟨fun tc _ => nodup_ids tc, ?_⟩
    refine (Nodup.of_map _ hnodup).pairwise_of_forall_ne fun a ha b hb hne => ?_
    intro id hida hidb
    rcases (mem_ids_iff a id).mp hida with ⟨hclosed, rfl⟩ | ⟨inners, hopen, inner, hinner, rfl⟩
    · rcases (mem_ids_iff b _).mp hidb with ⟨-, heq⟩ | ⟨inners, hopen, inner, hinner, heq⟩
      · exact hne (inj_on_of_nodup_map hnodup ha hb heq)
      · exact hapart b hb inners hopen inner hinner a ha hclosed heq
    · rcases (mem_ids_iff b _).mp hidb with ⟨hclosed, heq⟩ | ⟨inners', hopen', inner', hinner', heq⟩
      · exact hapart a ha inners hopen inner hinner b hb hclosed heq.symm
      · have hwrapper := (childId_injective (Option.some.inj heq)).1
        refine hne (inj_on_of_nodup_map hnodup ha hb ?_)
        rw [hids a ha, hids b hb, hwrapper]

theorem get_index_indexed {id : String} {tc : Json F} (h : field tc "id" = some id) (i : ℕ) :
    (indexed i tc).get "index" = some (.nat i) := by
  cases tc with
  | obj members => rw [indexed, Json.get, lookup_insertMember, if_pos rfl]
  | _ => cases h

theorem indices_unwrap (hallow : allowed ≠ [])
    (hids : ∀ tc ∈ calls, field tc "id" = some (wrapperId tc))
    (hopen : ∃ tc ∈ calls, innerCalls parse tc ≠ none) :
    (unwrapMultiToolUseParallel parse print allowed calls).map (·.get "index") =
      (range (unwrapMultiToolUseParallel parse print allowed calls).length).map
        fun i => some (.nat i) := by
  rcases unwrap_cases parse print hallow calls with ⟨hclosed, -⟩ | ⟨-, heq⟩
  · obtain ⟨tc, htc, hinner⟩ := hopen
    exact absurd (hclosed tc htc) hinner
  · rw [heq]
    apply ext_getElem (by simp)
    intro i hi hi'
    simp only [length_map, length_mapIdx] at hi
    have hmem := getElem_mem hi
    simp only [getElem_map, getElem_mapIdx, getElem_range]
    obtain ⟨tc, htc, hpiece⟩ := mem_flatMap.mp hmem
    have hid := mem_map_of_mem (f := (field · "id")) hpiece
    rcases (mem_ids_iff tc _).mp hid with ⟨-, hsame⟩ | ⟨_, -, _, -, hsame⟩
    · exact get_index_indexed (hsame.trans (hids tc htc)) i
    · exact get_index_indexed hsame i

/-- Ids stay distinct and a second pass changes nothing exactly when no id that is made for an inner
call is taken and no inner call opens; the rest always holds. -/
theorem unwrapped_iff (parse : String → Option (Json F)) (print : Json F → String)
    (hallowed : allowed ≠ [])
    (hids : ∀ tc ∈ calls, ∃ id, id ≠ "" ∧ field tc "id" = some id)
    (hnodup : (calls.map (field · "id")).Nodup) :
    Unwrapped parse print allowed calls (unwrapMultiToolUseParallel parse print allowed calls) ↔
      Usable parse print allowed calls := by
  have hown : ∀ tc ∈ calls, field tc "id" = some (wrapperId tc) := by
    intro tc htc
    obtain ⟨id, -, hid⟩ := hids tc htc
    rw [wrapperId, hid, Option.getD_some]
  constructor
  · intro h
    exact ⟨(ids_nodup_iff hallowed hown hnodup).mp h.ids, (stable_iff hallowed).mp h.stable⟩
  · rintro ⟨hapart, hflat⟩
    refine ⟨map_unwrap hallowed fun i tc => indexed_twice 0 i tc, fun tc _ hopen child hchild => ?_,
      (ids_nodup_iff hallowed hown hnodup).mpr hapart, indices_unwrap hallowed hown,
      (stable_iff hallowed).mpr hflat⟩
    rw [replacement] at hchild
    cases hinner : innerCalls parse tc with
    | none => exact absurd hinner hopen
    | some inners =>
      rw [hinner] at hchild
      obtain ⟨inner, hadmitted, rfl⟩ := mem_map.mp hchild
      exact (of_decide_eq_true (mem_filter.mp hadmitted).2).2

def listing : String := "[\x7b\"name\":\"cat\"\x7d]"

def parseListing (text : String) : Option (Json Empty) :=
  if text = listing then some (.arr [.obj [("name", .str "cat")]]) else none

def listingAndCall : List (Json Empty) :=
  [functionCall "a" parallelName listing 0, functionCall "b" "cat" "{}" 1]

theorem listing_unwrapped : Unwrapped parseListing (fun _ => "{}") ["cat"] listingAndCall
    (unwrapMultiToolUseParallel parseListing (fun _ => "{}") ["cat"] listingAndCall) := by
  have hwrapper : ∀ wrapper ∈ listingAndCall, innerCalls parseListing wrapper ≠ none →
      wrapper = functionCall "a" parallelName listing 0 := by
    intro wrapper hwrapper hopen
    rcases mem_pair.mp hwrapper with rfl | rfl
    · rfl
    · exact absurd (by decide) hopen
  refine (unwrapped_iff _ _ (by simp) ?_ (by decide)).mpr ⟨?_, ?_⟩
  · intro tc htc
    rcases mem_pair.mp htc with rfl | rfl
    · exact ⟨"a", by decide, rfl⟩
    · exact ⟨"b", by decide, rfl⟩
  all_goals
    intro wrapper hmem inners hopen inner hinner
    obtain rfl := hwrapper wrapper hmem (by rw [hopen]; simp)
    cases hopen
    obtain rfl : inner = (.obj [("name", .str "cat")], 0) := mem_singleton.mp hinner
  · intro tc htc hclosed
    rcases mem_pair.mp htc with rfl | rfl
    · cases hclosed
    · decide
  · rfl

/-- The first inner call of `a` gets an id that another call has. -/
theorem child_id_taken : ¬ Unwrapped parseListing (fun _ => "{}") ["cat"]
    [functionCall "a" parallelName listing 0, functionCall "a__0" "cat" "{}" 1]
    (unwrapMultiToolUseParallel parseListing (fun _ => "{}") ["cat"]
      [functionCall "a" parallelName listing 0, functionCall "a__0" "cat" "{}" 1]) := by
  intro h
  have hids := h.ids
  revert hids
  decide

end ToolCallRecovery
