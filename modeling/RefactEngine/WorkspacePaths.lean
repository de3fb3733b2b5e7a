import RefactEngine.CommandRules
import RefactEngine.TextCodes

/-! # Paths that leave the workspace

What the check of an argument sees of the path that it stands for.
-/
namespace WorkspacePaths

open ApplyPatch CommandClassify CommandRules List

/-- Goes on from a directory along a text: `..` goes up, a dot and an empty component stay. -/
def walk (start : List Text) (text : Text) : List Text :=
  (text.splitOn '/').foldl (fun parts part =>
    if part = [] ∨ part = ['.'] then parts
    else if part = ['.', '.'] then parts.dropLast
    else parts ++ [part]) start

def isAbsolute (path : Text) : Bool := path.head? = some '/'

def resolve (cwd arg : Text) : List Text := walk (if isAbsolute arg then [] else walk [] cwd) arg

def Inside (roots : List Text) (cwd arg : Text) : Prop :=
  ∃ root ∈ roots, walk [] root <+: resolve cwd arg

theorem lexicalParts_eq (text : Text) : lexicalParts text = walk [] text := rfl

structure SeesEscape (roots : List Text) (cwd arg : Text) : Prop where
  outside : ¬ Inside roots cwd arg → isOutsideWorkspace arg roots = true
  inside : isAbsolute arg = true → startsWith "//" arg = false → Inside roots cwd arg →
    isOutsideWorkspace arg roots = false

/-- What `lexical_normalize` takes an absolute path for: a backslash separates too, two slashes at
the start are kept, and so is a colon in the second place. -/
def reading (path : Text) : Bool × List Text :=
  let path := path.map fun c => if c = '\\' then '/' else c
  if startsWith "//" path then (true, walk [] (path.dropWhile (· = '/')))
  else if path.tail.head? = some ':' then
    (false, [':'] :: walk [] ((path.drop 2).dropWhile (· = '/')))
  else (false, walk [] (path.dropWhile (· = '/')))

def Under (root path : Bool × List Text) : Prop :=
  root.1 = path.1 ∧ root.2 <+: path.2 ∨ root = (false, [])

/-- A relative argument shows only leading dots; an absolute one has to be read as it stands. -/
def ReadRight (roots : List Text) (cwd arg : Text) : Prop :=
  if isAbsolute arg then
    ((∃ root ∈ roots, Under (reading root) (reading arg)) → Inside roots cwd arg) ∧
      (Inside roots cwd arg →
        startsWith "//" arg = true ∨ ∃ root ∈ roots, Under (reading root) (reading arg))
  else arg = "..".toList ∨ startsWith "../" arg = true ∨ Inside roots cwd arg

def IsName (name : Text) : Prop := name ≠ [] ∧ '/' ∉ name

theorem isName_walk {start : List Text} (hstart : ∀ name ∈ start, IsName name) (text : Text) :
    ∀ name ∈ walk start text, IsName name := by
  have hpieces : ∀ piece ∈ text.splitOn '/', '/' ∉ piece := fun piece h =>
    TextLines.not_mem_of_mem_splitOn h
  unfold walk
  generalize text.splitOn '/' = pieces at hpieces ⊢
  induction pieces generalizing start with
  | nil => exact hstart
  | cons piece pieces ih =>
    refine ih ?_ fun other h => hpieces other (mem_cons_of_mem _ h)
    intro name hname
    dsimp only at hname
    split_ifs at hname with hskip hup
    · exact hstart name hname
    · exact hstart name ((dropLast_sublist _).subset hname)
    · rcases mem_append.mp hname with hold | hnew
      · exact hstart name hold
      · obtain rfl := mem_singleton.mp hnew
        exact ⟨fun hnil => hskip (Or.inl hnil), hpieces _ mem_cons_self⟩

def startOf (double : Bool) : Text := if double then ['/', '/'] else ['/']

def closed (r : Bool × List Text) : Text := startOf r.1 ++ r.2.flatMap (· ++ ['/'])

def render (r : Bool × List Text) : Text := startOf r.1 ++ ['/'].intercalate r.2

theorem intercalate_slash (names : List Text) (hne : names ≠ []) :
    ['/'].intercalate names ++ ['/'] = names.flatMap (· ++ ['/']) := by
  induction names with
  | nil => exact absurd rfl hne
  | cons name names ih =>
    by_cases hnil : names = []
    · simp [hnil]
    · rw [intercalate_cons_of_ne_nil hnil, flatMap_cons, ← ih hnil]
      simp

variable {r : Bool × List Text}

theorem render_slash (hne : r.2 ≠ []) : render r ++ ['/'] = closed r := by
  rw [render, closed, append_assoc, intercalate_slash _ hne]

theorem reading_spec {path : Text} (h : isAbsolute path = true) :
    lexicalNormalize path = render (reading path) ∧ ∀ name ∈ (reading path).2, IsName name := by
  have hwalk : ∀ text, ∀ name ∈ walk [] text, IsName name := isName_walk (by simp)
  have hjoin : ∀ double parts, (if parts = [] then startOf double
      else if (startOf double).getLast? = some '/' then startOf double ++ ['/'].intercalate parts
      else startOf double ++ '/' :: ['/'].intercalate parts) = render (double, parts) := by
    intro double parts
    by_cases hnil : parts = []
    · simp [hnil, render]
    · cases double <;> simp [hnil, render, startOf]
  cases path with
  | nil => cases h
  | cons c rest =>
    obtain rfl : c = '/' := by simpa [isAbsolute] using h
    simp only [lexicalNormalize, reading, map_cons, lexicalParts_eq]
    generalize rest.map (fun c => if c = '\\' then '/' else c) = rest'
    have hslash : (if '/' = '\\' then '/' else '/') = '/' := rfl
    rw [hslash]
    by_cases hdouble : startsWith "//" ('/' :: rest') = true
    · simp only [if_pos hdouble]
      exact ⟨hjoin true _, hwalk _⟩
    · simp only [if_neg hdouble]
      cases rest' with
      | nil => exact ⟨hjoin false _, hwalk _⟩
      | cons d rest' =>
        by_cases hd : d = ':'
        · subst hd
          constructor
          · by_cases hnil : walk [] (rest'.dropWhile (· = '/')) = []
            · simp [hnil, render, startOf]
            · simp [hnil, render, startOf, intercalate_cons_of_ne_nil]
          · intro name hname
            rcases mem_cons.mp hname with rfl | hname
            · exact ⟨by simp, by decide⟩
            · exact hwalk _ name hname
        · have hreading : ¬ ('/' :: d :: rest').tail.head? = some ':' := by simpa using hd
          rw [if_neg hreading]
          split
          · rename_i heq
            exact absurd (cons.inj (cons.inj heq).2).1 hd
          · exact ⟨hjoin false _, hwalk _⟩

theorem flatMap_slash_prefix (roots names : List Text) (hroots : ∀ name ∈ roots, IsName name)
    (hnames : ∀ name ∈ names, IsName name) :
    roots.flatMap (· ++ ['/']) <+: names.flatMap (· ++ ['/']) ↔ roots <+: names := by
  induction roots generalizing names with
  | nil => simp
  | cons a roots ih =>
    cases names with
    | nil => simp
    | cons b names =>
      have ha := hroots a mem_cons_self
      have hb := hnames b mem_cons_self
      have hrest := ih names (fun name h => hroots name (mem_cons_of_mem _ h))
        fun name h => hnames name (mem_cons_of_mem _ h)
      rw [cons_prefix_cons, ← hrest, flatMap_cons, flatMap_cons]
      constructor
      · rintro ⟨t, ht⟩
        rw [append_assoc] at ht
        obtain ⟨heq, hmore⟩ := Delimits.terminated '/' hb.2 ha.2 ht.symm
        exact ⟨heq.symm, t, hmore.symm⟩
      · rintro ⟨rfl, hpre⟩
        exact prefix_append_right_inj _ |>.mpr hpre

theorem not_slash_prefix {names : List Text} (hnames : ∀ name ∈ names, IsName name) (text : Text) :
    '/' :: text ≠ names.flatMap (· ++ ['/']) := by
  intro h
  cases names with
  | nil => cases h
  | cons name names =>
    obtain ⟨hne, hclear⟩ := hnames name mem_cons_self
    cases name with
    | nil => exact hne rfl
    | cons c name =>
      obtain rfl : '/' = c := (cons.inj h).1
      exact hclear mem_cons_self

variable {p : Bool × List Text}

theorem closed_prefix_iff (hr : ∀ name ∈ r.2, IsName name)
    (hp : ∀ name ∈ p.2, IsName name) : closed r <+: closed p ↔ Under r p := by
  obtain ⟨double, roots⟩ := r
  obtain ⟨double', names⟩ := p
  have hsame := flatMap_slash_prefix roots names hr hp
  by_cases hdouble : double = double'
  · subst hdouble
    rw [closed, closed, prefix_append_right_inj, hsame, Under]
    constructor
    · exact fun h => Or.inl ⟨rfl, h⟩
    · rintro (⟨-, h⟩ | h)
      · exact h
      · cases h
        exact nil_prefix
  · have hunder : Under (double, roots) (double', names) ↔ double = false ∧ roots = [] := by
      simp [Under, hdouble]
    rw [hunder]
    cases double with
    | true =>
      obtain rfl : double' = false := by simpa using hdouble
      refine ⟨fun h => ?_, nofun⟩
      obtain ⟨t, ht⟩ := h
      exact absurd (cons.inj ht).2 ( not_slash_prefix hp _)
    | false =>
      obtain rfl : double' = true := by simpa using hdouble
      refine ⟨fun h => ⟨rfl, ?_⟩, ?_⟩
      · obtain ⟨t, ht⟩ := h
        by_contra hne
        have hcons := (cons.inj ht).2
        cases hflat : roots.flatMap (· ++ ['/']) with
        | nil =>
          refine hne (eq_nil_iff_forall_not_mem.mpr fun name hname => ?_)
          have hmem : '/' ∈ roots.flatMap (· ++ ['/']) := mem_flatMap.mpr ⟨name, hname, by simp⟩
          simp [hflat] at hmem
        | cons c text =>
          rw [hflat] at hcons
          obtain rfl : c = '/' := (cons.inj hcons).1
          exact not_slash_prefix hr text hflat.symm
      · rintro ⟨-, rfl⟩
        exact ⟨'/' :: names.flatMap (· ++ ['/']), rfl⟩

theorem getLast_intercalate {names : List Text} (hnames : ∀ name ∈ names, IsName name) :
    (['/'].intercalate names).getLast? ≠ some '/' := by
  induction names with
  | nil => simp
  | cons name names ih =>
    by_cases hnil : names = []
    · rw [hnil, intercalate_singleton]
      exact fun h => (hnames name mem_cons_self).2 (mem_of_getLast? h)
    · obtain ⟨other, more, rfl⟩ := exists_cons_of_ne_nil hnil
      have htail := ih fun name h => hnames name (mem_cons_of_mem _ h)
      have hother := (hnames other (by simp)).1
      have hne : ['/'].intercalate (other :: more) ≠ [] := by
        cases other with
        | nil => exact absurd rfl hother
        | cons c other => cases more <;> simp
      rw [intercalate_cons_of_ne_nil hnil, getLast?_append_of_ne_nil _ hne]
      exact htail

theorem getLast_render (hr : ∀ name ∈ r.2, IsName name) (hne : r.2 ≠ []) :
    (render r).getLast? ≠ some '/' := by
  obtain ⟨name, names, hcons⟩ := exists_cons_of_ne_nil hne
  have hname := (hr name (by simp [hcons])).1
  have hjoined : ['/'].intercalate r.2 ≠ [] := by
    rw [hcons]
    cases name with
    | nil => exact absurd rfl hname
    | cons c name => cases names <;> simp
  rw [render, getLast?_append_of_ne_nil _ hjoined]
  exact getLast_intercalate hr

theorem render_prefix_closed (r : Bool × List Text) : render r <+: closed r := by
  by_cases hne : r.2 = []
  · simp [render, closed, hne]
  · exact ⟨['/'], render_slash hne⟩

theorem below_iff (hr : ∀ name ∈ r.2, IsName name) (hp : ∀ name ∈ p.2, IsName name) :
    (render p = render r ∨ render r <+: render p ∧
      ((render r).getLast? = some '/' ∨
        ((render p).drop (render r).length).head? = some '/')) ↔ Under r p := by
  constructor
  · intro hbelow
    rw [← closed_prefix_iff hr hp]
    by_cases hne : r.2 = []
    · have hclosed : closed r = render r := by simp [closed, render, hne]
      rw [hclosed]
      rcases hbelow with heq | ⟨hpre, -⟩
      · exact heq ▸ render_prefix_closed p
      · exact hpre.trans (render_prefix_closed p)
    · rw [← render_slash hne]
      rcases hbelow with heq | ⟨⟨t, ht⟩, hlast | hnext⟩
      · have hpne : p.2 ≠ [] := by
          intro hnil
          refine getLast_render hr hne ?_
          rw [← heq, render, hnil]
          cases p.1 <;> rfl
        rw [← heq, render_slash hpne]
      · exact absurd hlast (getLast_render hr hne)
      · rw [← ht, drop_left] at hnext
        obtain ⟨t', rfl⟩ := head?_eq_some_iff.mp hnext
        refine IsPrefix.trans ⟨t', ?_⟩ (render_prefix_closed p)
        simpa using ht
  · rintro (⟨hstart, names, hnames⟩ | rfl)
    · by_cases hnil : names = []
      · have hsame : p = r := by
          refine Prod.ext hstart.symm ?_
          rw [← hnames, hnil, append_nil]
        exact Or.inl (congrArg render hsame)
      · have hpne : p.2 ≠ [] := by simp [← hnames, hnil]
        have hlong : render p ++ ['/'] = closed r ++ ['/'].intercalate names ++ ['/'] := by
          rw [render_slash hpne, append_assoc, intercalate_slash names hnil, closed, closed,
            ← hnames, flatMap_append, hstart, append_assoc]
        have heq : render p = closed r ++ ['/'].intercalate names := append_cancel_right hlong
        refine Or.inr ⟨heq ▸ (render_prefix_closed r).trans (prefix_append _ _), ?_⟩
        by_cases hne : r.2 = []
        · left
          rw [render, hne]
          cases r.1 <;> rfl
        · right
          rw [heq, ← render_slash hne]
          simp
    · refine Or.inr ⟨?_, Or.inl rfl⟩
      cases hfirst : p.1
      · simp [render, startOf, hfirst]
      · simp [render, startOf, hfirst]

variable {roots : List Text} {arg : Text}

theorem isOutsideWorkspace_absolute
    (habs : isAbsolute arg = true) (hroots : ∀ root ∈ roots, isAbsolute root = true) :
    isOutsideWorkspace arg roots = true ↔
      ¬ ∃ root ∈ roots, Under (reading root) (reading arg) := by
  obtain ⟨heq, hnames⟩ := reading_spec habs
  have hroot : ∀ root ∈ roots, (lexicalNormalize arg = lexicalNormalize root ∨
      lexicalNormalize root <+: lexicalNormalize arg ∧
        ((lexicalNormalize root).getLast? = some '/' ∨
          ((lexicalNormalize arg).drop (lexicalNormalize root).length).head? = some '/')) ↔
      Under (reading root) (reading arg) := by
    intro root h
    obtain ⟨hreq, hrnames⟩ := reading_spec (hroots root h)
    rw [heq, hreq]
    exact below_iff hrnames hnames
  cases arg with
  | nil => cases habs
  | cons c rest =>
    obtain rfl : c = '/' := by simpa [isAbsolute] using habs
    have hdots : (startsWith "~" ('/' :: rest) || isOneOf [".."] ('/' :: rest) ||
        startsWith "../" ('/' :: rest)) = false := by
      simp [startsWith, isOneOf, isPrefixOf]
    have hslash : startsWith "/" ('/' :: rest) = true := by simp [startsWith]
    rw [isOutsideWorkspace, hdots, hslash]
    simp only [Bool.false_eq_true, if_false, Bool.not_true, Bool.false_and, Bool.not_eq_true',
      any_eq_false, Bool.or_eq_true, Bool.and_eq_true, decide_eq_true_eq, isPrefixOf_iff_prefix]
    constructor
    · rintro h ⟨root, hmem, hunder⟩
      exact h root hmem ((hroot root hmem).mpr hunder)
    · exact fun h root hmem hbelow => h ⟨root, hmem, (hroot root hmem).mp hbelow⟩

theorem mem_of_startsWith {start : String} {text : Text} (h : startsWith start text = true) :
    ∀ c ∈ start.toList, c ∈ text :=
  fun _ hc => ( isPrefixOf_iff_prefix.mp h).subset hc

theorem isOutsideWorkspace_relative (hback : '\\' ∉ arg)
    (htilde : '~' ∉ arg) (hdrive : hasDrive arg = false) (hrel : isAbsolute arg = false) :
    isOutsideWorkspace arg roots = true ↔ arg = "..".toList ∨ startsWith "../" arg = true := by
  have hhome : startsWith "~" arg = false := by
    rw [← Bool.not_eq_true]
    exact fun h => htilde (mem_of_startsWith h _ (by simp))
  have hshare : startsWith "\\\\" arg = false := by
    rw [← Bool.not_eq_true]
    exact fun h => hback (mem_of_startsWith h _ (by simp))
  have hslash : startsWith "/" arg = false := by
    rw [← Bool.not_eq_true]
    intro h
    obtain ⟨rest, rfl⟩ := isPrefixOf_iff_prefix.mp h
    cases hrel
  rw [isOutsideWorkspace, hhome, hslash, hdrive, hshare]
  simp only [isOneOf, any_cons, any_nil, Bool.or_false, Bool.false_or, Bool.or_eq_true, beq_iff_eq,
    Bool.not_false, Bool.and_self, if_true]
  by_cases hup : "..".toList = arg ∨ startsWith "../" arg = true
  · rw [if_pos hup]
    exact iff_of_true rfl (hup.imp_left Eq.symm)
  · rw [if_neg hup]
    exact iff_of_false nofun fun h => hup (h.imp_left Eq.symm)

theorem walk_dropWhile (start : List Text) (text : Text) :
    walk start (text.dropWhile (· = '/')) = walk start text := by
  induction text with
  | nil => rfl
  | cons c text ih =>
    by_cases hc : c = '/'
    · subst hc
      have hskip : walk start ('/' :: text) = walk start text := by
        rw [walk, splitOn_cons_eq_if_modifyHead, if_pos (by simp), foldl_cons, if_pos (Or.inl rfl),
          walk]
      rw [hskip, dropWhile_cons_of_pos (by simp)]
      exact ih
    · rw [dropWhile_cons_of_neg (by simpa using hc)]

/-- A path that is read as it stands. -/
abbrev Plain (path : Text) : Prop := '\\' ∉ path ∧ path.tail.head? ≠ some ':'

theorem reading_plain {path : Text} (h : Plain path) :
    reading path = (startsWith "//" path, walk [] path) := by
  obtain ⟨hback, hcolon⟩ := h
  have hmap : (path.map fun c => if c = '\\' then '/' else c) = path := by
    refine (map_congr_left fun c hc => ?_).trans (map_id path)
    exact if_neg (ne_of_mem_of_not_mem hc hback)
  simp only [reading, hmap, hcolon, if_false, walk_dropWhile]
  cases startsWith "//" path <;> rfl

/-- Nothing that leaves the workspace is missed, and nothing inside taken for outside, exactly when
the argument is read right; an absolute one is wherever the texts are plain. -/
theorem seesEscape_iff {roots : List Text} {cwd arg : Text} (hback : '\\' ∉ arg)
    (htilde : '~' ∉ arg) (hdrive : hasDrive arg = false)
    (hroots : ∀ root ∈ roots, isAbsolute root = true) :
    (SeesEscape roots cwd arg ↔ ReadRight roots cwd arg) ∧
      (isAbsolute arg = true → Plain arg →
        (∀ root ∈ roots, Plain root ∧ startsWith "//" root = false) →
        SeesEscape roots cwd arg) := by
  have hiff : SeesEscape roots cwd arg ↔ ReadRight roots cwd arg := by
    rw [ReadRight]
    by_cases habs : isAbsolute arg = true
    · have houtside := isOutsideWorkspace_absolute habs hroots
      rw [if_pos habs]
      constructor
      · rintro ⟨hout, hin⟩
        refine ⟨fun hunder => ?_, fun hinside => ?_⟩
        · by_contra hleaves
          exact houtside.mp (hout hleaves) hunder
        · by_cases hdouble : startsWith "//" arg = true
          · exact Or.inl hdouble
          · right
            by_contra hunder
            have hfalse := hin habs (by simpa using hdouble) hinside
            exact absurd (houtside.mpr hunder) (by simp [hfalse])
      · rintro ⟨hinside, hunder⟩
        refine ⟨fun hleaves => houtside.mpr fun h => hleaves (hinside h), fun _ hsingle h => ?_⟩
        rw [← Bool.not_eq_true, houtside, not_not]
        exact (hunder h).resolve_left (by simp [hsingle])
    · have houtside := @isOutsideWorkspace_relative roots arg hback htilde hdrive
        (by simpa using habs)
      rw [if_neg habs, ← or_assoc]
      constructor
      · rintro ⟨hout, -⟩
        by_cases hinside : Inside roots cwd arg
        · exact Or.inr hinside
        · exact Or.inl (houtside.mp (hout hinside))
      · intro hread
        refine ⟨fun hleaves => houtside.mpr (hread.resolve_right hleaves), fun h => ?_⟩
        exact absurd h habs
  refine ⟨hiff, fun habs hplain hclean => hiff.mpr ?_⟩
  have hinside : Inside roots cwd arg ↔ ∃ root ∈ roots, walk [] root <+: walk [] arg := by
    rw [Inside, resolve, if_pos habs]
  have hunder : ∀ root ∈ roots, (Under (reading root) (reading arg) ↔
      startsWith "//" arg = false ∧ walk [] root <+: walk [] arg ∨ walk [] root = []) := by
    intro root hmem
    obtain ⟨hroot, hsingle⟩ := hclean root hmem
    rw [reading_plain hplain, reading_plain hroot, hsingle, Under]
    cases startsWith "//" arg <;> simp
  rw [ReadRight, if_pos habs, hinside]
  constructor
  · rintro ⟨root, hmem, h⟩
    refine ⟨root, hmem, ?_⟩
    rcases (hunder root hmem).mp h with ⟨-, hprefix⟩ | hnil
    · exact hprefix
    · rw [hnil]
      exact nil_prefix
  · rintro ⟨root, hmem, hprefix⟩
    by_cases hdouble : startsWith "//" arg = true
    · exact Or.inl hdouble
    · exact Or.inr ⟨root, hmem, (hunder root hmem).mpr (Or.inl ⟨by simpa using hdouble, hprefix⟩)⟩

theorem seesEscape_below :
    '\\' ∉ "/workspace/sub/../file".toList ∧
      SeesEscape ["/workspace".toList] "/workspace".toList "/workspace/sub/../file".toList :=
  ⟨by decide, (seesEscape_iff (by decide) (by decide) (by decide)
    (by decide)).2 (by decide) (by decide) (by decide)⟩

/-- A relative argument that goes up after its first component is not seen. -/
theorem hidden_escape :
    ¬ SeesEscape ["/workspace".toList] "/workspace".toList "sub/../../etc".toList := by
  intro h
  have hleaves : ¬ Inside ["/workspace".toList] "/workspace".toList "sub/../../etc".toList := by
    rw [Inside]
    decide
  exact absurd (h.outside hleaves) (by decide)

end WorkspacePaths
