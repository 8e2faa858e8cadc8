import Mathlib.Data.List.Induction
import Mathlib.Data.List.TakeWhile
import PipeLang.Files.Tree
import PipeLang.Proofs.Sources.CanonicalPath

/-!
# Following paths

A path without `..` that leads anywhere leads to the place of its names (`Tree.Proper.locate_names`). The names are kept
when paths are joined (`Path.names_join`), and are those in front of the last when the parent of a path without dots is
taken (`Path.Plain.parent?_eq_some`). Main statement: a path that is joined to another goes on from where the other leads,
`Tree.locate_join`.
-/

namespace PipeLang.Files

/-- A name that something in a tree can have. -/
structure IsName (name : String) : Prop where
  solid : Path.isIdle name.toList = false
  inner : name.toList ≠ ['.', '.']
  whole : '/' ∉ name.toList
  clean : '\x00' ∉ name.toList
  short : name.utf8ByteSize ≤ Tree.nameLimit

/-- A tree as machines have them: what is in it has proper names, and what leads there are directories. -/
structure Tree.Proper (t : Tree) : Prop where
  named : ∀ place, (t.node? place).isSome → ∀ name ∈ place, IsName name
  within : ∀ place name, (t.node? (place ++ [name])).isSome → t.node? place = some .directory

namespace Path

/-- The names among some segments. -/
def namesOf (segments : List (List Char)) : List String :=
  (segments.filter fun s => !isIdle s).map String.ofList

/-- The names in a path. -/
def names (p : Path) : List String :=
  namesOf p.segments

/-- The place that a path is read from. -/
def base (working : Place) (p : Path) : Place :=
  if p.isAbsolute then [] else working

/-- A path without segments that are dots. -/
structure Plain (p : Path) : Prop where
  stays : ['.'] ∉ p.segments
  down : ['.', '.'] ∉ p.segments

@[simp] lemma namesOf_nil : namesOf [] = [] :=
  rfl

@[simp] lemma namesOf_append (before behind : List (List Char)) :
    namesOf (before ++ behind) = namesOf before ++ namesOf behind := by
  simp [namesOf]

lemma namesOf_idle {s : List Char} (idle : isIdle s = true) : namesOf [s] = [] := by
  simp [namesOf, idle]

lemma namesOf_solid {s : List Char} (solid : isIdle s = false) : namesOf [s] = [String.ofList s] := by
  simp [namesOf, solid]

lemma namesOf_of_solid {segments : List (List Char)} (solid : ∀ s ∈ segments, isIdle s = false) :
    namesOf segments = segments.map String.ofList := by
  rw [namesOf, List.filter_eq_self.2 fun s member => by simp [solid s member]]

lemma namesOf_eq_nil {segments : List (List Char)} : namesOf segments = [] ↔ ∀ s ∈ segments, isIdle s = true := by
  simp [namesOf]

end Path

namespace Tree

open Files.Path

variable {t : Tree} {working place q : Place} {p : Path} {segment : List Char} {segments : List (List Char)}

lemma locate_eq_ok : t.locate working p = .ok q ↔
    '\x00' ∉ p.chars ∧ p.chars ≠ [] ∧ p.segments.foldlM t.step (p.base working) = .ok q := by
  simp only [locate, List.contains_iff_mem, List.isEmpty_iff, Path.base]
  split
  · simp [*]
  split
  · simp [*]
  · simp [*]

/-- A text that is read is that of a file. -/
lemma readText_eq_ok {text : String} (read : t.readText working p = .ok text) : ∃ place content,
    t.locate working p = .ok place ∧ t.node? place = some (.file content) ∧ String.fromUTF8? content = some text := by
  rw [readText] at read
  obtain ⟨place, led, read⟩ := ok_of_bind read
  refine ⟨place, ?_⟩
  split at read
  · next content found =>
    split at read
    · next text' decoded => exact ⟨content, led, found, Except.ok.inj read ▸ decoded⟩
    · cases read
  · cases read
  · cases read

/-- A segment that is no name leads nowhere else. -/
lemma step_idle (idle : isIdle segment = true) (led : t.step place segment = .ok q) : q = place := by
  simp only [step, idle, if_true] at led
  split at led
  · cases led
  · cases led
  · exact (Except.ok.inj led).symm

namespace Proper

/-- A tree with nothing in it is proper. -/
theorem empty : Tree.empty.Proper where
  named place there name member := by
    cases place with
    | nil => cases member
    | cons first place => cases there
  within place name there := by
    cases place <;> cases there

/-- What leads to something is a directory. -/
lemma prefix_directory (h : t.Proper) (found : (t.node? q).isSome) (leads : place <+: q) (other : place ≠ q) :
    t.node? place = some .directory := by
  obtain ⟨names, rfl⟩ := leads
  -- From the place upwards: what holds the last name is a directory, and so there is something above it as well.
  induction names using List.reverseRecOn with
  | nil => exact absurd (List.append_nil place).symm other
  | append_singleton names name ih =>
    have above : t.node? (place ++ names) = some .directory := h.within _ name (by rwa [List.append_assoc])
    by_cases last : names = []
    · simpa [last] using above
    · exact ih (by rw [above]; rfl) (by simpa using last)

lemma directory_above (h : t.Proper) (found : t.node? q = some .directory) (leads : place <+: q) :
    t.node? place = some .directory := by
  by_cases same : place = q
  · exact same ▸ found
  · exact h.prefix_directory (by rw [found]; rfl) leads same

/-- What stands anywhere after something new was put into a directory. -/
lemma node?_insert (h : t.Proper) (inside : t.node? place = some .directory) (name : String) (node : Node) :
    (t.insert (place ++ [name]) node).node? q = if q = place ++ [name] then some node else t.node? q := by
  by_cases same : q = place ++ [name]
  · simp [node?, Tree.insert, same]
  have lookup : (t.insert (place ++ [name]) node).entries.lookup q = t.entries.lookup q := by
    simp [Tree.insert, List.lookup_cons, beq_false_of_ne same]
  have any : (t.insert (place ++ [name]) node).entries.any (fun e => q.isPrefixOf e.1) =
      (q.isPrefixOf (place ++ [name]) || t.entries.any (fun e => q.isPrefixOf e.1)) := rfl
  rw [if_neg same, node?, node?, lookup, any]
  -- Only what leads to the directory may have become one, and it was one before.
  by_cases leads : q <+: place
  · have above := h.directory_above inside leads
    have further : q.isPrefixOf (place ++ [name]) = true :=
      List.isPrefixOf_iff_prefix.2 (leads.trans (List.prefix_append _ _))
    rw [node?] at above
    rw [above, further]
    cases found : t.entries.lookup q with
    | some other => simpa [found] using above
    | none => simp
  · have apart : q.isPrefixOf (place ++ [name]) = false := by
      rw [Bool.eq_false_iff, Ne, List.isPrefixOf_iff_prefix, List.prefix_concat_iff]
      exact not_or.2 ⟨same, leads⟩
    rw [apart, Bool.false_or]

/-- Something new in a directory keeps a tree proper. -/
theorem insert (h : t.Proper) {name : String} (inside : t.node? place = some .directory) (proper : IsName name)
    (fresh : t.node? (place ++ [name]) = none) (node : Node) : (t.insert (place ++ [name]) node).Proper where
  named q there := by
    rw [h.node?_insert inside] at there
    split at there
    · next same =>
      subst same
      exact List.forall_mem_append.2 ⟨h.named _ (by rw [inside]; rfl), List.forall_mem_singleton.2 proper⟩
    · exact h.named q there
  within q last there := by
    rw [h.node?_insert inside] at there
    have old : (t.node? q).isSome → q ≠ place ++ [name] := by
      rintro some rfl
      rw [fresh] at some
      cases some
    have directory : t.node? q = some .directory := by
      split at there
      · next same =>
        obtain ⟨rfl, -⟩ := List.append_inj' same rfl
        exact inside
      · exact h.within q last there
    rw [h.node?_insert inside, if_neg (old (by rw [directory]; rfl)), directory]

/-- Where a segment leads that does not lead upwards. -/
lemma step_eq_ok (h : t.Proper) (down : segment ≠ ['.', '.']) : t.step place segment = .ok q ↔
    t.node? place = some .directory ∧ q = place ++ namesOf [segment] ∧ (t.node? q).isSome := by
  simp only [step]
  cases here : t.node? place with
  | none => simp
  | some node =>
    cases node with
    | file content => simp
    | directory =>
      by_cases idle : isIdle segment = true
      · simp only [idle, if_true, Except.ok.injEq, namesOf_idle idle, List.append_nil, true_and]
        constructor
        · rintro rfl
          exact ⟨rfl, by rw [here]; rfl⟩
        · rintro ⟨rfl, -⟩
          rfl
      · simp only [idle, down, if_false, Bool.false_eq_true, namesOf_solid (Bool.not_eq_true _ ▸ idle), true_and]
        constructor
        · intro led
          split at led
          · cases led
          split at led
          · next found =>
            cases led
            exact ⟨rfl, found⟩
          · cases led
        · rintro ⟨rfl, found⟩
          have short := (h.named _ found (String.ofList segment) (by simp)).short
          rw [if_neg (Nat.not_lt.2 short), if_pos found]

/-- Something stands wherever a segment leads. -/
lemma step_some (h : t.Proper) (led : t.step place segment = .ok q) : (t.node? q).isSome := by
  by_cases up : segment = ['.', '.']
  · subst up
    rw [step] at led
    split at led
    · cases led
    · cases led
    · next directory =>
      obtain rfl : place.dropLast = q := Except.ok.inj led
      rw [h.directory_above directory (List.dropLast_prefix place)]
      rfl
  · exact ((h.step_eq_ok up).1 led).2.2

/-- Something stands wherever a path leads. -/
lemma locate_some (h : t.Proper) (led : t.locate working p = .ok q) : (t.node? q).isSome := by
  obtain ⟨-, -, led⟩ := locate_eq_ok.1 led
  obtain none | ⟨front, last, cut⟩ := List.eq_nil_or_concat p.segments
  · exact absurd none (Text.splitEvery_ne_nil _ _)
  · rw [cut, List.concat_eq_append, List.foldlM_append] at led
    obtain ⟨next, -, more⟩ := ok_of_bind led
    rw [List.foldlM_cons] at more
    obtain ⟨place, stepped, same⟩ := ok_of_bind more
    exact Except.ok.inj same ▸ h.step_some stepped

/-- Segments that do not lead upwards lead to the place of their names. -/
lemma steps_names (h : t.Proper) (down : ['.', '.'] ∉ segments) (led : segments.foldlM t.step place = .ok q) :
    q = place ++ namesOf segments ∧ (segments ≠ [] → (t.node? q).isSome) := by
  induction segments generalizing place with
  | nil =>
    cases led
    simp
  | cons segment segments ih =>
    obtain ⟨first, rest⟩ := not_or.1 (mt List.mem_cons.2 down)
    rw [List.foldlM_cons] at led
    obtain ⟨next, stepped, led⟩ := ok_of_bind led
    obtain ⟨-, rfl, there⟩ := (h.step_eq_ok (Ne.symm first)).1 stepped
    obtain ⟨same, some⟩ := ih rest led
    refine ⟨by rw [same, List.append_assoc, ← namesOf_append]; rfl, fun _ => ?_⟩
    by_cases last : segments = []
    · subst last
      cases led
      exact there
    · exact some last

/-- They lead there if it is a directory. -/
lemma steps_directory (h : t.Proper) (down : ['.', '.'] ∉ segments)
    (there : t.node? (place ++ namesOf segments) = some .directory) :
    segments.foldlM t.step place = .ok (place ++ namesOf segments) := by
  induction segments generalizing place with
  | nil => simp [pure, Except.pure]
  | cons segment segments ih =>
    obtain ⟨first, rest⟩ := not_or.1 (mt List.mem_cons.2 down)
    have names : namesOf (segment :: segments) = namesOf [segment] ++ namesOf segments := namesOf_append [segment] segments
    rw [names, ← List.append_assoc] at there ⊢
    -- Every place on the way leads to the directory at the end, so no step fails.
    have next := h.directory_above there (List.prefix_append _ _)
    have here := h.directory_above next (List.prefix_append _ _)
    rw [List.foldlM_cons, (h.step_eq_ok (Ne.symm first)).2 ⟨here, rfl, by rw [next]; rfl⟩]
    exact ih rest there

/-- They lead to whatever is there if the last of them is a name. -/
lemma steps_solid (h : t.Proper) (down : ['.', '.'] ∉ segments ++ [segment]) (solid : isIdle segment = false)
    (there : (t.node? (place ++ namesOf (segments ++ [segment]))).isSome) :
    (segments ++ [segment]).foldlM t.step place = .ok (place ++ namesOf (segments ++ [segment])) := by
  obtain ⟨front, last⟩ := not_or.1 (mt List.mem_append.2 down)
  have last : segment ≠ ['.', '.'] := fun same => last (same ▸ List.mem_singleton_self _)
  rw [namesOf_append, ← List.append_assoc] at there ⊢
  have directory : t.node? (place ++ namesOf segments) = some .directory := by
    rw [namesOf_solid solid] at there
    exact h.within _ _ there
  have led : t.step (place ++ namesOf segments) segment = .ok (place ++ namesOf segments ++ namesOf [segment]) :=
    (h.step_eq_ok last).2 ⟨directory, rfl, there⟩
  rw [List.foldlM_append, h.steps_directory front directory]
  exact bind_pure (t.step _ segment) ▸ led

/-- Names of a tree have no zeros in them. -/
lemma clean (h : t.Proper) (there : (t.node? (place ++ p.names)).isSome) : '\x00' ∉ p.chars := by
  intro member
  obtain ⟨segment, inside, zero⟩ := Text.exists_mem_splitEvery member (show '\x00' ≠ '/' by decide)
  have solid : isIdle segment = false := by
    rw [Bool.eq_false_iff]
    intro idle
    rcases Bool.or_eq_true _ _ ▸ idle with empty | dot
    · rw [beq_iff_eq.1 empty] at zero
      cases zero
    · rw [beq_iff_eq.1 dot] at zero
      exact absurd zero (by decide)
  have name : String.ofList segment ∈ place ++ p.names :=
    List.mem_append_right _ (List.mem_map_of_mem (List.mem_filter.2 ⟨inside, by simp [solid]⟩))
  exact (h.named _ there _ name).clean (by simpa using zero)

/-- What a path leads to has the names of the path. -/
lemma locate_names (h : t.Proper) (down : ['.', '.'] ∉ p.segments) (led : t.locate working p = .ok q) :
    q = p.base working ++ p.names ∧ (t.node? q).isSome := by
  obtain ⟨-, -, led⟩ := locate_eq_ok.1 led
  obtain ⟨same, there⟩ := h.steps_names down led
  exact ⟨same, there (Text.splitEvery_ne_nil _ _)⟩

/-- A path that ends in a name leads to what has the names of the path. -/
lemma locate_iff (h : t.Proper) {front : List (List Char)} (cut : p.segments = front ++ [segment])
    (solid : isIdle segment = false) (down : ['.', '.'] ∉ p.segments) :
    t.locate working p = .ok q ↔ q = p.base working ++ p.names ∧ (t.node? q).isSome := by
  constructor
  · exact h.locate_names down
  · rintro ⟨rfl, there⟩
    have full : p.chars ≠ [] := by
      rintro empty
      obtain ⟨rfl, rfl⟩ : front = [] ∧ segment = [] := by
        cases front with
        | nil => simpa [segments, empty, Text.splitEvery] using cut.symm
        | cons _ front => simp [segments, empty, Text.splitEvery] at cut
      cases solid
    refine locate_eq_ok.2 ⟨h.clean there, full, ?_⟩
    rw [names, cut] at there ⊢
    exact h.steps_solid (cut ▸ down) solid there

/-- A path leads to the directory of its names. -/
lemma locate_directory (h : t.Proper) (down : ['.', '.'] ∉ p.segments) (full : p.chars ≠ [])
    (there : t.node? (p.base working ++ p.names) = some .directory) :
    t.locate working p = .ok (p.base working ++ p.names) :=
  locate_eq_ok.2 ⟨h.clean (by rw [there]; rfl), full, h.steps_directory down there⟩

/-- A path leads to a directory if that is what stands at the place of its names. -/
lemma isDirectory_iff (h : t.Proper) (down : ['.', '.'] ∉ p.segments) (full : p.chars ≠ []) :
    t.isDirectory working p = true ↔ t.node? (p.base working ++ p.names) = some .directory := by
  constructor
  · intro directory
    rw [Tree.isDirectory] at directory
    split at directory
    · next place led =>
      obtain ⟨rfl, -⟩ := h.locate_names down led
      obtain ⟨node, there, directory⟩ := (Option.any_eq_true _ _).1 directory
      cases node with
      | directory => exact there
      | file content => cases directory
    · cases directory
  · intro there
    simp only [Tree.isDirectory, h.locate_directory down full there, there]
    rfl

end Proper

end Tree

namespace Path

variable {p q d f : Path} {working : Place}

lemma base_congr (same : q.isAbsolute = p.isAbsolute) : q.base working = p.base working := by
  rw [base, same, base]

/-! ### Joined paths -/

/-- The segments of a path that is read from another stand behind those of the other, without an empty one at the end. -/
lemma segments_join (relative : f.isAbsolute = false) :
    ∃ front, (d.join f).segments = front ++ f.segments ∧ (d.segments = front ∨ d.segments = front ++ [[]]) := by
  simp only [join, relative, Bool.false_eq_true, if_false]
  split
  · next ends =>
    rcases Bool.or_eq_true _ _ ▸ ends with empty | slash
    · obtain ⟨chars⟩ := d
      obtain rfl := List.isEmpty_iff.1 empty
      exact ⟨[], rfl, .inr rfl⟩
    · obtain ⟨front, same⟩ := List.getLast?_eq_some_iff.1 (beq_iff_eq.1 slash)
      refine ⟨Text.splitEvery '/' front, ?_, .inr ?_⟩
      · simp only [segments, same, List.append_assoc, List.singleton_append]
        exact Text.splitEvery_append_cons front f.chars
      · rw [segments, same]
        exact Text.splitEvery_append_cons front []
  · exact ⟨d.segments, Text.splitEvery_append_cons d.chars f.chars, .inl rfl⟩

lemma segments_join_subset (relative : f.isAbsolute = false) : (d.join f).segments ⊆ d.segments ++ f.segments := by
  obtain ⟨front, whole, own⟩ := segments_join (d := d) relative
  have inside : front ⊆ d.segments := by
    rcases own with own | own
    · exact own ▸ List.Subset.refl _
    · exact own ▸ List.subset_append_left _ _
  exact whole ▸ List.append_subset.2 ⟨List.Subset.trans inside (List.subset_append_left _ _), List.subset_append_right _ _⟩

lemma Plain.join (h : d.Plain) (h' : f.Plain) (relative : f.isAbsolute = false) : (d.join f).Plain where
  stays member := (List.mem_append.1 (segments_join_subset relative member)).elim h.stays h'.stays
  down member := (List.mem_append.1 (segments_join_subset relative member)).elim h.down h'.down

lemma names_join (relative : f.isAbsolute = false) : (d.join f).names = d.names ++ f.names := by
  obtain ⟨front, whole, same | same⟩ := segments_join (d := d) relative
  · rw [names, whole, namesOf_append, ← same]
    rfl
  · rw [names, whole, namesOf_append, names, same, namesOf_append, namesOf_idle rfl, List.append_nil]
    rfl

lemma isAbsolute_join (relative : f.isAbsolute = false) : (d.join f).isAbsolute = d.isAbsolute := by
  simp only [join, relative, Bool.false_eq_true, if_false]
  obtain ⟨chars⟩ := d
  cases chars with
  | nil => simpa [isAbsolute] using relative
  | cons c chars => split <;> simp [isAbsolute]

lemma base_join (relative : f.isAbsolute = false) : (d.join f).base working = d.base working :=
  base_congr (isAbsolute_join relative)

/-! ### Parents -/

/-- Empty segments at the end of some segments are no names. -/
lemma namesOf_reverse_dropWhile (segments : List (List Char)) :
    namesOf (segments.dropWhile isIdle).reverse = namesOf segments.reverse := by
  have idle : namesOf (segments.takeWhile isIdle).reverse = [] :=
    namesOf_eq_nil.2 fun s member => List.mem_takeWhile_imp (List.mem_reverse.1 member)
  conv_rhs => rw [← List.takeWhile_append_dropWhile (p := isIdle) (l := segments)]
  rw [List.reverse_append, namesOf_append, idle, List.append_nil]

/-- The names of some segments are those in front of the last of them, and the last one. -/
lemma namesOf_of_dropWhile {segments before : List (List Char)} {last : List Char}
    (found : segments.reverse.dropWhile isIdle = last :: before) :
    namesOf segments = namesOf (before.dropWhile isIdle).reverse ++ [String.ofList last] := by
  have solid : isIdle last = false := by
    have first := List.head?_dropWhile_not isIdle segments.reverse
    simpa [found] using first
  have whole := namesOf_reverse_dropWhile segments.reverse
  rw [found, List.reverse_reverse, List.reverse_cons, namesOf_append, namesOf_solid solid] at whole
  rw [namesOf_reverse_dropWhile, ← whole]

/-- What is in front of the last name of some segments. -/
lemma prefix_of_dropWhile {segments before : List (List Char)} {last : List Char}
    (found : segments.reverse.dropWhile isIdle = last :: before) : (before.dropWhile isIdle).reverse <+: segments := by
  have behind : last :: before <:+ segments.reverse := found ▸ List.dropWhile_suffix _
  have shorter := ((List.dropWhile_suffix isIdle).trans (List.suffix_cons last before)).trans behind
  simpa using List.reverse_prefix.2 shorter

/-- What is in front of the last name of a text begins the text and has its names but the last. Its segments are segments
of the text, unless nothing is in front. -/
lemma splitEvery_front {body last : List Char} {before : List (List Char)}
    (found : (Text.splitEvery '/' body).reverse.dropWhile isIdle = last :: before) :
    ∃ front, Text.joinWith '/' (before.dropWhile isIdle).reverse = front ∧ front <+: body ∧
      namesOf (Text.splitEvery '/' body) = namesOf (Text.splitEvery '/' front) ++ [String.ofList last] ∧
      Text.splitEvery '/' front ⊆ [] :: Text.splitEvery '/' body := by
  have names := namesOf_of_dropWhile found
  obtain ⟨more, whole⟩ := prefix_of_dropWhile found
  generalize (before.dropWhile isIdle).reverse = parts at names whole
  have begins : Text.joinWith '/' parts <+: body := by
    have first : Text.joinWith '/' parts <+: Text.joinWith '/' (parts ++ more) := Text.joinWith_append_prefix parts more
    rwa [whole, Text.joinWith_splitEvery] at first
  refine ⟨_, rfl, begins, ?_⟩
  rw [names]
  cases parts with
  | nil => exact ⟨rfl, by simp [Text.joinWith, Text.splitEvery]⟩
  | cons part parts =>
    have inside : part :: parts ⊆ Text.splitEvery '/' body := whole ▸ List.subset_append_left _ _
    rw [Text.splitEvery_joinWith (List.cons_ne_nil _ _) fun s member => Text.not_mem_of_mem_splitEvery s (inside member)]
    exact ⟨rfl, List.Subset.trans inside (List.subset_cons_self _ _)⟩

lemma segments_root (body : List Char) : segments ⟨'/' :: body⟩ = [] :: Text.splitEvery '/' body := by
  simp [segments, Text.splitEvery]

lemma names_root (body : List Char) : names ⟨'/' :: body⟩ = namesOf (Text.splitEvery '/' body) := by
  rw [names, segments_root]
  rfl

/-- A path without dots begins at the root or with its own segments. -/
lemma Plain.splitStart_eq (h : p.Plain) :
    (∃ body, p = ⟨'/' :: body⟩) ∨ (p.isAbsolute = false ∧ splitStart p.chars = ([], p.chars)) := by
  obtain ⟨chars⟩ := p
  cases root : isAbsolute ⟨chars⟩ with
  | true =>
    cases chars with
    | nil => cases root
    | cons c body =>
      obtain rfl : c = '/' := by simpa [isAbsolute] using root
      exact .inl ⟨body, rfl⟩
  | false =>
    refine .inr ⟨rfl, ?_⟩
    have stays := h.stays
    revert root stays
    fun_cases splitStart chars with
    | case1 => simp [isAbsolute]
    | case2 => simp [segments, Text.splitEvery]
    | case3 => simp [segments, Text.splitEvery]
    | case4 => simp

/-- A path with segments of another, and empty ones, has no dots either. -/
lemma Plain.of_subset (h : p.Plain) (inside : q.segments ⊆ [] :: p.segments) : q.Plain where
  stays member := h.stays (List.mem_of_ne_of_mem (by simp) (inside member))
  down member := h.down (List.mem_of_ne_of_mem (by simp) (inside member))

/-- The parent of a path has all names of the path but the last. -/
theorem Plain.parent?_eq_some (h : p.Plain) (above : p.parent? = some q) :
    q.Plain ∧ q.isAbsolute = p.isAbsolute ∧ ∃ name, p.names = q.names ++ [name] := by
  -- Behind the root the first segment is empty, and the parent begins with the root too.
  rcases h.splitStart_eq with ⟨body, rfl⟩ | ⟨relative, start⟩
  · simp only [parent?, splitStart] at above
    split at above
    · next last before found =>
      obtain ⟨front, same, -, names, inside⟩ := splitEvery_front found
      rw [same] at above
      cases above
      refine ⟨h.of_subset ?_, rfl, String.ofList last, ?_⟩
      · rw [List.singleton_append, segments_root, segments_root]
        exact List.cons_subset.2 ⟨List.mem_cons_self, List.Subset.trans inside (List.subset_cons_self _ _)⟩
      · rwa [List.singleton_append, names_root, names_root]
    · cases above
  · simp only [parent?, start] at above
    split at above
    · next last before found =>
      obtain ⟨front, same, begins, names, inside⟩ := splitEvery_front found
      rw [same] at above
      cases above
      refine ⟨h.of_subset inside, ?_, String.ofList last, names⟩
      rw [relative]
      obtain ⟨more, whole⟩ := begins
      cases front with
      | nil => rfl
      | cons c front => simpa [isAbsolute, ← whole] using relative
    · cases above

/-- A path without dots that has no parent has no names. -/
lemma Plain.names_of_parent?_eq_none (h : p.Plain) (root : p.parent? = none) : p.names = [] := by
  have idle {body : List Char} (found : (Text.splitEvery '/' body).reverse.dropWhile isIdle = []) :
      namesOf (Text.splitEvery '/' body) = [] :=
    namesOf_eq_nil.2 fun s member => List.dropWhile_eq_nil_iff.1 found s (List.mem_reverse.2 member)
  rcases h.splitStart_eq with ⟨body, rfl⟩ | ⟨relative, start⟩
  · simp only [parent?, splitStart] at root
    split at root
    · cases root
    · next found => exact names_root body ▸ idle found
  · simp only [parent?, start] at root
    split at root
    · cases root
    · next found => exact idle found

end Path

/-! ### Reading a path from where another leads -/

/-- A path that is read from another goes on from where the other leads. -/
theorem Tree.locate_join {t : Tree} {working place q : Place} {d f : Path} (relative : f.isAbsolute = false)
    (led : t.locate working d = .ok place) (joined : t.locate working (d.join f) = .ok q) :
    f.segments.foldlM t.step place = .ok q := by
  obtain ⟨-, -, led⟩ := locate_eq_ok.1 led
  obtain ⟨-, -, joined⟩ := locate_eq_ok.1 joined
  obtain ⟨front, whole, own⟩ := Path.segments_join (d := d) relative
  rw [whole, Path.base_join relative, List.foldlM_append] at joined
  obtain ⟨next, first, rest⟩ := ok_of_bind joined
  -- A slash at the end of the other is an empty segment, which leads nowhere else.
  rcases own with own | own
  · rw [own, first] at led
    exact Except.ok.inj led ▸ rest
  · rw [own, List.foldlM_append, first] at led
    have same : place = next := step_idle rfl (bind_pure (t.step next []) ▸ led)
    exact same ▸ rest

end PipeLang.Files
