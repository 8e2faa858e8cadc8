import Mathlib.Tactic.Lemma
import PipeLang.Sources

/-!
# Canonical paths

What a text names is kept in one form: a relative path of proper segments with an extension, behind the project that it
is in if it is in another one. The text of a path names that path again, so paths, their texts and the keys under which
texts are kept in memory correspond one to one. Main statement: `ModulePath.parse_canonical`.
-/

namespace PipeLang

/-- A sequence without an error goes through its first part. -/
lemma ok_of_bind {ε α β : Type} {x : Except ε α} {f : α → Except ε β} {b : β} (h : x >>= f = .ok b) :
    ∃ a, x = .ok a ∧ f a = .ok b := by
  cases x with
  | error e => cases h
  | ok a => exact ⟨a, rfl, h⟩

namespace Text

variable {separator : Char} {cs ds before after : List Char}

/-- A separator ends the last part in front of it and begins the first part behind it. -/
lemma splitEvery_append_cons (cs ds : List Char) :
    splitEvery separator (cs ++ separator :: ds) = splitEvery separator cs ++ splitEvery separator ds := by
  induction cs with
  | nil => simp [splitEvery]
  | cons c cs ih =>
    simp only [List.cons_append, splitEvery, ih]
    split
    · rfl
    · cases parts : splitEvery separator cs with
      | nil => exact absurd parts (splitEvery_ne_nil separator cs)
      | cons part parts => rfl

/-- What has no separator in it is added to the last part. -/
lemma splitEvery_append (apart : separator ∉ ds) (cs : List Char) :
    ∃ front last, splitEvery separator cs = front ++ [last] ∧ splitEvery separator (cs ++ ds) = front ++ [last ++ ds] := by
  induction cs with
  | nil =>
    refine ⟨[], [], rfl, ?_⟩
    induction ds with
    | nil => rfl
    | cons d ds ih =>
      obtain ⟨other, apart⟩ := not_or.1 (mt List.mem_cons.2 apart)
      have rest : splitEvery separator ds = [ds] := ih apart
      simp [splitEvery, Ne.symm other, rest]
  | cons c cs ih =>
    obtain ⟨front, last, parts, longer⟩ := ih
    simp only [List.cons_append, splitEvery, parts, longer]
    split
    · exact ⟨[] :: front, last, rfl, rfl⟩
    · cases front with
      | nil => exact ⟨[], c :: last, rfl, rfl⟩
      | cons part front => exact ⟨(c :: part) :: front, last, rfl, rfl⟩

/-- No part has a separator in it. -/
lemma not_mem_of_mem_splitEvery : ∀ part ∈ splitEvery separator cs, separator ∉ part := by
  induction cs with
  | nil => simp [splitEvery]
  | cons c cs ih =>
    simp only [splitEvery]
    split
    · exact List.forall_mem_cons.2 ⟨List.not_mem_nil, ih⟩
    · next other =>
      cases parts : splitEvery separator cs with
      | nil => exact absurd parts (splitEvery_ne_nil separator cs)
      | cons part parts =>
        rw [parts] at ih
        obtain ⟨first, rest⟩ := List.forall_mem_cons.1 ih
        exact List.forall_mem_cons.2 ⟨by simp [Ne.symm other, first], rest⟩

/-- Every character but the separator is in a part. -/
lemma exists_mem_splitEvery {c : Char} (member : c ∈ cs) (other : c ≠ separator) :
    ∃ part ∈ splitEvery separator cs, c ∈ part := by
  induction cs with
  | nil => cases member
  | cons d cs ih =>
    simp only [splitEvery]
    rcases List.mem_cons.1 member with rfl | member
    · rw [if_neg other]
      split
      · exact ⟨[c], by simp⟩
      · exact ⟨_, List.mem_cons_self, List.mem_cons_self⟩
    · obtain ⟨part, inside, here⟩ := ih member
      split
      · exact ⟨part, List.mem_cons_of_mem _ inside, here⟩
      · split
        · next parts => simp [parts] at inside
        · next first parts found =>
          rw [found] at inside
          rcases List.mem_cons.1 inside with rfl | inside
          · exact ⟨_, List.mem_cons_self, List.mem_cons_of_mem _ here⟩
          · exact ⟨part, List.mem_cons_of_mem _ inside, here⟩

/-- A text without separators is a single part. -/
lemma splitEvery_of_not_mem (apart : separator ∉ cs) : splitEvery separator cs = [cs] := by
  obtain ⟨front, last, parts, whole⟩ := splitEvery_append apart []
  obtain ⟨rfl, rfl⟩ : front = [] ∧ last = [] := by
    cases front with
    | nil => simpa [splitEvery] using parts.symm
    | cons _ front => simp [splitEvery] at parts
  exact whole

/-- Parts without separators are cut as they were joined. -/
lemma splitEvery_joinWith {parts : List (List Char)} (some : parts ≠ []) (apart : ∀ part ∈ parts, separator ∉ part) :
    splitEvery separator (joinWith separator parts) = parts := by
  induction parts with
  | nil => exact absurd rfl some
  | cons part parts ih =>
    obtain ⟨first, rest⟩ := List.forall_mem_cons.1 apart
    cases parts with
    | nil => exact splitEvery_of_not_mem first
    | cons second parts =>
      simp only [joinWith]
      rw [splitEvery_append_cons, ih (by simp) rest, splitEvery_of_not_mem first]
      rfl

/-- The first parts, joined, are the beginning of all parts, joined. -/
lemma joinWith_append_prefix (parts more : List (List Char)) :
    joinWith separator parts <+: joinWith separator (parts ++ more) := by
  induction parts with
  | nil => exact List.nil_prefix
  | cons part parts ih =>
    cases parts with
    | nil =>
      cases more with
      | nil => exact List.prefix_refl _
      | cons next more => exact List.prefix_append _ _
    | cons second parts => exact (List.prefix_append_right_inj part).2 ((List.prefix_cons_inj separator).2 ih)

/-- A text is cut at a separator whose first character does not occur in front of it. -/
lemma splitAtFirst_of_not_mem {c : Char} {rest : List Char} (apart : c ∉ before) (after : List Char) :
    splitAtFirst (c :: rest) (before ++ (c :: rest) ++ after) = some (before, after) := by
  induction before with
  | nil => simp [splitAtFirst]
  | cons b before ih =>
    obtain ⟨other, apart⟩ := not_or.1 (mt List.mem_cons.2 apart)
    have found := ih apart
    simp only [List.cons_append, List.append_assoc] at found ⊢
    simp [splitAtFirst, other, found]

/-- In front of the first occurrence of a character it does not occur. -/
lemma not_mem_of_splitAtFirst (h : splitAtFirst [separator] cs = some (before, after)) : separator ∉ before := by
  induction cs generalizing before with
  | nil => simp [splitAtFirst] at h
  | cons c cs ih =>
    simp only [splitAtFirst] at h
    split at h
    · cases h
      exact List.not_mem_nil
    · next other =>
      obtain ⟨⟨before', after'⟩, found, same⟩ := Option.map_eq_some_iff.1 h
      cases same
      have other : separator ≠ c := by simpa using other
      simp [other, ih found]

end Text

namespace ModulePath

variable {raw file : List Char} {p q : ModulePath}

/-- A relative path of segments that are neither empty nor dots, with an extension on the last of them. -/
structure Canonical (file : List Char) : Prop where
  full : file ≠ []
  relative : file.head? ≠ some '/'
  plain : '\\' ∉ file
  segments : ∀ segment ∈ Text.splitEvery '/' file, segment ≠ [] ∧ segment ≠ ['.'] ∧ segment ≠ ['.', '.'] ∧ '/' ∉ segment
  extended : ∃ front first rest, Text.splitEvery '/' file = front ++ [first :: rest] ∧ '.' ∈ rest

lemma segmentError?_eq_none {segment : List Char} :
    segmentError? segment = none ↔ segment ≠ [] ∧ segment ≠ ['.'] ∧ segment ≠ ['.', '.'] := by
  by_cases empty : segment = []
  · simp [segmentError?, empty]
  · simp [segmentError?, empty]

lemma hasExtension_eq_true {segment : List Char} :
    hasExtension segment = true ↔ ∃ first rest, segment = first :: rest ∧ '.' ∈ rest := by
  cases segment with
  | nil => simp [hasExtension]
  | cons first rest => simp [hasExtension, and_assoc]

/-- The form that a file part comes to, where it has one. -/
lemma canonicalFile_eq_ok :
    canonicalFile raw = .ok file ↔
      raw ≠ [] ∧ '\\' ∉ raw ∧ raw.head? ≠ some '/' ∧ (∀ segment ∈ Text.splitEvery '/' raw, segmentError? segment = none) ∧
        file = if hasExtension ((Text.splitEvery '/' raw).getLastD []) then raw else raw ++ extension := by
  simp only [canonicalFile]
  split
  · simp_all
  next full =>
  split
  · simp_all
  next plain =>
  split
  · simp_all
  next relative =>
  have plain : '\\' ∉ raw := by simpa using plain
  cases wrong : (Text.splitEvery '/' raw).findSome? segmentError? with
  | some error =>
    obtain ⟨segment, member, found⟩ := List.exists_of_findSome?_eq_some wrong
    simp only [reduceCtorEq, false_iff]
    rintro ⟨-, -, -, proper, -⟩
    rw [proper segment member] at found
    cases found
  | none =>
    rw [List.findSome?_eq_none_iff] at wrong
    simp only [full, plain, relative, ne_eq, not_false_eq_true, true_and]
    split
    · rw [Except.ok.injEq, eq_comm, and_iff_right wrong]
    · rw [Except.ok.injEq, eq_comm, and_iff_right wrong]

/-- The canonical files are those that are their own form. -/
lemma canonicalFile_self : canonicalFile file = .ok file ↔ Canonical file := by
  have none : '/' ∉ ([] : List Char) := List.not_mem_nil
  obtain ⟨front, last, parts, -⟩ := Text.splitEvery_append none file
  rw [canonicalFile_eq_ok, parts, List.getLastD_concat]
  constructor
  · rintro ⟨full, plain, relative, proper, same⟩
    refine ⟨full, relative, plain, fun segment member => ?_, ?_⟩
    · have apart := Text.not_mem_of_mem_splitEvery segment member
      obtain ⟨some, single, double⟩ := segmentError?_eq_none.1 (proper segment (parts ▸ member))
      exact ⟨some, single, double, apart⟩
    · split at same
      · next extended =>
        obtain ⟨first, rest, rfl, dot⟩ := hasExtension_eq_true.1 extended
        exact ⟨front, first, rest, parts, dot⟩
      · simp [extension] at same
  · rintro ⟨full, relative, plain, proper, front', first, rest, parts', dot⟩
    refine ⟨full, plain, relative, fun segment member => ?_, ?_⟩
    · obtain ⟨some, single, double, -⟩ := proper segment (parts ▸ member)
      exact segmentError?_eq_none.2 ⟨some, single, double⟩
    · obtain ⟨-, same⟩ := List.append_inj' (parts.symm.trans parts') rfl
      obtain rfl : last = first :: rest := by simpa using same
      rw [if_pos (hasExtension_eq_true.2 ⟨first, rest, rfl, dot⟩)]

/-- What a file part comes to is canonical. -/
lemma canonicalFile_canonical (h : canonicalFile raw = .ok file) : Canonical file := by
  obtain ⟨full, plain, relative, proper, same⟩ := canonicalFile_eq_ok.1 h
  split at same
  · next extended =>
    subst same
    exact canonicalFile_self.1 (canonicalFile_eq_ok.2 ⟨full, plain, relative, proper, by rw [if_pos extended]⟩)
  · next bare =>
    subst same
    have apart : '/' ∉ extension := by decide
    obtain ⟨front, last, parts, longer⟩ := Text.splitEvery_append apart raw
    rw [parts] at proper
    have lastProper := segmentError?_eq_none.1 (proper last (List.mem_append_right _ List.mem_cons_self))
    obtain ⟨first, rest, rfl⟩ := List.exists_cons_of_ne_nil lastProper.1
    refine ⟨by simp [extension], ?_, ?_, fun segment member => ?_, front, first, rest ++ extension, longer, ?_⟩
    · obtain ⟨c, cs, rfl⟩ := List.exists_cons_of_ne_nil full
      exact relative
    · simp [extension, plain]
    · have apart := Text.not_mem_of_mem_splitEvery segment member
      rw [longer] at member
      rcases List.mem_append.1 member with member | member
      · obtain ⟨some, single, double⟩ := segmentError?_eq_none.1 (proper segment (List.mem_append_left _ member))
        exact ⟨some, single, double, apart⟩
      · obtain rfl := List.mem_singleton.1 member
        refine ⟨by simp, fun single => ?_, fun double => ?_, apart⟩
        · simpa [extension] using congrArg List.length single
        · simpa [extension] using congrArg List.length double
    · simp [extension]

/-- No project is named where no segment is empty, since nothing is between the two slashes that would do so. -/
lemma splitAtFirst_of_full (full : [] ∉ Text.splitEvery '/' file) : Text.splitAtFirst [':', '/', '/'] file = none := by
  cases found : Text.splitAtFirst [':', '/', '/'] file with
  | none => rfl
  | some parts =>
    obtain ⟨before, after⟩ := parts
    have text : file = (before ++ [':']) ++ '/' :: '/' :: after := by
      simpa using (Text.splitAtFirst_append found).symm
    have empty : [] ∈ Text.splitEvery '/' file := by
      rw [text, Text.splitEvery_append_cons]
      exact List.mem_append_right _ (by simp [Text.splitEvery])
    exact absurd empty full

lemma Canonical.splitAtFirst (h : Canonical file) : Text.splitAtFirst [':', '/', '/'] file = none :=
  splitAtFirst_of_full fun empty => (h.segments [] empty).1 rfl

/-- A path inside the project, or one into another project whose name is behind a scheme. -/
inductive WellFormed : ModulePath → Prop where
  | inside {file : String} :
    Canonical file.toList →
    WellFormed ⟨none, file⟩
  | outside {scheme project file : String} :
    scheme.toList ≠ [] →
    (∀ c ∈ scheme.toList, c.isAlphanum = true) →
    project.toList ≠ [] →
    '/' ∉ project.toList →
    Canonical file.toList →
    WellFormed ⟨some ⟨scheme, project⟩, file⟩

/-- What a text names is well-formed. -/
lemma parse_wellFormed {raw : String} (h : parse raw = .ok p) : p.WellFormed := by
  simp only [parse, bind, Except.bind, pure, Except.pure] at h
  split at h
  · split at h
    · cases h
    · next found =>
      cases h
      exact .inside (by simpa using canonicalFile_canonical found)
  split at h
  · cases h
  next named =>
  split at h
  · cases h
  next project file cut =>
  split at h
  · cases h
  next full =>
  split at h
  · cases h
  next found =>
  cases h
  simp only [Bool.or_eq_true, decide_eq_true_eq, Bool.not_eq_true', not_or, Bool.not_eq_false, List.all_eq_true] at named
  refine .outside ?_ ?_ ?_ ?_ ?_
  · simpa using named.1
  · simpa using named.2
  · simpa using full
  · simpa using Text.not_mem_of_splitAtFirst cut
  · simpa using canonicalFile_canonical found

/-- The text of a well-formed path names the path. -/
lemma WellFormed.parse_render (h : p.WellFormed) : parse p.render = .ok p := by
  cases h with
  | @inside file canonical =>
    simp [parse, render, canonical.splitAtFirst, canonicalFile_self.2 canonical, bind, Except.bind, pure, Except.pure]
  | @outside scheme project file some alphanumeric full apart canonical =>
    have text : (render ⟨.some ⟨scheme, project⟩, file⟩).toList =
        scheme.toList ++ [':', '/', '/'] ++ (project.toList ++ ['/'] ++ file.toList) := by
      simp [render, ExternalProject.render, String.toList_append]
    have noColon : ':' ∉ scheme.toList := fun member => absurd (alphanumeric _ member) (by decide)
    simp only [parse, text, Text.splitAtFirst_of_not_mem noColon, Text.splitAtFirst_of_not_mem apart]
    simp [some, full, List.all_eq_true.2 alphanumeric, canonicalFile_self.2 canonical, bind, Except.bind, pure, Except.pure]

/-- Paths with the same text are the same path. -/
lemma WellFormed.render_inj (h : p.WellFormed) (h' : q.WellFormed) (same : p.render = q.render) : p = q :=
  Except.ok.inj (h.parse_render.symm.trans (same ▸ h'.parse_render))

end ModulePath

namespace Texts

variable {p : ModulePath} {path text : String} {files : List (String × String)}

/-- A text is kept under the text of a path exactly if it is inserted at a text that names the path. -/
lemma key_eq_render (h : p.WellFormed) : key path = p.render ↔ ModulePath.parse path = .ok p := by
  simp only [key]
  split
  · next q named =>
    constructor
    · intro same
      rw [named, (ModulePath.parse_wellFormed named).render_inj h same]
    · intro named'
      rw [Except.ok.inj (named.symm.trans named')]
  · next refused =>
    constructor
    · rintro rfl
      exact h.parse_render
    · intro named
      cases refused.symm.trans named

lemma get?_insert (t : Texts) (h : p.WellFormed) (named : ModulePath.parse path = .ok p) :
    (t.insert path text).get? p = some text := by
  simp [insert, get?, (key_eq_render h).2 named]

lemma get?_insert_of_ne (t : Texts) (h : p.WellFormed) (other : ModulePath.parse path ≠ .ok p) :
    (t.insert path text).get? p = t.get? p := by
  have apart : (p.render == key path) = false := by
    rw [beq_eq_false_iff_ne]
    exact fun same => other ((key_eq_render h).1 same.symm)
  simp [insert, get?, List.lookup_cons, apart]

/-- Texts that are inserted at texts that name other paths change nothing for a path. -/
lemma get?_foldl (t : Texts) (h : p.WellFormed) (others : ∀ f ∈ files, ModulePath.parse f.1 ≠ .ok p) :
    (files.foldl (fun t (path, text) => t.insert path text) t).get? p = t.get? p := by
  induction files generalizing t with
  | nil => rfl
  | cons f files ih =>
    obtain ⟨first, rest⟩ := List.forall_mem_cons.1 others
    exact (ih _ rest).trans (get?_insert_of_ne t h first)

/-- The last text that is inserted at a path is kept. -/
lemma get?_ofList_append (h : p.WellFormed) (front : List (String × String)) (named : ModulePath.parse path = .ok p)
    (others : ∀ f ∈ files, ModulePath.parse f.1 ≠ .ok p) :
    (ofList (front ++ (path, text) :: files)).get? p = some text := by
  simp only [ofList, List.foldl_append, List.foldl_cons]
  rw [get?_foldl _ h others, get?_insert _ h named]

/-- Where none is inserted, none is kept. -/
lemma get?_ofList_eq_none (h : p.WellFormed) (others : ∀ f ∈ files, ModulePath.parse f.1 ≠ .ok p) :
    (ofList files).get? p = none :=
  get?_foldl empty h others

end Texts

namespace ModulePath

/-- A path that a text names is named by its own text, and its file part is canonical. So two such paths with one text
are the same, none of them inside the project while the other is in another one, and of the texts that are inserted into
memory one after another the last at a text that names the path is read for it, or none is found if there is none. -/
theorem parse_canonical {raw : String} {p : ModulePath} (named : parse raw = .ok p) :
    parse p.render = .ok p ∧
    Canonical p.file.toList ∧
    (∀ raw' q, parse raw' = .ok q → q.render = p.render → q = p) ∧
    (∀ raw' q, parse raw' = .ok q → q.external.isSome ≠ p.external.isSome → q.render ≠ p.render) ∧
    (∀ front path text back, parse path = .ok p → (∀ f ∈ back, parse f.1 ≠ .ok p) →
      (Sources.ofTexts (.ofList (front ++ (path, text) :: back))).files p = .ok text) ∧
    ∀ files, (∀ f ∈ files, parse f.1 ≠ .ok p) → (Sources.ofTexts (.ofList files)).files p = .error .notFound := by
  have wellFormed := parse_wellFormed named
  refine ⟨wellFormed.parse_render, ?_, ?_, ?_, ?_, ?_⟩
  · cases wellFormed with
    | inside canonical => exact canonical
    | outside _ _ _ _ canonical => exact canonical
  · intro raw' q named' same
    exact (parse_wellFormed named').render_inj wellFormed same
  · intro raw' q named' apart same
    rw [(parse_wellFormed named').render_inj wellFormed same] at apart
    exact apart rfl
  · intro front path text back named' others
    simp only [Sources.ofTexts, Texts.get?_ofList_append wellFormed front named' others]
  · intro files others
    simp only [Sources.ofTexts, Texts.get?_ofList_eq_none wellFormed others]

/-- A file whose name begins with a dot, in another project that has a colon in its name. -/
theorem parse_canonical_outside :
    parse "local://bolts:/m8/.long" = .ok ⟨some ⟨"local", "bolts:"⟩, "m8/.long.kcl"⟩ ∧
    parse "local://bolts:/m8/.long.kcl" = .ok ⟨some ⟨"local", "bolts:"⟩, "m8/.long.kcl"⟩ ∧
    (Sources.ofTexts (.ofList [("local://bolts:/m8/.long", "a"), ("local://bolts:/m8/.long.kcl", "b"), ("//", "c")])).files
      ⟨some ⟨"local", "bolts:"⟩, "m8/.long.kcl"⟩ = .ok "b" := by
  have named : parse "local://bolts:/m8/.long" = .ok ⟨some ⟨"local", "bolts:"⟩, "m8/.long.kcl"⟩ := rfl
  have refused : parse "//" = .error .absolute := rfl
  obtain ⟨again, -, -, -, read, -⟩ := parse_canonical named
  refine ⟨named, again, read [_] _ _ _ again ?_⟩
  simp [refused]

end ModulePath

end PipeLang
