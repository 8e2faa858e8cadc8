import Mathlib.Data.List.Perm.Basic
import PipeLang.Proofs.Eval.Binding

/-!
# What parameters are given

Arguments are bound to parameters exactly if they fit, and then every parameter has what it is given: a positional argument, the
one keyword argument that is found at its place, or its default. Every argument ends up with one parameter, and the order of keyword
arguments does not matter: `bindArguments_exact`.
-/

namespace PipeLang

namespace ParamSlot

variable {α : Type}

/-- The keyword arguments that are found at a place among the parameters: the place is that of the first parameter with the name. -/
def keywordsAt (params : List ParamSlot) (keyword : List (String × α)) (i : Nat) : List (String × α) :=
  keyword.filter fun k => indexOf? params k.1 == some i

/-- Arguments fit parameters. -/
structure Fits (params : List ParamSlot) (positional : List α) (keyword : List (String × α)) : Prop where
  /-- There is a parameter for every positional argument. -/
  room : positional.length ≤ params.length
  /-- Every keyword names some parameter. -/
  known : ∀ k ∈ keyword, (indexOf? params k.1).isSome = true
  /-- No two keywords are found at one place. -/
  apart : (keyword.map fun k => indexOf? params k.1).Nodup
  /-- No keyword is found at the place of a positional argument. -/
  behind : ∀ k ∈ keyword, ∀ i, indexOf? params k.1 = some i → positional.length ≤ i
  /-- A parameter that is left without an argument has a default. -/
  complete : ∀ i q, params[i]? = some q → positional.length ≤ i → keywordsAt params keyword i = [] → q.optional = true

/-- What the parameter at a place is given, `none` if its default is to be used. -/
inductive Given (params : List ParamSlot) (positional : List α) (keyword : List (String × α)) (i : Nat) : Option α → Prop where
  | positional {v} :
    positional[i]? = some v →
    keywordsAt params keyword i = [] →
    Given params positional keyword i (some v)
  | keyword {name v} :
    positional.length ≤ i →
    keywordsAt params keyword i = [(name, v)] →
    Given params positional keyword i (some v)
  | fallback {q} :
    positional.length ≤ i →
    keywordsAt params keyword i = [] →
    params[i]? = some q →
    q.optional = true →
    Given params positional keyword i none

variable {params : List ParamSlot} {positional : List α} {keyword keyword' : List (String × α)} {i : Nat}

lemma mem_keywordsAt {k : String × α} : k ∈ keywordsAt params keyword i ↔ k ∈ keyword ∧ indexOf? params k.1 = some i := by
  rw [keywordsAt, List.mem_filter, beq_iff_eq]

lemma keywordsAt_nil_iff : keywordsAt params keyword i = [] ↔ ∀ k ∈ keyword, indexOf? params k.1 ≠ some i := by
  rw [List.eq_nil_iff_forall_not_mem]
  exact forall_congr' fun k => by rw [mem_keywordsAt, not_and]

/-- Keywords that are found at different places are found alone. -/
lemma keywordsAt_singleton (apart : (keyword.map fun k => indexOf? params k.1).Nodup) {k : String × α} (member : k ∈ keyword)
    (found : indexOf? params k.1 = some i) : keywordsAt params keyword i = [k] := by
  induction keyword with
  | nil => cases member
  | cons first rest ih =>
    rw [List.map_cons, List.nodup_cons] at apart
    rcases List.mem_cons.1 member with rfl | later
    · have others : keywordsAt params rest i = [] := keywordsAt_nil_iff.2 fun k' member' found' =>
        apart.1 (List.mem_map.2 ⟨k', member', found'.trans found.symm⟩)
      rw [keywordsAt, List.filter_cons_of_pos (by simp [found])]
      exact congrArg _ others
    · have other : indexOf? params first.1 ≠ some i := fun found' =>
        apart.1 (List.mem_map.2 ⟨k, later, found.trans found'.symm⟩)
      rw [keywordsAt, List.filter_cons_of_neg (by simpa using other)]
      exact ih apart.2 later

lemma keywordsAt_perm (perm : keyword.Perm keyword') : (keywordsAt params keyword i).Perm (keywordsAt params keyword' i) :=
  perm.filter _

namespace Fits

lemma perm (h : Fits params positional keyword) (perm : keyword.Perm keyword') : Fits params positional keyword' where
  room := h.room
  known k member := h.known k (perm.mem_iff.2 member)
  apart := (perm.map _).nodup_iff.1 h.apart
  behind k member := h.behind k (perm.mem_iff.2 member)
  complete i q known late none := h.complete i q known late (List.perm_nil.1 (none ▸ keywordsAt_perm perm))

end Fits

namespace Given

variable {slot slot' : Option α}

lemma perm (h : Given params positional keyword i slot) (perm : keyword.Perm keyword') :
    Given params positional keyword' i slot := by
  have same : (keywordsAt params keyword i).Perm (keywordsAt params keyword' i) := keywordsAt_perm perm
  cases h with
  | positional value unnamed => exact .positional value (List.nil_perm.1 (unnamed ▸ same))
  | keyword late named => exact .keyword late (List.perm_singleton.1 (named ▸ same).symm)
  | fallback late unnamed known optional => exact .fallback late (List.nil_perm.1 (unnamed ▸ same)) known optional

/-- A parameter is given one thing. -/
lemma unique (h : Given params positional keyword i slot) (h' : Given params positional keyword i slot') : slot = slot' := by
  have early {v : α} (value : positional[i]? = some v) (late : positional.length ≤ i) : False :=
    Nat.not_lt_of_le late (List.getElem?_eq_some_iff.1 value).1
  cases h with
  | positional value unnamed =>
    cases h' with
    | positional value' => exact value.symm.trans value'
    | keyword late => exact (early value late).elim
    | fallback late => exact (early value late).elim
  | keyword late named =>
    cases h' with
    | positional value => exact (early value late).elim
    | keyword _ named' =>
      cases named.symm.trans named'
      rfl
    | fallback _ unnamed => cases named.symm.trans unnamed
  | fallback late unnamed =>
    cases h' with
    | positional value => exact (early value late).elim
    | keyword _ named => cases unnamed.symm.trans named
    | fallback => rfl

end Given

end ParamSlot

open ParamSlot

variable {α : Type} {params : List ParamSlot} {positional : List α} {given keyword keyword' : List (String × α)}
  {filled filled' : List (Option α)} {i : Nat}

/-- A keyword argument is put into the place that its name is found at, if that is empty. -/
lemma fillKeyword_ok_iff {k : String × α} : fillKeyword params filled k = .ok filled' ↔
    ∃ i, indexOf? params k.1 = some i ∧ filled[i]? = some none ∧ filled.set i (some k.2) = filled' := by
  simp only [fillKeyword]
  cases indexOf? params k.1 with
  | none => simp
  | some i =>
    rcases slot : filled[i]? with _ | _ | v <;> simp [slot]

/-- What a place has when keyword arguments have been put into theirs. -/
lemma fillKeywords_at (done : given.foldlM (fillKeyword params) filled = .ok filled') :
    filled'.length = filled.length ∧ (given.map fun k => indexOf? params k.1).Nodup ∧
      (∀ k ∈ given, ∃ i, indexOf? params k.1 = some i ∧ filled[i]? = some none) ∧
      ∀ i, filled'[i]? = match keywordsAt params given i with
        | [] => filled[i]?
        | k :: _ => some (some k.2) := by
  induction given generalizing filled with
  | nil =>
    cases done
    exact ⟨rfl, List.nodup_nil, nofun, fun _ => rfl⟩
  | cons k rest ih =>
    obtain ⟨filled₁, first, done⟩ : ∃ filled₁, fillKeyword params filled k = .ok filled₁ ∧
        rest.foldlM (fillKeyword params) filled₁ = .ok filled' := by
      rw [List.foldlM_cons] at done
      cases first : fillKeyword params filled k with
      | ok filled₁ => exact ⟨filled₁, rfl, by rwa [first] at done⟩
      | error fault =>
        rw [first] at done
        cases done
    obtain ⟨i, found, free, rfl⟩ := fillKeyword_ok_iff.1 first
    obtain ⟨size, apart, empty, at_⟩ := ih done
    have inside := (List.getElem?_eq_some_iff.1 free).1
    -- what is filled next was empty before, and is not the place of this one
    have elsewhere : ∀ k' ∈ rest, ∃ j, indexOf? params k'.1 = some j ∧ j ≠ i ∧ filled[j]? = some none := by
      intro k' member
      obtain ⟨j, found', free'⟩ := empty k' member
      by_cases same : i = j
      · subst same
        simp [inside] at free'
      · exact ⟨j, found', Ne.symm same, by rwa [List.getElem?_set_ne same] at free'⟩
    have unnamed : keywordsAt params rest i = [] := keywordsAt_nil_iff.2 fun k' member found' => by
      obtain ⟨j, found'', other, -⟩ := elsewhere k' member
      exact other (Option.some.inj (found''.symm.trans found'))
    refine ⟨size.trans List.length_set, List.nodup_cons.2 ⟨fun member => ?_, apart⟩, List.forall_mem_cons.2 ⟨⟨i, found, free⟩,
      fun k' member => ?_⟩, fun j => ?_⟩
    · obtain ⟨k', member', same⟩ := List.mem_map.1 member
      exact keywordsAt_nil_iff.1 unnamed k' member' (same.trans found)
    · obtain ⟨j, found', -, free'⟩ := elsewhere k' member
      exact ⟨j, found', free'⟩
    · rw [at_ j, keywordsAt, keywordsAt, List.filter_cons]
      by_cases same : i = j
      · subst same
        rw [keywordsAt] at unnamed
        simp [unnamed, found, inside]
      · rw [if_neg (by simpa [found] using same), List.getElem?_set_ne same]

/-- Keyword arguments go into places that are empty and different. -/
lemma fillKeywords_ok (apart : (given.map fun k => indexOf? params k.1).Nodup)
    (empty : ∀ k ∈ given, ∃ i, indexOf? params k.1 = some i ∧ filled[i]? = some none) :
    ∃ filled', given.foldlM (fillKeyword params) filled = .ok filled' := by
  induction given generalizing filled with
  | nil => exact ⟨filled, rfl⟩
  | cons k rest ih =>
    rw [List.map_cons, List.nodup_cons] at apart
    obtain ⟨⟨i, found, free⟩, others⟩ := List.forall_mem_cons.1 empty
    have first : fillKeyword params filled k = .ok (filled.set i (some k.2)) := fillKeyword_ok_iff.2 ⟨i, found, free, rfl⟩
    have empty' : ∀ k' ∈ rest, ∃ j, indexOf? params k'.1 = some j ∧ (filled.set i (some k.2))[j]? = some none := by
      intro k' member
      obtain ⟨j, found', free'⟩ := others k' member
      have other : i ≠ j := fun same => apart.1 (List.mem_map.2 ⟨k', member, found'.trans (same ▸ found.symm)⟩)
      exact ⟨j, found', by rwa [List.getElem?_set_ne other]⟩
    obtain ⟨filled', done⟩ := ih apart.2 empty'
    exact ⟨filled', by rw [List.foldlM_cons, first]; exact done⟩

/-- A place that is filled has one more argument. -/
lemma filterMap_set_perm {v : α} (free : filled[i]? = some none) :
    ((filled.set i (some v)).filterMap id).Perm (v :: filled.filterMap id) := by
  induction filled generalizing i with
  | nil => cases free
  | cons slot rest ih =>
    cases i with
    | zero =>
      obtain rfl : slot = none := by simpa using free
      exact .refl _
    | succ i =>
      have later := ih (i := i) (by simpa using free)
      cases slot with
      | none => exact later
      | some w => exact (later.cons w).trans (.swap v w _)

/-- Every keyword argument is put somewhere, once. -/
lemma fillKeywords_perm (done : given.foldlM (fillKeyword params) filled = .ok filled') :
    (filled'.filterMap id).Perm (filled.filterMap id ++ given.map Prod.snd) := by
  induction given generalizing filled with
  | nil =>
    cases done
    simp
  | cons k rest ih =>
    rw [List.foldlM_cons] at done
    cases first : fillKeyword params filled k with
    | error fault =>
      rw [first] at done
      cases done
    | ok filled₁ =>
      rw [first] at done
      obtain ⟨i, -, free, rfl⟩ := fillKeyword_ok_iff.1 first
      exact (ih done).trans (((filterMap_set_perm free).append_right _).trans List.perm_middle.symm)

/-- Arguments are bound in three steps: the positional ones, the keyword ones, and a look at what is left. -/
lemma bindArguments_ok_iff : bindArguments params positional keyword = .ok filled ↔ positional.length ≤ params.length ∧
    keyword.foldlM (fillKeyword params) (positional.map some ++ List.replicate (params.length - positional.length) none) =
      .ok filled ∧ (filled.zip params).any isMissing = false := by
  unfold bindArguments
  by_cases many : positional.length > params.length
  · rw [if_pos many]
    exact ⟨nofun, fun fits => absurd fits.1 (Nat.not_le_of_lt many)⟩
  rw [if_neg many]
  simp only [Nat.le_of_not_lt many, true_and]
  cases keyword.foldlM (fillKeyword params) (positional.map some ++ List.replicate (params.length - positional.length) none) with
  | error fault => exact ⟨nofun, nofun⟩
  | ok filled' =>
    cases missing : (filled'.zip params).any isMissing with
    | true =>
      simp only [bind, Except.bind, pure, Except.pure, missing, if_true]
      refine ⟨nofun, fun ⟨same, complete⟩ => ?_⟩
      cases same
      cases missing.symm.trans complete
    | false =>
      simp only [bind, Except.bind, pure, Except.pure, missing, if_false, Bool.false_eq_true]
      exact ⟨fun same => ⟨same, by cases same; exact missing⟩, And.left⟩

/-- Nothing is missing if what is left empty has a default. -/
lemma missing_eq_false_iff : (filled.zip params).any isMissing = false ↔
    ∀ (i : Nat) (q : ParamSlot), filled[i]? = some none → params[i]? = some q → q.optional = true := by
  rw [List.any_eq_false]
  constructor
  · intro lacks i q empty known
    have member : (none, q) ∈ filled.zip params := List.mem_iff_getElem?.2 ⟨i, List.getElem?_zip_eq_some.2 ⟨empty, known⟩⟩
    simpa [isMissing] using lacks _ member
  · rintro optional ⟨slot, q⟩ member
    obtain ⟨i, known⟩ := List.mem_iff_getElem?.1 member
    obtain ⟨atSlot, atParam⟩ := List.getElem?_zip_eq_some.1 known
    cases slot with
    | none => simp [isMissing, optional i q atSlot atParam]
    | some v => simp [isMissing]

/-- The place of a parameter before any keyword argument is put anywhere. -/
lemma start_at (room : positional.length ≤ params.length) (inside : i < params.length) :
    (positional.map some ++ List.replicate (params.length - positional.length) none)[i]? = some positional[i]? := by
  rw [List.getElem?_append, List.length_map]
  split
  · next early => rw [List.getElem?_map, List.getElem?_eq_getElem early, Option.map_some]
  · next late =>
    rw [List.getElem?_replicate, if_pos (by omega), List.getElem?_eq_none (Nat.le_of_not_lt late)]

/-- Arguments that are bound fit, and every parameter has what it is given. -/
lemma bindArguments_given (bound : bindArguments params positional keyword = .ok filled) :
    ParamSlot.Fits params positional keyword ∧ filled.length = params.length ∧
      ∀ i slot, filled[i]? = some slot → ParamSlot.Given params positional keyword i slot := by
  obtain ⟨room, done, missing⟩ := bindArguments_ok_iff.1 bound
  obtain ⟨size, apart, empty, at_⟩ := fillKeywords_at done
  have size : filled.length = params.length := by simpa [room] using size
  have behind : ∀ k ∈ keyword, ∀ i, indexOf? params k.1 = some i → i < params.length ∧ positional.length ≤ i := by
    intro k member i found
    obtain ⟨j, found', free⟩ := empty k member
    obtain rfl := Option.some.inj (found'.symm.trans found)
    obtain ⟨p, known, -⟩ := indexOf?_spec found
    have inside := (List.getElem?_eq_some_iff.1 known).1
    rw [start_at room inside, Option.some.injEq] at free
    exact ⟨inside, List.getElem?_eq_none_iff.1 free⟩
  have bare {i : Nat} (inside : i < params.length) (unnamed : keywordsAt params keyword i = []) :
      filled[i]? = some positional[i]? := by
    rw [at_ i, unnamed]
    exact start_at room inside
  have complete : ∀ i q, params[i]? = some q → positional.length ≤ i → keywordsAt params keyword i = [] → q.optional = true := by
    intro i q known late unnamed
    have inside := (List.getElem?_eq_some_iff.1 known).1
    exact missing_eq_false_iff.1 missing i q ((bare inside unnamed).trans (by rw [List.getElem?_eq_none late])) known
  have known : ∀ k ∈ keyword, (indexOf? params k.1).isSome = true := fun k member => by
    obtain ⟨i, found, -⟩ := empty k member
    exact found ▸ rfl
  refine ⟨⟨room, known, apart, fun k member i found => (behind k member i found).2, complete⟩, size, fun i slot here => ?_⟩
  have inside : i < params.length := size ▸ (List.getElem?_eq_some_iff.1 here).1
  cases named : keywordsAt params keyword i with
  | cons k others =>
    obtain ⟨member, found⟩ := mem_keywordsAt.1 (named ▸ List.mem_cons_self : k ∈ keywordsAt params keyword i)
    have slot_eq : slot = some k.2 := by
      rw [at_ i, named] at here
      exact (Option.some.inj here).symm
    rw [slot_eq]
    exact .keyword (behind k member i found).2 (keywordsAt_singleton apart member found)
  | nil =>
    have slot_eq := Option.some.inj (here.symm.trans (bare inside named))
    cases value : positional[i]? with
    | some v =>
      rw [slot_eq, value]
      exact .positional value named
    | none =>
      have late := List.getElem?_eq_none_iff.1 value
      have param := List.getElem?_eq_getElem inside
      rw [slot_eq, value]
      exact .fallback late named param (complete i _ param late named)

/-- Arguments that fit are bound. -/
lemma bindArguments_of_fits (fits : ParamSlot.Fits params positional keyword) :
    ∃ filled, bindArguments params positional keyword = .ok filled := by
  have empty : ∀ k ∈ keyword, ∃ i, indexOf? params k.1 = some i ∧
      (positional.map some ++ List.replicate (params.length - positional.length) none)[i]? = some none := by
    intro k member
    obtain ⟨i, found⟩ := Option.isSome_iff_exists.1 (fits.known k member)
    obtain ⟨p, known, -⟩ := indexOf?_spec found
    refine ⟨i, found, ?_⟩
    rw [start_at fits.room (List.getElem?_eq_some_iff.1 known).1, List.getElem?_eq_none (fits.behind k member i found)]
  obtain ⟨filled, done⟩ := fillKeywords_ok fits.apart empty
  obtain ⟨-, -, -, at_⟩ := fillKeywords_at done
  refine ⟨filled, bindArguments_ok_iff.2 ⟨fits.room, done, missing_eq_false_iff.2 fun i q empty known => ?_⟩⟩
  cases named : keywordsAt params keyword i with
  | cons k others => simp [at_ i, named] at empty
  | nil =>
    rw [at_ i, named] at empty
    have value := Option.some.inj ((start_at fits.room (List.getElem?_eq_some_iff.1 known).1).symm.trans empty)
    exact fits.complete i q known (List.getElem?_eq_none_iff.1 value) named

/-- Every argument ends up with one parameter. -/
lemma bindArguments_perm (bound : bindArguments params positional keyword = .ok filled) :
    (filled.filterMap id).Perm (positional ++ keyword.map Prod.snd) := by
  obtain ⟨-, done, -⟩ := bindArguments_ok_iff.1 bound
  have start : (positional.map some ++ List.replicate (params.length - positional.length) none).filterMap id = positional := by
    simp [List.filterMap_append, List.filterMap_map]
  simpa only [start] using fillKeywords_perm done

/-- Keyword arguments in another order are bound to the same parameters. -/
lemma bindArguments_reorder (perm : keyword.Perm keyword') (bound : bindArguments params positional keyword = .ok filled) :
    bindArguments params positional keyword' = .ok filled := by
  obtain ⟨fits, size, given⟩ := bindArguments_given bound
  obtain ⟨filled', bound'⟩ := bindArguments_of_fits (fits.perm perm)
  obtain ⟨-, size', given'⟩ := bindArguments_given bound'
  have same : filled' = filled := by
    refine List.ext_getElem (size'.trans size.symm) fun i inside' inside => ?_
    have here' := given' i _ (List.getElem?_eq_getElem inside')
    exact here'.unique ((given i _ (List.getElem?_eq_getElem inside)).perm perm)
  rw [bound', same]

/-- Binding is exact. Arguments are bound exactly if they fit. Then every parameter has what it is given: the positional argument at
its place, the one keyword argument that is found there, or its default. The values in the places are those that are supplied, each
as often as it is, and keyword arguments in another order are bound, or refused, alike. -/
theorem bindArguments_exact (params : List ParamSlot) (positional : List α) (keyword : List (String × α)) :
    ((∃ filled, bindArguments params positional keyword = .ok filled) ↔ ParamSlot.Fits params positional keyword) ∧
    (∀ filled, bindArguments params positional keyword = .ok filled →
      filled.length = params.length ∧
      (∀ i slot, filled[i]? = some slot → ParamSlot.Given params positional keyword i slot) ∧
      (filled.filterMap id).Perm (positional ++ keyword.map Prod.snd)) ∧
    ∀ keyword', keyword.Perm keyword' → ∀ filled,
      bindArguments params positional keyword = .ok filled ↔ bindArguments params positional keyword' = .ok filled := by
  refine ⟨⟨fun ⟨filled, bound⟩ => (bindArguments_given bound).1, bindArguments_of_fits⟩, fun filled bound => ?_, ?_⟩
  · obtain ⟨-, size, given⟩ := bindArguments_given bound
    exact ⟨size, given, bindArguments_perm bound⟩
  · intro keyword' perm filled
    exact ⟨bindArguments_reorder perm, bindArguments_reorder perm.symm⟩

/-- A keyword argument before another one, and a default between them. -/
example : bindArguments [⟨"a", false⟩, ⟨"b", true⟩, ⟨"c", false⟩] ([] : List Nat) [("c", 3), ("a", 1)] =
    .ok [some 1, none, some 3] := rfl

end PipeLang
