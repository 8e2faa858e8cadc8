import Mathlib.Tactic.Lemma
import Mathlib.Data.List.Nodup
import PipeLang.Arguments

/-!
# Binding of arguments

What is found wrong with a call, from the number of its positional arguments and the names of its keywords alone, is
what goes wrong when the arguments are bound to parameters with different names: `callFaults_nil_iff`,
`callFaults_cons`.
-/

namespace PipeLang

variable {α : Type} {params : List ParamSlot} {positional i : Nat} {before : List String} {filled : List (Option α)}
  {name name' : String} {site : Span}

namespace ParamSlot

/-- What is found under a name has the name. -/
lemma indexOf?_spec (found : indexOf? params name = some i) : ∃ p, params[i]? = some p ∧ p.name = name := by
  obtain ⟨inside, same, -⟩ := List.findIdx?_eq_some_iff_getElem.1 found
  exact ⟨params[i], List.getElem?_eq_getElem inside, by simpa using same⟩

/-- Names that are found in one place are the same. -/
lemma indexOf?_inj (found : indexOf? params name = some i) (found' : indexOf? params name' = some i) : name = name' := by
  obtain ⟨p, known, rfl⟩ := indexOf?_spec found
  obtain ⟨p', known', rfl⟩ := indexOf?_spec found'
  rw [known, Option.some.injEq] at known'
  rw [known']

/-- A parameter is found under its name if no other has it. -/
lemma indexOf?_self (distinct : (params.map ParamSlot.name).Nodup) {p : ParamSlot} (known : params[i]? = some p) :
    indexOf? params p.name = some i := by
  obtain ⟨inside, rfl⟩ := List.getElem?_eq_some_iff.1 known
  refine List.findIdx?_eq_some_iff_getElem.2 ⟨inside, by simp, fun j earlier => ?_⟩
  have apart := List.pairwise_iff_getElem.1 distinct j i (by simpa using Nat.lt_trans earlier inside) (by simpa) earlier
  simpa using apart

end ParamSlot

/-- Faults of a call that are of one kind and name the same parameter. -/
inductive CallFault.Alike : CallFault → CallFault → Prop where
  | arity {expected received received' : Nat} :
    Alike (.arity expected received) (.arity expected received')
  | unknownParameter {name : String} :
    Alike (.unknownParameter name) (.unknownParameter name)
  | duplicateArgument {name : String} :
    Alike (.duplicateArgument name) (.duplicateArgument name)

lemma CallFault.Alike.refl (fault : CallFault) : fault.Alike fault := by
  cases fault with
  | arity => exact .arity
  | unknownParameter => exact .unknownParameter
  | duplicateArgument => exact .duplicateArgument

/-- The places that are empty when the positional arguments and those of some keywords have been put into theirs. -/
structure Fills (params : List ParamSlot) (positional : Nat) (before : List String) (filled : List (Option α)) :
    Prop where
  size : filled.length = params.length
  empty : ∀ {i}, filled[i]? = some none ↔
    i < params.length ∧ positional ≤ i ∧ ∀ name ∈ before, ParamSlot.indexOf? params name ≠ some i

namespace Fills

lemma start {values : List α} (fits : values.length ≤ params.length) :
    Fills params values.length [] (values.map some ++ List.replicate (params.length - values.length) none) where
  size := by simp [fits]
  empty {i} := by
    rw [List.getElem?_append, List.length_map]
    split
    · next early => simp [early]
    · next late =>
      rw [List.getElem?_replicate]
      simp only [List.not_mem_nil, false_implies, implies_true, and_true]
      split
      · simp only [true_iff]
        omega
      · simp only [reduceCtorEq, false_iff]
        omega

/-- A place is taken if a positional argument or a keyword before has filled it. -/
lemma taken (h : Fills params positional before filled) (found : ParamSlot.indexOf? params name = some i) :
    filled[i]? = some none ↔ ¬ (i < positional ∨ name ∈ before) := by
  obtain ⟨p, known, -⟩ := ParamSlot.indexOf?_spec found
  have inside := (List.getElem?_eq_some_iff.1 known).1
  rw [h.empty, not_or, Nat.not_lt]
  refine ⟨fun ⟨_, late, unnamed⟩ => ⟨late, fun named => unnamed name named found⟩, fun ⟨late, fresh⟩ =>
    ⟨inside, late, fun other named found' => ?_⟩⟩
  exact fresh (ParamSlot.indexOf?_inj found found' ▸ named)

/-- A keyword fills the place of the parameter that it names. -/
lemma keyword (h : Fills params positional before filled) (found : ParamSlot.indexOf? params name = some i)
    (free : filled[i]? = some none) (v : α) :
    Fills params positional (before ++ [name]) (filled.set i (some v)) where
  size := by rw [List.length_set, h.size]
  empty {j} := by
    have inside := (List.getElem?_eq_some_iff.1 free).1
    rw [List.getElem?_set]
    by_cases same : i = j
    · subst same
      simp [inside, found]
    · have other : ParamSlot.indexOf? params name ≠ some j := fun found' => same (by simpa [found] using found')
      rw [if_neg same, h.empty]
      simp only [List.forall_mem_append, List.forall_mem_singleton, other, ne_eq, not_false_eq_true, and_true]

/-- Keywords are put into their places one after another until the first that is at fault. -/
lemma keywords (h : Fills params positional before filled) (given : List (String × α)) (idents : List Ident)
    (same : idents.map Ident.name = given.map Prod.fst) :
    match keywordFaults params positional before idents with
    | [] => ∃ filled', given.foldlM (fillKeyword params) filled = .ok filled' ∧
        Fills params positional (before ++ idents.map Ident.name) filled'
    | (cause, _) :: _ => given.foldlM (fillKeyword params) filled = .error cause := by
  induction given generalizing before filled idents with
  | nil =>
    obtain rfl : idents = [] := List.map_eq_nil_iff.1 same
    exact ⟨filled, rfl, by simpa using h⟩
  | cons keyword given ih =>
    obtain ⟨ident, idents, rfl⟩ : ∃ ident rest, idents = ident :: rest :=
      List.exists_cons_of_ne_nil fun none => by simp [none] at same
    obtain ⟨name, v⟩ := keyword
    rw [List.map_cons, List.map_cons, List.cons.injEq] at same
    obtain ⟨rfl, same⟩ := same
    simp only [keywordFaults, List.foldlM_cons]
    cases found : ParamSlot.indexOf? params ident.name with
    | none => simp [fillKeyword, found, bind, Except.bind]
    | some i =>
      have taken := h.taken found
      by_cases used : i < positional ∨ ident.name ∈ before
      · -- the place is not free, and that is all that is asked
        have refused : fillKeyword params filled (ident.name, v) = .error (.duplicateArgument ident.name) := by
          have full : filled[i]? ≠ some none := fun free => taken.1 free used
          simp only [fillKeyword, found]
        simp [used, refused, bind, Except.bind]
      · have free := taken.2 used
        have put : fillKeyword params filled (ident.name, v) = .ok (filled.set i (some v)) := by
          simp only [fillKeyword, found, free]
        have rest := ih (h.keyword found free v) idents same
        simpa [used, put, bind, Except.bind] using rest

/-- Whether a parameter is left without an argument and a default can be told from names. -/
lemma missing (h : Fills params positional before filled) (distinct : (params.map ParamSlot.name).Nodup) :
    (filled.zip params).any isMissing =
      (params.drop positional).any fun p => !p.optional && !before.any fun name => name == p.name := by
  rw [Bool.eq_iff_iff, List.any_eq_true, List.any_eq_true]
  constructor
  · rintro ⟨⟨place, p⟩, member, empty⟩
    obtain ⟨i, known⟩ := List.mem_iff_getElem?.1 member
    obtain ⟨atPlace, atParam⟩ := List.getElem?_zip_eq_some.1 known
    simp only [isMissing, Bool.and_eq_true, Option.isNone_iff_eq_none] at empty
    rw [empty.1] at atPlace
    obtain ⟨-, late, unnamed⟩ := h.empty.1 atPlace
    have inside : p ∈ params.drop positional := by
      refine List.mem_iff_getElem?.2 ⟨i - positional, ?_⟩
      rwa [List.getElem?_drop, Nat.add_sub_cancel' late]
    refine ⟨p, inside, ?_⟩
    have fresh : p.name ∉ before := fun named => unnamed _ named (ParamSlot.indexOf?_self distinct atParam)
    simpa [empty.2] using fun name named (same : name = p.name) => fresh (same ▸ named)
  · rintro ⟨p, member, empty⟩
    obtain ⟨k, known⟩ := List.mem_iff_getElem?.1 member
    rw [List.getElem?_drop] at known
    simp only [Bool.and_eq_true, Bool.not_eq_true', List.any_eq_false, beq_iff_eq] at empty
    have unnamed : ∀ name ∈ before, ParamSlot.indexOf? params name ≠ some (positional + k) := by
      intro name named found
      obtain ⟨p', known', rfl⟩ := ParamSlot.indexOf?_spec found
      rw [known, Option.some.injEq] at known'
      exact empty.2 _ named (known' ▸ rfl)
    have inside := (List.getElem?_eq_some_iff.1 known).1
    have atPlace := h.empty.2 ⟨inside, Nat.le_add_right _ _, unnamed⟩
    refine ⟨(none, p), List.mem_iff_getElem?.2 ⟨positional + k, List.getElem?_zip_eq_some.2 ⟨atPlace, known⟩⟩, ?_⟩
    simp [isMissing, empty.1]

end Fills

section

variable (distinct : (params.map ParamSlot.name).Nodup) (values : List α) (given : List (String × α))
  (idents : List Ident) (same : idents.map Ident.name = given.map Prod.fst)
include distinct same

variable (site) in
/-- What is found wrong with a call first is what goes wrong when its arguments are bound, and if nothing is found wrong
then they are bound. -/
lemma callFaults_binding :
    match callFaults params values.length idents site with
    | [] => ∃ filled, bindArguments params values given = .ok filled
    | (cause, _) :: _ => ∃ fault, bindArguments params values given = .error fault ∧ cause.Alike fault := by
  have count : idents.length = given.length := by simpa using congrArg List.length same
  unfold callFaults bindArguments
  by_cases many : values.length > params.length
  · rw [if_pos many, if_pos many]
    exact ⟨_, rfl, .arity⟩
  rw [if_neg many, if_neg many]
  have put := (Fills.start (Nat.le_of_not_lt many)).keywords given idents same
  cases wrong : keywordFaults params values.length [] idents with
  | cons fault rest =>
    obtain ⟨cause, place⟩ := fault
    rw [wrong] at put
    exact ⟨cause, by simp only [put]; rfl, .refl _⟩
  | nil =>
    rw [wrong] at put
    obtain ⟨filled, done, fills⟩ := put
    have missing := fills.missing distinct
    simp only [List.nil_append, List.any_map, Function.comp_def] at missing
    simp only [done, missing, count, pure, Except.pure, bind, Except.bind]
    cases (params.drop values.length).any fun p => !p.optional && !idents.any fun k => k.name == p.name with
    | true => exact ⟨_, rfl, .refl _⟩
    | false => exact ⟨filled, rfl⟩

/-- Nothing is found wrong with a call exactly if its arguments can be bound. -/
lemma callFaults_nil_iff :
    callFaults params values.length idents site = [] ↔ ∃ filled, bindArguments params values given = .ok filled := by
  have binding := callFaults_binding site distinct values given idents same
  cases faults : callFaults params values.length idents site with
  | nil => simpa [faults] using binding
  | cons fault rest =>
    rw [faults] at binding
    obtain ⟨cause, wrong, -⟩ := binding
    simp [wrong]

/-- What is found wrong with a call first goes wrong when its arguments are bound. -/
lemma callFaults_cons {cause : CallFault} {place : Span} {rest : List (CallFault × Span)}
    (faults : callFaults params values.length idents site = (cause, place) :: rest) :
    ∃ fault, bindArguments params values given = .error fault ∧ cause.Alike fault := by
  have binding := callFaults_binding site distinct values given idents same
  rwa [faults] at binding

end

end PipeLang
