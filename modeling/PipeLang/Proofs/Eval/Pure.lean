import PipeLang.Proofs.Eval.Alike
import PipeLang.Proofs.Eval.Functions

/-!
# Pure host functions

A host function is pure if what it answers depends on its arguments alone, and on functions and objects among them no
further than that they are told from each other. The functions of the prelude are pure: `Hosts.prelude_pure`.
-/

namespace PipeLang

/-- A host function that does the same with arguments that are alike. -/
structure HostFunction.Pure (f : HostFunction) : Prop where
  apply : ∀ {M : Matching} {code : Code} {serial serial' : Nat} {args args' : List Value}, M.OneOne →
    M.identities serial serial' → List.Forall₂ (Value.Alike M code) args args' →
      Outcome.Both (Value.Alike M code) (f.apply serial args) (f.apply serial' args')
  /-- A default holds no functions of the program and no objects. -/
  fallback : ∀ q ∈ f.signature.params, ∀ d, q.fallback = some d → ∀ (M : Matching) (code : Code), d.Alike M code d

variable {M : Matching} {code : Code}

lemma Outcome.Both.mapError {ε ε' α β : Type} {Q : α → β → Prop} {o : Except ε α} {o' : Except ε β} (h : Both Q o o')
    (f : ε → ε') : Both Q (o.mapError f) (o'.mapError f) := by
  cases h with
  | ok h => exact .ok h
  | error => exact .error

namespace Eval

lemma checkArgument_both {callee name : String} {ty : Option Ty} {v w : Value} (h : v.Alike M code w) :
    checkArgument callee name ty w = checkArgument callee name ty v := by
  cases ty with
  | none => rfl
  | some ty => simp only [checkArgument, Value.Alike.conforms v h, h.typeName]

lemma bindSlots_both {callee : String} {params : List ParamSlot} {positional positional' : List Value}
    {keyword keyword' : List (String × Value)} (h : List.Forall₂ (Value.Alike M code) positional positional')
    (same : List.Forall₂ (sameKey (Value.Alike M code)) keyword keyword') :
    Outcome.Both (List.Forall₂ (Option.Rel (Value.Alike M code))) (bindSlots callee params positional keyword)
      (bindSlots callee params positional' keyword') := by
  have bound : Outcome.Both (List.Forall₂ (Option.Rel (Value.Alike M code))) (bindArguments params positional keyword)
    (bindArguments params positional' keyword') := bindArguments_both h same
  exact bound.mapError _

lemma hostArgument_both {callee : String} {q : HostParam} {given given' : Option Value}
    (pure : ∀ d, q.fallback = some d → d.Alike M code d) (h : Option.Rel (Value.Alike M code) given given') :
    Outcome.Both (Value.Alike M code) (hostArgument callee (q, given)) (hostArgument callee (q, given')) := by
  have value : ((given <|> q.fallback).getD .unit).Alike M code ((given' <|> q.fallback).getD .unit) := by
    cases h with
    | some h => exact h
    | none =>
      cases fallback : q.fallback with
      | none => exact .unit
      | some d => exact pure d fallback
  simp only [hostArgument]
  rw [checkArgument_both value]
  exact (Outcome.Both.of_eq (Q := Eq) rfl fun _ _ => rfl).bind fun _ _ _ => .ok value

/-- The arguments of a host function are the same up to what is alike. -/
lemma hostArguments_both {callee : String} {params : List HostParam} {given given' : List (Option Value)}
    (pure : ∀ q ∈ params, ∀ d, q.fallback = some d → d.Alike M code d)
    (h : List.Forall₂ (Option.Rel (Value.Alike M code)) given given') :
    Outcome.Both (List.Forall₂ (Value.Alike M code)) ((params.zip given).mapM (hostArgument callee))
      ((params.zip given').mapM (hostArgument callee)) := by
  induction h generalizing params with
  | nil =>
    cases params <;> exact .ok .nil
  | cons first _ ih =>
    cases params with
    | nil => exact .ok .nil
    | cons q params =>
      obtain ⟨own, others⟩ := List.forall_mem_cons.1 pure
      rw [List.zip_cons_cons, List.zip_cons_cons, List.mapM_cons, List.mapM_cons]
      exact (hostArgument_both own first).bind fun _ _ h => (ih others).bind fun _ _ hs => .ok (.cons h hs)

end Eval

namespace Hosts

/-- The host functions of an application are pure. -/
def Pure (h : Hosts) : Prop :=
  ∀ name f, h.get? name = some f → f.Pure

lemma empty_pure : empty.Pure := by
  intro name f found
  cases found

/-- An application stays pure when it registers a pure function. -/
lemma Pure.register {h : Hosts} (pure : h.Pure) {name : String} {params : List HostParam} {returns : Ty}
    {apply : Nat → List Value → Except String Value} (new : HostFunction.Pure ⟨⟨params, returns⟩, apply⟩) :
    (h.register name params returns apply).Pure := by
  intro other f found
  rw [get?_register] at found
  split at found
  · cases found
    exact new
  · exact pure other f found

variable {args args' : List Value}

lemma ofUnary_both (f : Float → Float) (serial serial' : Nat) (h : List.Forall₂ (Value.Alike M code) args args') :
    Outcome.Both (Value.Alike M code) (ofUnary f serial args) (ofUnary f serial' args') := by
  match h with
  | .nil => exact .error
  | .cons first .nil =>
    cases first with
    | number => exact .ok .number
    | _ => exact .error
  | .cons first (.cons _ _) => cases first <;> exact .error

lemma ofBinary_both (f : Float → Float → Float) (serial serial' : Nat)
    (h : List.Forall₂ (Value.Alike M code) args args') :
    Outcome.Both (Value.Alike M code) (ofBinary f serial args) (ofBinary f serial' args') := by
  match h with
  | .nil => exact .error
  | .cons first .nil => cases first <;> exact .error
  | .cons first (.cons second .nil) =>
    cases first with
    | number =>
      cases second with
      | number => exact .ok .number
      | _ => exact .error
    | _ => exact .error
  | .cons first (.cons second (.cons _ _)) => cases first <;> cases second <;> exact .error

lemma squareRoot_both (serial serial' : Nat) (h : List.Forall₂ (Value.Alike M code) args args') :
    Outcome.Both (Value.Alike M code) (squareRoot serial args) (squareRoot serial' args') := by
  match h with
  | .nil => exact .error
  | .cons first rest =>
    cases first with
    | number =>
      simp only [squareRoot]
      split
      · exact .error
      · exact ofUnary_both _ _ _ (.cons .number rest)
    | _ => exact .error

lemma arrayLength_both (serial serial' : Nat) (h : List.Forall₂ (Value.Alike M code) args args') :
    Outcome.Both (Value.Alike M code) (arrayLength serial args) (arrayLength serial' args') := by
  match h with
  | .nil => exact .error
  | .cons first _ =>
    cases first with
    | array h =>
      simp only [arrayLength, h.length_eq]
      exact .ok .number
    | _ => exact .error

lemma arrayPush_both (serial serial' : Nat) (h : List.Forall₂ (Value.Alike M code) args args') :
    Outcome.Both (Value.Alike M code) (arrayPush serial args) (arrayPush serial' args') := by
  match h with
  | .nil => exact .error
  | .cons first .nil => cases first <;> exact .error
  | .cons first (.cons second .nil) =>
    cases first with
    | array h => exact .ok (.array (List.rel_append h (.cons second .nil)))
    | _ => exact .error
  | .cons first (.cons second (.cons _ _)) => cases first <;> exact .error

/-- A function that makes nothing of identities, and whose defaults are numbers. -/
lemma pure_of_both {params : List HostParam} {returns : Ty} {apply : Nat → List Value → Except String Value}
    (both : ∀ (M : Matching) (code : Code) (serial serial' : Nat) (args args' : List Value),
      List.Forall₂ (Value.Alike M code) args args' →
        Outcome.Both (Value.Alike M code) (apply serial args) (apply serial' args'))
    (numbers : ∀ q ∈ params, ∀ d ∈ q.fallback, ∃ x, d = .number x) : HostFunction.Pure ⟨⟨params, returns⟩, apply⟩ where
  apply _ _ h := both _ _ _ _ _ _ h
  fallback q member d fallback M code := by
    obtain ⟨x, rfl⟩ := numbers q member d fallback
    exact .number

/-- The prelude is pure. -/
theorem prelude_pure : prelude.Pure := by
  refine ((((((empty_pure.register ?_).register ?_).register ?_).register ?_).register ?_).register ?_).register ?_
  case refine_1 | refine_2 => exact pure_of_both (fun _ _ _ _ _ _ h => ofBinary_both _ _ _ h) (by simp [param])
  case refine_3 => exact pure_of_both (fun _ _ _ _ _ _ h => ofUnary_both _ _ _ h) (by simp [param])
  case refine_4 => exact pure_of_both (fun _ _ _ _ _ _ h => squareRoot_both _ _ h) (by simp [param])
  case refine_5 => exact pure_of_both (fun _ _ _ _ _ _ h => ofBinary_both _ _ _ h) (by simp [param])
  case refine_6 => exact pure_of_both (fun _ _ _ _ _ _ h => arrayLength_both _ _ h) (by simp [param])
  case refine_7 => exact pure_of_both (fun _ _ _ _ _ _ h => arrayPush_both _ _ h) (by simp [param])

end Hosts

end PipeLang
