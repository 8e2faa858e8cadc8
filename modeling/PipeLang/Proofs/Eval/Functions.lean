import Mathlib.Tactic.Lemma
import PipeLang.Eval.Operator
import PipeLang.Host.Prelude

/-!
# The functions in values

A value holds functions, also inside arrays and objects. Operators make no functions, and host functions are taken to
hand on those that they were given and those that are registered: `Hosts.Honest`. The functions of the prelude keep to
it: `Hosts.prelude_honest`.
-/

namespace PipeLang

namespace Value

mutual

/-- The functions in a value. -/
def functions : Value → List Value
  | closure c => [closure c]
  | host name => [host name]
  | array items => allFunctions items
  | object _ _ content => content.functions
  | _ => []

/-- The functions in some values. -/
def allFunctions : List Value → List Value
  | [] => []
  | v :: vs => v.functions ++ allFunctions vs

end

lemma mem_allFunctions {f : Value} {vs : List Value} : f ∈ allFunctions vs ↔ ∃ v ∈ vs, f ∈ v.functions := by
  induction vs with
  | nil => simp [allFunctions]
  | cons v vs ih => simp [allFunctions, ih]

/-- All functions in a value are of a kind. -/
def Holds (kind : Value → Prop) (v : Value) : Prop :=
  ∀ f ∈ v.functions, kind f

variable {kind kind' : Value → Prop} {v : Value} {vs : List Value}

lemma Holds.imp (h : v.Holds kind) (weaker : ∀ f, kind f → kind' f) : v.Holds kind' :=
  fun f member => weaker f (h f member)

lemma holds_unit : unit.Holds kind := nofun

lemma holds_number {x : Float} : (number x).Holds kind := nofun

lemma holds_bool {b : Bool} : (bool b).Holds kind := nofun

lemma holds_literal {l : Literal} : l.value.Holds kind := by
  cases l <;> nofun

lemma holds_array : (array vs).Holds kind ↔ ∀ v ∈ vs, v.Holds kind := by
  simp only [Holds, functions, mem_allFunctions]
  exact ⟨fun h v member f inside => h f ⟨v, member, inside⟩, fun h f ⟨v, member, inside⟩ => h v member f inside⟩

lemma holds_closure {c : Closure} : (closure c).Holds kind ↔ kind (closure c) := by
  simp [Holds, functions]

lemma holds_host {name : String} : (host name).Holds kind ↔ kind (host name) := by
  simp [Holds, functions]

end Value

/-- An error that resolution is there to prevent. -/
def RuntimeError.isStatic : RuntimeError → Bool
  | unresolved _ | stageRejectsReceiver _ | moduleHasErrors _ | unknownHost _ => true
  | _ => false

/-- A result is as it should be; in its place may be an error that resolution cannot prevent. -/
def Outcome.Gives {α : Type} (good : α → Prop) : Outcome α → Prop
  | .ok a => good a
  | .error e => e.isStatic = false

section

variable {kind : Value → Prop}

lemma Outcome.Gives.bind {α β : Type} {good : α → Prop} {good' : β → Prop} {o : Outcome α} {f : α → Outcome β}
    (h : o.Gives good) (next : ∀ a, good a → Outcome.Gives good' (f a)) : Outcome.Gives good' (o >>= f) := by
  cases o with
  | ok a => exact next a h
  | error e => exact h

lemma BinaryOp.decided_holds {op : BinaryOp} {left v : Value} (h : op.decided? left = some v) : v.Holds kind := by
  unfold decided? at h
  split at h <;> cases h <;> exact Value.holds_bool

lemma BinaryOp.apply_gives (op : BinaryOp) (left right : Value) : (op.apply left right).Gives (·.Holds kind) := by
  unfold apply
  split
  case h_7 | h_8 =>
    split
    · rfl
    · exact Value.holds_number
  case h_15 => rfl
  all_goals nofun

lemma UnaryOp.apply_gives (op : UnaryOp) (operand : Value) : (op.apply operand).Gives (·.Holds kind) := by
  unfold apply
  split
  case h_3 => rfl
  all_goals nofun

lemma Value.whole_gives (what : String) (v : Value) : (v.whole what).Gives fun _ => True := by
  unfold whole
  split
  · trivial
  · rfl

lemma Value.ofRange_gives (start stop : Int64) (inclusive : Bool) :
    (ofRange start stop inclusive).Gives (·.Holds kind) := by
  unfold ofRange
  split
  · rfl
  · refine holds_array.2 fun v member => ?_
    obtain ⟨n, -, rfl⟩ := List.mem_map.1 member
    exact holds_number

lemma Value.itemAt_gives {base : Value} (index : Value) (holds : base.Holds kind) :
    (base.itemAt index).Gives (·.Holds kind) := by
  unfold itemAt
  split
  · next items =>
    refine (whole_gives "index" index).bind fun i _ => ?_
    dsimp only
    split
    · next v found =>
      refine holds_array.1 holds v ?_
      split at found
      · exact List.mem_of_getElem? found
      · cases found
    · rfl
  · rfl

end

/-- Arguments are bound to what was given. -/
lemma fillKeyword_mem {α : Type} {params : List ParamSlot} {filled filled' : List (Option α)} {keyword : String × α}
    (h : fillKeyword params filled keyword = .ok filled') {v : α} (member : some v ∈ filled') :
    some v ∈ filled ∨ v = keyword.2 := by
  unfold fillKeyword at h
  split at h
  · cases h
  · split at h
    · cases h
      exact (List.mem_or_eq_of_mem_set member).imp_right Option.some.inj
    · cases h

lemma bindArguments_mem {α : Type} {params : List ParamSlot} {positional : List α} {keyword : List (String × α)}
    {filled : List (Option α)} (h : bindArguments params positional keyword = .ok filled) {v : α}
    (member : some v ∈ filled) : v ∈ positional ∨ v ∈ keyword.map Prod.snd := by
  have fold (keyword : List (String × α)) : ∀ {start filled}, keyword.foldlM (fillKeyword params) start = .ok filled →
      some v ∈ filled → some v ∈ start ∨ v ∈ keyword.map Prod.snd := by
    induction keyword with
    | nil =>
      intro start filled h member
      cases h
      exact Or.inl member
    | cons k rest ih =>
      intro start filled h member
      rw [List.foldlM_cons] at h
      cases first : fillKeyword params start k with
      | error e =>
        rw [first] at h
        cases h
      | ok next =>
        rw [first] at h
        rcases ih h member with inNext | inRest
        · exact (fillKeyword_mem first inNext).imp_right fun e => by simp [e]
        · exact Or.inr (by simp [inRest])
  simp only [bindArguments] at h
  split at h
  · cases h
  · generalize e : List.foldlM (fillKeyword params) _ keyword = result at h
    cases result with
    | error e => cases h
    | ok last =>
      replace h : (if (last.zip params).any isMissing then _ else _) = _ := h
      split at h
      · cases h
      · cases h
        rcases fold keyword e member with start | given
        · exact Or.inl (by simpa using start)
        · exact Or.inr given

/-- What a host function may do with functions: those in its result are registered, or they were given to it. -/
def HostFunction.Honest (registered : String → Prop) (f : HostFunction) : Prop :=
  ∀ serial args v, f.apply serial args = .ok v → ∀ g ∈ v.functions, (∃ name, g = .host name ∧ registered name) ∨
    (∃ a ∈ args, g ∈ a.functions) ∧ ∀ q ∈ f.signature.params, ∀ d, q.fallback = some d → g ∉ d.functions

namespace Hosts

/-- The host functions of an application make no functions of their own. -/
def Honest (h : Hosts) : Prop :=
  ∀ name f, h.get? name = some f → f.Honest fun other => (h.get? other).isSome

lemma get?_register {h : Hosts} {name other : String} {params : List HostParam} {returns : Ty}
    {apply : Nat → List Value → Except String Value} : (h.register name params returns apply).get? other =
      if other = name then some ⟨⟨params, returns⟩, apply⟩ else h.get? other := by
  simp only [register, get?]
  induction h.functions with
  | nil =>
    by_cases e : other = name
    · simp [put, e]
    · simp [put, List.lookup_cons, e, beq_false_of_ne e]
  | cons entry rest ih =>
    obtain ⟨known, g⟩ := entry
    simp only [put]
    split
    · next same =>
      obtain rfl := eq_of_beq same
      by_cases e : other = known
      · simp [e]
      · simp [List.lookup_cons, e, beq_false_of_ne e]
    · next different =>
      by_cases e : other = known
      · subst e
        simp only [beq_iff_eq] at different
        simp [different]
      · simp [List.lookup_cons, beq_false_of_ne e, ih]

/-- An application stays honest when it registers an honest function. -/
lemma Honest.register {h : Hosts} (honest : h.Honest) {name : String} {params : List HostParam} {returns : Ty}
    {apply : Nat → List Value → Except String Value}
    (new : HostFunction.Honest (fun other => other = name ∨ (h.get? other).isSome) ⟨⟨params, returns⟩, apply⟩) :
    (h.register name params returns apply).Honest := by
  have known {other : String} (old : other = name ∨ (h.get? other).isSome) :
      ((h.register name params returns apply).get? other).isSome := by
    rw [get?_register]
    split
    · rfl
    · next different => exact old.resolve_left different
  intro other f found
  rw [get?_register] at found
  have honest' : f.Honest fun other => other = name ∨ (h.get? other).isSome := by
    split at found
    · cases found
      exact new
    · intro serial args v answer g member
      exact (honest other f found serial args v answer g member).imp_left fun ⟨n, e, old⟩ => ⟨n, e, Or.inr old⟩
  intro serial args v answer g member
  exact (honest' serial args v answer g member).imp_left fun ⟨n, e, old⟩ => ⟨n, e, known old⟩

lemma empty_honest : empty.Honest := by
  intro name f found
  cases found

variable {registered : String → Prop} {params : List HostParam} {returns : Ty}

/-- A function that makes numbers. -/
lemma honest_number {apply : Nat → List Value → Except String Value}
    (number : ∀ serial args v, apply serial args = .ok v → ∃ x, v = .number x) :
    HostFunction.Honest registered ⟨⟨params, returns⟩, apply⟩ := by
  intro serial args v answer g member
  obtain ⟨x, rfl⟩ := number serial args v answer
  cases member

lemma ofUnary_number (f : Float → Float) (serial : Nat) (args : List Value) (v : Value)
    (h : ofUnary f serial args = .ok v) : ∃ x, v = .number x := by
  unfold ofUnary at h
  split at h
  · cases h
    exact ⟨_, rfl⟩
  · cases h

lemma ofBinary_number (f : Float → Float → Float) (serial : Nat) (args : List Value) (v : Value)
    (h : ofBinary f serial args = .ok v) : ∃ x, v = .number x := by
  unfold ofBinary at h
  split at h
  · cases h
    exact ⟨_, rfl⟩
  · cases h

lemma squareRoot_number (serial : Nat) (args : List Value) (v : Value) (h : squareRoot serial args = .ok v) :
    ∃ x, v = .number x := by
  unfold squareRoot at h
  split at h
  · split at h
    · cases h
    · exact ofUnary_number _ _ _ _ h
  · exact ofUnary_number _ _ _ _ h

lemma arrayLength_number (serial : Nat) (args : List Value) (v : Value) (h : arrayLength serial args = .ok v) :
    ∃ x, v = .number x := by
  unfold arrayLength at h
  split at h
  · cases h
    exact ⟨_, rfl⟩
  · cases h

lemma arrayPush_honest : HostFunction.Honest registered
    ⟨⟨[param "items" (.array .any), param "item" .any], .array .any⟩, arrayPush⟩ := by
  intro serial args v answer g member
  refine Or.inr ⟨?_, by simp [param]⟩
  replace answer : arrayPush serial args = .ok v := answer
  unfold arrayPush at answer
  split at answer
  · next items item =>
    cases answer
    obtain ⟨v, among, inside⟩ := Value.mem_allFunctions.1 member
    rcases List.mem_append.1 among with old | new
    · exact ⟨.array items, List.mem_cons_self, Value.mem_allFunctions.2 ⟨v, old, inside⟩⟩
    · exact ⟨item, by simp, List.mem_singleton.1 new ▸ inside⟩
  · cases answer

/-- The prelude is honest. -/
theorem prelude_honest : prelude.Honest := by
  refine ((((((empty_honest.register ?_).register ?_).register ?_).register ?_).register ?_).register ?_).register
    arrayPush_honest
  case refine_1 | refine_2 => exact honest_number (ofBinary_number _)
  case refine_3 => exact honest_number (ofUnary_number _)
  case refine_4 => exact honest_number squareRoot_number
  case refine_5 => exact honest_number (ofBinary_number _)
  case refine_6 => exact honest_number arrayLength_number

end Hosts

end PipeLang
