import Mathlib.Data.List.Forall2
import Mathlib.Logic.Relator
import Mathlib.Tactic.Lemma
import PipeLang.Eval.Step

/-!
# Values that are alike

Values of two machines are alike if they differ only in the frames of their functions and in what tells functions and
objects from each other, and these correspond. Operators do the same with values that are alike, and so do host functions
that are pure.
-/

namespace PipeLang

/-- Which frames and identities of one machine stand for which of another. -/
structure Matching where
  frames : FrameId → FrameId → Prop
  identities : Nat → Nat → Prop

/-- Nothing stands for two things. -/
structure Matching.OneOne (M : Matching) : Prop where
  frames : Relator.BiUnique M.frames
  identities : Relator.BiUnique M.identities

/-- Which function literals of which modules are meant. -/
abbrev Code := ModuleId → Lambda → Prop

/-- Functions from the same literal whose frames and identities correspond. -/
structure Closure.Alike (M : Matching) (code : Code) (f g : Closure) : Prop where
  name : g.name = f.name
  module : g.module = f.module
  lambda : g.lambda = f.lambda
  frame : M.frames f.frame g.frame
  identity : M.identities f.identity g.identity
  allowed : code f.module f.lambda

/-- Values that are the same but for frames and identities, which correspond. -/
inductive Value.Alike (M : Matching) (code : Code) : Value → Value → Prop where
  | unit :
    Alike M code .unit .unit
  | number {x} :
    Alike M code (.number x) (.number x)
  | bool {b} :
    Alike M code (.bool b) (.bool b)
  | text {s} :
    Alike M code (.text s) (.text s)
  | array {vs ws} :
    List.Forall₂ (Alike M code) vs ws →
    Alike M code (.array vs) (.array ws)
  | closure {f g} :
    Closure.Alike M code f g →
    Alike M code (.closure f) (.closure g)
  | host {name} :
    Alike M code (.host name) (.host name)
  | object {kind i j v w} :
    M.identities i j →
    Alike M code v w →
    Alike M code (.object kind i v) (.object kind j w)

/-- Two results are related, or the same error takes the place of both. -/
inductive Outcome.Both {ε α β : Type} (Q : α → β → Prop) : Except ε α → Except ε β → Prop where
  | ok {a b} :
    Q a b →
    Both Q (.ok a) (.ok b)
  | error {e} :
    Both Q (.error e) (.error e)
variable {M M' : Matching} {code code' : Code}

/-- More correspond, and more literals are meant. -/
structure Matching.Within (M M' : Matching) : Prop where
  frames : ∀ {f g}, M.frames f g → M'.frames f g
  identities : ∀ {i j}, M.identities i j → M'.identities i j

lemma Option.Rel.imp {α β : Type} {R R' : α → β → Prop} {a : Option α} {b : Option β} (h : Option.Rel R a b)
    (weaker : ∀ a b, R a b → R' a b) : Option.Rel R' a b := by
  cases h with
  | some h => exact .some (weaker _ _ h)
  | none => exact .none

/-- Items at the same place of lists that are related are related. -/
lemma getElem?_rel {α β : Type} {R : α → β → Prop} {as : List α} {bs : List β} (h : List.Forall₂ R as bs) (i : Nat) :
    Option.Rel R as[i]? bs[i]? := by
  induction h generalizing i with
  | nil => exact .none
  | cons h _ ih =>
    cases i with
    | zero => exact .some h
    | succ i => exact ih i

lemma set_rel {α β : Type} {R : α → β → Prop} {as : List α} {bs : List β} {a : α} {b : β} (h : List.Forall₂ R as bs)
    (new : R a b) (i : Nat) : List.Forall₂ R (as.set i a) (bs.set i b) := by
  induction h generalizing i with
  | nil => exact .nil
  | cons h hs ih =>
    cases i with
    | zero => exact .cons new hs
    | succ i => exact .cons h (ih i)

lemma Closure.Alike.mono {f g : Closure} (h : f.Alike M code g) (within : M.Within M')
    (more : ∀ id f, code id f → code' id f) : f.Alike M' code' g where
  name := h.name
  module := h.module
  lambda := h.lambda
  frame := within.frames h.frame
  identity := within.identities h.identity
  allowed := more _ _ h.allowed

mutual

/-- Values that are alike stay so when more corresponds. -/
theorem Value.Alike.mono (within : M.Within M') (more : ∀ id f, code id f → code' id f) :
    (v : Value) → {w : Value} → v.Alike M code w → v.Alike M' code' w
  | .unit, _, .unit => .unit
  | .number _, _, .number => .number
  | .bool _, _, .bool => .bool
  | .text _, _, .text => .text
  | .array vs, _, .array h => .array (Value.Alike.all_mono within more vs h)
  | .closure _, _, .closure h => .closure (h.mono within more)
  | .host _, _, .host => .host
  | .object _ _ v, _, .object same h => .object (within.identities same) (Value.Alike.mono within more v h)

theorem Value.Alike.all_mono (within : M.Within M') (more : ∀ id f, code id f → code' id f) :
    (vs : List Value) → {ws : List Value} → List.Forall₂ (Value.Alike M code) vs ws →
      List.Forall₂ (Value.Alike M' code') vs ws
  | [], _, .nil => .nil
  | v :: vs, _, .cons h hs => .cons (Value.Alike.mono within more v h) (Value.Alike.all_mono within more vs hs)

end

namespace Value

/-- Values that are alike have the same name in messages. -/
lemma Alike.typeName {v w : Value} (h : v.Alike M code w) : w.typeName = v.typeName := by
  cases h <;> rfl

lemma Alike.number? {v w : Value} (h : v.Alike M code w) : w.number? = v.number? := by
  cases h <;> rfl

mutual

/-- Values that are alike fit the same types. -/
theorem Alike.conforms : (v : Value) → {w : Value} → v.Alike M code w → ∀ ty, w.conforms ty = v.conforms ty
  | .unit, _, .unit, _ | .number _, _, .number, _ | .bool _, _, .bool, _ | .text _, _, .text, _ | .host _, _, .host, _ => rfl
  | .array vs, _, .array h, ty => by
    cases ty with
    | array element =>
      simp only [Value.conforms]
      exact Alike.allConform vs h element
    | _ => simp [Value.conforms]
  | .closure _, _, .closure _, ty => by cases ty <;> simp [Value.conforms]
  | .object _ _ _, _, .object _ _, ty => by cases ty <;> simp [Value.conforms]

theorem Alike.allConform : (vs : List Value) → {ws : List Value} → List.Forall₂ (Value.Alike M code) vs ws →
    ∀ ty, Value.allConform ws ty = Value.allConform vs ty
  | [], _, .nil, _ => rfl
  | v :: vs, _, .cons h hs, ty => by simp only [Value.allConform, Alike.conforms v h, Alike.allConform vs hs]

end

mutual

/-- Values that are alike have the same text. -/
theorem Alike.render : (v : Value) → {w : Value} → v.Alike M code w → w.render = v.render
  | .unit, _, .unit | .number _, _, .number | .bool _, _, .bool | .text _, _, .text | .host _, _, .host => rfl
  | .array vs, _, .array h => by simp only [Value.render, Alike.renderItems vs h]
  | .closure _, _, .closure h => by simp only [Value.render, h.name]
  | .object _ _ _, _, .object _ _ => by simp only [Value.render]

theorem Alike.renderItems : (vs : List Value) → {ws : List Value} → List.Forall₂ (Value.Alike M code) vs ws →
    ∀ before, Value.renderItems before ws = Value.renderItems before vs
  | [], _, .nil, _ => rfl
  | [v], _, .cons h .nil, _ => by simp only [Value.renderItems, Alike.render v h]
  | v :: v' :: vs, _, .cons h (.cons h' hs), _ => by
    simp only [Value.renderItems, Alike.render v h]
    exact Alike.renderItems (v' :: vs) (.cons h' hs) _

end

mutual

/-- Pairs of values that are alike are equal alike, where nothing stands for two things. -/
theorem Alike.equals (unique : M.OneOne) : (v : Value) → {w v' w' : Value} → v.Alike M code w →
    v'.Alike M code w' → w.equals w' = v.equals v'
  | .unit, _, _, _, .unit, h' => by cases h' <;> rfl
  | .number _, _, _, _, .number, h' => by cases h' <;> rfl
  | .bool _, _, _, _, .bool, h' => by cases h' <;> rfl
  | .text _, _, _, _, .text, h' => by cases h' <;> rfl
  | .host _, _, _, _, .host, h' => by cases h' <;> rfl
  | .array vs, _, _, _, .array h, h' => by
    cases h' with
    | array h' =>
      simp only [Value.equals]
      exact Alike.allEqual unique vs h h'
    | _ => simp [Value.equals]
  | .closure _, _, _, _, .closure h, h' => by
    cases h' with
    | closure h' =>
      simp only [Value.equals]
      exact decide_eq_decide.2 (by simpa using (Relator.rel_eq unique.identities h.identity h'.identity).symm)
    | _ => simp [Value.equals]
  | .object _ _ _, _, _, _, .object same h, h' => by
    cases h' with
    | object same' h' =>
      simp only [Value.equals]
      exact decide_eq_decide.2 (by simpa using (Relator.rel_eq unique.identities same same').symm)
    | _ => simp [Value.equals]

theorem Alike.allEqual (unique : M.OneOne) : (vs : List Value) → {ws vs' ws' : List Value} →
    List.Forall₂ (Value.Alike M code) vs ws → List.Forall₂ (Value.Alike M code) vs' ws' →
      Value.allEqual ws ws' = Value.allEqual vs vs'
  | [], _, _, _, .nil, h' => by cases h' <;> rfl
  | v :: vs, _, _, _, .cons h hs, h' => by
    cases h' with
    | nil => rfl
    | cons h' hs' => simp only [Value.allEqual, Alike.equals unique v h h', Alike.allEqual unique vs hs hs']

end

end Value

/-! ### Operators -/

section

variable {v w v' w' : Value} {α β γ δ ε : Type}

lemma Outcome.Both.bind {Q : α → β → Prop} {Q' : γ → δ → Prop} {o : Except ε α} {o' : Except ε β}
    {f : α → Except ε γ} {f' : β → Except ε δ} (h : Both Q o o') (next : ∀ a b, Q a b → Both Q' (f a) (f' b)) :
    Both Q' (o >>= f) (o' >>= f') := by
  cases h with
  | ok h => exact next _ _ h
  | error => exact .error

lemma Outcome.Both.of_eq {Q : α → α → Prop} {o o' : Except ε α} (same : o' = o) (h : ∀ a, o = .ok a → Q a a) :
    Both Q o o' := by
  rw [same]
  cases o with
  | ok a => exact .ok (h a rfl)
  | error e => exact .error

lemma Literal.value_alike (l : Literal) : l.value.Alike M code l.value := by
  cases l with
  | number x => exact .number
  | text s => exact .text
  | bool b => exact .bool

/-- Arithmetic, comparisons and connectives do the same with values that are alike. -/
lemma BinaryOp.apply_alike (unique : M.OneOne) (op : BinaryOp) (h : v.Alike M code w)
    (h' : v'.Alike M code w') : Outcome.Both (Value.Alike M code) (op.apply v v') (op.apply w w') := by
  have equal : w.equals w' = v.equals v' := Value.Alike.equals unique v h h'
  have name := h.typeName
  have name' := h'.typeName
  unfold apply
  split
  case h_1 => exact equal ▸ .ok .bool
  case h_2 => exact equal ▸ .ok .bool
  case h_15 =>
    rw [← name, ← name']
    split
    case h_15 => exact .error
    all_goals first | contradiction | (cases h; cases h'; first | contradiction | simp_all)
  case h_7 | h_8 =>
    cases h
    cases h'
    dsimp only
    split
    · exact .error
    · exact .ok .number
  case h_3 | h_5 | h_6 =>
    cases h
    cases h'
    exact .ok .number
  case h_4 =>
    cases h
    cases h'
    exact .ok .text
  all_goals
    cases h
    cases h'
    exact .ok .bool

lemma BinaryOp.decided_alike {op : BinaryOp} (h : v.Alike M code w) :
    op.decided? w = op.decided? v ∧ ∀ u, op.decided? v = some u → u.Alike M code u := by
  constructor
  · cases h <;> cases op <;> rfl
  · intro u decided
    unfold decided? at decided
    split at decided <;> cases decided <;> exact .bool

lemma UnaryOp.apply_alike {op : UnaryOp} (h : v.Alike M code w) :
    Outcome.Both (Value.Alike M code) (op.apply v) (op.apply w) := by
  cases op with
  | neg =>
    cases h with
    | number => exact .ok .number
    | _ => exact .error
  | not =>
    cases h with
    | bool => exact .ok .bool
    | _ => exact .error

lemma Value.Alike.whole {what : String} (h : v.Alike M code w) : w.whole what = v.whole what := by
  simp only [Value.whole, h.number?, Value.Alike.render v h]

lemma Value.ofRange_alike (start stop : Int64) (inclusive : Bool) :
    Outcome.Both (Value.Alike M code) (Value.ofRange start stop inclusive) (Value.ofRange start stop inclusive) := by
  refine .of_eq rfl fun u made => ?_
  unfold ofRange at made
  split at made
  · cases made
  · cases made
    refine .array (List.forall₂_same.2 fun u member => ?_)
    obtain ⟨n, -, rfl⟩ := List.mem_map.1 member
    exact .number

/-- Items at the same place of arrays that are alike are alike. -/
lemma Value.Alike.itemAt (h : v.Alike M code w) (h' : v'.Alike M code w') :
    Outcome.Both (Value.Alike M code) (v.itemAt v') (w.itemAt w') := by
  cases h with
  | @array vs ws h =>
    simp only [Value.itemAt, h'.whole]
    refine (Outcome.Both.of_eq (Q := Eq) rfl fun _ _ => rfl).bind fun i j same => ?_
    subst same
    have found : Option.Rel (Value.Alike M code) (if 0 ≤ i.toInt then vs[i.toInt.toNat]? else none)
        (if 0 ≤ i.toInt then ws[i.toInt.toNat]? else none) := by
      split
      · exact getElem?_rel h _
      · exact .none
    rw [h.length_eq]
    generalize (if 0 ≤ i.toInt then vs[i.toInt.toNat]? else none) = item at found ⊢
    generalize (if 0 ≤ i.toInt then ws[i.toInt.toNat]? else none) = item' at found ⊢
    cases found with
    | some h => exact .ok h
    | none => exact .error
  | _ => exact .error

end

/-! ### Arguments -/

section

variable {κ α β : Type} {R : α → β → Prop}

/-- Entries of the same key that are related. -/
def sameKey (R : α → β → Prop) (k : κ × α) (k' : κ × β) : Prop :=
  k'.1 = k.1 ∧ R k.2 k'.2

lemma lookup_rel [BEq κ] {l : List (κ × α)} {l' : List (κ × β)} (h : List.Forall₂ (sameKey R) l l') (key : κ) :
    Option.Rel R (l.lookup key) (l'.lookup key) := by
  induction h with
  | nil => exact .none
  | @cons entry entry' l l' same _ ih =>
    obtain ⟨k, a⟩ := entry
    obtain ⟨k', b⟩ := entry'
    obtain ⟨rfl, related⟩ : k' = k ∧ R a b := same
    simp only [List.lookup_cons]
    split
    · exact .some related
    · exact ih

lemma fillKeyword_both {params : List ParamSlot} {filled : List (Option α)} {filled' : List (Option β)} {k : String × α}
    {k' : String × β} (h : List.Forall₂ (Option.Rel R) filled filled') (same : sameKey R k k') :
    Outcome.Both (List.Forall₂ (Option.Rel R)) (fillKeyword params filled k) (fillKeyword params filled' k') := by
  unfold fillKeyword
  rw [same.1]
  cases ParamSlot.indexOf? params k.1 with
  | none => exact .error
  | some i =>
    have place : Option.Rel (Option.Rel R) filled[i]? filled'[i]? := getElem?_rel h i
    dsimp only
    generalize filled[i]? = slot at place ⊢
    generalize filled'[i]? = slot' at place ⊢
    cases place with
    | none => exact .error
    | some inner =>
      cases inner with
      | some _ => exact .error
      | none => exact .ok (set_rel h (.some same.2) i)

lemma fillKeywords_both {params : List ParamSlot} {filled : List (Option α)} {filled' : List (Option β)}
    {keyword : List (String × α)} {keyword' : List (String × β)} (h : List.Forall₂ (Option.Rel R) filled filled')
    (same : List.Forall₂ (sameKey R) keyword keyword') :
    Outcome.Both (List.Forall₂ (Option.Rel R)) (keyword.foldlM (fillKeyword params) filled)
      (keyword'.foldlM (fillKeyword params) filled') := by
  induction same generalizing filled filled' with
  | nil => exact .ok h
  | cons first _ ih =>
    rw [List.foldlM_cons, List.foldlM_cons]
    exact (fillKeyword_both h first).bind fun _ _ next => ih next

lemma isMissing_rel {params : List ParamSlot} {filled : List (Option α)} {filled' : List (Option β)}
    (h : List.Forall₂ (Option.Rel R) filled filled') :
    (filled'.zip params).any isMissing = (filled.zip params).any isMissing := by
  induction h generalizing params with
  | nil => rfl
  | cons slot _ ih =>
    cases params with
    | nil => rfl
    | cons p params =>
      simp only [List.zip_cons_cons, List.any_cons, ih]
      cases slot <;> rfl

/-- Arguments are bound the same to parameters. -/
lemma bindArguments_both {params : List ParamSlot} {positional : List α} {positional' : List β}
    {keyword : List (String × α)} {keyword' : List (String × β)} (h : List.Forall₂ R positional positional')
    (same : List.Forall₂ (sameKey R) keyword keyword') :
    Outcome.Both (List.Forall₂ (Option.Rel R)) (bindArguments params positional keyword)
      (bindArguments params positional' keyword') := by
  have start (n : Nat) : List.Forall₂ (Option.Rel R) (positional.map some ++ List.replicate n none)
      (positional'.map some ++ List.replicate n none) := by
    refine List.rel_append (List.rel_map (fun _ _ h => .some h) h) ?_
    induction n with
    | zero => exact .nil
    | succ n ih => exact .cons .none ih
  simp only [bindArguments, h.length_eq, same.length_eq]
  split
  · exact .error
  · refine (fillKeywords_both (start _) same).bind fun filled filled' slots => ?_
    rw [isMissing_rel slots]
    split
    · exact .error
    · exact .ok slots

end

end PipeLang
