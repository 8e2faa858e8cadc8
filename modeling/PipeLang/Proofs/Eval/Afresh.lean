import Mathlib.Data.Finset.Card
import Mathlib.Data.List.Sort
import PipeLang.Proofs.Eval.Access
import PipeLang.Proofs.Eval.Dialogue
import PipeLang.Proofs.Eval.Pure
import PipeLang.Proofs.Eval.Recalled

/-!
# Answers do not depend on what was asked before
-/

namespace PipeLang

open Eval

variable {M M' N : Matching} {code code' : Code} {x y z : Machine} {v w : Value} {id : ModuleId} {n : Nat}

/-- A machine on which identities have been given away to things that were made elsewhere. -/
def Machine.reserving (m : Machine) (n : Nat) : Machine :=
  { m with fresh := n }

/-- Frames correspond to themselves, and so do some identities. -/
def Matching.only (S : Nat → Prop) : Matching :=
  ⟨Eq, fun i j => i = j ∧ S i⟩

/-- All identities in a value are of a kind. -/
def Value.Identified (S : Nat → Prop) (v : Value) : Prop :=
  v.Alike (.only S) (fun _ _ => True) v

/-- The functions in a value come from other values, or they are host functions. -/
def Value.ComposedOf (known : List Value) (v : Value) : Prop :=
  v.Holds fun f => (∃ w ∈ known, f ∈ w.functions) ∨ ∃ name, f = .host name

/-! ### Values that are like the same -/

/-- What stands for the same. -/
def Matching.meet (M N : Matching) : Matching where
  frames f h := ∃ g, M.frames f g ∧ N.frames h g
  identities i k := ∃ j, M.identities i j ∧ N.identities k j

mutual

/-- Values that are like the same are alike. -/
theorem Value.Alike.meet : (v : Value) → {u w : Value} → v.Alike M code w → u.Alike N code' w → v.Alike (M.meet N) code u
  | .unit, _, _, .unit, .unit => .unit
  | .number _, _, _, .number, .number => .number
  | .bool _, _, _, .bool, .bool => .bool
  | .text _, _, _, .text, .text => .text
  | .array vs, _, _, .array h, .array h' => .array (Value.Alike.all_meet vs h h')
  | .closure _, _, _, .closure h, .closure h' => .closure {
      name := h'.name.symm.trans h.name
      module := h'.module.symm.trans h.module
      lambda := h'.lambda.symm.trans h.lambda
      frame := ⟨_, h.frame, h'.frame⟩
      identity := ⟨_, h.identity, h'.identity⟩
      allowed := h.allowed }
  | .host _, _, _, .host, .host => .host
  | .object _ _ v, _, _, .object same h, .object same' h' => .object ⟨_, same, same'⟩ (Value.Alike.meet v h h')

theorem Value.Alike.all_meet : (vs : List Value) → {us ws : List Value} → List.Forall₂ (Value.Alike M code) vs ws →
    List.Forall₂ (Value.Alike N code') us ws → List.Forall₂ (Value.Alike (M.meet N) code) vs us
  | [], _, _, .nil, .nil => .nil
  | v :: vs, _, _, .cons h hs, .cons h' hs' => .cons (Value.Alike.meet v h h') (Value.Alike.all_meet vs hs hs')

end

/-- Lists that are related to the same list are related. -/
lemma forall₂_meet {α β γ : Type} {R : α → γ → Prop} {S : β → γ → Prop} {Q : α → β → Prop} {as : List α} {bs : List β}
    {cs : List γ} (h : List.Forall₂ R as cs) (h' : List.Forall₂ S bs cs) (each : ∀ a b c, R a c → S b c → Q a b) : List.Forall₂ Q as bs := by
  induction h generalizing bs with
  | nil =>
    cases h'
    exact .nil
  | cons first _ ih =>
    cases h' with
    | cons first' others => exact .cons (each _ _ _ first first') (ih others)

lemma forall₂_partner {α β : Type} {R : α → β → Prop} {as : List α} {bs : List β} (h : List.Forall₂ R as bs) :
    ∀ a ∈ as, ∃ b, R a b := by
  induction h with
  | nil => exact List.forall_mem_nil _
  | cons first _ ih => exact List.forall_mem_cons.2 ⟨⟨_, first⟩, ih⟩

lemma forall₂_of_forall {α β : Type} {R : α → β → Prop} {as : List α} (h : ∀ a ∈ as, ∃ b, R a b) : ∃ bs, List.Forall₂ R as bs := by
  induction as with
  | nil => exact ⟨[], .nil⟩
  | cons a as ih =>
    obtain ⟨⟨b, here⟩, others⟩ := List.forall_mem_cons.1 h
    obtain ⟨bs, all⟩ := ih others
    exact ⟨b :: bs, .cons here all⟩

lemma Matching.Carries.meet {h h' h'' : Heap} (carries : M.Carries code h h'') (carries' : N.Carries code' h' h'') :
    (M.meet N).Carries code h h' where
  unique := by
    refine ⟨⟨?_, ?_⟩, ?_, ?_⟩
    · rintro f f' g ⟨k, pair, pair'⟩ ⟨k', other, other'⟩
      obtain rfl := carries'.unique.frames.2 pair' other'
      exact carries.unique.frames.1 pair other
    · rintro f g g' ⟨k, pair, pair'⟩ ⟨k', other, other'⟩
      obtain rfl := carries.unique.frames.2 pair other
      exact carries'.unique.frames.1 pair' other'
    · rintro i i' j ⟨k, pair, pair'⟩ ⟨k', other, other'⟩
      obtain rfl := carries'.unique.identities.2 pair' other'
      exact carries.unique.identities.1 pair other
    · rintro i j j' ⟨k, pair, pair'⟩ ⟨k', other, other'⟩
      obtain rfl := carries.unique.identities.2 pair other
      exact carries'.unique.identities.1 pair' other'
  frames {f g} := by
    rintro ⟨k, pair, pair'⟩
    obtain ⟨frame, frame'', found, there, alike⟩ := carries.frames pair
    obtain ⟨frame', _, found', there', alike'⟩ := carries'.frames pair'
    obtain rfl := Option.some.inj (there.symm.trans there')
    refine ⟨frame, frame', found, found', ?_, ?_⟩
    · exact forall₂_meet alike.outer alike'.outer fun _ _ k one other => ⟨k, one, other⟩
    · exact forall₂_meet alike.values alike'.values fun _ _ _ ⟨key, one⟩ ⟨key', other⟩ =>
        ⟨key'.symm.trans key, Value.Alike.meet _ one other⟩

mutual

/-- The functions in values that are alike are. -/
theorem Value.Alike.functions : (v : Value) → {w : Value} → v.Alike M code w →
    List.Forall₂ (Value.Alike M code) v.functions w.functions
  | .unit, _, .unit | .number _, _, .number | .bool _, _, .bool | .text _, _, .text => .nil
  | .array vs, _, .array h => Value.Alike.all_functions vs h
  | .closure _, _, .closure h => .cons (.closure h) .nil
  | .host _, _, .host => .cons .host .nil
  | .object _ _ v, _, .object _ h => (Value.Alike.functions v h :)

theorem Value.Alike.all_functions : (vs : List Value) → {ws : List Value} → List.Forall₂ (Value.Alike M code) vs ws →
    List.Forall₂ (Value.Alike M code) (Value.allFunctions vs) (Value.allFunctions ws)
  | [], _, .nil => .nil
  | v :: vs, _, .cons h hs => List.rel_append (Value.Alike.functions v h) (Value.Alike.all_functions vs hs)

end

mutual

/-- A value has one that it is like if its functions have, and its identities correspond to some. -/
theorem Value.Alike.partner (identities : ∀ i i', N.identities i i' → ∃ j, M.identities i j) : (v : Value) → {u : Value} →
    v.Alike N code' u → (v.Holds fun f => ∃ g, f.Alike M code g) → ∃ w, v.Alike M code w
  | .unit, _, _, _ => ⟨.unit, .unit⟩
  | .number x, _, _, _ => ⟨.number x, .number⟩
  | .bool b, _, _, _ => ⟨.bool b, .bool⟩
  | .text s, _, _, _ => ⟨.text s, .text⟩
  | .host name, _, _, _ => ⟨.host name, .host⟩
  | .closure _, _, _, functions => functions _ (List.mem_singleton_self _)
  | .array vs, _, .array h, functions =>
    have ⟨ws, all⟩ := Value.Alike.all_partner identities vs h functions
    ⟨.array ws, .array all⟩
  | .object kind i v, _, .object same h, functions =>
    have ⟨j, pair⟩ := identities i _ same
    have ⟨w, alike⟩ := Value.Alike.partner identities v h functions
    ⟨.object kind j w, .object pair alike⟩

theorem Value.Alike.all_partner (identities : ∀ i i', N.identities i i' → ∃ j, M.identities i j) : (vs : List Value) →
    {us : List Value} → List.Forall₂ (Value.Alike N code') vs us → (∀ f ∈ Value.allFunctions vs, ∃ g, f.Alike M code g) →
      ∃ ws, List.Forall₂ (Value.Alike M code) vs ws
  | [], _, _, _ => ⟨[], .nil⟩
  | v :: vs, _, .cons h hs, functions =>
    have ⟨w, alike⟩ := Value.Alike.partner identities v h fun f member => functions f (List.mem_append_left _ member)
    have ⟨ws, all⟩ := Value.Alike.all_partner identities vs hs fun f member => functions f (List.mem_append_right _ member)
    ⟨w :: ws, .cons alike all⟩

end

namespace Request

variable {P Q S : Value → Prop} {r : Request} {T : Region}

/-- Something holds of all values that a request hands over. -/
def Hands (Q : Value → Prop) : Request → Prop
  | .query (.call callee positional keyword) => Q callee ∧ (∀ v ∈ positional, Q v) ∧ ∀ entry ∈ keyword, Q entry.2
  | .entry _ args _ => ∀ a ∈ args, Q a.value
  | .query _ => True

lemma Hands.both (h : r.Hands P) (h' : r.Hands Q) (each : ∀ v, P v → Q v → S v) : r.Hands S := by
  cases r with
  | query q =>
    cases q with
    | call callee positional keyword =>
      exact ⟨each _ h.1 h'.1, fun v member => each _ (h.2.1 v member) (h'.2.1 v member),
        fun entry member => each _ (h.2.2 entry member) (h'.2.2 entry member)⟩
    | _ => trivial
  | entry id args e => exact fun a member => each _ (h a member) (h' a member)

lemma Issued.hands (h : r.Issued n) : r.Hands (·.Issued n) := by
  cases r with
  | query q => cases q <;> exact h
  | entry id args e => exact h

/-- Twins stay twins when more corresponds. -/
lemma Twin.mono {r' : Request} (h : Twin T M r r') (within : M.Within M') : Twin T M' r r' := by
  cases h with
  | module => exact .module
  | value => exact .value
  | assembly => exact .assembly
  | call alike all keyed =>
    exact .call (alike.mono within) (Region.Alike.all_mono all within) (keyed.imp fun _ _ ⟨key, alike⟩ => ⟨key, alike.mono within⟩)
  | entry all => exact .entry (all.imp fun _ _ ⟨name, alike⟩ => ⟨name, alike.mono within⟩)

/-- A request has a twin if each of its values has one that it is like. -/
lemma Hands.twin (h : r.Hands fun v => ∃ w, T.Alike M v w) : ∃ r', Twin T M r r' := by
  cases r with
  | query q =>
    cases q with
    | module id => exact ⟨_, .module⟩
    | value id name => exact ⟨_, .value⟩
    | assembly id => exact ⟨_, .assembly⟩
    | call callee positional keyword =>
      obtain ⟨⟨w, alike⟩, others, named⟩ := h
      obtain ⟨ws, all⟩ := forall₂_of_forall others
      obtain ⟨ks, keyed⟩ := forall₂_of_forall (R := sameKey (T.Alike M)) fun entry member =>
        have ⟨u, alike⟩ := named entry member
        ⟨(entry.1, u), rfl, alike⟩
      exact ⟨_, .call alike all keyed⟩
  | entry id args e =>
    obtain ⟨args', all⟩ := forall₂_of_forall (R := fun a b : EntryArgument => b.name = a.name ∧ T.Alike M a.value b.value)
      fun a member =>
        have ⟨w, alike⟩ := h a member
        ⟨⟨a.name, w⟩, rfl, alike⟩
    exact ⟨_, .entry all⟩

end Request

/-! ### Between requests -/

namespace Rehearsal

variable {R : Rehearsal}

/-- An evaluation on a machine beside the whole rehearsal. -/
noncomputable def after (R : Rehearsal) (slack : Slack) (x y : Machine) (M : Matching) (keeps : (R.stage R.order.length).Keeps y) :
    Ahead :=
  ⟨R, R.order.length, none, slack, x, y, M, keeps, fun _ owned => by cases owned⟩

/-- A machine that is asked nothing at the moment is beside the whole rehearsal. -/
structure Recalls (R : Rehearsal) (M : Matching) (x y : Machine) : Prop where
  keeps : (R.stage R.order.length).Keeps y
  beside : ∀ slack, (R.after slack x y M keeps).Beside M x y
  blank : ∀ {id}, ¬ R.program.Usable id → Machine.SameAt id .new x

/-- The functions of modules that have been run. -/
noncomputable def region (R : Rehearsal) : Region :=
  (R.stage R.order.length).region R.program none

lemma Recalls.whole (h : R.Recalls M x y) (slack : Slack) : (R.after slack x y M h.keeps).Whole :=
  ⟨rfl, rfl, h.blank⟩

/-- What a request has left is beside the rehearsal when the next one is made. -/
lemma recalls_of_whole {T : Ahead} (whole : T.Whole) (h : T.Beside M x y) : T.rehearsal.Recalls M x y := by
  have blank {id : ModuleId} (unusable : ¬ T.rehearsal.program.Usable id) := (whole.fresh h unusable).1
  have keeps := T.keeps.trans h.right
  obtain ⟨R, k, owner, slack', left, right, base, keeps', owned⟩ := T
  obtain rfl : owner = none := whole.alone
  obtain rfl : k = R.order.length := whole.all
  refine ⟨keeps, fun slack => ?_, blank⟩
  constructor
  case toCarries => exact h.toCarries
  case left => exact .refl
  case right => exact .refl
  case identities => exact h.identities
  case mirrors => exact h.mirrors
  case known => exact h.known
  case beyond => exact fun _ _ => .refl
  case kept => exact fun _ known => known
  case running => exact h.running
  case seenFrame => exact h.seenFrame
  case seenIdentity => exact h.seenIdentity
  case newFrame => exact Or.inl
  case newIdentity => exact Or.inl
  case covered => exact fun above inside => absurd inside (Nat.not_lt_of_le above)
  case imports => exact h.imports

/-- A machine that has not been asked anything yet is beside the rehearsal, whatever the rehearsal has been asked. Identities that have
been given away on it may correspond to ones that come from no module. -/
lemma recalls_new (keeps : (R.stage R.order.length).Keeps y) (known : ∀ id, Machine.SameAt id (R.stage R.order.length) y)
    (unique : M.OneOne) (none : ∀ f g, ¬ M.frames f g)
    (aside : ∀ {i j}, M.identities i j → i < n ∧ (R.stage R.order.length).fresh ≤ j ∧ j < y.fresh) :
    R.Recalls M (Machine.new.reserving n) y where
  keeps := keeps
  blank _ := .of_eq rfl rfl rfl rfl
  beside slack := by
    constructor
    case toCarries => exact ⟨unique, fun pair => absurd pair (none _ _)⟩
    case left => exact .refl
    case right => exact .refl
    case identities => exact fun pair => (aside pair).imp_right And.right
    case mirrors => exact fun _ => .blank (.of_eq rfl rfl rfl rfl)
    case known => exact fun _ => known _
    case beyond => exact fun _ _ => .refl
    case kept => exact fun _ known => known
    case running => exact fun owned => by cases owned
    case seenFrame => exact fun pair => absurd pair (none _ _)
    case seenIdentity => exact fun pair of => absurd (IdentityOf.lt of) (Nat.not_lt_of_le (aside pair).2.1)
    case newFrame => exact Or.inl
    case newIdentity => exact Or.inl
    case covered => exact fun above inside => absurd inside (Nat.not_lt_of_le above)
    case imports => exact nofun

/-- The identities that correspond to ones that come from no module. -/
def asides (R : Rehearsal) (M : Matching) (n : Nat) : Matching :=
  ⟨fun _ _ => False, fun i j => M.identities i j ∧ (R.stage R.order.length).fresh ≤ j ∧ i < n⟩

/-- An identity corresponds to one that comes from no module. -/
def Aside (R : Rehearsal) (M : Matching) (i : Nat) : Prop :=
  ∃ j, M.identities i j ∧ (R.stage R.order.length).fresh ≤ j

lemma Aside.mono {i : Nat} (h : R.Aside M i) (within : M.Within M') : R.Aside M' i :=
  h.imp fun _ => And.imp_left within.identities

namespace Recalls

/-- A machine that has not been asked anything recalls what was set aside. -/
lemma new (h : R.Recalls M x y) : R.Recalls (R.asides M n) (Machine.new.reserving n) y := by
  have beside := h.beside .left
  refine recalls_new h.keeps (fun _ => beside.known (h.whole .left).unowned) ⟨⟨nofun, nofun⟩, ?_, ?_⟩ (fun _ _ => id)
    fun ⟨pair, late, inside⟩ => ⟨inside, late, (beside.identities pair).2⟩
  · exact fun _ _ _ one other => beside.unique.identities.1 one.1 other.1
  · exact fun _ _ _ one other => beside.unique.identities.2 one.1 other.1

/-- An identity that has been given away comes to correspond to one of the rehearsal. -/
lemma take {i : Nat} (h : R.Recalls M x y) (taken : i < x.fresh) :
    ∃ M' y', M.Within M' ∧ R.Recalls M' x y' ∧ ∃ j, M'.identities i j := by
  by_cases seen : ∃ j, M.identities i j
  · exact ⟨M, y, .refl, h, seen⟩
  · have fresh {i' j' : Nat} (pair : M.identities i' j') : i' ≠ i ∧ j' ≠ y.fresh := by
      refine ⟨?_, Nat.ne_of_lt ((h.beside .left).identities pair).2⟩
      rintro rfl
      exact seen ⟨j', pair⟩
    refine ⟨M.withIdentity i y.fresh, { y with fresh := y.fresh + 1 }, Matching.within_withIdentity,
      ⟨h.keeps.issue, fun slack => ?_, h.blank⟩, y.fresh, Or.inr ⟨rfl, rfl⟩⟩
    have old := h.beside slack
    constructor
    case toCarries => exact old.toCarries.issue fresh
    case left => exact .refl
    case right => exact .refl
    case identities =>
      rintro i' j' (pair | ⟨rfl, rfl⟩)
      · exact (old.identities pair).imp_right Nat.lt_succ_of_lt
      · exact ⟨taken, Nat.lt_succ_self _⟩
    case mirrors => exact fun early => (old.mirrors early).mono Matching.within_withIdentity fun _ _ allowed => allowed
    case known => exact fun owned => (old.known owned).trans (.of_eq rfl rfl rfl rfl)
    case beyond => exact fun _ _ => .refl
    case kept => exact fun _ known => known
    case running => exact fun owned => absurd owned (h.whole slack).unowned
    case seenFrame => exact old.seenFrame
    case seenIdentity =>
      rintro i' j' id (pair | ⟨rfl, rfl⟩) of
      · exact old.seenIdentity pair of
      · exact absurd (Nat.lt_of_lt_of_le (IdentityOf.lt of) h.keeps.fresh) (Nat.lt_irrefl _)
    case newFrame => exact Or.inl
    case newIdentity => exact Or.inl
    case covered => exact fun above inside => absurd inside (Nat.not_lt_of_le above)
    case imports => exact old.imports

/-- All identities that have been given away come to correspond to some of the rehearsal. -/
lemma all_taken (h : R.Recalls M x y) :
    ∃ M' y', M.Within M' ∧ R.Recalls M' x y' ∧ ∀ i < x.fresh, ∃ j, M'.identities i j := by
  have below (n : Nat) (le : n ≤ x.fresh) : ∃ M' y', M.Within M' ∧ R.Recalls M' x y' ∧ ∀ i < n, ∃ j, M'.identities i j := by
    induction n with
    | zero => exact ⟨M, y, .refl, h, fun i inside => absurd inside (Nat.not_lt_zero i)⟩
    | succ n ih =>
      obtain ⟨M₁, y₁, within₁, h₁, all⟩ := ih (Nat.le_of_lt le)
      obtain ⟨M₂, y₂, within₂, h₂, j, last⟩ := h₁.take le
      refine ⟨M₂, y₂, within₁.trans within₂, h₂, fun i inside => ?_⟩
      rcases Nat.lt_succ_iff_lt_or_eq.1 inside with early | rfl
      · obtain ⟨j, pair⟩ := all i early
        exact ⟨j, within₂.identities pair⟩
      · exact ⟨j, last⟩
  exact below x.fresh (Nat.le_refl _)

variable {known known' : List Value} {r : Request}

/-- What is made from values that correspond has functions that do. -/
lemma made {v : Value} (h : v.ComposedOf known) (all : List.Forall₂ (R.region.Alike M) known known') :
    v.Holds fun f => ∃ g, R.region.Alike M f g := by
  refine h.imp fun f origin => ?_
  rcases origin with ⟨w, member, inside⟩ | ⟨name, rfl⟩
  · obtain ⟨w', alike⟩ := forall₂_partner all w member
    exact forall₂_partner (Value.Alike.functions w alike) f inside
  · exact ⟨_, .host⟩

/-- A request with values that are made from values that correspond, and identities that have been given away, is like a request to the
rehearsal. -/
lemma request (h : R.Recalls M x y) (all : List.Forall₂ (R.region.Alike M) known known') (made : r.Hands (·.ComposedOf known))
    (issued : r.Issued x.fresh) : ∃ M' y' r', M.Within M' ∧ R.Recalls M' x y' ∧ Request.Twin R.region M' r r' := by
  obtain ⟨M', y', within, h', taken⟩ := h.all_taken
  have each (v : Value) (composed : v.ComposedOf known) (issued : v.Issued x.fresh) : ∃ w, R.region.Alike M' v w :=
    Value.Alike.partner (N := .upTo x.fresh) (fun i _ pair => taken i pair.2) v issued
      (Recalls.made composed (Region.Alike.all_mono all within))
  obtain ⟨r', twin⟩ := (made.both issued.hands each).twin
  exact ⟨M', y', r', within, h', twin⟩

/-- Two identities that are given away come to correspond. -/
lemma issue (h : R.Recalls M x y) :
    R.Recalls (M.withIdentity x.fresh y.fresh) (x.reserving (x.fresh + 1)) { y with fresh := y.fresh + 1 } :=
  recalls_of_whole (h.whole .left) (h.beside .left).issue

/-- Identities that are given away elsewhere come to correspond to ones that come from no module. -/
lemma reserve (h : R.Recalls M x y) (since : x.fresh ≤ n) :
    ∃ M' y', M.Within M' ∧ R.Recalls M' (x.reserving n) y' ∧ ∀ i, x.fresh ≤ i → i < n → R.Aside M' i := by
  induction n, since using Nat.le_induction with
  | base => exact ⟨M, y, .refl, h, fun i above inside => absurd inside (Nat.not_lt_of_le above)⟩
  | succ n since ih =>
    obtain ⟨M', y', within, recalls, aside⟩ := ih
    refine ⟨_, _, within.trans Matching.within_withIdentity, recalls.issue, fun i above inside => ?_⟩
    rcases Nat.lt_succ_iff_lt_or_eq.1 inside with early | rfl
    · exact (aside i above early).mono Matching.within_withIdentity
    · exact ⟨y'.fresh, Or.inr ⟨rfl, rfl⟩, recalls.keeps.fresh⟩

end Recalls

/-- A request and one of the rehearsal have come to the same end. -/
inductive Tells (R : Rehearsal) (M : Matching) :
    EStateM.Result Stop Machine (List Value) → EStateM.Result Stop Machine (List Value) → Prop where
  | answered {M' vs ws x y} :
    M.Within M' →
    R.Recalls M' x y →
    List.Forall₂ (R.region.Alike M') vs ws →
    Tells R M (.ok vs x) (.ok ws y)
  | failed {M' e x y} :
    M.Within M' →
    R.Recalls M' x y →
    Tells R M (.error (.error e) x) (.error (.error e) y)

lemma Tells.ended {r r' : EStateM.Result Stop Machine (List Value)} (h : R.Tells M r r') : ¬ Midway r ∧ ¬ Midway r' := by
  cases h <;> exact ⟨id, id⟩

section

variable (rest : R.program.AtRest) (onePlace : R.program.OnePlace) (served : R.program.Served) (shown : R.program.ServedAtTop)
  (pure : R.program.hosts.Pure) {r r' : Request} {l d : Nat}
include rest onePlace served shown pure

/-- A request that comes to its end within the depth of the rehearsal does so in the rehearsal. -/
lemma Recalls.leads (h : R.Recalls M x y) (twin : Request.Twin R.region M r r') (within : l ≤ R.depth)
    (ended : ¬ Midway (r.answer R.program l x)) :
    R.Tells M (r.answer R.program l x) (r'.answerOver R.program (Task.rehearse R.program R.depth) y) := by
  have allows : Slack.left.Allows R.depth R.order.length l R.depth := ⟨within, within⟩
  have ends := Ahead.answerOver_along (T := R.after .left x y M h.keeps) rest onePlace served shown pure (h.whole .left) allows twin x y
    (h.beside .left)
  rw [Request.answer_eq] at ended ⊢
  change (R.after .left x y M h.keeps).lockstep.Ends M _ (r.answerOver R.program (Task.run R.program l) x)
    (r'.answerOver R.program (Task.rehearse R.program R.depth) y) at ends
  generalize r.answerOver R.program (Task.run R.program l) x = result at ends ended ⊢
  generalize r'.answerOver R.program (Task.rehearse R.program R.depth) y = result' at ends ⊢
  cases ends with
  | ok within beside all => exact .answered within (recalls_of_whole (h.whole .left) beside) all
  | @stop M' s x' y' within beside =>
    cases s with
    | error e => exact .failed within (recalls_of_whole (h.whole .left) beside)
    | outOfFuel => exact absurd trivial ended
  | left => exact absurd trivial ended
  | right slack => cases slack

/-- A request that comes to its end in the rehearsal does so with depth to spare for all modules. -/
lemma Recalls.follows (h : R.Recalls M x y) (twin : Request.Twin R.region M r r') (spare : d + R.order.length * (R.depth + 2) ≤ l)
    (ended : ¬ Midway (r'.answerOver R.program (Task.rehearse R.program d) y)) :
    R.Tells M (r.answer R.program l x) (r'.answerOver R.program (Task.rehearse R.program d) y) := by
  have ends := Ahead.answerOver_along (T := R.after .right x y M h.keeps) rest onePlace served shown pure (h.whole .right) spare twin x y
    (h.beside .right)
  rw [Request.answer_eq]
  change (R.after .right x y M h.keeps).lockstep.Ends M _ (r.answerOver R.program (Task.run R.program l) x)
    (r'.answerOver R.program (Task.rehearse R.program d) y) at ends
  generalize r.answerOver R.program (Task.run R.program l) x = result at ends ⊢
  generalize r'.answerOver R.program (Task.rehearse R.program d) y = result' at ends ended ⊢
  cases ends with
  | ok within beside all => exact .answered within (recalls_of_whole (h.whole .right) beside) all
  | @stop M' s x' y' within beside =>
    cases s with
    | error e => exact .failed within (recalls_of_whole (h.whole .right) beside)
    | outOfFuel => exact absurd trivial ended
  | left slack => cases slack
  | right => exact absurd trivial ended

end

/-- Where imports have no cycles, all modules that can be used can be rehearsed. -/
lemma exists_rehearsal {p : Program} (rest : p.AtRest) (acyclic : ∀ id, ¬ Relation.TransGen p.Imports id id) (depth : Nat) :
    ∃ R : Rehearsal, R.program = p ∧ R.depth = depth := by
  classical
  -- modules in the order of how many modules their imports lead to
  let rank (id : Nat) : Nat := ((Finset.range p.modules.size).filter fun other => Relation.TransGen p.Imports id other).card
  let ids := (List.range p.modules.size).filter fun id => decide (p.Usable id)
  let order := ids.insertionSort fun a b => rank a ≤ rank b
  have sorted : order.Pairwise fun a b => rank a ≤ rank b := List.pairwise_insertionSort _ _
  have same : order.Perm ids := List.perm_insertionSort _ _
  have usable {id : Nat} : id ∈ order ↔ p.Usable id := by
    rw [same.mem_iff, List.mem_filter, List.mem_range, decide_eq_true_eq, and_iff_right_iff_imp]
    exact fun usable => (rest.usable_iff.1 usable).1
  have less {id target : ModuleId} (imports : p.Imports id target) : rank target < rank id := by
    refine Finset.card_lt_card ((Finset.ssubset_iff_of_subset fun other => ?_).2 ⟨target, ?_, ?_⟩)
    · simp only [Finset.mem_filter]
      exact fun ⟨inside, way⟩ => ⟨inside, .head imports way⟩
    · exact Finset.mem_filter.2 ⟨Finset.mem_range.2 (rest.sound.imports (Or.inl imports)).1, .single imports⟩
    · simp only [Finset.mem_filter]
      exact fun ⟨_, way⟩ => acyclic target way
  refine ⟨⟨p, order, depth, same.nodup_iff.2 (List.nodup_range.filter _), fun {i id target} here imports => ?_, usable⟩, rfl, rfl⟩
  obtain ⟨j, there⟩ := List.getElem?_of_mem (usable.2 (rest.import_usable (usable.1 (List.mem_of_getElem? here)) imports))
  refine ⟨j, Nat.lt_of_not_le fun le => ?_, there⟩
  obtain ⟨inside, rfl⟩ := List.getElem?_eq_some_iff.1 here
  obtain ⟨inside', rfl⟩ := List.getElem?_eq_some_iff.1 there
  have up : rank order[i] ≤ rank order[j] := by
    rcases Nat.eq_or_lt_of_le le with same | before
    · simp only [same, le_refl]
    · exact List.pairwise_iff_getElem.1 sorted i j inside inside' before
  exact absurd (less imports) (Nat.not_lt_of_le up)

end Rehearsal

/-! ### What has been asked before -/

/-- Two computations have come to the same end: with the same error, or with values that differ only in frames and identities. These
correspond one by one, and the same holds of the values in frames that correspond. -/
inductive Eval.EndAlike : EStateM.Result Stop Machine (List Value) → EStateM.Result Stop Machine (List Value) → Prop where
  | values {M vs ws x y} :
    M.Carries (fun _ _ => True) x.heap y.heap →
    List.Forall₂ (Value.Alike M fun _ _ => True) vs ws →
    EndAlike (.ok vs x) (.ok ws y)
  | error {e x y} :
    EndAlike (.error (.error e) x) (.error (.error e) y)

namespace Dialogue

/-- Requests are made with closures that come from answers, and come to their ends. Before each, identities may be given away to
objects that are made elsewhere, which the values of requests may hold; requests themselves give away none of these identities. -/
def LeadsHolding (p : Program) (elsewhere : Nat → Prop) : Dialogue → Dialogue → Prop :=
  Relation.ReflTransGen fun d d' => ∃ r fuel n, d.machine.fresh ≤ n ∧ r.Hands (·.ComposedOf d.known) ∧ r.Issued n ∧
    Asks p r fuel { d with machine := d.machine.reserving n } d' ∧ ∀ i, elsewhere i → i < d'.machine.fresh → i < n

end Dialogue

namespace Rehearsal

/-- Computations that tell the same as one of a rehearsal end alike. -/
lemma Tells.meet {R : Rehearsal} {N : Matching} {r r' s : EStateM.Result Stop Machine (List Value)} (h : R.Tells M r s)
    (h' : R.Tells N r' s) : EndAlike r r' := by
  cases h with
  | answered _ recalls all =>
    cases h' with
    | answered _ recalls' all' =>
      have carries := ((recalls.beside .left).toCarries.meet (recalls'.beside .left).toCarries).recode fun _ _ _ => trivial
      exact .values carries ((Value.Alike.all_meet _ all all').imp fun v _ alike => alike.mono .refl fun _ _ _ => trivial)
  | failed =>
    cases h' with
    | failed => exact .error

end Rehearsal

section

variable {p : Program} (rest : p.AtRest) (onePlace : p.OnePlace) (served : p.Served) (shown : p.ServedAtTop) (pure : p.hosts.Pure)
  {d : Dialogue} {r : Request} {elsewhere : Nat → Prop}
include rest onePlace served shown pure

/-- Whatever has been asked, the machine is beside all rehearsals that are deep enough, and what was made elsewhere is not taken for what
a module makes. -/
lemma Dialogue.LeadsHolding.recalled (leads : LeadsHolding p elsewhere .start d) :
    ∃ least, ∀ R : Rehearsal, R.program = p → least ≤ R.depth → ∃ M y known, R.Recalls M d.machine y ∧
      List.Forall₂ (R.region.Alike M) d.known known ∧ ∀ i, elsewhere i → i < d.machine.fresh → R.Aside M i := by
  induction leads with
  | refl =>
    refine ⟨0, fun R _ _ => ⟨⟨fun _ _ => False, fun _ _ => False⟩, R.stage R.order.length, [], ?_, .nil, ?_⟩⟩
    · exact R.recalls_new (n := 0) .refl (fun _ => .refl) ⟨⟨nofun, nofun⟩, nofun, nofun⟩ (fun _ _ => id) nofun
    · exact fun i _ taken => absurd taken (Nat.not_lt_zero i)
  | @tail d d' _ asks ih =>
    obtain ⟨least, recalled⟩ := ih
    obtain ⟨r, fuel, n, since, composed, issued, asks, others⟩ := asks
    refine ⟨max least fuel, fun R same deep => ?_⟩
    obtain ⟨M, y, known, recalls, all, aside⟩ := recalled R same (Nat.le_trans (Nat.le_max_left _ _) deep)
    subst same
    obtain ⟨M₁, y₁, within₁, recalls, aside₁⟩ := recalls.reserve since
    replace all := Region.Alike.all_mono all within₁
    obtain ⟨M₂, y₂, r', within₂, recalls, twin⟩ := recalls.request all composed issued
    replace all := Region.Alike.all_mono all within₂
    have aside₂ (i : Nat) (made : elsewhere i) (taken : i < d'.machine.fresh) : R.Aside M₂ i := by
      rcases Nat.lt_or_ge i d.machine.fresh with early | late
      · exact (aside i made early).mono (within₁.trans within₂)
      · exact (aside₁ i late (others i made taken)).mono within₂
    have leads := recalls.leads rest onePlace served shown pure twin (Nat.le_trans (Nat.le_max_right _ _) deep)
    cases asks with
    | answered answer =>
      have tells := leads (by simp [answer, Midway])
      rw [answer] at tells
      generalize r'.answerOver _ _ _ = result at tells
      cases tells with
      | answered within recalls' answers =>
        exact ⟨_, _, _, recalls', List.rel_append answers (Region.Alike.all_mono all within), fun i made taken =>
          (aside₂ i made taken).mono within⟩
    | failed answer =>
      have tells := leads (by simp [answer, Midway])
      rw [answer] at tells
      generalize r'.answerOver _ _ _ = result at tells
      cases tells with
      | failed within recalls' =>
        exact ⟨_, _, _, recalls', Region.Alike.all_mono all within, fun i made taken => (aside₂ i made taken).mono within⟩

/-- A request without closures, and without objects that the machine has made, ends as on a machine that has not been asked anything. -/
theorem Dialogue.LeadsHolding.afresh (acyclic : ∀ id, ¬ Relation.TransGen p.Imports id id) (leads : LeadsHolding p elsewhere .start d)
    (since : d.machine.fresh ≤ n) {k : Nat} (composed : r.Hands (·.ComposedOf []))
    (made : r.Hands (·.Identified fun i => elsewhere i ∧ i < n ∧ i < k)) :
    ((∃ fuel, ¬ Midway (r.answer p fuel (d.machine.reserving n))) ↔ ∃ fuel, ¬ Midway (r.answer p fuel (Machine.new.reserving k))) ∧
      ∀ fuel fuel', ¬ Midway (r.answer p fuel (d.machine.reserving n)) → ¬ Midway (r.answer p fuel' (Machine.new.reserving k)) →
        EndAlike (r.answer p fuel (d.machine.reserving n)) (r.answer p fuel' (Machine.new.reserving k)) := by
  obtain ⟨least, recalled⟩ := leads.recalled rest onePlace served shown pure
  -- both machines are beside a rehearsal that is as deep as the history and something else
  have deep (depth : Nat) : ∃ (R : Rehearsal) (M N : Matching) (y : Machine) (r' : Request), R.program = p ∧ depth ≤ R.depth ∧
      R.Recalls M (d.machine.reserving n) y ∧ R.Recalls N (Machine.new.reserving k) y ∧ Request.Twin R.region M r r' ∧
        Request.Twin R.region N r r' := by
    obtain ⟨R, rfl, deep⟩ := Rehearsal.exists_rehearsal rest acyclic (max least depth)
    obtain ⟨M, y, -, recalls, -, aside⟩ := recalled R rfl (deep ▸ Nat.le_max_left _ _)
    obtain ⟨M', y', within, recalls, aside'⟩ := recalls.reserve since
    have pairs (i : Nat) (foreign : elsewhere i ∧ i < n ∧ i < k) : ∃ j, (R.asides M' k).identities i j := by
      obtain ⟨made, inside, inside'⟩ := foreign
      have aside : R.Aside M' i := by
        rcases Nat.lt_or_ge i d.machine.fresh with early | late
        · exact (aside i made early).mono within
        · exact aside' i late inside
      exact aside.imp fun j ⟨pair, beyond⟩ => ⟨pair, beyond, inside'⟩
    have each (v : Value) (composed : v.ComposedOf []) (identified : v.Identified fun i => elsewhere i ∧ i < n ∧ i < k) :
        ∃ w, R.region.Alike (R.asides M' k) v w :=
      Value.Alike.partner (N := .only _) (fun i _ pair => pairs i pair.2) v identified (Rehearsal.Recalls.made composed .nil)
    obtain ⟨r', twin⟩ := (composed.both made each).twin
    exact ⟨R, M', _, y', r', rfl, deep ▸ Nat.le_max_right _ _, recalls, recalls.new, twin.mono ⟨False.elim, And.left⟩, twin⟩
  refine ⟨⟨fun ⟨fuel, ended⟩ => ?_, fun ⟨fuel, ended⟩ => ?_⟩, fun fuel fuel' ended ended' => ?_⟩
  · obtain ⟨R, M, N, y, r', rfl, within, recalls, recalls', twin, twin'⟩ := deep fuel
    have tells := recalls.leads rest onePlace served shown pure twin within ended
    exact ⟨_, (recalls'.follows rest onePlace served shown pure twin' (Nat.le_refl _) tells.ended.2).ended.1⟩
  · obtain ⟨R, M, N, y, r', rfl, within, recalls, recalls', twin, twin'⟩ := deep fuel
    have tells := recalls'.leads rest onePlace served shown pure twin' within ended
    exact ⟨_, (recalls.follows rest onePlace served shown pure twin (Nat.le_refl _) tells.ended.2).ended.1⟩
  · obtain ⟨R, M, N, y, r', rfl, within, recalls, recalls', twin, twin'⟩ := deep (max fuel fuel')
    have tells := recalls.leads rest onePlace served shown pure twin (Nat.le_trans (Nat.le_max_left _ _) within) ended
    have tells' := recalls'.leads rest onePlace served shown pure twin' (Nat.le_trans (Nat.le_max_right _ _) within) ended'
    exact tells.meet tells'

end

namespace Program

/-- Answers do not depend on what was asked before. Behind any loads without import cycles, where host functions are pure, and after
any requests that came to their ends, be it with errors, a request comes to its end just if it does on a machine that has not been
asked anything, and then both have come to the same end: with the same error, or with values that differ only in the frames of
functions and in what tells functions and objects from each other.

The earlier requests are made with closures that come from answers. The request itself is made without closures, and its objects have
been made elsewhere, whether or not the machine has been given them before: what comes from answers means nothing on another machine.
Identities are given away to such objects on both machines; if there are none, the second machine may be just the new one. -/
theorem answers_afresh (sources : Sources) (policy : GlobPolicy) (hosts : Hosts) (paths : List String)
    (acyclic : ∀ id, ¬ Relation.TransGen ((new sources policy hosts).loadAll paths).Imports id id) (pure : hosts.Pure)
    {elsewhere : Nat → Prop} {d : Dialogue} (leads : Dialogue.LeadsHolding ((new sources policy hosts).loadAll paths) elsewhere .start d)
    {r : Request} {n k : Nat} (since : d.machine.fresh ≤ n) (composed : r.Hands (·.ComposedOf []))
    (made : r.Hands (·.Identified fun i => elsewhere i ∧ i < n ∧ i < k)) :
    let p := (new sources policy hosts).loadAll paths
    let m := d.machine.reserving n
    let fresh := Machine.new.reserving k
    ((∃ fuel, ¬ Midway (r.answer p fuel m)) ↔ ∃ fuel, ¬ Midway (r.answer p fuel fresh)) ∧
      ∀ fuel fuel', ¬ Midway (r.answer p fuel m) → ¬ Midway (r.answer p fuel' fresh) →
        EndAlike (r.answer p fuel m) (r.answer p fuel' fresh) := by
  intro p m fresh
  obtain ⟨rest, same⟩ : p.AtRest ∧ p.hosts = hosts := atRest_new.loadAll paths
  have importing := rest.importing acyclic
  exact leads.afresh rest loadAll_onePlace (loadAll_served importing) (loadAll_servedAtTop importing) (same ▸ pure) acyclic since composed
    made

/-- Texts of which one defines a function, one gives it away, and one fails. -/
def handing : Texts := .ofList [("lib.kcl", "export x = true\nexport f = () => x\n"),
  ("main.kcl", "import * from \"lib\"\nexport g = () => f\n"), ("bad.kcl", "import \"main\"\nexport y = -true\n")]

/-- To put an object into an array. -/
def keeping : Request :=
  .query (.call (.host "push") [.array [], .object "Solid" 0 .unit] [])

/-- An object that is made elsewhere has been put into an array, a module has been asked for that failed, and a function has been called
that gives another away. The module of that one, asked for the function itself, answers with one in another frame than if nothing had
been asked. The same object is put into an array as if nothing had been asked. -/
theorem answers_afresh_handing :
    let p := (new (.ofTexts handing) .eager .prelude).loadAll ["bad"]
    ∃ d e f g m m', Dialogue.LeadsHolding p (· = 0) .start d ∧ d.machine.states.lookup 0 = some (.failed e) ∧
      (Request.query (.value 2 "f")).answer p 9 d.machine = .ok [.closure f] m ∧
      (Request.query (.value 2 "f")).answer p 9 .new = .ok [.closure g] m' ∧ f.frame ≠ g.frame ∧
      EndAlike (.ok [.closure f] m) (.ok [.closure g] m') ∧
      EndAlike (keeping.answer p 9 d.machine) (keeping.answer p 9 (Machine.new.reserving 1)) := by
  intro p
  have computed : (∀ id < p.modules.size, (p.resolvedOf id).all fun t =>
        t.imports.entries.all fun entry => decide (id < (entry.2 : Nat))) ∧
      gives (fun _ m₀ => decide (0 < m₀.fresh) &&
        failsWith (fun e m₁ => decide (0 < m₁.fresh) &&
          gives (fun v m₂ => decide (0 < m₂.fresh) && v.closure?.any fun f => decide (f.identity < m₂.fresh) &&
            gives (fun _ m₃ => decide (0 < m₃.fresh) && decide (m₃.states.lookup 0 = some (.failed e)) &&
              (gives (fun v _ => v.closure?.any fun f =>
                gives (fun v _ => v.closure?.any fun g => decide (f.frame ≠ g.frame)) ((Query.value 2 "f").answer p 9 .new))
              ((Query.value 2 "f").answer p 9 m₃) &&
              gives (fun _ _ => true) (keeping.answer p 9 m₃)))
            ((Request.query (.call (.closure f) [] [])).answer p 9 m₂))
          ((Query.value 1 "g").answer p 9 m₁))
        ((Request.query (.value 0 "y")).answer p 9 m₀))
      (keeping.answer p 9 (Machine.new.reserving 1)) = true := by
    decide +kernel
  obtain ⟨ascending, asked⟩ := computed
  simp only [failsWith_iff, gives_iff, Option.any_eq_true, Bool.and_eq_true, decide_eq_true_eq, Value.closure?_eq_some] at asked
  obtain ⟨vs, m₀, put, positive, e, m₁, failed, positive₁, _, m₂, got, positive₂, h, rfl, owned, ws, m₃, called, ⟨positive₃, state⟩,
    ⟨_, m, answer, f, rfl, _, m', answer', g, rfl, apart⟩, _, _, again, -⟩ := asked
  replace got := Request.answer_query got
  replace answer := Request.answer_query answer
  replace answer' := Request.answer_query answer'
  have composed : keeping.Hands (·.ComposedOf []) := by
    have push : (Value.host "push").ComposedOf [] := fun f inside => Or.inr ⟨"push", List.mem_singleton.1 inside⟩
    exact ⟨push, by simp [Value.ComposedOf, Value.Holds, Value.functions, Value.allFunctions], by simp⟩
  have leads : Dialogue.LeadsHolding p (· = 0) .start ⟨m₃, ws ++ ([.closure h] ++ (vs ++ []))⟩ := by
    have holds : keeping.Issued 1 := by
      have object : (Value.object "Solid" 0 .unit).Issued 1 := Value.issued_object.2 ⟨Nat.zero_lt_one, .unit⟩
      exact ⟨.host, List.forall_mem_cons.2 ⟨.array .nil, List.forall_mem_singleton.2 object⟩, by simp⟩
    have composed' : (Request.query (.call (.closure h) [] [])).Hands (·.ComposedOf ([.closure h] ++ (vs ++ []))) :=
      ⟨fun f inside => Or.inl ⟨_, List.mem_cons_self, inside⟩, by simp, by simp⟩
    have owns : (Request.query (.call (.closure h) [] [])).Issued m₂.fresh := ⟨Value.issued_closure.2 owned, by simp, by simp⟩
    refine .tail (.tail (.tail (.single ⟨keeping, 9, 1, Nat.zero_le 1, composed, holds, .answered put, ?_⟩)
      ⟨.query (.value 0 "y"), 9, m₀.fresh, Nat.le_refl _, trivial, trivial, .failed failed, ?_⟩)
      ⟨.query (.value 1 "g"), 9, m₁.fresh, Nat.le_refl _, trivial, trivial, .answered got, ?_⟩)
      ⟨_, 9, m₂.fresh, Nat.le_refl _, composed', owns, .answered called, ?_⟩
    · exact fun i zero _ => zero ▸ Nat.zero_lt_one
    · exact fun i zero _ => zero ▸ positive
    · exact fun i zero _ => zero ▸ positive₁
    · exact fun i zero _ => zero ▸ positive₂
  have afresh {r : Request} {k : Nat} (composed : r.Hands (·.ComposedOf []))
      (made : r.Hands (·.Identified fun i => i = 0 ∧ i < m₃.fresh ∧ i < k)) :=
    answers_afresh _ _ _ _ (acyclic_of_ascending ascending) Hosts.prelude_pure leads (Nat.le_refl _) composed made
  have ends : EndAlike ((Request.query (.value 2 "f")).answer p 9 m₃) ((Request.query (.value 2 "f")).answer p 9 .new) := by
    have composed : (Request.query (.value 2 "f")).Hands (·.ComposedOf []) := trivial
    have made : (Request.query (.value 2 "f")).Hands (·.Identified fun i => i = 0 ∧ i < m₃.fresh ∧ i < 0) := trivial
    exact (afresh composed made).2 9 9 (answer ▸ not_false) (answer' ▸ not_false)
  have made : keeping.Hands (·.Identified fun i => i = 0 ∧ i < m₃.fresh ∧ i < 1) := by
    have object : (Value.object "Solid" 0 .unit).Identified fun i => i = 0 ∧ i < m₃.fresh ∧ i < 1 :=
      .object ⟨rfl, rfl, positive₃, Nat.zero_lt_one⟩ .unit
    exact ⟨.host, List.forall_mem_cons.2 ⟨.array .nil, List.forall_mem_singleton.2 object⟩, by simp⟩
  refine ⟨_, e, f, g, m, m', leads, state, answer, answer', apart, answer ▸ answer' ▸ ends, ?_⟩
  exact (afresh composed made).2 9 9 (again ▸ not_false) (put ▸ not_false)

/-- A value that a program answers is another one after a function has been called that does not come from an answer, though no
module imports another and host functions are pure. -/
theorem not_answers_afresh_changed :
    (∀ id, ¬ Relation.TransGen constant.Imports id id) ∧ constant.hosts.Pure ∧ constant.Usable 0 ∧
    ∃ d m m', Dialogue.Leads constant .start d ∧ (Request.query (.value 0 "t")).answer constant 9 d.machine = .ok [.bool false] m ∧
      (Request.query (.value 0 "t")).answer constant 9 .new = .ok [.bool true] m' ∧
      ¬ EndAlike (.ok [.bool false] m) (.ok [.bool true] m') := by
  have computed : (∀ id < constant.modules.size, (constant.resolvedOf id).all fun t =>
        t.imports.entries.all fun entry => decide (id < (entry.2 : Nat))) ∧
      (constant.modules[0]?.any fun loaded => loaded.isUsable) = true ∧
      gives (fun v m => (v.bool? == some true) &&
          gives (fun _ m' => gives (fun v _ => v.bool? == some false) ((Query.value 0 "t").answer constant 9 m'))
            ((Query.call change [] []).answer constant 9 m))
        ((Query.value 0 "t").answer constant 9 .new) = true := by
    decide +kernel
  obtain ⟨ascending, usable, asked⟩ := computed
  obtain ⟨loaded, found, fine⟩ := Option.any_eq_true _ _ |>.1 usable
  simp only [gives_iff, Bool.and_eq_true, beq_iff_eq, Value.bool?_eq_some] at asked
  obtain ⟨_, m', fresh, rfl, v, m₁, called, _, m, later, rfl⟩ := asked
  replace fresh := Request.answer_query fresh
  have leads : Dialogue.Leads constant .start ⟨m₁, [v, .bool true]⟩ :=
    .tail (.single ⟨_, 9, .answered fresh⟩) ⟨_, 9, .answered (Request.answer_query called)⟩
  have hosts : constant.hosts = .prelude := (atRest_new.loadAll _).2
  refine ⟨acyclic_of_ascending ascending, hosts ▸ Hosts.prelude_pure, ⟨loaded, found, fine⟩, ⟨m₁, [v, .bool true]⟩, m, m', leads,
    Request.answer_query later, fresh, fun alike => ?_⟩
  cases alike with
  | values _ all =>
    cases all with
    | cons same _ => cases same

end Program

end PipeLang
