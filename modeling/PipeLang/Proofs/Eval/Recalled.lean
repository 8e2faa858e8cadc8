import PipeLang.Proofs.Eval.Issued
import PipeLang.Proofs.Eval.Rehearsed

/-!
# Requests beside a rehearsal

A request that is made on a machine beside a rehearsal is answered as it is in the rehearsal, `Ahead.answerOver_along`. Between requests a
machine is beside a rehearsal whatever it has been asked before: `Rehearsal.Recalls`.
-/

namespace PipeLang

open Eval

/-- The same request, with values that are alike. -/
inductive Request.Twin (T : Region) (M : Matching) : Request → Request → Prop where
  | module {id} :
    Twin T M (.query (.module id)) (.query (.module id))
  | value {id name} :
    Twin T M (.query (.value id name)) (.query (.value id name))
  | assembly {id} :
    Twin T M (.query (.assembly id)) (.query (.assembly id))
  | call {v w vs ws ks ks'} :
    T.Alike M v w →
    List.Forall₂ (T.Alike M) vs ws →
    List.Forall₂ (sameKey (T.Alike M)) ks ks' →
    Twin T M (.query (.call v vs ks)) (.query (.call w ws ks'))
  | entry {id args args' e} :
    List.Forall₂ (fun a b : EntryArgument => b.name = a.name ∧ T.Alike M a.value b.value) args args' →
    Twin T M (.entry id args e) (.entry id args' e)

namespace EntryArgument

variable {R : Value → Value → Prop} {args args' : List EntryArgument}

lemma positional_alike (same : List.Forall₂ (fun a b : EntryArgument => b.name = a.name ∧ R a.value b.value) args args') :
    List.Forall₂ R (positional args) (positional args') := by
  induction same with
  | nil => exact .nil
  | @cons a b args args' first _ ih =>
    simp only [positional, List.filterMap_cons, first.1] at ih ⊢
    cases a.name with
    | none => exact .cons first.2 ih
    | some name => exact ih

lemma keyword_alike (same : List.Forall₂ (fun a b : EntryArgument => b.name = a.name ∧ R a.value b.value) args args') :
    List.Forall₂ (sameKey R) (keyword args) (keyword args') := by
  induction same with
  | nil => exact .nil
  | @cons a b args args' first _ ih =>
    simp only [keyword, List.filterMap_cons, first.1] at ih ⊢
    cases a.name with
    | none => exact ih
    | some name => exact .cons ⟨rfl, first.2⟩ ih

end EntryArgument

namespace Ahead

/-- All modules that can be used have been run beforehand, and no other module has been begun. -/
structure Whole (T : Ahead) : Prop where
  alone : T.owner = none
  all : T.count = T.rehearsal.order.length
  blank : ∀ {id}, ¬ T.rehearsal.program.Usable id → Machine.SameAt id .new T.left

variable {T : Ahead} {M M' : Matching} {x y : Machine} {id : ModuleId} {name : String} {l d : Nat}

namespace Whole

lemma unowned (h : T.Whole) : T.owner ≠ some id := by
  rw [h.alone]
  exact (Option.some_ne_none id).symm

lemma early (h : T.Whole) (usable : T.rehearsal.program.Usable id) : T.rehearsal.Early T.count id := by
  obtain ⟨i, there⟩ := List.getElem?_of_mem (T.rehearsal.usable.2 usable)
  exact ⟨i, h.all ▸ (List.getElem?_eq_some_iff.1 there).1, there⟩

/-- Nothing is known of a module that cannot be used. -/
lemma fresh (h : T.Whole) (beside : T.Beside M x y) (unusable : ¬ T.rehearsal.program.Usable id) :
    Machine.SameAt id .new x ∧ Machine.SameAt id .new y := by
  have late : ¬ T.rehearsal.Early T.count id := fun ⟨i, _, here⟩ => unusable (T.rehearsal.usable.1 (List.mem_of_getElem? here))
  exact ⟨(h.blank unusable).trans (beside.beyond late h.unowned), (Rehearsal.stage_blank late).trans (beside.known h.unowned)⟩

/-- Modules that have run have run in the rehearsal, and so have all that they import. -/
lemma closed (h : T.Whole) (beside : T.Beside M x y) :
    T.rehearsal.program.ClosedAtTop fun id => x.states.lookup id = some .done := by
  intro id target done imports
  have usable {id : ModuleId} (known : x.states.lookup id ≠ none) : T.rehearsal.program.Usable id := by
    by_contra unusable
    exact known (h.fresh beside unusable).1.state
  have started := beside.imports done imports
  have early := h.early (usable started)
  have run := (beside.stage_done (h.early (usable (by simp [done]))) done).1
  have run' : T.stage.states.lookup target = some .done := Rehearsal.stage_closed run imports
  cases beside.mirrors early with
  | blank blank => exact absurd blank.state started
  | failed _ failed => cases failed.symm.trans run'
  | done known => exact known

end Whole

section

variable (rest : T.rehearsal.program.AtRest) (onePlace : T.rehearsal.program.OnePlace) (served : T.rehearsal.program.Served)
  (shown : T.rehearsal.program.ServedAtTop) (pure : T.rehearsal.program.hosts.Pure) (whole : T.Whole)
include whole

/-- The value of a name at the top level of a module that has run. -/
lemma topLevelValue_alike (shown : T.rehearsal.program.ServedAtTop) (beside : T.Beside M x y) (done : x.states.lookup id = some .done)
    (name : String) : Option.Rel (T.region.Alike M) (topLevelValue? T.rehearsal.program x id name)
      (topLevelValue? T.rehearsal.program y id name) := by
  have usable {id : ModuleId} (done : x.states.lookup id = some .done) : T.rehearsal.program.Usable id := by
    by_contra unusable
    cases (whole.fresh beside unusable).1.state.symm.trans done
  have records {id : ModuleId} (done : x.states.lookup id = some .done) : x.AlikeAt M T.region.code id y :=
    beside.alikeAt (whole.early (usable done)) done
  unfold topLevelValue?
  simp only [Option.bind_eq_bind]
  cases found : T.rehearsal.program.modules[(id : Nat)]? with
  | none => exact .none
  | some l =>
    cases resolved : l.resolved with
    | none => simp only [Option.bind_some, resolved]; exact .none
    | some t =>
      simp only [Option.bind_some, resolved]
      cases binding : t.topLevel? name with
      | none => exact .none
      | some b =>
        simp only [Option.bind_some]
        cases target : b.target with
        | inner b =>
          have pair := (records done).root
          dsimp only
          generalize x.roots.lookup id = o at pair ⊢
          generalize y.roots.lookup id = o' at pair ⊢
          cases pair with
          | none => exact .none
          | some pair => exact beside.get pair b
        | item source item =>
          have known : T.rehearsal.program.resolvedOf id = some t := by simp [Program.resolvedOf, found, resolved]
          exact (records (shown (usable done) (whole.closed beside) done known binding target)).items item
        | module _ | invalid => exact .none
        | host name => exact .some .host

variable (allows : T.slack.Allows T.rehearsal.depth T.count l d)
include rest onePlace served pure allows

/-- A module is asked for. -/
lemma Beside.requested (beside : T.Beside M x y) :
    T.Forced M id y (Task.run T.rehearsal.program l (.module id) x) (Task.rehearse T.rehearsal.program d (.module id) y) := by
  by_cases usable : T.rehearsal.program.Usable id
  · exact beside.asked rest onePlace served (whole.early usable) allows (detours_along rest onePlace served pure rfl allows)
  · obtain ⟨fresh, fresh'⟩ := whole.fresh beside usable
    cases l with
    | zero => exact .out allows (Or.inl rfl)
    | succ l =>
      cases d with
      | zero => exact .out allows (Or.inr rfl)
      | succ d =>
        have unfit : ¬ (y.states.lookup id = none ∧ (T.rehearsal.program.modules[(id : Nat)]?.any LoadedModule.isUsable) = true) := by
          rintro ⟨-, fit⟩
          obtain ⟨l, found, fine⟩ := (Option.any_eq_true ..).1 fit
          exact usable ⟨l, found, fine⟩
        have steps : Task.rehearse T.rehearsal.program (d + 1) (.module id) y =
            step T.rehearsal.program (Task.rehearse T.rehearsal.program d) (.module id) y := if_neg unfit
        rw [steps, step_module_unusable _ fresh'.state usable,
          show Task.run _ (l + 1) (.module id) x = _ from step_module_unusable _ fresh.state usable]
        refine .stop .refl beside fun done => ?_
        cases ((beside.known whole.unowned).state.symm.trans fresh'.state).symm.trans done

include shown

/-- The value of a name at the top level of a module. -/
lemma valueOf_along :
    T.lockstep.Along M (valueOf T.rehearsal.program (Task.run T.rehearsal.program l) id name)
      (valueOf T.rehearsal.program (Task.rehearse T.rehearsal.program d) id name) T.region.Alike := by
  intro x y (beside : T.Beside M x y)
  have forced : T.Forced M id y (Task.run T.rehearsal.program l (.module id) x) (Task.rehearse T.rehearsal.program d (.module id) y) :=
    beside.requested rest onePlace served pure whole allows
  show T.lockstep.Ends M _ (EStateM.bind _ _ x) (EStateM.bind _ _ y)
  unfold EStateM.bind
  generalize Task.run _ l (.module id) x = result at forced ⊢
  generalize Task.rehearse _ d (.module id) y = result' at forced ⊢
  cases forced with
  | @ok M' x' within beside' alike ran =>
    have done := ran.resolve_left whole.unowned
    have same := topLevelValue_alike whole shown beside' done name
    have asked (m : Machine) : (get : Eval Machine) m = .ok m m := rfl
    dsimp only
    rw [bind_eq (asked x'), bind_eq (asked y)]
    generalize topLevelValue? T.rehearsal.program x' id name = o at same ⊢
    generalize topLevelValue? T.rehearsal.program y id name = o' at same ⊢
    cases same with
    | some alike => exact .ok within beside' alike
    | none => exact .stop within beside'
  | stop within beside' => exact .stop within beside'
  | left slack => exact .left slack
  | right slack => exact .right slack

/-- Starting at a name. -/
lemma runName_along {args args' : List EntryArgument}
    (same : List.Forall₂ (fun a b : EntryArgument => b.name = a.name ∧ T.region.Alike M a.value b.value) args args') :
    T.lockstep.Along M (runName T.rehearsal.program (Task.run T.rehearsal.program l) id args name)
      (runName T.rehearsal.program (Task.rehearse T.rehearsal.program d) id args' name) T.region.Alike := by
  refine (valueOf_along rest onePlace served shown pure whole allows).bind fun M' v w within alike => ?_
  replace same : List.Forall₂ (fun a b : EntryArgument => b.name = a.name ∧ T.region.Alike M' a.value b.value) args args' :=
    same.imp fun _ _ ⟨name, alike⟩ => ⟨name, alike.mono within⟩
  have positional := EntryArgument.positional_alike same
  have keyword := EntryArgument.keyword_alike same
  have empty : args'.isEmpty = args.isEmpty := by cases same <;> rfl
  have agree := run_along rest onePlace served pure rfl allows
  have constant (alike : T.region.Alike M' v w) :
      T.lockstep.Along M' (if args.isEmpty then Pure.pure v else fail (.notCallable ("`" ++ name ++ "`")))
        (if args'.isEmpty then Pure.pure w else fail (.notCallable ("`" ++ name ++ "`"))) T.region.Alike := by
    rw [empty]
    split
    · exact .pure alike
    · exact .fail
  cases alike with
  | closure alike => exact agree.task (.call (.closure alike) positional keyword)
  | host => exact agree.task (.call .host positional keyword)
  | unit => exact constant .unit
  | number => exact constant .number
  | bool => exact constant .bool
  | text => exact constant .text
  | array all => exact constant (.array all)
  | object same alike => exact constant (.object same alike)

/-- A request is answered as it is in the rehearsal. -/
theorem answerOver_along {r r' : Request} (twin : Request.Twin T.region M r r') :
    T.lockstep.Along M (r.answerOver T.rehearsal.program (Task.run T.rehearsal.program l))
      (r'.answerOver T.rehearsal.program (Task.rehearse T.rehearsal.program d)) fun M => List.Forall₂ (T.region.Alike M) := by
  have one {q q' : Query} (along : T.lockstep.Along M (q.answerOver T.rehearsal.program (Task.run T.rehearsal.program l))
      (q'.answerOver T.rehearsal.program (Task.rehearse T.rehearsal.program d)) T.region.Alike) :
      T.lockstep.Along M ((Request.query q).answerOver T.rehearsal.program (Task.run T.rehearsal.program l))
        ((Request.query q').answerOver T.rehearsal.program (Task.rehearse T.rehearsal.program d))
        fun M => List.Forall₂ (T.region.Alike M) :=
    along.bind fun _ _ _ _ alike => .pure (.cons alike .nil)
  cases twin with
  | module => exact one fun x y beside => (beside.requested rest onePlace served pure whole allows).ends
  | value => exact one (valueOf_along rest onePlace served shown pure whole allows)
  | assembly =>
    exact one (assembly_along fun beside => beside.requested rest onePlace served pure whole allows)
  | call alike all keyed => exact one ((run_along rest onePlace served pure rfl allows).task (.call alike all keyed))
  | @entry id args args' e same =>
    simp only [Request.answerOver]
    clear one
    induction e.names generalizing M with
    | nil => exact .pure .nil
    | cons name names ih =>
      simp only [List.mapM_cons]
      refine (runName_along rest onePlace served shown pure whole allows same).bind fun M₁ v w within alike => ?_
      refine (ih (same.imp fun _ _ both => ⟨both.1, both.2.mono within⟩)).bind fun M₂ vs ws within' all => ?_
      exact .pure (.cons (alike.mono within') all)

end

end Ahead

end PipeLang
