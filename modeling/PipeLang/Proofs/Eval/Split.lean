import PipeLang.Proofs.Eval.Reach

/-!
# Loops split

A loop over two lists one behind the other does what loops over each of them do. No iteration can observe another but through what it
is handed on, `Eval.loopOver_isolated`, as long as none can be the first that runs a module: all modules within reach have begun to run.
-/

namespace PipeLang

open Eval
open Relation (ReflTransGen)

/-! ### Heaps without tags -/

/-- What a heap has but for the values of some bindings in a frame. -/
def Heap.forget (h : Heap) (f : FrameId) (ids : List BindingId) : Heap :=
  h.modify f fun frame => { frame with values := frame.values.filter fun entry => !ids.contains entry.1 }

namespace Heap

variable {h : Heap} {f : FrameId} {id : BindingId} {ids : List BindingId} {v : Value}

lemma getElem?_forget {g : Nat} : (h.forget f ids)[g]? = if f = g then
    h[g]?.map fun frame => { frame with values := frame.values.filter fun entry => !ids.contains entry.1 } else h[g]? := by
  simp [forget, Array.getElem?_modify]

/-- What is forgotten may be given any value before. -/
lemma forget_define (among : id ∈ ids) : (h.define f id v).forget f ids = h.forget f ids := by
  refine Array.ext_getElem? fun g => ?_
  rw [getElem?_forget, getElem?_forget, getElem?_define]
  by_cases here : f = g
  · simp only [if_pos here]
    cases h[g]? with
    | none => rfl
    | some frame => simp [among]
  · simp only [if_neg here]

end Heap

namespace Matching

variable {M : Matching} {code : Code} {h h' : Heap} {f g : FrameId}

/-- What corresponds does so when it is forgotten in both heaps. -/
lemma Carries.forget (carries : M.Carries code h h') (ids : List BindingId) (pair : M.frames f g) :
    M.Carries code (h.forget f ids) (h'.forget g ids) where
  unique := carries.unique
  frames {f' g'} pair' := by
    obtain ⟨frame, frame', found, found', same⟩ := carries.frames pair'
    simp only [Heap.getElem?_forget, found, found', Option.map_some]
    by_cases here : f = f'
    · obtain rfl : g = g' := carries.unique.frames.2 pair (here ▸ pair')
      rw [if_pos here, if_pos rfl]
      refine ⟨_, _, rfl, rfl, same.outer, ?_⟩
      refine List.rel_filter (fun entry entry' related => ?_) same.values
      show (!ids.contains entry.1) = true ↔ (!ids.contains entry'.1) = true
      rw [related.1]
    · have there : g ≠ g' := fun e => here (carries.unique.frames.1 pair (e ▸ pair'))
      rw [if_neg here, if_neg there]
      exact ⟨frame, frame', rfl, rfl, same⟩

/-- Which literals are meant may be left open. -/
lemma Carries.anyCode (carries : M.Carries code h h') : M.Carries (fun _ _ => True) h h' where
  unique := carries.unique
  frames pair := by
    obtain ⟨frame, frame', found, found', same⟩ := carries.frames pair
    refine ⟨frame, frame', found, found', same.outer, same.values.imp fun _ _ ⟨key, alike⟩ => ⟨key, ?_⟩⟩
    exact alike.mono .refl fun _ _ _ => trivial

/-- Two values are the same on two machines up to identities: frames and identities correspond one by one, to what was there each to
itself, and frames that correspond have values that are alike, but for some bindings in a frame. -/
def Same (base : Matching) (f : FrameId) (ids : List BindingId) (v : Value) (m : Machine) (w : Value) (m' : Machine) : Prop :=
  ∃ M, base.Within M ∧ M.Carries (fun _ _ => True) (m.heap.forget f ids) (m'.heap.forget f ids) ∧ v.Alike M (fun _ _ => True) w

/-- The bindings that are left out may have any values. -/
lemma Same.of_forget {base : Matching} {ids : List BindingId} {v w : Value} {m m' m₁ : Machine} (h : base.Same f ids v m w m')
    (same : m₁.heap.forget f ids = m.heap.forget f ids) : base.Same f ids v m₁ w m' := by
  obtain ⟨M, within, carries, alike⟩ := h
  exact ⟨M, within, same ▸ carries, alike⟩

end Matching

/-- What iterations hand on in a loop that folds: the value of the last of them. -/
def Loop.handed (incoming : Option Value) (values : List Value) : Option Value :=
  incoming.map fun seed => values.getLast?.getD seed

/-- The tags that are collected when a loop comes to its end. -/
def Loop.collected (l : Loop) (t : Resolved) : List BindingId :=
  (t.loopTags.get? l.span).getD []

namespace Eval

variable {p : Program} {run : Task → Eval Value} {c : Context} {l : Loop} {bound? : Option BindingId} {t : Resolved}
  {m m' : Machine} {incoming : Option Value} {elements xs ys : List Value}

/-! ### Lists one behind the other -/

/-- What has been made before and further on. -/
def LoopProgress.then (progress further : LoopProgress) : LoopProgress :=
  ⟨further.folded, further.mapped ++ progress.mapped, further.frames ++ progress.frames⟩

/-- The value of a loop that has made all that it makes. -/
def LoopProgress.value (progress : LoopProgress) : Value :=
  match progress.folded with
  | some v => v
  | none => .array progress.mapped.reverse

namespace LoopProgress

lemma folded_handed {frames : List FrameId} {values : List Value} :
    (LoopProgress.after ⟨incoming, [], []⟩ frames values).folded = Loop.handed incoming values := by
  cases incoming <;> rfl

lemma value_after {frames : List FrameId} {values : List Value} :
    (LoopProgress.after ⟨incoming, [], []⟩ frames values).value = Loop.result incoming values := by
  cases incoming <;> simp [after, value, Loop.result]

lemma value_then {frames frames' : List FrameId} {values further : List Value} :
    (LoopProgress.then (.after ⟨incoming, [], []⟩ frames values)
      (.after ⟨Loop.handed incoming values, [], []⟩ frames' further)).value = Loop.result incoming (values ++ further) := by
  cases incoming with
  | none => simp [after, LoopProgress.then, value, Loop.handed, Loop.result]
  | some seed =>
    simp only [after, LoopProgress.then, value, Loop.handed, Loop.result, Option.map_some, List.getLast?_append]
    cases further.getLast? <;> rfl

end LoopProgress

lemma iteration_then {progress further : LoopProgress} {v : Value} : iteration run c l bound? (progress.then further) v =
    iteration run c l bound? further v >>= fun next => pure (progress.then next) := by
  obtain ⟨folded, mapped, frames⟩ := further
  cases bound? <;> cases folded <;> simp [iteration, LoopProgress.then]

/-- What iterations make does not depend on what has been made before, but for what they are handed on. -/
lemma iterations_then {progress further : LoopProgress} :
    elements.foldlM (iteration run c l bound?) (progress.then further) =
      elements.foldlM (iteration run c l bound?) further >>= fun last => pure (progress.then last) := by
  induction elements generalizing further with
  | nil => simp
  | cons v elements ih => simp only [List.foldlM_cons, iteration_then, bind_assoc, pure_bind, ih]

/-- The iterations of a loop over elements. -/
def iterationsOver (run : Task → Eval Value) (c : Context) (l : Loop) (t : Resolved) (incoming : Option Value)
    (elements : List Value) : Eval LoopProgress :=
  elements.foldlM (iteration run c l (t.declarations.get? l.binding.span)) ⟨incoming, [], []⟩

/-- The iterations over a second list begin with what those over the first hand on. -/
lemma iterationsOver_append : iterationsOver run c l t incoming (xs ++ ys) =
    iterationsOver run c l t incoming xs >>= fun between => iterationsOver run c l t between.folded ys >>= fun last =>
      pure (between.then last) := by
  rw [iterationsOver, List.foldlM_append]
  refine congrArg _ (funext fun between => ?_)
  have same : between = between.then ⟨between.folded, [], []⟩ := by simp [LoopProgress.then]
  conv => lhs; rw [same]
  exact iterations_then

/-! ### The end of a loop -/

/-- Two evaluations come to values that are related on the machines that they leave, or both stop for the same reason. -/
inductive Equally {α β : Type} (Q : α → Machine → β → Machine → Prop) :
    EStateM.Result Stop Machine α → EStateM.Result Stop Machine β → Prop where
  | ok {a m b m'} :
    Q a m b m' →
    Equally Q (.ok a m) (.ok b m')
  | stop {s m m'} :
    Equally Q (.error s m) (.error s m')

namespace Equally

variable {α β γ : Type} {Q Q' : α → Machine → β → Machine → Prop} {R : β → Machine → γ → Machine → Prop}
  {x : EStateM.Result Stop Machine α} {y : EStateM.Result Stop Machine β} {z : EStateM.Result Stop Machine γ}

lemma imp (h : Equally Q x y) (weaker : ∀ a m b m', Q a m b m' → Q' a m b m') : Equally Q' x y := by
  cases h with
  | ok h => exact .ok (weaker _ _ _ _ h)
  | stop => exact .stop

lemma trans (h : Equally Q x y) (h' : Equally R y z) : Equally (fun a m c m'' => ∃ b m', Q a m b m' ∧ R b m' c m'') x z := by
  cases h with
  | ok h =>
    cases h' with
    | ok h' => exact .ok ⟨_, _, h, h'⟩
  | stop =>
    cases h'
    exact .stop

end Equally

lemma collectTags_forget (c : Context) (m : Machine) (frames : List FrameId) {tags ids : List BindingId}
    (among : ∀ tag ∈ tags, tag ∈ ids) :
    ∃ m', tags.forM (collectTag c frames) m = .ok () m' ∧ m'.heap.forget c.frame ids = m.heap.forget c.frame ids := by
  induction tags generalizing m with
  | nil => exact ⟨m, rfl, rfl⟩
  | cons tag tags ih =>
    obtain ⟨first, others⟩ := List.forall_mem_cons.1 among
    let next : Machine := { m with heap := m.heap.define c.frame tag (.array (frames.filterMap fun f => m.heap.getLocal? f tag)) }
    obtain ⟨m', ran, same⟩ := ih next others
    exact ⟨m', ran, same.trans (Heap.forget_define first)⟩

/-- A loop comes to its end when its iterations do. Only its tags are given values then. -/
lemma closeLoop_ok (c : Context) (l : Loop) (t : Resolved) (last : LoopProgress) (m : Machine) : ∃ m', closeLoop c l t last m = .ok last.value m' ∧
    m'.heap.forget c.frame (l.collected t) = m.heap.forget c.frame (l.collected t) := by
  obtain ⟨m', ran, same⟩ := collectTags_forget c m last.frames.reverse fun tag (among : tag ∈ l.collected t) => among
  refine ⟨m', (bind_eq ran).trans ?_, same⟩
  obtain ⟨folded, mapped, frames⟩ := last
  cases folded <;> rfl

/-- A loop that has its elements comes to the value of its iterations, or stops where they do. -/
lemma loopOver_equally (run : Task → Eval Value) (l : Loop) (resolved : p.resolvedOf c.module = some t) (incoming : Option Value)
    (elements : List Value) (m : Machine) :
    Equally (fun v m₁ last m₂ => v = last.value ∧ m₁.heap.forget c.frame (l.collected t) = m₂.heap.forget c.frame (l.collected t))
      (loopOver p run c l incoming elements m) (iterationsOver run c l t incoming elements m) := by
  have runs : loopOver p run c l incoming elements = iterationsOver run c l t incoming elements >>= closeLoop c l t :=
    loopOver_eq resolved
  rw [runs]
  cases ran : iterationsOver run c l t incoming elements m with
  | ok last m' =>
    obtain ⟨m'', closed, same⟩ := closeLoop_ok c l t last m'
    rw [bind_eq ran, closed]
    exact .ok ⟨rfl, same⟩
  | error s m' =>
    rw [bind_stop ran]
    exact .stop

/-- Without elements a loop has the value that it begins with. -/
lemma loopOver_nil (resolved : p.resolvedOf c.module = some t) :
    ∃ m', loopOver p run c l incoming [] m = .ok (Loop.result incoming []) m' := by
  have none := loopOver_equally run l resolved incoming [] m
  generalize loopOver p run c l incoming [] m = result at none ⊢
  cases none with
  | ok h =>
    have value : LoopProgress.value ⟨incoming, [], []⟩ = Loop.result incoming [] := by cases incoming <;> rfl
    rw [h.1, value]
    exact ⟨_, rfl⟩

/-- A loop that comes to its end has run iterations, and its tags have been collected. -/
lemma loopOver_ok {v : Value} (resolved : p.resolvedOf c.module = some t) (ran : loopOver p run c l incoming elements m = .ok v m') :
    ∃ frames values between, l.Iterations run c (t.declarations.get? l.binding.span) incoming m elements frames values between ∧
      (l.collected t).forM (collectTag c frames) between = .ok () m' ∧ v = Loop.result incoming values := by
  rw [loopOver_eq resolved] at ran
  obtain ⟨last, between, iterations, ran⟩ := bind_ok ran
  obtain ⟨frames, values, each, rfl⟩ := iterations_ok iterations
  rw [closeLoop_after] at ran
  obtain ⟨_, _, collected, made⟩ := bind_ok ran
  cases made
  exact ⟨frames, values, between, each, collected, rfl⟩

/-- A loop that stops within a list stops so when more elements are behind. -/
lemma loopOver_stop {s : Stop} (ys : List Value) (resolved : p.resolvedOf c.module = some t)
    (ran : loopOver p run c l incoming xs m = .error s m') :
    ∃ m'', loopOver p run c l incoming (xs ++ ys) m = .error s m'' := by
  have first := loopOver_equally run l resolved incoming xs m
  have whole := loopOver_equally run l resolved incoming (xs ++ ys) m
  rw [ran] at first
  cases stopped : iterationsOver run c l t incoming xs m with
  | ok last between =>
    rw [stopped] at first
    cases first
  | error s' between =>
    rw [stopped] at first
    cases first
    rw [iterationsOver_append, bind_stop stopped] at whole
    generalize loopOver p run c l incoming (xs ++ ys) m = result at whole ⊢
    cases whole
    exact ⟨_, rfl⟩

/-- A loop over two lists one behind the other makes of the second what a loop over it makes when the iterations over the first have
run, with what these hand on. -/
lemma loopOver_behind {frames : List FrameId} {values : List Value} (ys : List Value) (resolved : p.resolvedOf c.module = some t)
    (first : l.Iterations run c (t.declarations.get? l.binding.span) incoming m xs frames values m') :
    Equally (fun v m₁ w m₂ => m₁.heap.forget c.frame (l.collected t) = m₂.heap.forget c.frame (l.collected t) ∧
        ∃ further, v = Loop.result incoming (values ++ further) ∧ w = Loop.result (Loop.handed incoming values) further)
      (loopOver p run c l incoming (xs ++ ys) m) (loopOver p run c l (Loop.handed incoming values) ys m') := by
  have start : l.Iterations run c (t.declarations.get? l.binding.span) (LoopProgress.mk incoming [] []).folded m xs frames values m' :=
    first
  have split : iterationsOver run c l t incoming (xs ++ ys) m = (iterationsOver run c l t (Loop.handed incoming values) ys >>= fun last =>
      pure (LoopProgress.then (.after ⟨incoming, [], []⟩ frames values) last)) m' := by
    rw [iterationsOver_append, iterationsOver, bind_eq start.ran, LoopProgress.folded_handed]
  have whole := loopOver_equally run l resolved incoming (xs ++ ys) m
  have second := loopOver_equally run l resolved (Loop.handed incoming values) ys m'
  rw [split] at whole
  generalize loopOver p run c l incoming (xs ++ ys) m = result at whole ⊢
  generalize loopOver p run c l (Loop.handed incoming values) ys m' = result' at second ⊢
  cases ran : iterationsOver run c l t (Loop.handed incoming values) ys m' with
  | error s m'' =>
    rw [ran] at second
    rw [bind_stop ran] at whole
    cases whole
    cases second
    exact .stop
  | ok last m'' =>
    obtain ⟨_, further, -, rfl⟩ := iterations_ok ran
    rw [ran] at second
    rw [bind_eq ran] at whole
    cases whole with
    | ok h =>
      cases second with
      | ok h' => exact .ok ⟨h.2.trans h'.2.symm, further, h.1.trans LoopProgress.value_then, h'.1.trans LoopProgress.value_after⟩

end Eval

/-! ### Iterations apart -/

namespace Twins

variable {T : Twins} {M : Matching} {x y : Machine} {c : Context} {l : Loop} {t : Resolved} {scope inner : ScopeId}
  {seed seed' : Option Value} {xs ys : List Value} {receives : Bool}

section

variable (closed : T.Closed) (onePlace : T.program.OnePlace) (pure : T.program.hosts.Pure) (lies : T.lockstep.Lies M c c t scope [])
  (opens : t.scopes.Opens scope inner) (settled : Stages.Settled T.program t True inner receives l.body.stages)
  (given : Option.Rel (T.Alike M) seed seed') (all : List.Forall₂ (T.Alike M) xs ys) (fuel : Nat)
include closed onePlace pure lies opens settled given all

/-- The iterations of a loop over elements that are alike. -/
lemma elements_along : T.lockstep.Along M (iterationsOver (Task.run T.program fuel) c l t seed xs)
    (iterationsOver (Task.run T.program fuel) c l t seed' ys) T.lockstep.Progress := by
  have none : T.lockstep.Progress M ⟨seed, [], []⟩ ⟨seed', [], []⟩ := ⟨given, .nil, .nil⟩
  exact Lockstep.iterations_along (run_along closed onePlace pure fuel) lies opens settled (fun _ _ => trivial) none all

variable (beside : T.Beside M x y)
include beside

/-- Loops over elements that are alike come to the same on machines that are side by side. -/
lemma loopOver_same : Equally (M.Same c.frame (l.collected t)) (loopOver T.program (Task.run T.program fuel) c l seed xs x)
    (loopOver T.program (Task.run T.program fuel) c l seed' ys y) := by
  have resolved : T.program.resolvedOf c.module = some t := lies.here.resolved
  have first := loopOver_equally (Task.run T.program fuel) l resolved seed xs x
  have second := loopOver_equally (Task.run T.program fuel) l resolved seed' ys y
  have ends := elements_along closed onePlace pure lies opens settled given all fuel x y beside
  generalize loopOver T.program (Task.run T.program fuel) c l seed xs x = result at first ⊢
  generalize loopOver T.program (Task.run T.program fuel) c l seed' ys y = result' at second ⊢
  generalize iterationsOver (Task.run T.program fuel) c l t seed xs x = middle at first ends
  generalize iterationsOver (Task.run T.program fuel) c l t seed' ys y = middle' at second ends
  cases ends with
  | left slack | right slack => cases slack
  | stop =>
    cases first
    cases second
    exact .stop
  | @ok M' last last' x' y' within beside' progress =>
    cases first with
    | ok h =>
      cases second with
      | ok h' =>
        have carries := (beside'.toCarries.forget (l.collected t) (within.frames lies.pair)).anyCode
        have alike : T.Alike M' last.value last'.value := by
          obtain ⟨folded, mapped, frames⟩ := last
          obtain ⟨folded', mapped', frames'⟩ := last'
          obtain ⟨given, all, -⟩ := progress
          cases given with
          | some alike => exact alike
          | none => exact .array (List.rel_reverse all)
        rw [← h.2, ← h'.2] at carries
        refine .ok ⟨M', within, carries, ?_⟩
        rw [h.1, h'.1]
        exact Value.Alike.mono .refl (fun _ _ _ => trivial) _ alike

/-- Iterations spare what was there. -/
lemma iterations_spare {frames : List FrameId} {values : List Value} {x' : Machine}
    (iterations : l.Iterations (Task.run T.program fuel) c (t.declarations.get? l.binding.span) seed x xs frames values x') :
    T.left.Spares x' := by
  have start : l.Iterations (Task.run T.program fuel) c (t.declarations.get? l.binding.span) (LoopProgress.mk seed [] []).folded x xs
      frames values x' := iterations
  have ends := elements_along closed onePlace pure lies opens settled given all fuel x y beside
  rw [iterationsOver, start.ran] at ends
  generalize iterationsOver (Task.run T.program fuel) c l t seed' ys y = middle at ends
  cases ends with
  | ok _ beside' _ => exact beside'.left
  | right slack => cases slack

end

end Twins

/-- A loop is to run on a machine, with values that are known there, and all modules within reach have begun to run. -/
structure Loop.Ready (p : Program) (labels : Labels) (m : Machine) (c : Context) (l : Loop) (t : Resolved) (incoming : Option Value)
    (given : List Value) : Prop where
  sound : m.Sound p labels
  issued : m.Issued
  fits : (Task.loop c l incoming).Fits p labels
  resolved : p.resolvedOf c.module = some t
  known : ∀ v ∈ given, v.Fits p labels ∧ v.Issued m.fresh
  incoming : ∀ v ∈ incoming, v ∈ given
  begun : m.Begun p c given

/-- What a loop over two lists one behind the other does comes of what loops over each of them do, with values that are known. -/
structure Loop.Splits (p : Program) (fuel : Nat) (c : Context) (l : Loop) (t : Resolved) (incoming : Option Value) (given : List Value)
    (m : Machine) (xs ys : List Value) : Prop where
  /-- Without elements a loop that folds has the value that it begins with, and one that maps the empty array. -/
  empty : ∃ m', loopOver p (Task.run p fuel) c l incoming [] m = .ok (Loop.result incoming []) m'
  /-- A loop that maps both lists comes to its end exactly when those that map one of them do. -/
  ends : incoming = none → ((∃ zs m', loopOver p (Task.run p fuel) c l none (xs ++ ys) m = .ok (.array zs) m') ↔
    (∃ as m', loopOver p (Task.run p fuel) c l none xs m = .ok (.array as) m') ∧
      ∃ bs m', loopOver p (Task.run p fuel) c l none ys m = .ok (.array bs) m')
  /-- It then comes to what these come to one behind the other, up to identities. -/
  maps : incoming = none → ∀ as m₁, loopOver p (Task.run p fuel) c l none xs m = .ok (.array as) m₁ →
    Equally (fun v m' w m₂ => ∃ further bs, v = .array (as ++ further) ∧ w = .array bs ∧
        (m.reached p c given).Same c.frame (l.collected t) (.array further) m' (.array bs) m₂)
      (loopOver p (Task.run p fuel) c l none (xs ++ ys) m) (loopOver p (Task.run p fuel) c l none ys m)
  /-- A loop that folds both lists does what one does that folds the second from what the first comes to, on the machine that the
  iterations over the first leave, and up to identities also on the machine that they began on, if what they come to is known there. -/
  folds : ∀ seed r m₁, incoming = some seed → loopOver p (Task.run p fuel) c l (some seed) xs m = .ok r m₁ →
    (∃ frames values between,
      l.Iterations (Task.run p fuel) c (t.declarations.get? l.binding.span) (some seed) m xs frames values between ∧
        (l.collected t).forM (collectTag c frames) between = .ok () m₁ ∧
          Equally (fun v _ w _ => v = w) (loopOver p (Task.run p fuel) c l (some seed) (xs ++ ys) m)
            (loopOver p (Task.run p fuel) c l (some r) ys between)) ∧
      (r ∈ given → Equally ((m.reached p c given).Same c.frame (l.collected t))
        (loopOver p (Task.run p fuel) c l (some seed) (xs ++ ys) m) (loopOver p (Task.run p fuel) c l (some r) ys m))
  /-- A loop that stops within the first list stops so over both. -/
  stops : ∀ s m₁, loopOver p (Task.run p fuel) c l incoming xs m = .error s m₁ →
    ∃ m', loopOver p (Task.run p fuel) c l incoming (xs ++ ys) m = .error s m'
  /-- Iterations do up to identities what they would do if none had been before, when they are handed on the same. -/
  isolated : ∀ frames values between,
    l.Iterations (Task.run p fuel) c (t.declarations.get? l.binding.span) incoming m xs frames values between →
      ∀ seed, (∀ v ∈ seed, v ∈ given) → Equally ((m.reached p c given).Same c.frame (l.collected t))
        (loopOver p (Task.run p fuel) c l seed ys between) (loopOver p (Task.run p fuel) c l seed ys m)

namespace Loop.Ready

variable {p : Program} {labels : Labels} {m left right : Machine} {c : Context} {l : Loop} {t : Resolved} {incoming seed : Option Value}
  {given xs ys vs values : List Value} {frames : List FrameId} {fuel : Nat}

/-- The scope that the loop stands in and the one of its body. -/
lemma stands (h : l.Ready p labels m c t incoming given) : ∃ scope inner, c.Stands p labels t scope ∧ t.scopes.Opens scope inner ∧
    Stages.Settled p t True inner incoming.isSome l.body.stages := by
  cases h.fits with
  | loop stands settled =>
    obtain rfl := Option.some.inj (stands.resolved.symm.trans h.resolved)
    cases settled with
    | mk _ opens _ settled _ => exact ⟨_, _, stands, opens, settled⟩

lemma lies {scope : ScopeId} (h : l.Ready p labels m c t incoming given) (stands : c.Stands p labels t scope) :
    (Twins.within p m c given left right).lockstep.Lies (m.reached p c given) c c t scope [] :=
  ⟨rfl, ⟨rfl, c.module, .here⟩, Machine.Reaches.here.module, stands.scoped h.sound, nofun⟩

/-- Known values are like themselves. -/
lemma alike (h : l.Ready p labels m c t incoming given) {v : Value} (known : v ∈ given) :
    (Twins.within p m c given left right).Alike (m.reached p c given) v v :=
  Value.alike_of_reached h.sound (h.known v known).1 (h.known v known).2 fun _ member => .given known member

lemma all_alike (h : l.Ready p labels m c t incoming given) (known : ∀ v ∈ vs, v ∈ given) :
    List.Forall₂ ((Twins.within p m c given left right).Alike (m.reached p c given)) vs vs :=
  List.forall₂_same.2 fun v member => h.alike (known v member)

lemma seed_alike (h : l.Ready p labels m c t incoming given) (known : ∀ v ∈ seed, v ∈ given) :
    Option.Rel ((Twins.within p m c given left right).Alike (m.reached p c given)) seed seed := by
  cases seed with
  | none => exact .none
  | some v => exact .some (h.alike (known v rfl))

lemma beside (h : l.Ready p labels m c t incoming given) :
    (Twins.within p m c given m m).Beside (m.reached p c given) m m := by
  obtain ⟨scope, inner, stands, -, -⟩ := h.stands
  exact h.sound.beside h.issued (fun v member => (h.known v member).1) stands h.begun

variable (rest : p.AtRest) (onePlace : p.OnePlace) (pure : p.hosts.Pure)
include rest onePlace pure

/-- Iterations do what they would do if none had been before. -/
lemma isolated (h : l.Ready p labels m c t incoming given) (first : ∀ v ∈ xs, v ∈ given) (second : ∀ v ∈ ys, v ∈ given)
    (seed : Option Value) (known : ∀ v ∈ seed, v ∈ given) {between : Machine}
    (iterations : l.Iterations (Task.run p fuel) c (t.declarations.get? l.binding.span) incoming m xs frames values between) :
    Equally ((m.reached p c given).Same c.frame (l.collected t)) (loopOver p (Task.run p fuel) c l seed ys between)
      (loopOver p (Task.run p fuel) c l seed ys m) := by
  obtain ⟨scope, inner, stands, opens, settled⟩ := h.stands
  have spares : m.Spares between := Twins.iterations_spare (Twins.within_closed rest) onePlace pure (h.lies stands) opens settled
    (h.seed_alike h.incoming) (h.all_alike first) fuel h.beside iterations
  exact Twins.loopOver_same (Twins.within_closed rest) onePlace pure (h.lies stands) opens settled (h.seed_alike known)
    (h.all_alike second) fuel (h.beside.spared spares)

/-- A loop splits where it is ready to run. -/
lemma splits (h : l.Ready p labels m c t incoming given) (first : ∀ v ∈ xs, v ∈ given) (second : ∀ v ∈ ys, v ∈ given) :
    l.Splits p fuel c t incoming given m xs ys := by
  have maps (mapping : incoming = none) (as : List Value) (m₁ : Machine)
      (ran : loopOver p (Task.run p fuel) c l none xs m = .ok (.array as) m₁) :
      Equally (fun v m' w m₂ => ∃ further bs, v = .array (as ++ further) ∧ w = .array bs ∧
          (m.reached p c given).Same c.frame (l.collected t) (.array further) m' (.array bs) m₂)
        (loopOver p (Task.run p fuel) c l none (xs ++ ys) m) (loopOver p (Task.run p fuel) c l none ys m) := by
    subst mapping
    obtain ⟨frames, values, between, iterations, -, made⟩ := loopOver_ok h.resolved ran
    cases made
    have apart : Equally _ (loopOver p (Task.run p fuel) c l none ys between) _ :=
      h.isolated rest onePlace pure first second none nofun iterations
    refine ((loopOver_behind ys h.resolved iterations).trans apart).imp ?_
    rintro v m' w m₂ ⟨_, m₃, ⟨heap, further, rfl, rfl⟩, same⟩
    obtain ⟨bs, rfl⟩ : ∃ bs, w = .array bs := by
      obtain ⟨M, -, -, alike⟩ := same
      cases alike with
      | array => exact ⟨_, rfl⟩
    exact ⟨further, bs, rfl, rfl, same.of_forget heap⟩
  refine ⟨loopOver_nil h.resolved, fun mapping => ?_, maps, fun seed r m₁ folding ran => ?_, fun s m₁ ran => loopOver_stop ys h.resolved ran,
    fun _ _ _ iterations seed known => h.isolated rest onePlace pure first second seed known iterations⟩
  · subst mapping
    constructor
    · rintro ⟨zs, m', ran⟩
      cases before : loopOver p (Task.run p fuel) c l none xs m with
      | error s m₁ =>
        obtain ⟨m'', stopped⟩ := loopOver_stop ys h.resolved before
        cases ran.symm.trans stopped
      | ok v m₁ =>
        obtain ⟨_, as, _, -, -, rfl⟩ := loopOver_ok h.resolved before
        have behind := maps rfl as m₁ before
        rw [ran] at behind
        generalize loopOver p (Task.run p fuel) c l none ys m = result at behind ⊢
        cases behind with
        | ok related =>
          obtain ⟨_, bs, -, rfl, -⟩ := related
          exact ⟨⟨as, m₁, rfl⟩, bs, _, rfl⟩
    · rintro ⟨⟨as, m₁, before⟩, bs, m₂, behind⟩
      have related := maps rfl as m₁ before
      rw [behind] at related
      generalize loopOver p (Task.run p fuel) c l none (xs ++ ys) m = result at related ⊢
      cases related with
      | ok related =>
        obtain ⟨further, _, rfl, -, -⟩ := related
        exact ⟨_, _, rfl⟩
  · subst folding
    obtain ⟨frames, values, between, iterations, collected, rfl⟩ := loopOver_ok h.resolved ran
    have behind := loopOver_behind ys h.resolved iterations
    have equal (further : List Value) :
        Loop.result (some seed) (values ++ further) = Loop.result (Loop.handed (some seed) values) further := by
      simp only [Loop.result, Loop.handed, Option.map_some, List.getLast?_append]
      cases further.getLast? <;> rfl
    refine ⟨⟨frames, values, between, iterations, collected, behind.imp ?_⟩, fun known => ?_⟩
    · rintro v _ w _ ⟨-, further, rfl, rfl⟩
      exact equal further
    · have apart : Equally _ (loopOver p (Task.run p fuel) c l (Loop.handed (some seed) values) ys between) _ :=
        h.isolated rest onePlace pure first second (Loop.handed (some seed) values) (fun v same => by cases same; exact known)
          iterations
      refine (behind.trans apart).imp ?_
      rintro v m' w m₂ ⟨_, m₃, ⟨heap, further, rfl, rfl⟩, same⟩
      exact equal further ▸ same.of_forget heap

end Loop.Ready

/-- A loop that a request comes to evaluate is ready to run with any known values if all modules within reach have begun to run. -/
lemma Dialogue.LeadsOwning.ready {p : Program} {d : Dialogue} {r : Request} {depth : Nat} {c : Context} {l : Loop}
    {incoming : Option Value} {m : Machine} (rest : p.AtRest) (honest : p.hosts.Honest) (pure : p.hosts.Pure)
    (leads : LeadsOwning p .start d) (fair : r.Fair p d.known) (owning : r.Issued d.machine.fresh)
    (reaches : r.Reaches p depth d.machine (.loop c l incoming) m) :
    ∃ labels t, m.Sound p labels ∧ (Task.loop c l incoming).Fits p labels ∧ (Task.loop c l incoming).Issued m.fresh ∧
      ∀ seed given, seed.isSome = incoming.isSome → (∀ v ∈ seed, v ∈ given) →
        (∀ v ∈ given, v.Fits p labels ∧ v.Issued m.fresh) → m.Begun p c given → l.Ready p labels m c t seed given := by
  obtain ⟨history, taken⟩ := leads.issued pure
  obtain ⟨labels, sound, fit⟩ := history.sound rest honest
  obtain ⟨issued, owned⟩ := reaches.issued pure taken.machine owning
  obtain ⟨task, between, asked, further⟩ := reaches
  obtain ⟨labels₁, -, sound₁, fits₁⟩ := asked.fits sound (Task.run_keeps rest honest depth) fun run' agree =>
    Request.answerOver_keeps rest agree fair fit
  obtain ⟨labels₂, -, sound₂, fits₂⟩ := further.fits rest honest sound₁ fits₁
  obtain ⟨t, scope, stands, settled⟩ : ∃ t scope, c.Stands p labels₂ t scope ∧ l.Settled p t True scope incoming.isSome := by
    cases fits₂ with
    | loop stands settled => exact ⟨_, _, stands, settled⟩
  refine ⟨labels₂, t, sound₂, fits₂, owned, fun seed given mode within known begun => ?_⟩
  have fits : (Task.loop c l seed).Fits p labels₂ := .loop stands (mode ▸ settled) fun v member => (known v (within v member)).1
  exact ⟨sound₂, issued, fits, stands.resolved, known, within, begun⟩

/-! ### Loops of programs -/

/-- The loop that is the body of a function, if it is one. -/
def Closure.bodyLoop? (f : Closure) : Option Loop :=
  match f.lambda.body with
  | .loop l => some l
  | _ => none

lemma Closure.bodyLoop?_eq_some {f : Closure} {l : Loop} (h : f.bodyLoop? = some l) : f.lambda.body = .loop l := by
  unfold bodyLoop? at h
  split at h
  · next body =>
    cases h
    exact body
  · cases h

namespace Program

/-- Loops split, over any lists of known values. A loop is ready to run on a machine when all modules within reach of it have begun to
run, of its own code and of the functions that it can come upon. The rest holds whenever a request comes to a loop. -/
theorem loop_splits (sources : Sources) (policy : GlobPolicy) (hosts : Hosts) (paths : List String) (pure : hosts.Pure) :
    let p := (new sources policy hosts).loadAll paths
    (∀ fuel labels m c (l : Loop) t incoming given, l.Ready p labels m c t incoming given →
      ∀ xs ys, (∀ v ∈ xs, v ∈ given) → (∀ v ∈ ys, v ∈ given) → l.Splits p fuel c t incoming given m xs ys) ∧
    (hosts.Honest → ∀ d, Dialogue.LeadsOwning p .start d → ∀ (r : Request) depth, r.Fair p d.known → r.Issued d.machine.fresh →
      ∀ c l (incoming : Option Value) (m : Machine), r.Reaches p depth d.machine (.loop c l incoming) m →
        ∃ labels t, m.Sound p labels ∧ (Task.loop c l incoming).Fits p labels ∧ (Task.loop c l incoming).Issued m.fresh ∧
          ∀ (seed : Option Value) (given : List Value), seed.isSome = incoming.isSome → (∀ v ∈ seed, v ∈ given) →
            (∀ v ∈ given, v.Fits p labels ∧ v.Issued m.fresh) → m.Begun p c given → l.Ready p labels m c t seed given) := by
  intro p
  obtain ⟨rest, same⟩ : p.AtRest ∧ p.hosts = hosts := atRest_new.loadAll paths
  have pure' : p.hosts.Pure := same ▸ pure
  constructor
  · intro fuel labels m c l t incoming given ready xs ys first second
    exact ready.splits rest loadAll_onePlace pure' first second
  · intro honest d leads r depth fair owning c l incoming m reaches
    exact leads.ready rest (same ▸ honest) pure' fair owning reaches

/-- A program with a loop that maps, and a tag in its body. -/
def piled : Program :=
  (new (.ofTexts (.ofList [("main.kcl", "r = for [true, false] as x |> push([x], x) as z\n")])) .eager .prelude).loadAll ["main"]

/-- A request for the module comes to the loop, which splits there and comes to its end. -/
theorem loop_splits_piled : ∃ (l : Loop) (labels : Labels) (t : Resolved),
    Request.Reaches piled 12 (.query (.module 0)) .new (.loop ⟨0, 0⟩ l none) (begun 0 .new) ∧
    l.Ready piled labels (begun 0 .new) ⟨0, 0⟩ t none [.bool true, .bool false] ∧
    l.Splits piled 9 ⟨0, 0⟩ t none [.bool true, .bool false] (begun 0 .new) [.bool true] [.bool false] ∧
    ∃ zs m', loopOver piled (Task.run piled 9) ⟨0, 0⟩ l none [.bool true, .bool false] (begun 0 .new) = .ok (.array zs) m' := by
  have computed : (piled.modules[0]?.any fun loaded => loaded.isUsable && loaded.ast.any fun ast => ast.definedLoop?.any fun l =>
      gives (fun v _ => v.elements?.isSome)
        (loopOver piled (Task.run piled 9) ⟨0, 0⟩ l none [.bool true, .bool false] (begun 0 .new))) = true ∧
      gives (fun _ _ => true) ((Request.query (.module 0)).answer piled 12 .new) = true := by decide +kernel
  simp only [Bool.and_eq_true, Option.any_eq_true, Option.isSome_iff_exists, gives_iff, Value.elements?_eq_some] at computed
  obtain ⟨⟨loaded, found, fine, ast, parsed, l, defined, _, m', ran, zs, rfl⟩, vs, last, answered, -⟩ := computed
  obtain ⟨exported, name, place, statements⟩ := Module.definedLoop?_eq_some defined
  have reaches : Request.Reaches piled 12 (.query (.module 0)) .new (.loop ⟨0, 0⟩ l none) (begun 0 .new) := by
    refine Request.reaches_statement found fine parsed statements rfl (by simp [answered]) fun goes => ?_
    refine .of_stop (.expr ⟨0, 0⟩ (.loop l) none) (begun 0 .new) (fun run s stops => ?_) goes fun goes => ?_
    · exact ⟨s, bind_stop stops⟩
    refine .of_stop (.loop ⟨0, 0⟩ l none) (begun 0 .new) (fun run s stops => ?_) goes fun _ => .here
    exact ⟨s, by simp [step, expr, plainExpr, stops]⟩
  obtain ⟨splits, evaluated⟩ := loop_splits _ _ _ ["main"] Hosts.prelude_pure
  obtain ⟨labels, t, sound, fits, -, ready⟩ :=
    evaluated Hosts.prelude_honest .start .refl _ _ (.module ⟨loaded, found, fine⟩) trivial _ _ _ _ reaches
  have known : ∀ v ∈ [Value.bool true, .bool false], v.Fits piled labels ∧ v.Issued (begun 0 .new).fresh := by
    simp only [List.forall_mem_cons]
    exact ⟨⟨Value.holds_bool, .bool⟩, ⟨Value.holds_bool, .bool⟩, by simp⟩
  have all : (begun 0 .new).Begun piled ⟨0, 0⟩ [.bool true, .bool false] := by
    cases fits with
    | loop stands =>
      have rest : piled.AtRest := (atRest_new.loadAll ["main"]).1
      exact sound.begun_of_all rest stands (fun v member => (known v member).1) (by decide +kernel)
  have ready := ready none _ rfl (by simp) known all
  exact ⟨l, labels, t, reaches, ready, splits _ _ _ _ _ _ _ _ ready [.bool true] [.bool false] (by simp) (by simp), zs, m', ran⟩

/-- A program with a loop that calls what it is given, and with functions that import modules that need each other. -/
def needy : Program :=
  (new (.ofTexts (.ofList [("each.kcl", "export each = (fs) => for fs as f |> f()\n"),
      ("c.kcl", "import \"d\" as dd\nexport c = 1\n"),
      ("d.kcl", "import \"c\" as cc\nexport d = cc::c\n"),
      ("main.kcl", "export first = () => \x7b\n  import \"d\" as dd\n  dd::d\n\x7d\nexport second = () => \x7b\n  import \"c\" as cc\n  cc::c\n\x7d\n")]))
    .eager .prelude).loadAll ["each", "main"]

/-- It is not enough that the modules have run to their ends that the module of a loop imports: a loop over two functions comes to its
end that does not when the second function is the only one, since it runs a module that needs one that is running. -/
theorem loop_over_needy : ∃ (m : Machine) (known : List Value) (f : Closure) (l : Loop) (first second : Value),
    History needy m known ∧ first ∈ known ∧ second ∈ known ∧ .closure f ∈ known ∧ f.lambda.body = .loop l ∧
    needy.hosts.Pure ∧ needy.Usable f.module ∧
    (∀ id, ReflTransGen needy.Imports f.module id → m.states.lookup id = some .done) ∧
    let ends (elements : List Value) := loopOver needy (Task.run needy 12) ⟨f.module, m.heap.size⟩ l none elements
      { m with heap := m.heap.push (some f.frame) }
    (∃ zs m', ends ([first] ++ [second]) = .ok (.array zs) m') ∧ (∃ as m', ends [first] = .ok (.array as) m') ∧
      ∃ e m', ends [second] = .error (.error e) m' := by
  let ends (f : Closure) (l : Loop) (m : Machine) (elements : List Value) :=
    loopOver needy (Task.run needy 12) ⟨f.module, m.heap.size⟩ l none elements { m with heap := m.heap.push (some f.frame) }
  have usable : (needy.modules[0]?.any fun loaded => loaded.isUsable && loaded.resolved.any fun t => t.imports.entries.isEmpty) = true ∧
      (needy.modules[1]?.any LoadedModule.isUsable) = true := by decide +kernel
  have computed : gives (fun vs m₁ => vs.any fun v => v.closure?.any fun f => f.bodyLoop?.any fun l =>
      gives (fun firsts m₂ => firsts.any fun first =>
        gives (fun seconds m => seconds.any fun second =>
          decide (f.module = 0) && decide (m.states.lookup 0 = some .done) &&
            gives (fun v _ => v.elements?.isSome) (ends f l m ([first] ++ [second])) &&
            gives (fun v _ => v.elements?.isSome) (ends f l m [first]) && failsWith (fun _ _ => true) (ends f l m [second]))
          ((Request.query (.value 1 "second")).answer needy 12 m₂))
        ((Request.query (.value 1 "first")).answer needy 12 m₁))
      ((Request.query (.value 0 "each")).answer needy 12 .new) = true := by decide +kernel
  simp only [Bool.and_eq_true, Option.any_eq_true] at usable
  obtain ⟨⟨loaded, found, fine, t, resolved, none⟩, loaded', found', fine'⟩ := usable
  simp only [Bool.and_eq_true, Option.any_eq_true, List.any_eq_true, Option.isSome_iff_exists, decide_eq_true_eq, gives_iff, failsWith_iff,
    Value.closure?_eq_some, Value.elements?_eq_some] at computed
  obtain ⟨vs, m₁, each, _, there, f, rfl, l, body, firsts, m₂, one, first, among, seconds, m, two, second, among', computed⟩ := computed
  obtain ⟨⟨⟨⟨home, done⟩, _, m₃, both, zs, rfl⟩, _, m₄, alone, as, rfl⟩, e, m₅, fails, -⟩ := computed
  have history : History needy m (seconds ++ (firsts ++ (vs ++ []))) :=
    ((History.start.answered (.value ⟨loaded, found, fine⟩) each).answered (.value ⟨loaded', found', fine'⟩) one).answered
      (.value ⟨loaded', found', fine'⟩) two
  have apart (id : ModuleId) : ¬ needy.Imports 0 id := by
    rintro ⟨t', site, resolved', imported⟩
    have same : needy.resolvedOf 0 = some t := by simp [resolvedOf, found, resolved]
    obtain rfl := Option.some.inj (same.symm.trans resolved')
    have empty : t.imports.entries = [] := List.isEmpty_iff.1 none
    simp [SpanTable.get?, empty] at imported
  obtain ⟨-, same⟩ : needy.AtRest ∧ needy.hosts = .prelude := atRest_new.loadAll ["each", "main"]
  refine ⟨m, _, f, l, first, second, history, by simp [among], by simp [among'], by simp [there], Closure.bodyLoop?_eq_some body,
    same ▸ Hosts.prelude_pure, home ▸ ⟨loaded, found, fine⟩, fun id way => ?_, ⟨zs, m₃, both⟩, ⟨as, m₄, alone⟩, e, m₅, fails⟩
  rw [home] at way
  obtain rfl | ⟨next, imports, -⟩ := way.cases_head
  · exact done
  · exact absurd imports (apart next)

end Program

end PipeLang
