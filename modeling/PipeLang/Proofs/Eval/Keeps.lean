import PipeLang.Proofs.Eval.Sound

/-!
# Computations on sound machines

A computation that asks for other tasks is compared with the same computation over another evaluation of the tasks.
`Keeps` says that the two do the same on every sound machine, leave it sound, and stop for no error that resolution
prevents. The rules for sequences of computations follow, and for what computations do to the machine.
-/

namespace PipeLang

/-- A stop that resolution does not prevent. -/
def Stop.IsDynamic : Stop → Prop
  | .error e => e.isStatic = false
  | .outOfFuel => True

namespace Eval

variable {α β : Type} {p : Program} {base labels : Labels}

/-- A sequence that gives a value goes through its first part. -/
lemma bind_ok {x : Eval α} {f : α → Eval β} {b : β} {m m' : Machine} (h : (x >>= f) m = .ok b m') :
    ∃ a m₁, x m = .ok a m₁ ∧ f a m₁ = .ok b m' := by
  change EStateM.bind x f m = _ at h
  unfold EStateM.bind at h
  cases first : x m with
  | ok a m₁ => exact ⟨a, m₁, rfl, by simpa [first] using h⟩
  | error stop m₁ => simp [first] at h

/-- Behind a part that gives a value, a sequence is what follows. -/
lemma bind_eq {x : Eval α} {f : α → Eval β} {a : α} {m m' : Machine} (first : x m = .ok a m') : (x >>= f) m = f a m' := by
  change EStateM.bind x f m = _
  simp only [EStateM.bind, first]

/-- A sequence stops where its first part stops. -/
lemma bind_stop {x : Eval α} {f : α → Eval β} {stop : Stop} {m m' : Machine} (first : x m = .error stop m') :
    (x >>= f) m = .error stop m' := by
  change EStateM.bind x f m = _
  simp only [EStateM.bind, first]

/-- A computation has left a sound machine on which the old frames have the labels that they had. -/
def Leaves (p : Program) (labels : Labels) (Q : Labels → α → Prop) : EStateM.Result Stop Machine α → Prop
  | .ok a m => ∃ labels', labels <+: labels' ∧ m.Sound p labels' ∧ Q labels' a
  | .error stop m => ∃ labels', labels <+: labels' ∧ m.Sound p labels' ∧ stop.IsDynamic

/-- What has been left since the labels were others, has been left since then. -/
lemma Leaves.widen {labels' : Labels} {Q : Labels → α → Prop} {result : EStateM.Result Stop Machine α}
    (h : Leaves p labels' Q result) (grows : labels <+: labels') : Leaves p labels Q result := by
  cases result with
  | ok a m =>
    obtain ⟨labels'', grows', rest⟩ := h
    exact ⟨labels'', grows.trans grows', rest⟩
  | error stop m =>
    obtain ⟨labels'', grows', rest⟩ := h
    exact ⟨labels'', grows.trans grows', rest⟩

/-- On sound machines with the given labels, which go on from others, two computations do the same and keep the machine
sound. -/
def Keeps (p : Program) (base labels : Labels) (x x' : Eval α) (Q : Labels → α → Prop) : Prop :=
  base <+: labels → ∀ m : Machine, m.Sound p labels → x m = x' m ∧ Leaves p labels Q (x m)

/-- Two evaluations of tasks do the same with tasks that fit, and give values that fit. -/
def Agree (p : Program) (base : Labels) (run run' : Task → Eval Value) : Prop :=
  ∀ {labels task}, task.Fits p labels → Keeps p base labels (run task) (run' task) (Value.Fits p)

/-- Wherever tasks are evaluated to a value, frames only grow. -/
def Growing (run : Task → Eval Value) : Prop :=
  ∀ task m v m', run task m = .ok v m' → m.heap.Grows m'.heap

namespace Keeps

variable {x x' : Eval α} {Q : Labels → α → Prop} {c : Context} {t : Resolved} {scope inner : ScopeId}

lemma pure {a : α} (h : Q labels a) : Keeps p base labels (Pure.pure a) (Pure.pure a) Q :=
  fun _ _ sound => ⟨rfl, labels, List.prefix_rfl, sound, h⟩

lemma fail {e : RuntimeError} (h : e.isStatic = false) :
    Keeps p base labels (Eval.fail e : Eval α) (Eval.fail e) Q :=
  fun _ _ sound => ⟨rfl, labels, List.prefix_rfl, sound, h⟩

lemma ofOutcome {o : Outcome α} (h : o.Gives (Q labels)) :
    Keeps p base labels (Eval.ofOutcome o) (Eval.ofOutcome o) Q := by
  cases o with
  | ok a => exact pure h
  | error e => exact fail h

/-- Two computations one after the other, when something more is known of how the first one goes through. -/
lemma bind_knowing {R : Labels → β → Prop} {f f' : α → Eval β} {K : α → Machine → Prop} (first : Keeps p base labels x x' Q)
    (knowing : ∀ m : Machine, m.Sound p labels → ∀ a m', x m = .ok a m' → K a m')
    (next : ∀ labels' a (m' : Machine), labels <+: labels' → m'.Sound p labels' → Q labels' a → K a m' →
      f a m' = f' a m' ∧ Leaves p labels' R (f a m')) : Keeps p base labels (x >>= f) (x' >>= f') R := by
  intro since m sound
  obtain ⟨same, leaves⟩ := first since m sound
  show EStateM.bind x f m = EStateM.bind x' f' m ∧ Leaves p labels R (EStateM.bind x f m)
  simp only [EStateM.bind, ← same]
  cases h : x m with
  | ok a m' =>
    rw [h] at leaves
    obtain ⟨labels', grows, sound', fine⟩ := leaves
    obtain ⟨same', leaves'⟩ := next labels' a m' grows sound' fine (knowing m sound a m' h)
    exact ⟨same', leaves'.widen grows⟩
  | error stop m' =>
    rw [h] at leaves
    exact ⟨rfl, leaves⟩

lemma bind {R : Labels → β → Prop} {f f' : α → Eval β} (first : Keeps p base labels x x' Q)
    (next : ∀ labels' a, labels <+: labels' → Q labels' a → Keeps p base labels' (f a) (f' a) R) :
    Keeps p base labels (x >>= f) (x' >>= f') R := fun since =>
  first.bind_knowing (K := fun _ _ => True) (fun _ _ _ _ _ => trivial)
    (fun labels' a m' grows sound fine _ => next labels' a grows fine (since.trans grows) m' sound) since

/-- What a computation reads is what a sound machine has. -/
lemma read : Keeps p base labels get get fun labels' m => m.Sound p labels' :=
  fun _ _ sound => ⟨rfl, labels, List.prefix_rfl, sound, sound⟩

/-- What follows a look at the machine may depend on all of it. -/
lemma look {f f' : Machine → Eval α} (next : base <+: labels → ∀ m : Machine, m.Sound p labels →
    f m m = f' m m ∧ Leaves p labels Q (f m m)) : Keeps p base labels (get >>= f) (get >>= f') Q :=
  fun since m sound => next since m sound

/-- A change that leaves the frames alone. -/
lemma change {f : Machine → Machine} (kept : ∀ m, m.Sound p labels → (f m).Sound p labels) :
    Keeps p base labels (modify f : Eval Unit) (modify f) fun _ _ => True :=
  fun _ m sound => ⟨rfl, labels, List.prefix_rfl, kept m sound, trivial⟩

lemma define {id : BindingId} {v : Value} (stands : c.Stands p labels t scope) (declares : t.scopes.Declares scope id)
    (fits : v.Fits p labels) :
    Keeps p base labels (Eval.define c.frame id v) (Eval.define c.frame id v) fun _ _ => True :=
  change fun _ sound => sound.define stands declares.stores
    (fun b found => by rw [declares.plain b found]; trivial) fits

lemma freshIdentity : Keeps p base labels Eval.freshIdentity Eval.freshIdentity fun _ _ => True :=
  fun _ _ sound => ⟨rfl, labels, List.prefix_rfl, { sound with }, trivial⟩

/-- A context inside another, for a scope inside that of the other. -/
lemma inside (stands : c.Stands p labels t scope) (opens : t.scopes.Opens scope inner) :
    Keeps p base labels (Eval.inside c) (Eval.inside c) fun labels' c' => c'.Stands p labels' t inner ∧ c'.module = c.module := by
  intro _ m sound
  refine ⟨rfl, labels ++ [(c.module, inner)], List.prefix_append _ _, sound.openInner stands opens, ?_, rfl⟩
  exact ⟨stands.usable, stands.resolved, by simp [← sound.heap.size]⟩

lemma makeClosure {f : Lambda} {name : Option String} (stands : c.Stands p labels t scope)
    (settled : f.Settled p t True scope) :
    Keeps p base labels (Eval.makeClosure c f name) (Eval.makeClosure c f name) (Value.Fits p) :=
  freshIdentity.bind fun _ _ grows _ => pure (Value.holds_closure.2 (.closure (stands.mono grows) settled))

/-- An exported definition has a value that fits. -/
lemma item? {id : ModuleId} {name : String} :
    Keeps p base labels (Eval.item? id name) (Eval.item? id name) fun labels' o => ∀ v ∈ o, v.Fits p labels' :=
  read.bind fun _ _ _ sound => pure fun _ found => sound.items _ (mem_of_lookup found)

end Keeps

/-- What follows a computation on a machine that it has left sound. -/
lemma Leaves.bind {x : Eval α} {f : α → Eval β} {Q : Labels → α → Prop} {R : Labels → β → Prop} {m : Machine}
    (first : Leaves p labels Q (x m)) (next : ∀ labels' a, labels <+: labels' → Q labels' a →
      Keeps p labels labels' (f a) (f a) R) : Leaves p labels R ((x >>= f) m) := by
  cases h : x m with
  | ok a m' =>
    rw [h] at first
    obtain ⟨labels', grows, sound, fine⟩ := first
    rw [bind_eq h]
    exact (next labels' a grows fine grows m' sound).2.widen grows
  | error stop m' =>
    rw [h] at first
    rwa [bind_stop h]

end Eval

end PipeLang
