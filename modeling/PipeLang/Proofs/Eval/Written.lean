import PipeLang.Proofs.Eval.Regions

/-!
# What computations write

`Eval.Writes` says of a computation what it does on a machine whose frames have regions: which frames it writes to, that it is left
with frames that have regions, and on which machines it asks for further tasks. There is a rule for each way in which computations
are put together.
-/

namespace PipeLang

open Eval

namespace Task

/-- A pipeline that begins with an operator has an incoming value. -/
def Supplied : Task → Prop
  | .pipeline _ stages none => Stage.opensWithOperator stages = false
  | _ => True

/-- The bindings that are given values in frames that are there when a task is evaluated. -/
def binds (p : Program) : Task → FrameId → BindingId → Prop
  | .expr c e _ => c.binds p e.tags
  | .statement c s => c.binds p s.names
  | .branch c b _ => c.binds p b.tags
  | .pipeline c stages _ => c.binds p (Stage.allTags stages)
  | .loop c l _ => c.binds p l.tags
  | .block _ _ _ | .call _ _ _ | .module _ => Machine.nowhere

/-- A task is for syntax in a frame that hosts it and awaits the values of the names in it. -/
def Written (p : Program) (regions : Regions) (m : Machine) : Task → Prop
  | .expr c e incoming => c.Hosts p regions e.pieces ∧ c.Awaits p regions e.tags m ∧ ∀ v ∈ incoming, v.Written p regions
  | .statement c s => c.Hosts p regions s.pieces ∧ c.Awaits p regions s.names m
  | .block c b incoming => c.Hosts p regions b.pieces ∧ m.Written p regions ∧ ∀ v ∈ incoming, v.Written p regions
  | .branch c b incoming => c.Hosts p regions b.pieces ∧ c.Awaits p regions b.tags m ∧ ∀ v ∈ incoming, v.Written p regions
  | .pipeline c stages incoming =>
    c.Hosts p regions (Stage.allPieces stages) ∧ c.Awaits p regions (Stage.allTags stages) m ∧ ∀ v ∈ incoming, v.Written p regions
  | .loop c l incoming => c.Hosts p regions l.pieces ∧ c.Awaits p regions l.tags m ∧ ∀ v ∈ incoming, v.Written p regions
  | .call callee positional keyword =>
    m.Written p regions ∧ callee.Written p regions ∧ (∀ v ∈ positional, v.Written p regions) ∧
      ∀ entry ∈ keyword, entry.2.Written p regions
  | .module _ => m.Written p regions

end Task

/-! ### Computations -/

namespace Eval

variable {α β : Type} {p : Program} {regions regions' : Regions} {asks : Task → Prop} {run : Task → Eval Value}
  {m m' : Machine} {bound bound' : FrameId → BindingId → Prop} {c : Context} {names names' : List Ident} {v : Value}
  {id : BindingId}

/-- A computation has left a machine on which nothing was written twice, and has written to the old frames what it may. -/
def Written (p : Program) (regions : Regions) (bound : FrameId → BindingId → Prop) (m : Machine) (Q : Regions → α → Prop) :
    EStateM.Result Stop Machine α → Prop
  | .ok a m' => ∃ regions', regions <+: regions' ∧ m'.Written p regions' ∧ m.Writes bound m' ∧ Q regions' a
  | .error _ m' => ∃ regions', regions <+: regions' ∧ m'.Written p regions' ∧ m.Writes bound m'

/-- What a computation asks for on a machine is of a kind, it is asked for where it may be evaluated, and frames only grow till then
and from what it leaves to the end. -/
structure Asked (p : Program) (asks : Task → Prop) (run : Task → Eval Value) (m last : Machine) (task : Task) (m' : Machine) :
    Prop where
  asks : asks task
  written : ∃ regions, task.Written p regions m'
  before : m.Writes Machine.anywhere m'
  behind : (left (run task m')).Writes Machine.anywhere last

/-- What a computation does on a machine: what it leaves, and what it asks for. -/
structure Writes (p : Program) (regions : Regions) (asks : Task → Prop) (run : Task → Eval Value)
    (bound : FrameId → BindingId → Prop) (m : Machine) (x : (Task → Eval Value) → Eval α) (Q : Regions → α → Prop) : Prop where
  written : Written p regions bound m Q (x run m)
  asked : ∀ {task m'}, Consults x run m task m' → Asked p asks run m (left (x run m)) task m'

/-- Tasks of a kind are evaluated so. -/
def Writing (p : Program) (asks : Task → Prop) (run : Task → Eval Value) : Prop :=
  ∀ regions task m, asks task → task.Written p regions m →
    Written p regions (task.binds p) m (Value.Written p) (run task m)

namespace Written

variable {Q Q' : Regions → α → Prop} {result : EStateM.Result Stop Machine α}

lemma mono (h : Written p regions bound m Q result) (more : ∀ f id, bound f id → bound' f id)
    (weaker : ∀ regions a, Q regions a → Q' regions a) : Written p regions bound' m Q' result := by
  cases result with
  | ok a m' =>
    obtain ⟨regions', grows, written, writes, q⟩ := h
    exact ⟨regions', grows, written, writes.mono more, weaker regions' a q⟩
  | error stop m' =>
    obtain ⟨regions', grows, written, writes⟩ := h
    exact ⟨regions', grows, written, writes.mono more⟩

/-- The machine that is left. -/
lemma left (h : Written p regions bound m Q result) :
    ∃ regions', (left result).Written p regions' ∧ m.Writes bound (Eval.left result) := by
  cases result with
  | ok a m' =>
    obtain ⟨regions', -, written, writes, -⟩ := h
    exact ⟨regions', written, writes⟩
  | error stop m' =>
    obtain ⟨regions', -, written, writes⟩ := h
    exact ⟨regions', written, writes⟩

lemma writes (h : Written p regions bound m Q result) : m.Writes Machine.anywhere (Eval.left result) := by
  obtain ⟨regions', -, writes⟩ := h.left
  exact writes.mono fun _ _ _ => trivial

/-- What is done in a new frame. -/
lemma outside (h : Written p regions' bound m' Q result) (grows : regions <+: regions') (parent : Option FrameId)
    (opened : m'.heap = m.heap.push parent) (inner : ∀ f id, bound f id → f = m.heap.size) :
    Written p regions Machine.nowhere m Q result := by
  cases result with
  | ok a m'' =>
    obtain ⟨regions'', grows', written, writes, q⟩ := h
    exact ⟨regions'', grows.trans grows', written, writes.outside opened inner, q⟩
  | error stop m'' =>
    obtain ⟨regions'', grows', written, writes⟩ := h
    exact ⟨regions'', grows.trans grows', written, writes.outside opened inner⟩

end Written

namespace Writes

variable {Q : Regions → α → Prop} {R : Regions → β → Prop} {x : (Task → Eval Value) → Eval α}
  {f : (Task → Eval Value) → α → Eval β}

/-- A computation that asks for nothing. -/
lemma own {x : Eval α} (written : Written p regions bound m Q (x m)) : Writes p regions asks run bound m (fun _ => x) Q :=
  ⟨written, fun asked => absurd asked Consults.not_own⟩

lemma mono {Q' : Regions → α → Prop} (h : Writes p regions asks run bound m x Q) (more : ∀ f id, bound f id → bound' f id)
    (weaker : ∀ regions a, Q regions a → Q' regions a) : Writes p regions asks run bound' m x Q' :=
  ⟨h.written.mono more weaker, h.asked⟩

/-- What writes nowhere writes at most to any frame. -/
lemma elsewhere (h : Writes p regions asks run Machine.nowhere m x Q) : Writes p regions asks run bound m x Q :=
  h.mono (fun _ _ => False.elim) fun _ _ => id

lemma ask {task : Task} (writing : Writing p asks run) (member : asks task) (written : task.Written p regions m) :
    Writes p regions asks run (task.binds p) m (fun run => run task) (Value.Written p) where
  written := writing regions task m member written
  asked asked := by
    obtain ⟨rfl, rfl⟩ := asked.of_ask
    exact ⟨member, ⟨regions, written⟩, .refl, .refl⟩

/-- Two computations one after the other. -/
lemma seq (first : Writes p regions asks run bound m x Q) (next : ∀ regions' a m', regions <+: regions' →
    m'.Written p regions' → m.Writes bound m' → Q regions' a → Writes p regions' asks run bound' m' (fun run => f run a) R) :
    Writes p regions asks run (fun f id => bound f id ∨ bound' f id) m (fun run => x run >>= f run) R where
  written := by
    have begins := first.written
    show Written p regions _ m R ((x run >>= f run) m)
    cases ran : x run m with
    | error stop m' =>
      rw [bind_stop ran]
      rw [ran] at begins
      obtain ⟨regions', grows, written, writes⟩ := begins
      exact ⟨regions', grows, written, writes.mono fun _ _ => Or.inl⟩
    | ok a m' =>
      rw [bind_eq ran]
      rw [ran] at begins
      obtain ⟨regions', grows, written, writes, q⟩ := begins
      have ends := (next regions' a m' grows written writes q).written
      have writes := writes.mono fun f id => Or.inl (b := bound' f id)
      cases behind : f run a m' with
      | ok b m'' =>
        rw [behind] at ends
        obtain ⟨regions'', grows', written', writes', r⟩ := ends
        exact ⟨regions'', grows.trans grows', written', writes.trans (writes'.mono fun _ _ => Or.inr), r⟩
      | error stop m'' =>
        rw [behind] at ends
        obtain ⟨regions'', grows', written', writes'⟩ := ends
        exact ⟨regions'', grows.trans grows', written', writes.trans (writes'.mono fun _ _ => Or.inr)⟩
  asked {task m'} asked := by
    have begins := first.written
    show Asked p asks run m (Eval.left ((x run >>= f run) m)) task m'
    rcases asked.of_bind with early | ⟨a, m₁, ran, late⟩
    · have here := first.asked early
      cases ran : x run m with
      | error stop m₁ =>
        rw [bind_stop ran]
        rw [ran] at here
        exact { here with }
      | ok a m₁ =>
        rw [ran] at begins here
        rw [bind_eq ran]
        obtain ⟨regions', grows, written, writes, q⟩ := begins
        have ends := (next regions' a m₁ grows written writes q).written.writes
        exact { here with behind := here.behind.trans ends }
    · rw [ran] at begins
      rw [bind_eq ran]
      obtain ⟨regions', grows, written, writes, q⟩ := begins
      have here := (next regions' a m₁ grows written writes q).asked late
      exact { here with before := (writes.mono fun _ _ _ => trivial).trans here.before }

/-- Parts of syntax that are evaluated in one frame, one after the other. -/
lemma bind (on : c.Awaits p regions (names ++ names') m) (first : Writes p regions asks run (c.binds p names) m x Q)
    (next : ∀ regions' a m', regions <+: regions' → c.Awaits p regions' names' m' → Q regions' a →
      Writes p regions' asks run (c.binds p names') m' (fun run => f run a) R) :
    Writes p regions asks run (c.binds p (names ++ names')) m (fun run => x run >>= f run) R := by
  refine (first.seq fun regions' a m' grows written writes q =>
    next regions' a m' grows (on.behind grows written writes) q).mono ?_ fun _ _ => id
  rintro f id (⟨same, site⟩ | ⟨same, site⟩)
  · exact ⟨same, by rw [List.map_append]; exact List.mem_append_left _ site⟩
  · exact ⟨same, by rw [List.map_append]; exact List.mem_append_right _ site⟩

/-- Syntax whose names are given no values. -/
lemma skip (on : c.Awaits p regions (names ++ names') m)
    (next : c.Awaits p regions names' m → Writes p regions asks run (c.binds p names') m x Q) :
    Writes p regions asks run (c.binds p (names ++ names')) m x Q := by
  refine (next on.right).mono ?_ fun _ _ => id
  rintro f id ⟨same, site⟩
  exact ⟨same, by rw [List.map_append]; exact List.mem_append_right _ site⟩

/-- What follows the evaluation of syntax writes nowhere. -/
lemma last (first : Writes p regions asks run bound m x Q) (next : ∀ regions' a m', regions <+: regions' →
    m'.Written p regions' → Q regions' a → Writes p regions' asks run Machine.nowhere m' (fun run => f run a) R) :
    Writes p regions asks run bound m (fun run => x run >>= f run) R :=
  (first.seq fun regions' a m' grows written _ q => next regions' a m' grows written q).mono
    (fun _ _ => Or.rec id False.elim) fun _ _ => id

/-- What comes before writes nowhere. -/
lemma late (first : Writes p regions asks run Machine.nowhere m x Q) (on : c.Awaits p regions names m)
    (next : ∀ regions' a m', regions <+: regions' → c.Awaits p regions' names m' → Q regions' a →
      Writes p regions' asks run (c.binds p names) m' (fun run => f run a) R) :
    Writes p regions asks run (c.binds p names) m (fun run => x run >>= f run) R :=
  have on : c.Awaits p regions ([] ++ names) m := on
  .bind on first.elsewhere next

lemma pure {a : α} (written : m.Written p regions) (h : Q regions a) :
    Writes p regions asks run bound m (fun _ => Pure.pure a) Q :=
  .own ⟨regions, List.prefix_rfl, written, .refl, h⟩

lemma fail {e : RuntimeError} (written : m.Written p regions) : Writes p regions asks run bound m (fun _ => Eval.fail e) Q :=
  .own ⟨regions, List.prefix_rfl, written, .refl⟩

lemma ofOutcome {o : Outcome α} (written : m.Written p regions) (gives : o.Gives (Q regions)) :
    Writes p regions asks run bound m (fun _ => Eval.ofOutcome o) Q := by
  cases o with
  | ok a => exact pure written gives
  | error e => exact fail written

/-- What follows a look at the machine depends on the machine. -/
lemma look {f : (Task → Eval Value) → Machine → Eval α}
    (next : Writes p regions asks run bound m (fun run => f run m) Q) :
    Writes p regions asks run bound m (fun run => get >>= f run) Q :=
  ⟨next.written, next.asked⟩

/-- Only a module that has been resolved has tables. -/
lemma resolvedOf {id : ModuleId} {f : (Task → Eval Value) → Resolved → Eval α} (written : m.Written p regions)
    (next : ∀ t, p.resolvedOf id = some t → Writes p regions asks run bound m (fun run => f run t) Q) :
    Writes p regions asks run bound m (fun run => Eval.resolvedOf p id >>= f run) Q := by
  unfold Eval.resolvedOf Eval.module
  unfold Program.resolvedOf at next
  cases found : p.modules[(id : Nat)]? with
  | none => exact fail written
  | some l =>
    simp only [pure_bind]
    cases resolved : l.resolved with
    | none => exact fail written
    | some t => exact next t (by simp [found, resolved])

/-- A frame is given the value of a name that it awaits. -/
lemma define (on : c.Awaits p regions names m) (site : p.siteOf c.module id ∈ names.map Ident.span)
    (value : v.Written p regions) :
    Writes p regions asks run (c.binds p names) m (fun _ => Eval.define c.frame id v) fun _ _ => True :=
  .own ⟨regions, List.prefix_rfl, on.define site value, .define ⟨rfl, site⟩ (on.unseen site), trivial⟩

lemma freshIdentity (written : m.Written p regions) :
    Writes p regions asks run bound m (fun _ => Eval.freshIdentity) fun _ _ => True :=
  .own ⟨regions, List.prefix_rfl, { written with }, .of_heap rfl, trivial⟩

lemma makeClosure {g : Lambda} {name : Option String} (written : m.Written p regions) (hosts : c.Hosts p regions g.pieces) :
    Writes p regions asks run bound m (fun _ => Eval.makeClosure c g name) (Value.Written p) :=
  .own ⟨regions, List.prefix_rfl, { written with }, .of_heap rfl, Value.written_closure.2 hosts⟩

/-- What a piece evaluates in a new frame writes to no frame that was there. The frame is given values for the names of the piece,
and for further ones that the frame around it awaits. -/
lemma inside {f : (Task → Eval Value) → Context → Eval α} {q : Piece} {pieces : List Piece} (on : c.Awaits p regions names m)
    (hosts : c.Hosts p regions (q :: pieces)) (laid : p.Laid) (next : ∀ regions' c' m', regions <+: regions' →
      c'.module = c.module → c'.Hosts p regions' pieces → c'.Awaits p regions' (q.names ++ names) m' →
        Writes p regions' asks run (c'.binds p (q.names ++ names)) m' (fun run => f run c') Q) :
    Writes p regions asks run Machine.nowhere m (fun run => Eval.inside c >>= f run) Q := by
  obtain ⟨regions', grows, hosts, awaits⟩ := on.new hosts laid
  have inner := next regions' ⟨c.module, m.heap.size⟩ _ grows rfl hosts awaits
  refine ⟨inner.written.outside grows (some c.frame) rfl fun _ _ => And.left, fun {task m'} asked => ?_⟩
  have here := inner.asked asked
  exact { here with before := Machine.Writes.push.trans here.before }

end Writes

end Eval

end PipeLang
