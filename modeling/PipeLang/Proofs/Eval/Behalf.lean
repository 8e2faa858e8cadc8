import PipeLang.Proofs.Eval.Items

/-!
# On whose behalf

Everything is evaluated on behalf of a module that is running, or of a request. What is evaluated on behalf of a module comes
from that module and from those that it imports, directly or through others: every frame is opened on somebody's behalf, and
holds only what may be used there. `Machine.Tiered` says so of a machine, along with what is known of modules that are
running or have run, and `Rises` says of a computation that it stays so.
-/

namespace PipeLang

open Eval

/-- On whose behalf something is evaluated: of a module that is running, or of a request. -/
abbrev Behalf := Option ModuleId

/-- What is evaluated on behalf of one may be used on behalf of another: on behalf of a request anything, and on behalf of a
module what belongs to itself or to modules that its imports lead to. -/
def Program.Below (p : Program) (inner outer : Behalf) : Prop :=
  ∀ id ∈ outer, ∃ other ∈ inner, Relation.ReflTransGen p.Imports id other

/-- A function that may be used on somebody's behalf, and whose frame was opened on behalf of one below. -/
inductive Value.Lent (p : Program) (owners : List Behalf) (behalf : Behalf) : Value → Prop where
  | closure {c owner} :
    owners[(c.frame : Nat)]? = some owner →
    p.Below owner behalf →
    p.Below (some c.module) behalf →
    Lent p owners behalf (.closure c)
  | host {name} :
    Lent p owners behalf (.host name)

/-- All functions in a value may be used on somebody's behalf. -/
def Value.Within (p : Program) (owners : List Behalf) (behalf : Behalf) (v : Value) : Prop :=
  v.Holds (Lent p owners behalf)

/-- What a statement of a module is there for has been achieved: the module that it imports has run, and the definition that
it introduces has its value. -/
structure Machine.Achieves (p : Program) (m : Machine) (id : ModuleId) (s : Statement) : Prop where
  imports : ∀ i, s = .importing i → ∀ t target, p.resolvedOf id = some t → t.imports.get? i.span = some target →
    m.states.lookup target = some .done
  items : ∀ name, s.Exposes p id name → (m.items.lookup (id, name)).isSome

/-- A machine on which something is evaluated on somebody's behalf, with the owner of each frame. Only modules are running
that lead there, and what a module has computed comes from itself and its imports. -/
structure Machine.Tiered (p : Program) (owners : List Behalf) (behalf : Behalf) (m : Machine) : Prop where
  size : owners.length = m.heap.size
  outer : ∀ {f : Nat} {frame owner}, m.heap[f]? = some frame → owners[f]? = some owner → ∀ g ∈ frame.outer,
    ∃ inner, owners[(g : Nat)]? = some inner ∧ p.Below inner owner
  values : ∀ {f : Nat} {frame owner}, m.heap[f]? = some frame → owners[f]? = some owner → ∀ entry ∈ frame.values,
    entry.2.Within p owners owner
  roots : ∀ {id : ModuleId} {f : FrameId}, m.roots.lookup id = some f → owners[(f : Nat)]? = some (some id)
  items : ∀ entry ∈ m.items, entry.2.Within p owners (some entry.1.1)
  assemblies : ∀ entry ∈ m.assemblies, entry.2.Within p owners (some entry.1)
  running : ∀ {id}, m.states.lookup id = some .running → p.Below behalf (some id)
  done : ∀ {id l ast}, m.states.lookup id = some .done → p.modules[(id : Nat)]? = some l → l.ast = some ast →
    ∀ s ∈ ast.statements, m.Achieves p id s

/-- Modules stay as far as they have come, and definitions keep having values. -/
structure Machine.Adds (m m' : Machine) : Prop where
  states : ∀ {id s}, m.states.lookup id = some s → m'.states.lookup id = some s
  items : ∀ {key}, (m.items.lookup key).isSome → (m'.items.lookup key).isSome

/-- All modules that have been begun since have come to their ends. -/
structure Machine.Builds (m m' : Machine) : Prop extends m.Adds m' where
  running : ∀ {id}, m'.states.lookup id = some .running → m.states.lookup id = some .running

/-- A context in a frame that was opened on the same behalf. -/
structure Context.In (p : Program) (owners : List Behalf) (behalf : Behalf) (c : Context) : Prop where
  owner : owners[(c.frame : Nat)]? = some behalf
  module : p.Below (some c.module) behalf

/-- A task that is evaluated on somebody's behalf, with what may be used there. -/
def Task.On (p : Program) (owners : List Behalf) (behalf : Behalf) : Task → Prop
  | .expr c _ incoming | .block c _ incoming | .branch c _ incoming | .pipeline c _ incoming | .loop c _ incoming =>
    c.In p owners behalf ∧ ∀ v ∈ incoming, v.Within p owners behalf
  | .statement c _ => c.In p owners behalf
  | .call callee positional keyword => callee.Within p owners behalf ∧ (∀ v ∈ positional, v.Within p owners behalf) ∧
    ∀ entry ∈ keyword, entry.2.Within p owners behalf
  | .module id => p.Below (some id) behalf

/-- What a task is there for beside its value has been achieved. -/
def Task.Achieved (p : Program) (m : Machine) : Task → Prop
  | .statement c s => m.Achieves p c.module s
  | .module id => m.states.lookup id = some .done ∨ m.states.lookup id = some .running
  | _ => True

variable {p : Program} {owners owners' : List Behalf} {behalf inner outer : Behalf} {m m' m'' : Machine} {id : ModuleId}
  {c : Context} {v : Value}

namespace Program.Below

lemma refl : p.Below behalf behalf :=
  fun id member => ⟨id, member, .refl⟩

lemma trans (h : p.Below inner behalf) (h' : p.Below behalf outer) : p.Below inner outer := by
  intro id member
  obtain ⟨other, member', way⟩ := h' id member
  obtain ⟨last, member'', way'⟩ := h other member'
  exact ⟨last, member'', way.trans way'⟩

/-- On behalf of a request anything may be used. -/
lemma request : p.Below behalf none := nofun

/-- A module may be used where modules may be used that lead to it. -/
lemma reached {other : ModuleId} (h : p.Below (some id) behalf) (way : Relation.ReflTransGen p.Imports id other) :
    p.Below (some other) behalf := by
  intro first member
  obtain ⟨other', same, before⟩ := h first member
  obtain rfl := Option.some.inj same
  exact ⟨other, rfl, before.trans way⟩

end Program.Below

/-- A frame keeps its owner when more frames are opened. -/
lemma Behalf.kept {f : Nat} (grows : owners <+: owners') (known : owners[f]? = some behalf) : owners'[f]? = some behalf := by
  obtain ⟨more, rfl⟩ := grows
  rwa [List.getElem?_append_left (List.getElem?_eq_some_iff.1 known).1]

lemma Value.Within.mono (h : v.Within p owners inner) (grows : owners <+: owners') (below : p.Below inner behalf) :
    v.Within p owners' behalf := by
  refine h.imp fun f lent => ?_
  cases lent with
  | closure owner under module => exact .closure (Behalf.kept grows owner) (under.trans below) (module.trans below)
  | host => exact .host

/-- What may be used may be used when more frames have been opened. -/
lemma Value.Within.later (h : v.Within p owners behalf) (grows : owners <+: owners') : v.Within p owners' behalf :=
  h.mono grows .refl

lemma Value.Within.all_later {vs : List Value} (h : ∀ v ∈ vs, v.Within p owners behalf) (grows : owners <+: owners') :
    ∀ v ∈ vs, v.Within p owners' behalf :=
  fun v member => (h v member).later grows

lemma Context.In.later (h : c.In p owners behalf) (grows : owners <+: owners') : c.In p owners' behalf where
  owner := Behalf.kept grows h.owner
  module := h.module

lemma Machine.Adds.trans (h : m.Adds m') (h' : m'.Adds m'') : m.Adds m'' :=
  ⟨fun known => h'.states (h.states known), fun known => h'.items (h.items known)⟩

/-- A machine that records the same of modules and of exported definitions. -/
lemma Machine.Adds.of_same (states : m'.states = m.states) (items : m'.items = m.items) : m.Adds m' :=
  ⟨fun h => states ▸ h, fun h => items ▸ h⟩

lemma Machine.Builds.of_same (states : m'.states = m.states) (items : m'.items = m.items) : m.Builds m' :=
  ⟨.of_same states items, fun h => states ▸ h⟩

lemma Machine.Builds.refl : m.Builds m :=
  .of_same rfl rfl

lemma Machine.Builds.trans (h : m.Builds m') (h' : m'.Builds m'') : m.Builds m'' :=
  ⟨h.toAdds.trans h'.toAdds, fun running => h.running (h'.running running)⟩

lemma Machine.Achieves.later {s : Statement} (h : m.Achieves p id s) (adds : m.Adds m') : m'.Achieves p id s where
  imports i same t target resolved recorded := adds.states (h.imports i same t target resolved recorded)
  items name exposes := adds.items (h.items name exposes)

namespace Machine.Tiered

/-- What a frame holds may be used where the frame may be used. -/
lemma getLocal (h : m.Tiered p owners behalf) {f : FrameId} {id : BindingId} {owner : Behalf}
    (known : owners[(f : Nat)]? = some owner) (found : m.heap.getLocal? f id = some v) : v.Within p owners owner := by
  unfold Heap.getLocal? at found
  split at found
  · next frame there => exact h.values there known _ (mem_of_lookup found)
  · cases found

lemma get (h : m.Tiered p owners behalf) {f : FrameId} {id : BindingId} {owner : Behalf}
    (known : owners[(f : Nat)]? = some owner) (found : m.heap.get? f id = some v) : v.Within p owners owner := by
  obtain ⟨g, member, here⟩ := List.exists_of_findSome?_eq_some found
  unfold Heap.chain at member
  split at member
  · next frame there =>
    rcases List.mem_cons.1 member with rfl | around
    · exact h.getLocal known here
    · obtain ⟨inner, known', below⟩ := h.outer there known g around
      exact (h.getLocal known' here).mono List.prefix_rfl below
  · cases member

/-- One more frame, opened inside of another or as the frame of a module. -/
lemma push (h : m.Tiered p owners behalf) (parent : Option FrameId) (owner : Behalf)
    (inside : ∀ f ∈ parent, ∃ inner, owners[(f : Nat)]? = some inner ∧ p.Below inner owner) :
    { m with heap := m.heap.push parent : Machine }.Tiered p (owners ++ [owner]) behalf := by
  have grows : owners <+: owners ++ [owner] := List.prefix_append _ _
  have kept {f : Nat} {x : Behalf} (known : owners[f]? = some x) : (owners ++ [owner])[f]? = some x := Behalf.kept grows known
  have old {f : Nat} {frame : Frame} {x : Behalf} (there : m.heap[f]? = some frame)
      (known : (owners ++ [owner])[f]? = some x) : owners[f]? = some x := by
    rwa [List.getElem?_append_left (h.size ▸ (Array.getElem?_eq_some_iff.1 there).1)] at known
  refine ⟨by simp [h.size, Heap.push], fun {f frame x} there known g around => ?_, fun {f frame x} there known entry member => ?_,
    fun found => kept (h.roots found), fun entry member => (h.items entry member).later grows,
    fun entry member => (h.assemblies entry member).later grows, h.running,
    fun done found parsed s member => (h.done done found parsed s member).later (.of_same rfl rfl)⟩
  · simp only [Heap.push, Array.getElem?_push] at there
    split at there
    · next new =>
      obtain rfl : owner = x := by simpa [new, ← h.size] using known
      cases there
      cases parent with
      | none => cases around
      | some f' =>
        obtain ⟨inner, known', below⟩ := inside f' rfl
        rcases List.mem_cons.1 around with rfl | around
        · exact ⟨inner, kept known', below⟩
        · cases there' : m.heap[(f' : Nat)]? with
          | none => simp [there'] at around
          | some frame' =>
            obtain ⟨last, known'', below'⟩ := h.outer there' known' g (by simpa [there'] using around)
            exact ⟨last, kept known'', below'.trans below⟩
    · obtain ⟨inner, known', below⟩ := h.outer there (old there known) g around
      exact ⟨inner, kept known', below⟩
  · rcases Heap.push_found there with ⟨-, empty⟩ | before
    · rw [empty] at member
      cases member
    · exact (h.values before (old before known) entry member).later grows

lemma define (h : m.Tiered p owners behalf) {frame : FrameId} {id : BindingId} (owner : owners[(frame : Nat)]? = some behalf)
    (value : v.Within p owners behalf) : { m with heap := m.heap.define frame id v : Machine }.Tiered p owners behalf := by
  refine { h with
    size := by simp [Heap.define, h.size]
    outer := fun {f frame' x} there known => ?_
    values := fun {f frame' x} there known entry member => ?_
    done := fun done found parsed s member => (h.done done found parsed s member).later (.of_same rfl rfl) }
  · rw [Heap.getElem?_define] at there
    split at there
    · obtain ⟨old, before, rfl⟩ := Option.map_eq_some_iff.1 there
      exact fun g => h.outer before known g
    · exact h.outer there known
  · rw [Heap.getElem?_define] at there
    split at there
    · next same =>
      obtain ⟨old, before, rfl⟩ := Option.map_eq_some_iff.1 there
      rcases List.mem_cons.1 member with rfl | others
      · obtain rfl := Option.some.inj (known.symm.trans (same ▸ owner))
        exact value
      · exact h.values before known entry others
    · exact h.values there known entry member

/-- A definition of the module on whose behalf something is evaluated is given its value. -/
lemma setItem (h : m.Tiered p owners behalf) (key : ModuleId × String) (value : v.Within p owners (some key.1)) :
    { m with items := (key, v) :: m.items : Machine }.Tiered p owners behalf ∧
      m.Builds { m with items := (key, v) :: m.items } := by
  have builds : m.Builds { m with items := (key, v) :: m.items } := by
    refine ⟨⟨fun known => known, fun {other} known => ?_⟩, fun running => running⟩
    rw [List.lookup_cons]
    split
    · rfl
    · exact known
  exact ⟨{ h with
    items := List.forall_mem_cons.2 ⟨value, h.items⟩
    done := fun done found parsed s member => (h.done done found parsed s member).later builds.toAdds }, builds⟩

/-- A module begins to run, on its own behalf. -/
lemma begin (h : m.Tiered p owners behalf) (fresh : m.states.lookup id = none) (below : p.Below (some id) behalf) :
    (begun id m).Tiered p (owners ++ [some id]) (some id) ∧ m.Adds (begun id m) := by
  have pushed := h.push none (some id) nofun
  have adds : m.Adds (begun id m) := by
    refine ⟨fun {other s} known => ?_, fun known => known⟩
    have other_ : (other == id) = false := beq_false_of_ne fun same => by
      rw [same, fresh] at known
      cases known
    simpa [begun, List.lookup_cons, other_] using known
  refine ⟨{ pushed with
    roots := fun {other f} found => ?_
    running := fun {other} running => ?_
    done := fun {other l ast} done found parsed s member => ?_ }, adds⟩
  · simp only [begun, List.lookup_cons] at found
    split at found
    · next same =>
      obtain rfl := eq_of_beq same
      obtain rfl := Option.some.inj found
      simp [← h.size]
    · exact pushed.roots found
  · simp only [begun, List.lookup_cons] at running
    split at running
    · next same => exact eq_of_beq same ▸ .refl
    · exact below.trans (h.running running)
  · simp only [begun, List.lookup_cons] at done
    split at done
    · cases done
    · exact (h.done done found parsed s member).later adds

/-- A module comes to its end. -/
lemma close {s : RunState} (h : m.Tiered p owners (some id)) (running : m.states.lookup id = some .running)
    (ended : s ≠ .running) (around : ∀ {other}, other ≠ id → m.states.lookup other = some .running → p.Below behalf (some other))
    (achieved : s = .done → ∀ {l ast}, p.modules[(id : Nat)]? = some l → l.ast = some ast → ∀ s ∈ ast.statements,
      m.Achieves p id s) : { m with states := (id, s) :: m.states : Machine }.Tiered p owners behalf := by
  have later {other : ModuleId} {s' : Statement} (h : m.Achieves p other s') :
      { m with states := (id, s) :: m.states : Machine }.Achieves p other s' := by
    refine ⟨fun i same t target resolved recorded => ?_, h.items⟩
    have done := h.imports i same t target resolved recorded
    have other : (target == id) = false := beq_false_of_ne fun same => by
      rw [same, running] at done
      cases done
    simpa [List.lookup_cons, other] using done
  refine { h with
    running := fun {other} running' => ?_
    done := fun {other l ast} done found parsed s' member => later ?_ }
  · simp only [List.lookup_cons] at running'
    split at running'
    · exact absurd (Option.some.inj running') ended
    · next other => exact around (ne_of_beq_false other) running'
  · simp only [List.lookup_cons] at done
    split at done
    · next same =>
      obtain rfl := eq_of_beq same
      exact achieved (Option.some.inj done) found parsed s' member
    · exact h.done done found parsed s' member

end Machine.Tiered

/-! ### Computations -/

namespace Eval

variable {α β : Type}

/-- A computation has come to an end, and what is done on the machine stays so. Nothing is said when there was no depth left. -/
def Lands (p : Program) (owners : List Behalf) (behalf : Behalf) (m : Machine) (Q : List Behalf → Machine → α → Prop) :
    EStateM.Result Stop Machine α → Prop
  | .ok a m' => ∃ owners', owners <+: owners' ∧ m'.Tiered p owners' behalf ∧ m.Builds m' ∧ Q owners' m' a
  | .error (.error _) m' => ∃ owners', owners <+: owners' ∧ m'.Tiered p owners' behalf ∧ m.Builds m'
  | .error .outOfFuel _ => True

lemma Lands.since {Q : List Behalf → Machine → α → Prop} {result : EStateM.Result Stop Machine α}
    (h : Lands p owners' behalf m' Q result) (grows : owners <+: owners') (builds : m.Builds m') :
    Lands p owners behalf m Q result := by
  match result with
  | .ok a m'' =>
    obtain ⟨owners'', grows', tiered, builds', q⟩ := h
    exact ⟨owners'', grows.trans grows', tiered, builds.trans builds', q⟩
  | .error (.error e) m'' =>
    obtain ⟨owners'', grows', tiered, builds'⟩ := h
    exact ⟨owners'', grows.trans grows', tiered, builds.trans builds'⟩
  | .error .outOfFuel m'' => trivial

lemma Lands.imp {Q Q' : List Behalf → Machine → α → Prop} {result : EStateM.Result Stop Machine α}
    (h : Lands p owners behalf m Q result)
    (weaker : ∀ owners' m' a, owners <+: owners' → m'.Tiered p owners' behalf → Q owners' m' a → Q' owners' m' a) :
    Lands p owners behalf m Q' result := by
  match result with
  | .ok a m' =>
    obtain ⟨owners', grows, tiered, builds, q⟩ := h
    exact ⟨owners', grows, tiered, builds, weaker _ _ _ grows tiered q⟩
  | .error (.error e) m' => exact h
  | .error .outOfFuel m' => trivial

/-- A computation on a machine lands there, on somebody's behalf. -/
def Rises (p : Program) (owners : List Behalf) (behalf : Behalf) (m : Machine) (x : Eval α)
    (Q : List Behalf → Machine → α → Prop) : Prop :=
  Lands p owners behalf m Q (x m)

namespace Rises

variable {Q : List Behalf → Machine → α → Prop} {R : List Behalf → Machine → β → Prop} {x : Eval α} {f : α → Eval β}

lemma pure {a : α} (tiered : m.Tiered p owners behalf) (h : Q owners m a) : Rises p owners behalf m (Pure.pure a) Q :=
  ⟨owners, List.prefix_rfl, tiered, .refl, h⟩

lemma fail {e : RuntimeError} (tiered : m.Tiered p owners behalf) : Rises p owners behalf m (Eval.fail e) Q :=
  ⟨owners, List.prefix_rfl, tiered, .refl⟩

lemma ofOutcome {o : Outcome α} (tiered : m.Tiered p owners behalf) (gives : o.Gives (Q owners m)) :
    Rises p owners behalf m (Eval.ofOutcome o) Q := by
  cases o with
  | ok a => exact pure tiered gives
  | error e => exact fail tiered

lemma bind (first : Rises p owners behalf m x Q) (next : ∀ owners' m' a, owners <+: owners' → m'.Tiered p owners' behalf →
    m.Builds m' → Q owners' m' a → Rises p owners' behalf m' (f a) R) : Rises p owners behalf m (x >>= f) R := by
  unfold Rises at first ⊢
  cases ran : x m with
  | ok a m' =>
    rw [ran] at first
    rw [bind_eq ran]
    obtain ⟨owners', grows, tiered, builds, q⟩ := first
    exact (next owners' m' a grows tiered builds q).since grows builds
  | error stop m' =>
    rw [ran] at first
    rw [bind_stop ran]
    cases stop with
    | error e => exact first
    | outOfFuel => trivial

lemma imp {Q' : List Behalf → Machine → α → Prop} (h : Rises p owners behalf m x Q)
    (weaker : ∀ owners' m' a, owners <+: owners' → m'.Tiered p owners' behalf → Q owners' m' a → Q' owners' m' a) :
    Rises p owners behalf m x Q' :=
  Lands.imp h weaker

/-- What follows a look at the machine depends on the machine. -/
lemma look {f : Machine → Eval α} (next : Rises p owners behalf m (f m) Q) : Rises p owners behalf m (get >>= f) Q :=
  next

/-- A context in a new frame, inside of one that may be used. -/
lemma inside {owner : Behalf} (tiered : m.Tiered p owners behalf) (known : owners[(c.frame : Nat)]? = some owner)
    (below : p.Below owner behalf) (module : p.Below (some c.module) behalf) :
    Rises p owners behalf m (Eval.inside c) fun owners' _ c' => c'.In p owners' behalf ∧ c'.module = c.module := by
  have pushed := tiered.push (some c.frame) behalf fun f same => ⟨owner, Option.some.inj same ▸ known, below⟩
  exact ⟨_, List.prefix_append _ _, pushed, .of_same rfl rfl, ⟨by simp [← tiered.size], module⟩, rfl⟩

lemma define {id : BindingId} (tiered : m.Tiered p owners behalf) (on : c.In p owners behalf)
    (value : v.Within p owners behalf) : Rises p owners behalf m (Eval.define c.frame id v) fun _ _ _ => True :=
  ⟨owners, List.prefix_rfl, tiered.define on.owner value, .of_same rfl rfl, trivial⟩

lemma freshIdentity (tiered : m.Tiered p owners behalf) : Rises p owners behalf m Eval.freshIdentity fun _ _ _ => True :=
  ⟨owners, List.prefix_rfl, { tiered with
    done := fun done found parsed s member => (tiered.done done found parsed s member).later (.of_same rfl rfl) },
    .of_same rfl rfl, trivial⟩

lemma makeClosure {f : Lambda} {name : Option String} (tiered : m.Tiered p owners behalf) (on : c.In p owners behalf) :
    Rises p owners behalf m (Eval.makeClosure c f name) fun owners' _ v => v.Within p owners' behalf :=
  (freshIdentity tiered).bind fun _ _ _ grows tiered _ _ =>
    pure tiered (Value.holds_closure.2 (.closure (on.later grows).owner .refl on.module))

/-- A function of a program does the same or stops. -/
lemma resolvedOf {f : Resolved → Eval α} (tiered : m.Tiered p owners behalf)
    (next : ∀ t, p.resolvedOf id = some t → Rises p owners behalf m (f t) Q) :
    Rises p owners behalf m (Eval.resolvedOf p id >>= f) Q := by
  unfold Eval.resolvedOf Eval.module
  unfold Program.resolvedOf at next
  cases found : p.modules[(id : Nat)]? with
  | none => exact fail tiered
  | some l =>
    simp only [pure_bind]
    cases resolved : l.resolved with
    | none => exact fail tiered
    | some t => exact next t (by simp [found, resolved])

end Rises

end Eval

end PipeLang
