import PipeLang.Proofs.Eval.Lockstep
import PipeLang.Proofs.Eval.Records
import PipeLang.Proofs.Load.Served

/-!
# Rehearsals

In a rehearsal all modules of a program are run one after another, each behind those that it imports. What a module makes there, its
frames, its values and its error, is what it makes whenever it is run. No module is begun by another one in a rehearsal:
`Task.rehearse` stops instead.
-/

namespace PipeLang

open Eval

/-- Evaluates a task on a machine on which modules have run, within a depth. No further modules are begun. -/
def Task.rehearse (p : Program) : Nat → Task → Eval Value
  | 0, _ => throw .outOfFuel
  | fuel + 1, .module id => fun m =>
    if m.states.lookup id = none ∧ (p.modules[(id : Nat)]?.any LoadedModule.isUsable) = true then .error .outOfFuel m
    else step p (rehearse p fuel) (.module id) m
  | fuel + 1, task => step p (rehearse p fuel) task

namespace Machine

/-- Two machines have the same records of a module. -/
structure SameAt (id : ModuleId) (m m' : Machine) : Prop where
  state : m'.states.lookup id = m.states.lookup id
  items : ∀ name, m'.items.lookup (id, name) = m.items.lookup (id, name)
  assembly : m'.assemblies.lookup id = m.assemblies.lookup id
  root : m'.roots.lookup id = m.roots.lookup id

/-- What two machines have recorded of a module is alike. -/
structure AlikeAt (M : Matching) (code : Code) (id : ModuleId) (m m' : Machine) : Prop where
  items : ∀ name, Option.Rel (Value.Alike M code) (m.items.lookup (id, name)) (m'.items.lookup (id, name))
  assembly : Option.Rel (Value.Alike M code) (m.assemblies.lookup id) (m'.assemblies.lookup id)
  root : Option.Rel M.frames (m.roots.lookup id) (m'.roots.lookup id)

/-- The frames and identities of a machine, each standing for itself. -/
def below (m : Machine) : Matching where
  frames f g := f = g ∧ (f : Nat) < m.heap.size
  identities i j := i = j ∧ i < m.fresh

variable {m m' m'' : Machine} {id : ModuleId} {M M' : Matching} {code code' : Code}

namespace SameAt

lemma refl : SameAt id m m :=
  ⟨rfl, fun _ => rfl, rfl, rfl⟩

lemma symm (h : SameAt id m m') : SameAt id m' m :=
  ⟨h.state.symm, fun name => (h.items name).symm, h.assembly.symm, h.root.symm⟩

lemma trans (h : SameAt id m m') (h' : SameAt id m' m'') : SameAt id m m'' :=
  ⟨h'.state.trans h.state, fun name => (h'.items name).trans (h.items name), h'.assembly.trans h.assembly, h'.root.trans h.root⟩

/-- What has been recorded is the same everywhere. -/
lemma of_eq (states : m'.states = m.states) (items : m'.items = m.items) (assemblies : m'.assemblies = m.assemblies)
    (roots : m'.roots = m.roots) : SameAt id m m' :=
  ⟨states ▸ rfl, fun _ => items ▸ rfl, assemblies ▸ rfl, roots ▸ rfl⟩

end SameAt

lemma AlikeAt.mono (h : AlikeAt M code id m m') (within : M.Within M') (more : ∀ id f, code id f → code' id f) :
    AlikeAt M' code' id m m' where
  items name := Option.Rel.imp (h.items name) fun v _ alike => Value.Alike.mono within more v alike
  assembly := Option.Rel.imp h.assembly fun v _ alike => Value.Alike.mono within more v alike
  root := Option.Rel.imp h.root fun _ _ => within.frames

lemma AlikeAt.same (h : AlikeAt M code id m m') {n n' : Machine} (left : SameAt id m n) (right : SameAt id m' n') :
    AlikeAt M code id n n' where
  items name := (left.items name).symm ▸ (right.items name).symm ▸ h.items name
  assembly := left.assembly.symm ▸ right.assembly.symm ▸ h.assembly
  root := left.root.symm ▸ right.root.symm ▸ h.root

lemma below_within (keeps : m.Keeps m') : m.below.Within m'.below :=
  ⟨fun ⟨same, inside⟩ => ⟨same, Nat.lt_of_lt_of_le inside keeps.size⟩,
    fun ⟨same, inside⟩ => ⟨same, Nat.lt_of_lt_of_le inside keeps.fresh⟩⟩

end Machine

/-- The part of a matching that leads to frames and identities of a machine. -/
def Matching.into (M : Matching) (m : Machine) : Matching where
  frames f g := M.frames f g ∧ (g : Nat) < m.heap.size
  identities i j := M.identities i j ∧ j < m.fresh

section

variable {M M' : Matching} {code code' : Code} {m m' : Machine} {v w : Value} {f g : Closure} {a b : Frame} {id : ModuleId}

lemma Matching.into_within : (M.into m).Within M :=
  ⟨And.left, And.left⟩

lemma Closure.Alike.into (h : f.Alike M code g) (self : g.Alike m.below code' g) : f.Alike (M.into m) code' g where
  name := h.name
  module := h.module
  lambda := h.lambda
  frame := ⟨h.frame, self.frame.2⟩
  identity := ⟨h.identity, self.identity.2⟩
  allowed := h.module ▸ h.lambda ▸ self.allowed

mutual

/-- If a value holds frames and identities of a machine only, then what is like it is like it for what leads to these. -/
theorem Value.Alike.into : (v : Value) → {w : Value} → v.Alike M code w → w.Alike m.below code' w → v.Alike (M.into m) code' w
  | .unit, _, .unit, _ => .unit
  | .number _, _, .number, _ => .number
  | .bool _, _, .bool, _ => .bool
  | .text _, _, .text, _ => .text
  | .array vs, _, .array h, .array self => .array (Value.Alike.all_into vs h self)
  | .closure _, _, .closure h, .closure self => .closure (h.into self)
  | .host _, _, .host, _ => .host
  | .object _ _ v, _, .object same h, .object self inner => .object ⟨same, self.2⟩ (Value.Alike.into v h inner)

theorem Value.Alike.all_into : (vs : List Value) → {ws : List Value} → List.Forall₂ (Value.Alike M code) vs ws →
    List.Forall₂ (Value.Alike m.below code') ws ws → List.Forall₂ (Value.Alike (M.into m) code') vs ws
  | [], _, .nil, _ => .nil
  | v :: vs, _, .cons h hs, .cons self others => .cons (Value.Alike.into v h self) (Value.Alike.all_into vs hs others)

end

/-- What holds of the items of the second of two lists that are related goes with the relation. -/
lemma forall₂_and {α β : Type} {R : α → β → Prop} {P : β → Prop} {as : List α} {bs : List β} (h : List.Forall₂ R as bs)
    (all : ∀ b ∈ bs, P b) : List.Forall₂ (fun a b => R a b ∧ P b) as bs := by
  induction h with
  | nil => exact .nil
  | cons related _ ih =>
    obtain ⟨first, others⟩ := List.forall_mem_cons.1 all
    exact .cons ⟨related, first⟩ (ih others)

lemma forall₂_right {α β : Type} {R : α → β → Prop} {P : β → Prop} {as : List α} {bs : List β} (h : List.Forall₂ R as bs)
    (right : ∀ a b, R a b → P b) : ∀ b ∈ bs, P b := by
  induction h with
  | nil => exact List.forall_mem_nil _
  | cons related _ ih => exact List.forall_mem_cons.2 ⟨right _ _ related, ih⟩

lemma Frame.Alike.into (h : a.Alike M code b) (self : b.Alike m.below code' b) : a.Alike (M.into m) code' b where
  outer := (forall₂_and h.outer (List.forall₂_same.1 self.outer)).imp fun _ _ ⟨pair, inside⟩ => ⟨pair, inside.2⟩
  values := (forall₂_and h.values (List.forall₂_same.1 self.values)).imp fun _ _ ⟨⟨key, alike⟩, inside⟩ =>
    ⟨key, Value.Alike.into _ alike inside.2⟩

mutual

/-- What something is like holds frames and identities only that correspond to something. -/
theorem Value.Alike.self (frames : ∀ {f g}, M.frames f g → (g : Nat) < m.heap.size)
    (identities : ∀ {i j}, M.identities i j → j < m.fresh) : (v : Value) → {w : Value} → v.Alike M code w → w.Alike m.below code w
  | .unit, _, .unit => .unit
  | .number _, _, .number => .number
  | .bool _, _, .bool => .bool
  | .text _, _, .text => .text
  | .array vs, _, .array h => .array (Value.Alike.all_self frames identities vs h)
  | .closure _, _, .closure h => .closure ⟨rfl, rfl, rfl, ⟨rfl, frames h.frame⟩, ⟨rfl, identities h.identity⟩,
      h.module.symm ▸ h.lambda.symm ▸ h.allowed⟩
  | .host _, _, .host => .host
  | .object _ _ v, _, .object same h => .object ⟨rfl, identities same⟩ (Value.Alike.self frames identities v h)

theorem Value.Alike.all_self (frames : ∀ {f g}, M.frames f g → (g : Nat) < m.heap.size)
    (identities : ∀ {i j}, M.identities i j → j < m.fresh) : (vs : List Value) → {ws : List Value} →
      List.Forall₂ (Value.Alike M code) vs ws → List.Forall₂ (Value.Alike m.below code) ws ws
  | [], _, .nil => .nil
  | v :: vs, _, .cons h hs => .cons (Value.Alike.self frames identities v h) (Value.Alike.all_self frames identities vs hs)

end

lemma Frame.Alike.recode (h : a.Alike M code b) (more : ∀ id f, code id f → code' id f) : a.Alike M code' b where
  outer := h.outer
  values := h.values.imp fun _ _ ⟨key, alike⟩ => ⟨key, Value.Alike.mono .refl more _ alike⟩

lemma Frame.Alike.self (h : a.Alike M code b) (frames : ∀ {f g}, M.frames f g → (g : Nat) < m.heap.size)
    (identities : ∀ {i j}, M.identities i j → j < m.fresh) : b.Alike m.below code b where
  outer := List.forall₂_same.2 (forall₂_right h.outer fun _ _ pair => ⟨rfl, frames pair⟩)
  values := List.forall₂_same.2 (forall₂_right h.values fun entry _ ⟨_, alike⟩ =>
    ⟨rfl, Value.Alike.self frames identities entry.2 alike⟩)

end

/-! ### Stages -/

/-- The modules whose functions may be called where some have run and one may be running. -/
def Machine.region (p : Program) (m : Machine) (owner : Option ModuleId) : Region where
  program := p
  inside id := m.states.lookup id = some .done ∨ owner = some id
  ran id s := ∀ t target, p.resolvedOf id = some t → t.imports.get? s = some target → m.states.lookup target = some .done
  serves := p.Serves

/-- A module has been run behind others. It has come to its end, and if it has run to its end then what it has made holds frames
and identities of the machine only, and functions of modules that have run. -/
structure Machine.Adopts (p : Program) (m : Machine) (id : ModuleId) (m' : Machine) : Prop extends m.Keeps m' where
  others : ∀ other, other ≠ id → SameAt other m m'
  ended : m'.states.lookup id = some .done ∨ ∃ e, m'.states.lookup id = some (.failed e)
  frames : m'.states.lookup id = some .done → ∀ {g : Nat} {frame}, m.heap.size ≤ g → m'.heap[g]? = some frame →
    frame.Alike m'.below (m'.region p none).code frame
  records : m'.states.lookup id = some .done → AlikeAt m'.below (m'.region p none).code id m' m'
  imports : m'.states.lookup id = some .done → ∀ target, p.ImportsAtTop id target → m'.states.lookup target = some .done

/-- The modules of a program that can be used, each behind those that it imports, and a depth. -/
structure Rehearsal where
  program : Program
  order : List ModuleId
  depth : Nat
  distinct : order.Nodup
  behind : ∀ {i : Nat} {id target}, order[i]? = some id → program.Imports id target → ∃ j < i, order[j]? = some target
  usable : ∀ {id}, id ∈ order ↔ program.Usable id

namespace Rehearsal

/-- What comes of running a module behind others. -/
def outcome (R : Rehearsal) (m : Machine) (id : ModuleId) : EStateM.Result Stop Machine Value :=
  step R.program (Task.rehearse R.program R.depth) (.module id) m

open Classical in
/-- The machine behind the first modules. A module that does not come to its end within the depth is passed over. -/
noncomputable def stage (R : Rehearsal) : Nat → Machine
  | 0 => .new
  | k + 1 =>
    match R.order[k]? with
    | none => stage R k
    | some id =>
      if (∀ m, R.outcome (stage R k) id ≠ .error .outOfFuel m) ∧ (stage R k).Adopts R.program id (left (R.outcome (stage R k) id)) then
        left (R.outcome (stage R k) id)
      else stage R k

/-- A module is among the first ones. -/
def Early (R : Rehearsal) (k : Nat) (id : ModuleId) : Prop :=
  ∃ i < k, R.order[i]? = some id

variable {R : Rehearsal} {k i j : Nat} {id : ModuleId}

lemma stage_succ (R : Rehearsal) (k : Nat) : R.stage (k + 1) = R.stage k ∨
    ∃ id, R.order[k]? = some id ∧ (R.stage k).Adopts R.program id (R.stage (k + 1)) := by
  cases found : R.order[k]? with
  | none => exact Or.inl (by simp [stage, found])
  | some id =>
    by_cases ends : ∀ m, R.outcome (R.stage k) id ≠ .error .outOfFuel m
    · by_cases adopts : (R.stage k).Adopts R.program id (left (R.outcome (R.stage k) id))
      · exact Or.inr ⟨id, rfl, by simp [stage, found, adopts, ends]⟩
      · exact Or.inl (by simp [stage, found, adopts])
    · exact Or.inl (by rw [stage, found]; exact if_neg fun h => ends h.1)

/-- What the next module makes is taken if it is fit. -/
lemma stage_adopted (here : R.order[k]? = some id) (ends : ∀ m, R.outcome (R.stage k) id ≠ .error .outOfFuel m)
    (adopts : (R.stage k).Adopts R.program id (left (R.outcome (R.stage k) id))) :
    R.stage (k + 1) = left (R.outcome (R.stage k) id) := by
  rw [stage, here]
  exact if_pos ⟨ends, adopts⟩

/-- A module that does not come to its end is passed over. -/
lemma stage_passed {m : Machine} (here : R.order[k]? = some id) (stops : R.outcome (R.stage k) id = .error .outOfFuel m) :
    R.stage (k + 1) = R.stage k := by
  rw [stage, here]
  exact if_neg fun h => h.1 m stops

lemma stage_keeps_succ : (R.stage k).Keeps (R.stage (k + 1)) := by
  rcases R.stage_succ k with same | ⟨id, -, adopts⟩
  · exact same ▸ .refl
  · exact adopts.toKeeps

/-- A module is not among those before it. -/
lemma not_early (here : R.order[k]? = some id) : ¬ R.Early k id := by
  rintro ⟨i, before, there⟩
  have inside : k < R.order.length := (List.getElem?_eq_some_iff.1 here).1
  exact List.nodup_iff_getElem?_ne_getElem?.1 R.distinct i k before inside (there.trans here.symm)

/-- Later stages have the frames of earlier ones as they were. -/
lemma stage_keeps (h : i ≤ k) : (R.stage i).Keeps (R.stage k) := by
  induction k, h using Nat.le_induction with
  | base => exact .refl
  | succ k _ ih => exact ih.trans stage_keeps_succ

/-- Between two stages the records change only of the modules that are run there. -/
lemma stage_same (h : i ≤ k) (apart : ∀ j, i ≤ j → j < k → R.order[j]? ≠ some id) : Machine.SameAt id (R.stage i) (R.stage k) := by
  induction k, h using Nat.le_induction with
  | base => exact .refl
  | succ k below ih =>
    refine (ih fun j from_ before => apart j from_ (Nat.lt_succ_of_lt before)).trans ?_
    rcases R.stage_succ k with same | ⟨other, here, adopts⟩
    · exact same ▸ .refl
    · exact adopts.others id fun same => apart k below (Nat.lt_succ_self k) (same ▸ here)

/-- Nothing is known of a module before it is run. -/
lemma stage_blank (late : ¬ R.Early k id) : Machine.SameAt id .new (R.stage k) :=
  stage_same (R := R) (Nat.zero_le k) fun i _ before here => late ⟨i, before, here⟩

/-- What is known of a module stays so. -/
lemma stage_since (here : R.order[i]? = some id) (before : i < k) : Machine.SameAt id (R.stage (i + 1)) (R.stage k) := by
  refine stage_same before fun j from_ _ there => ?_
  have inside : j < R.order.length := (List.getElem?_eq_some_iff.1 there).1
  exact List.nodup_iff_getElem?_ne_getElem?.1 R.distinct i j from_ inside (here.trans there.symm)

/-- A module that has run at some stage is among the first ones there. -/
lemma early_of_done {s : RunState} (known : (R.stage k).states.lookup id = some s) : R.Early k id := by
  by_contra late
  rw [(stage_blank late).state] at known
  cases known

/-- What is known of a module at some stage stays so. -/
lemma stage_later (early : R.Early i id) (h : i ≤ k) : Machine.SameAt id (R.stage i) (R.stage k) := by
  obtain ⟨j, before, here⟩ := early
  exact (stage_since here before).symm.trans (stage_since here (Nat.lt_of_lt_of_le before h))

lemma stage_done (h : i ≤ k) (done : (R.stage i).states.lookup id = some .done) : (R.stage k).states.lookup id = some .done :=
  (stage_later (early_of_done done) h).state.trans done

/-- A module that has run has been taken. -/
lemma stage_adopts (here : R.order[i]? = some id) (done : (R.stage (i + 1)).states.lookup id = some .done) :
    (R.stage i).Adopts R.program id (R.stage (i + 1)) := by
  rcases R.stage_succ i with same | ⟨other, there, adopts⟩
  · exact absurd (early_of_done (same ▸ done)) (not_early here)
  · cases here.symm.trans there
    exact adopts

/-- More functions may be called where more modules have run. -/
lemma region_mono {p : Program} {m m' : Machine} {owner owner' : Option ModuleId}
    (more : ∀ {id}, m.states.lookup id = some .done → m'.states.lookup id = some .done)
    (owned : ∀ id, owner = some id → m'.states.lookup id = some .done ∨ owner' = some id) (id : ModuleId) (f : Lambda)
    (h : (m.region p owner).code id f) : (m'.region p owner').code id f := by
  obtain ⟨inside, t, scope, there, settled, passed, ran, serves⟩ := h
  refine ⟨inside.elim (fun done => Or.inl (more done)) (owned id), t, scope, there, settled, passed, ?_, serves⟩
  exact fun s member t target resolved imported => more (ran s member t target resolved imported)

lemma stage_region (h : i ≤ k) (id : ModuleId) (f : Lambda) (allowed : ((R.stage i).region R.program none).code id f) :
    ((R.stage k).region R.program none).code id f :=
  region_mono (stage_done h) (fun _ owned => by cases owned) id f allowed

/-- A frame that a module among the first ones has opened. -/
def FrameOf (R : Rehearsal) (k : Nat) (g : FrameId) (id : ModuleId) : Prop :=
  ∃ i < k, R.order[i]? = some id ∧ (R.stage i).heap.size ≤ g ∧ g < (R.stage (i + 1)).heap.size

/-- An identity that a module among the first ones has given away. -/
def IdentityOf (R : Rehearsal) (k : Nat) (j : Nat) (id : ModuleId) : Prop :=
  ∃ i < k, R.order[i]? = some id ∧ (R.stage i).fresh ≤ j ∧ j < (R.stage (i + 1)).fresh

lemma FrameOf.lt {g : FrameId} (h : R.FrameOf k g id) : g < (R.stage k).heap.size := by
  obtain ⟨i, before, -, -, below⟩ := h
  exact Nat.lt_of_lt_of_le below (stage_keeps before).size

lemma IdentityOf.lt {j : Nat} (h : R.IdentityOf k j id) : j < (R.stage k).fresh := by
  obtain ⟨i, before, -, -, below⟩ := h
  exact Nat.lt_of_lt_of_le below (stage_keeps before).fresh

lemma FrameOf.later {g : FrameId} (h : R.FrameOf i g id) (le : i ≤ k) : R.FrameOf k g id := by
  obtain ⟨j, before, there⟩ := h
  exact ⟨j, Nat.lt_of_lt_of_le before le, there⟩

lemma IdentityOf.later {j : Nat} (h : R.IdentityOf i j id) (le : i ≤ k) : R.IdentityOf k j id := by
  obtain ⟨j, before, there⟩ := h
  exact ⟨j, Nat.lt_of_lt_of_le before le, there⟩

/-- A frame that was there earlier has been opened earlier. -/
lemma FrameOf.earlier {g : FrameId} (h : R.FrameOf k g id) (inside : g < (R.stage i).heap.size) : R.FrameOf i g id := by
  obtain ⟨j, -, here, above, below⟩ := h
  refine ⟨j, Nat.lt_of_not_le fun le => ?_, here, above, below⟩
  exact absurd (Nat.lt_of_lt_of_le inside (Nat.le_trans (stage_keeps le).size above)) (Nat.lt_irrefl _)

lemma IdentityOf.earlier {j : Nat} (h : R.IdentityOf k j id) (inside : j < (R.stage i).fresh) : R.IdentityOf i j id := by
  obtain ⟨l, -, here, above, below⟩ := h
  refine ⟨l, Nat.lt_of_not_le fun le => ?_, here, above, below⟩
  exact absurd (Nat.lt_of_lt_of_le inside (Nat.le_trans (stage_keeps le).fresh above)) (Nat.lt_irrefl _)

/-- Every frame of a stage has been opened by a module. -/
lemma frameOf_of_lt {g : Nat} (inside : g < (R.stage k).heap.size) : ∃ id, R.FrameOf k g id := by
  induction k with
  | zero => exact absurd inside (Nat.not_lt_zero g)
  | succ k ih =>
    by_cases old : g < (R.stage k).heap.size
    · obtain ⟨id, of⟩ := ih old
      exact ⟨id, of.later (Nat.le_succ k)⟩
    · rcases R.stage_succ k with same | ⟨id, here, -⟩
      · exact absurd (same ▸ inside) old
      · exact ⟨id, k, Nat.lt_succ_self k, here, Nat.le_of_not_lt old, inside⟩

lemma identityOf_of_lt {j : Nat} (inside : j < (R.stage k).fresh) : ∃ id, R.IdentityOf k j id := by
  induction k with
  | zero => exact absurd inside (Nat.not_lt_zero j)
  | succ k ih =>
    by_cases old : j < (R.stage k).fresh
    · obtain ⟨id, of⟩ := ih old
      exact ⟨id, of.later (Nat.le_succ k)⟩
    · rcases R.stage_succ k with same | ⟨id, here, -⟩
      · exact absurd (same ▸ inside) old
      · exact ⟨id, k, Nat.lt_succ_self k, here, Nat.le_of_not_lt old, inside⟩

/-- The frames of a module that has run hold what has been made so far. -/
lemma stage_frames {g : FrameId} {frame : Frame} (of : R.FrameOf k g id) (done : (R.stage k).states.lookup id = some .done)
    (found : (R.stage k).heap[(g : Nat)]? = some frame) :
    frame.Alike (R.stage k).below ((R.stage k).region R.program none).code frame := by
  obtain ⟨i, before, here, above, below⟩ := of
  have done' : (R.stage (i + 1)).states.lookup id = some .done := (stage_since here before).state.symm.trans done
  have keeps : (R.stage (i + 1)).Keeps (R.stage k) := stage_keeps before
  have self := (stage_adopts here done').frames done' above ((keeps.heap below).symm.trans found)
  exact (self.mono (Machine.below_within keeps)).recode (stage_region before)

/-- What is recorded of a module that has run holds what has been made so far. -/
lemma stage_records (done : (R.stage k).states.lookup id = some .done) :
    Machine.AlikeAt (R.stage k).below ((R.stage k).region R.program none).code id (R.stage k) (R.stage k) := by
  obtain ⟨i, before, here⟩ := early_of_done done
  have done' : (R.stage (i + 1)).states.lookup id = some .done := (stage_since here before).state.symm.trans done
  have self := (stage_adopts here done').records done'
  exact (self.mono (Machine.below_within (stage_keeps before)) (stage_region before)).same (stage_since here before)
    (stage_since here before)

/-- Modules that have run have imported modules that have. -/
lemma stage_closed : R.program.ClosedAtTop fun id => (R.stage k).states.lookup id = some .done := by
  intro id target done imports
  obtain ⟨i, before, here⟩ := early_of_done done
  have done' : (R.stage (i + 1)).states.lookup id = some .done := (stage_since here before).state.symm.trans done
  exact stage_done before ((stage_adopts here done').imports done' target imports)

end Rehearsal

end PipeLang
