import PipeLang.Proofs.Eval.Issued
import PipeLang.Proofs.Eval.Twins

/-!
# What code can come upon

Code in a context gets at the values in the frames around it, at the definitions of modules that are imported, and at what it is given;
functions among these lead to further contexts: `Machine.Reaches`. If all modules within reach have begun to run, then a machine is
side by side with itself, `Machine.Sound.beside`, and with itself behind an evaluation that has spared what there was,
`Twins.Beside.spared`.
-/

namespace PipeLang

open Relation (ReflTransGen)

/-- A value that code in a context can get at by itself: in its frame, or in a module that its module imports in any number of
steps. -/
inductive Machine.Offers (p : Program) (m : Machine) (d : Context) : Value → Prop where
  | bound {frame id v} :
    m.heap[(d.frame : Nat)]? = some frame →
    (id, v) ∈ frame.values →
    Offers p m d v
  | item {id name v} :
    ReflTransGen p.Imports d.module id →
    ((id, name), v) ∈ m.items →
    Offers p m d v
  | assembly {id v} :
    ReflTransGen p.Imports d.module id →
    (id, v) ∈ m.assemblies →
    Offers p m d v

/-- The contexts that code in a context can come to with some values: the frames around it, and those of the functions that it
gets at. -/
inductive Machine.Reaches (p : Program) (m : Machine) (c : Context) (given : List Value) : Context → Prop where
  | here :
    Reaches p m c given c
  | around {d f} :
    Reaches p m c given d →
    f ∈ m.heap.chain d.frame →
    Reaches p m c given ⟨d.module, f⟩
  | given {v f} :
    v ∈ given →
    .closure f ∈ v.functions →
    Reaches p m c given ⟨f.module, f.frame⟩
  | offered {d v f} :
    Reaches p m c given d →
    m.Offers p d v →
    .closure f ∈ v.functions →
    Reaches p m c given ⟨f.module, f.frame⟩

/-- A module that code can come to run: one of the contexts that it can come to is in a module that imports it in any number of
steps. -/
def Machine.ReachesModule (p : Program) (m : Machine) (c : Context) (given : List Value) (id : ModuleId) : Prop :=
  ∃ d, m.Reaches p c given d ∧ ReflTransGen p.Imports d.module id

/-- Every module within reach of code has begun to run. -/
def Machine.Begun (p : Program) (m : Machine) (c : Context) (given : List Value) : Prop :=
  ∀ id, m.ReachesModule p c given id → m.states.lookup id ≠ none

/-- What is within reach on a machine stands for itself. -/
def Machine.reached (p : Program) (m : Machine) (c : Context) (given : List Value) : Matching where
  frames f g := f = g ∧ ∃ id, m.Reaches p c given ⟨id, f⟩
  identities i j := i = j ∧ i < m.fresh

/-- Evaluations on two machines whose modules are those within reach on one. -/
def Twins.within (p : Program) (m : Machine) (c : Context) (given : List Value) (left right : Machine) : Twins :=
  ⟨p, m.ReachesModule p c given, left, right⟩

section

variable {p : Program} {labels : Labels} {m m' : Machine} {c d : Context} {given : List Value} {t : Resolved} {scope : ScopeId}
  {v : Value} {f : Closure}

lemma Machine.Reaches.module (h : m.Reaches p c given d) : m.ReachesModule p c given d.module :=
  ⟨d, h, .refl⟩

/-- Modules within reach import modules within reach. -/
lemma Twins.within_closed (rest : p.AtRest) {left right : Machine} : (Twins.within p m c given left right).Closed where
  rest := rest
  imports := fun ⟨d, reaches, way⟩ imports => ⟨d, reaches, way.tail imports⟩

lemma Machine.reached_oneOne : (m.reached p c given).OneOne where
  frames := ⟨fun _ _ _ h h' => h.1.trans h'.1.symm, fun _ _ _ h h' => h.1.symm.trans h'.1⟩
  identities := ⟨fun _ _ _ h h' => h.1.trans h'.1.symm, fun _ _ _ h h' => h.1.symm.trans h'.1⟩

/-- What can be used is resolved, in scopes that are nested. -/
lemma Context.Stands.scoped (h : c.Stands p labels t scope) (sound : m.Sound p labels) : p.Scoped c.module t scope := by
  obtain ⟨t', resolved, nested, activates⟩ := sound.heap.frames h.label
  obtain rfl : t = t' := Option.some.inj (h.resolved.symm.trans resolved)
  refine ⟨h.usable, h.resolved, nested, fun none => ?_⟩
  have inside : (c.frame : Nat) < m.heap.size := sound.heap.size ▸ (List.getElem?_eq_some_iff.1 h.label).1
  have chain := activates.chain
  rw [none] at chain
  simp [Heap.chain, inside] at chain

namespace Machine.Sound

variable (sound : m.Sound p labels)
include sound

/-- The values that are on offer fit. -/
lemma offers_fits (offers : m.Offers p d v) : v.Fits p labels := by
  cases offers with
  | bound found member => exact sound.values found _ member
  | item _ member => exact sound.items _ member
  | assembly _ member => exact sound.assemblies _ member

/-- Contexts within reach are activations of scopes. -/
lemma reaches_label (stands : c.Stands p labels t scope) (fits : ∀ v ∈ given, v.Fits p labels)
    (reaches : m.Reaches p c given d) : ∃ scope, labels[(d.frame : Nat)]? = some (d.module, scope) := by
  have closure {v : Value} {f : Closure} (fits : v.Fits p labels) (member : .closure f ∈ v.functions) :
      ∃ scope, labels[(f.frame : Nat)]? = some (f.module, scope) := by
    cases fits _ member with
    | closure stands => exact ⟨_, stands.label⟩
  induction reaches with
  | here => exact ⟨scope, stands.label⟩
  | @around d g _ member ih =>
    obtain ⟨scope', label⟩ := ih
    obtain ⟨t', -, -, activates⟩ := sound.heap.frames label
    have labelled := List.mem_map_of_mem (f := fun g => labels[(g : Nat)]?) member
    rw [activates.chain] at labelled
    obtain ⟨s, -, same⟩ := List.mem_map.1 labelled
    exact ⟨s, same.symm⟩
  | given among member => exact closure (fits _ among) member
  | offered _ offers member => exact closure (sound.offers_fits offers) member

/-- Modules within reach have begun to run if all modules have. -/
lemma begun_of_all (rest : p.AtRest) (stands : c.Stands p labels t scope) (fits : ∀ v ∈ given, v.Fits p labels)
    (all : ∀ id : Nat, id < p.modules.size → m.states.lookup id ≠ none) : m.Begun p c given := by
  rintro id ⟨d, reaches, way⟩
  obtain ⟨_, label⟩ := sound.reaches_label stands fits reaches
  obtain ⟨t', resolved, -⟩ := sound.heap.frames label
  obtain ⟨loaded, found, -⟩ := Option.bind_eq_some_iff.1 resolved
  have inside : (id : Nat) < p.modules.size := by
    cases way with
    | refl => exact (Array.getElem?_eq_some_iff.1 found).1
    | tail _ imports => exact (rest.sound.imports (Or.inl imports)).1
  exact all id inside

end Machine.Sound

section

variable (sound : m.Sound p labels) (issued : m.Issued) (fits : ∀ v ∈ given, v.Fits p labels)
include sound

/-- A value whose functions lead to contexts within reach is like itself. -/
lemma Value.alike_of_reached {left right : Machine} (fit : v.Fits p labels) (taken : v.Issued m.fresh)
    (leads : ∀ f, .closure f ∈ v.functions → m.Reaches p c given ⟨f.module, f.frame⟩) :
    (Twins.within p m c given left right).Alike (m.reached p c given) v v := by
  have identities (i : Nat) (below : i < m.fresh) : (m.reached p c given).identities i i := ⟨rfl, below⟩
  refine Value.Issued.alike identities v taken fun f member => ?_
  have reaches := leads f member
  cases fit _ member with
  | closure stands settled =>
    exact ⟨⟨rfl, f.module, reaches⟩, reaches.module, _, _, stands.scoped sound, settled, [], nofun, fun _ _ => trivial⟩

include issued

/-- So is a value that is on offer within reach. -/
lemma Machine.Offers.alike {left right : Machine} (offers : m.Offers p d v) (reaches : m.Reaches p c given d) :
    (Twins.within p m c given left right).Alike (m.reached p c given) v v := by
  refine Value.alike_of_reached sound (sound.offers_fits offers) ?_ fun f member => .offered reaches offers member
  cases offers with
  | bound found member => exact issued.values found _ member
  | item _ member => exact issued.items _ member
  | assembly _ member => exact issued.assemblies _ member

include fits

/-- A machine is side by side with itself if all modules within reach have begun to run. -/
lemma Machine.Sound.beside (stands : c.Stands p labels t scope) (begun : m.Begun p c given) :
    (Twins.within p m c given m m).Beside (m.reached p c given) m m where
  unique := Machine.reached_oneOne
  frames := by
    rintro f _ ⟨rfl, id, reaches⟩
    obtain ⟨scope', label⟩ := sound.reaches_label stands fits reaches
    have inside : (f : Nat) < m.heap.size := sound.heap.size ▸ (List.getElem?_eq_some_iff.1 label).1
    obtain ⟨frame, found⟩ : ∃ frame, m.heap[(f : Nat)]? = some frame := ⟨_, Array.getElem?_eq_getElem inside⟩
    refine ⟨frame, frame, found, found, List.forall₂_same.2 fun g member => ⟨rfl, id, reaches.around ?_⟩, ?_⟩
    · simp only [Heap.chain, found]
      exact List.mem_cons_of_mem _ member
    · exact List.forall₂_same.2 fun entry member => ⟨rfl, (Machine.Offers.bound found member).alike sound issued reaches⟩
  left := .refl
  right := .refl
  identities pair := ⟨pair.2, pair.1 ▸ pair.2⟩
  states {id} inside := by
    obtain ⟨s, known⟩ := Option.ne_none_iff_exists'.1 (begun id inside)
    exact ⟨s, known, known⟩
  items {id} name := by
    rintro ⟨d, reaches, way⟩
    cases known : m.items.lookup (id, name) with
    | none => exact .none
    | some v => exact .some ((Machine.Offers.item way (mem_of_lookup known)).alike sound issued reaches)
  assemblies {id} := by
    rintro ⟨d, reaches, way⟩
    cases known : m.assemblies.lookup id with
    | none => exact .none
    | some v => exact .some ((Machine.Offers.assembly way (mem_of_lookup known)).alike sound issued reaches)

end

/-- What has spared a machine is side by side with it. -/
lemma Twins.Beside.spared (beside : (Twins.within p m c given m m).Beside (m.reached p c given) m m) (spares : m.Spares m') :
    (Twins.within p m c given m' m).Beside (m.reached p c given) m' m where
  unique := beside.unique
  frames := by
    rintro f g pair
    obtain ⟨frame, frame', found, found', alike⟩ := beside.frames pair
    exact ⟨frame, frame', (spares.heap (beside.frame_lt pair).1).trans found, found', alike⟩
  left := .refl
  right := .refl
  identities pair := (beside.identities pair).imp_left fun below => Nat.lt_of_lt_of_le below spares.fresh
  states inside := by
    obtain ⟨s, known, -⟩ := beside.states inside
    exact ⟨s, spares.states ▸ known, known⟩
  items name inside := spares.items ▸ beside.items name inside
  assemblies inside := spares.assemblies ▸ beside.assemblies inside

end

end PipeLang
