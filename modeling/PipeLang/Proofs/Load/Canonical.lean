import PipeLang.Proofs.Load.Nested

/-!
# Canonical programs

However often a definition is forwarded from module to module, what is exported of it is what its own module exports
of it: `Program.visits_canonical`.
-/

namespace PipeLang

/-- A module's own export of one of its definitions. -/
structure Program.Owns (p : Program) (id : ModuleId) (name : String) (e : Export) : Prop where
  exported : (p.exportsOf id).get? name = some e
  target : e.target = .item id name
  own : e.reexport = false

/-- What a name of a module can stand for: a binding that the module keeps for itself, a host function, a module of the
program, or a definition under the type that its own module exports it with. -/
inductive Program.Stands (p : Program) (t : Scopes) : Target → Ty → Prop where
  | inner {id : Nat} {b ty} :
    t.bindings[id]? = some b →
    b.target = .inner id →
    Stands p t (.inner id) ty
  | host {name f ty} :
    p.hosts.get? name = some f →
    Stands p t (.host name) ty
  | module {id : Nat} {ty} :
    id < p.modules.size →
    Stands p t (.module id) ty
  | item {id name e ty} :
    p.Owns id name e →
    e.ty = ty →
    Stands p t (.item id name) ty

/-- Of what the tables of a module name as modules, each is there. -/
structure Program.Knows (p : Program) (t : Scopes) (references : SpanTable Reference) : Prop where
  bindings : ∀ {id : Nat} {b}, t.bindings[id]? = some b → ∀ j, b.target = .module j → (j : Nat) < p.modules.size
  references : ∀ {s ref}, references.get? s = some ref → ∀ j, ref.target = .module j → (j : Nat) < p.modules.size

/-- An export of a module of the program, or of a definition under the kind and type that its own module exports it
with. -/
structure Program.Grounds (p : Program) (e : Export) : Prop where
  offered : e.target.Offered p.modules.size
  item : ∀ id name, e.target = .item id name → ∃ own, p.Owns id name own ∧ own.kind = e.kind ∧ own.ty = e.ty

/-- A program in which every export of a definition goes back to the definition's own module. -/
structure Program.Canonical (p : Program) : Prop where
  exports : ∀ {i : Nat} {m}, p.modules[i]? = some m → ∀ e ∈ m.exports.entries, p.Grounds e
  knows : ∀ {i : Nat} {m t}, p.modules[i]? = some m → m.resolved = some t → p.Knows t.scopes t.references
  references : ∀ {i : Nat} {m t}, p.modules[i]? = some m → m.isUsable = true → m.resolved = some t →
    ∀ {s ref}, t.references.get? s = some ref → p.Stands t.scopes ref.target ref.ty

/-- A resolution in which names stand for something, as long as no fault has been found. -/
structure Resolution.Backed (r : Resolution) : Prop where
  program : r.program.Canonical
  home : r.home < r.program.modules.size
  knows : r.program.Knows r.scopes r.references
  bindings : r.faults = [] → ∀ {id : Nat} {b}, r.scopes.bindings[id]? = some b → b.target ≠ .invalid →
    r.program.Stands r.scopes b.target b.ty
  plain : r.faults = [] → ∀ {id : Nat} {b} {i name}, r.scopes.bindings[id]? = some b → b.target = .item i name →
    b.loops = []
  references : r.faults = [] → ∀ {s ref}, r.references.get? s = some ref →
    r.program.Stands r.scopes ref.target ref.ty

/-- Loading keeps a program canonical. -/
def Loader.KeepsCanonical (load : Loader) : Prop :=
  ∀ (p : Program) (raw : String), p.Canonical → (load p raw).2.Canonical

namespace Program

variable {p p' : Program} {growing : Nat → Prop} {t t' : Scopes} {target : Target} {ty : Ty}

lemma Keeps.retains (h : p.Keeps growing p') : p.Retains p' :=
  ⟨h.hosts, h.size_le, h.exports⟩

lemma Owns.later {id : ModuleId} {name : String} {e : Export} (h : p.Owns id name e) (keeps : p.Retains p') :
    p'.Owns id name e :=
  { h with exported := keeps.exported h.exported }

lemma Stands.later (h : p.Stands t target ty) (keeps : p.Retains p')
    (more : ∀ {id : Nat} {b}, t.bindings[id]? = some b → t'.bindings[id]? = some b) : p'.Stands t' target ty := by
  cases h with
  | inner found self => exact .inner (more found) self
  | host known => exact .host (keeps.hosts ▸ known)
  | module inside => exact .module (Nat.lt_of_lt_of_le inside keeps.size_le)
  | item owns same => exact .item (owns.later keeps) same

lemma Stands.grow (h : p.Stands t target ty)
    (more : ∀ {id : Nat} {b}, t.bindings[id]? = some b → t'.bindings[id]? = some b) : p.Stands t' target ty :=
  h.later .refl more

lemma Knows.later {references : SpanTable Reference} (h : p.Knows t references) (size : p.modules.size ≤ p'.modules.size) :
    p'.Knows t references where
  bindings found j same := Nat.lt_of_lt_of_le (h.bindings found j same) size
  references found j same := Nat.lt_of_lt_of_le (h.references found j same) size

/-- The exports of a module that is there are its own. -/
lemma mem_exportsOf {id : ModuleId} {e : Export} (member : e ∈ (p.exportsOf id).entries) :
    ∃ m, p.modules[(id : Nat)]? = some m ∧ e ∈ m.exports.entries := by
  unfold exportsOf at member
  split at member
  · next m found => exact ⟨m, found, member⟩
  · simp [Exports.empty] at member

lemma Grounds.later {e : Export} (h : p.Grounds e) (keeps : p.Retains p') : p'.Grounds e where
  offered := h.offered.mono keeps.size_le
  item id name same := by
    obtain ⟨own, owns, rest⟩ := h.item id name same
    exact ⟨own, owns.later keeps, rest⟩

/-- What has a source stands for something. -/
lemma Grounds.stands {e : Export} (h : p.Grounds e) : p.Stands t e.target e.ty := by
  obtain ⟨offered, item⟩ := h
  generalize e.target = target at offered item
  cases offered with
  | module inside => exact .module inside
  | item inside =>
    obtain ⟨own, owns, -, ty⟩ := item _ _ rfl
    exact .item owns ty

lemma Grounds.module_lt {e : Export} (h : p.Grounds e) {j : ModuleId} (same : e.target = .module j) :
    (j : Nat) < p.modules.size := by
  have offered := h.offered
  rw [same] at offered
  cases offered with
  | module inside => exact inside

lemma Canonical.grounds (h : p.Canonical) {id : ModuleId} {e : Export} (member : e ∈ (p.exportsOf id).entries) :
    p.Grounds e := by
  obtain ⟨m, found, member⟩ := mem_exportsOf member
  exact h.exports found e member

/-- A later program with the same modules is canonical if what they have come to export has a source. -/
lemma Canonical.later (h : p.Canonical) (keeps : p.Retains p')
    (back : ∀ {i : Nat} {m'}, p'.modules[i]? = some m' → ∃ m, p.modules[i]? = some m ∧ m'.resolved = m.resolved ∧
      (m'.isUsable = true → m.isUsable = true) ∧ ∀ e ∈ m'.exports.entries, e ∈ m.exports.entries ∨ p'.Grounds e) :
    p'.Canonical where
  exports found e member := by
    obtain ⟨m, known, -, -, exported⟩ := back found
    exact (exported e member).elim (fun old => (h.exports known e old).later keeps) id
  knows found resolved := by
    obtain ⟨m, known, same, -, -⟩ := back found
    exact (h.knows known (same ▸ resolved)).later keeps.size_le
  references found usable resolved _ _ recorded := by
    obtain ⟨m, known, same, usable', -⟩ := back found
    exact (h.references known (usable' usable) (same ▸ resolved) recorded).later keeps id

/-- Modules that fail, and nothing else, leave a program canonical. -/
lemma Canonical.settles (h : p.Canonical) (keeps : p.Settles p') (size : p'.modules.size = p.modules.size) :
    p'.Canonical := by
  refine h.later keeps.retains fun {i m'} found => ?_
  have inside : i < p.modules.size := size ▸ (Array.getElem?_eq_some_iff.1 found).1
  obtain ⟨m, found', kept⟩ := keeps.module_of_lt inside found
  refine ⟨m, found', kept.resolved, fun usable => ?_, fun e member => Or.inl (kept.same not_false ▸ member)⟩
  obtain ⟨status, clean⟩ := LoadedModule.isUsable_iff.1 usable
  exact LoadedModule.isUsable_iff.2 ⟨kept.status.symm.trans status, List.subset_nil.1 (clean ▸ kept.faults)⟩

/-- A module that comes to export what has a source, and does not change otherwise, leaves a program canonical. -/
lemma Canonical.exporting {home : Nat} {f : Exports → Exports} (h : p.Canonical)
    (keeps : p.Retains (p.modify home fun m => { m with exports := f m.exports }))
    (grounds : ∀ m, p.modules[home]? = some m → ∀ e ∈ (f m.exports).entries, e ∈ m.exports.entries ∨
      (p.modify home fun m => { m with exports := f m.exports }).Grounds e) :
    (p.modify home fun m => { m with exports := f m.exports }).Canonical := by
  refine h.later keeps fun {i m'} found => ?_
  rw [modify_modules] at found
  split at found
  · next here =>
    subst here
    obtain ⟨m, known, rfl⟩ := Option.map_eq_some_iff.1 found
    exact ⟨m, known, rfl, id, grounds m known⟩
  · exact ⟨m', found, rfl, id, fun e => Or.inl⟩

end Program

variable {load : Loader} {mentions : List Mention} {topLevel : Bool} {r r' : Resolution}

namespace Resolution

/-- What a use can denote stands for something. -/
lemma Backed.denotes (h : r.Backed) (clean : r.faults = []) {target : Target} {ty : Ty} (denotes : r.Denotes target ty) :
    r.program.Stands r.scopes target ty := by
  cases denotes with
  | @bound id b ty found valid same =>
    have stands := h.bindings clean found valid
    have plain {i : ModuleId} {name : String} (item : b.target = .item i name) := h.plain clean found item
    generalize b.target = target at stands plain
    cases stands with
    | inner found self => exact .inner found self
    | host known => exact .host known
    | module inside => exact .module inside
    | item owns ty => exact .item owns (ty.trans (same (plain rfl)).symm)
  | host known =>
    obtain ⟨f, found, -⟩ := Option.map_eq_some_iff.1 known
    exact .host found
  | exported member => exact (h.program.grounds member).stands

lemma Backed.denotes_lt (h : r.Backed) {target : Target} {ty : Ty} (denotes : r.Denotes target ty) (j : ModuleId)
    (same : target = .module j) : (j : Nat) < r.program.modules.size := by
  cases denotes with
  | bound found _ _ => exact h.knows.bindings found j same
  | host _ => cases same
  | exported member => exact (h.program.grounds member).module_lt same

/-- The program behind a change by which the module that is resolved may offer more is as canonical. -/
lemma Backed.later {p : Program} (h : r.Backed) (keeps : r.program.Retains p)
    (canonical : p.Canonical) : { r with program := p }.Backed where
  program := canonical
  home := Nat.lt_of_lt_of_le h.home keeps.size_le
  knows := h.knows.later keeps.size_le
  bindings clean _ _ found valid := (h.bindings clean found valid).later keeps id
  plain := h.plain
  references clean _ _ found := (h.references clean found).later keeps id

/-- One more binding that stands for something. -/
lemma Backed.insert {b : Binding} (h : r.Backed)
    (stands : b.target ≠ .invalid → r.program.Stands (r.scopes.insert b) b.target b.ty)
    (plain : ∀ i name, b.target = .item i name → b.loops = [])
    (inside : ∀ j, b.target = .module j → (j : Nat) < r.program.modules.size) :
    { r with scopes := r.scopes.insert b }.Backed := by
  have more {id : Nat} {b' : Binding} (found : r.scopes.bindings[id]? = some b') :
      (r.scopes.insert b).bindings[id]? = some b' := (Scopes.Grows.insert (Nat.zero_le _)).bindings found
  refine { h with
    knows := ⟨fun {id b'} found j same => ?_, h.knows.references⟩
    bindings := fun clean {id b'} found valid => ?_
    plain := fun clean {id b' i name} found same => ?_
    references := fun clean {s ref} found => (h.references clean found).grow more }
  · rcases Scopes.bindings_insert found with old | ⟨-, rfl⟩
    · exact h.knows.bindings old j same
    · exact inside j same
  · rcases Scopes.bindings_insert found with old | ⟨-, rfl⟩
    · exact (h.bindings clean old valid).grow more
    · exact stands valid
  · rcases Scopes.bindings_insert found with old | ⟨-, rfl⟩
    · exact h.plain clean old same
    · exact plain i name same

/-- Offering one more name that has a source leaves a program canonical. -/
lemma Backed.offering {e : Export} {exports : Exports} (h : r.Backed)
    (inserted : (r.program.exportsOf r.home).insert e = .ok exports)
    (keeps : r.program.Retains (r.offering exports)) (grounds : (r.offering exports).Grounds e) :
    (r.offering exports).Canonical := by
  refine h.program.exporting (f := fun _ => exports) keeps fun m found e' member => ?_
  have exportsOf : r.program.exportsOf r.home = m.exports := by simp [Program.exportsOf, found]
  exact (Exports.mem_insert (exportsOf ▸ inserted) member).imp_right fun (same : e' = e) => same ▸ grounds

/-- Changes of other things, and more faults. -/
lemma Backed.tables (h : r.Backed) (program : r'.program = r.program) (home : r'.home = r.home)
    (bindings : r'.scopes.bindings = r.scopes.bindings) (references : r'.references = r.references)
    (faults : r.faults ⊆ r'.faults) : r'.Backed := by
  have more {id : Nat} {b : Binding} (found : r.scopes.bindings[id]? = some b) : r'.scopes.bindings[id]? = some b :=
    bindings ▸ found
  have before (clean : r'.faults = []) : r.faults = [] := List.subset_nil.1 (clean ▸ faults)
  refine ⟨program ▸ h.program, by rw [home, program]; exact h.home, ⟨?_, ?_⟩, ?_, ?_, ?_⟩
  · rw [program, bindings]
    exact h.knows.bindings
  · rw [program, references]
    exact h.knows.references
  · rw [program, bindings]
    exact fun clean _ _ found valid => (h.bindings (before clean) found valid).grow more
  · rw [bindings]
    exact fun clean _ _ _ _ => h.plain (before clean)
  · rw [program, references]
    exact fun clean _ _ found => (h.references (before clean) found).grow more

/-- One more use of a name or path. -/
lemma Backed.record {site : Span} {target : Target} {ty : Ty} (h : r.Backed) (denotes : r.Denotes target ty) :
    { r with references := r.references.insert site ⟨target, ty⟩ }.Backed := by
  refine { h with
    knows := ⟨h.knows.bindings, fun {s ref} found j same => ?_⟩
    references := fun clean {s ref} found => ?_ }
  · rw [SpanTable.get?_insert] at found
    split at found
    · cases found
      exact h.denotes_lt denotes j same
    · exact h.knows.references found j same
  · rw [SpanTable.get?_insert] at found
    split at found
    · cases found
      exact h.denotes clean denotes
    · exact h.references clean found

/-- One more binding that is not for an exported definition of the module. -/
lemma Backed.bind {b : Binding} (h : r.Backed) (binds : r.Binds b) : { r with scopes := r.scopes.insert b }.Backed := by
  cases binds with
  | inner self =>
    refine h.insert (fun _ => ?_) (by simp [self]) (by simp [self])
    rw [self]
    exact .inner (by simp [Scopes.insert, Scopes.nextBinding]) self
  | invalid same => exact h.insert (fun valid => absurd same valid) (by simp [same]) (by simp [same])
  | module same inside =>
    refine h.insert (fun _ => same ▸ .module inside) (by simp [same]) fun j same' => ?_
    rw [same] at same'
    cases same'
    exact inside
  | exported member same ty loops =>
    have grounds := h.program.grounds member
    refine h.insert (fun _ => ?_) (fun _ _ _ => loops) fun j same' => grounds.module_lt (same ▸ same')
    rw [same, ty]
    exact grounds.stands

/-- What is forwarded has a source. -/
lemma Forwards.grounds {e : Export} (canonical : r.program.Canonical) (forwards : r.Forwards e) : r.program.Grounds e := by
  cases forwards with
  | module same inside => exact ⟨same ▸ .module inside, by simp [same]⟩
  | exported member same kind ty =>
    obtain ⟨offered, item⟩ := canonical.grounds member
    exact ⟨same ▸ offered, by rwa [same, kind, ty]⟩

/-- A definition that has been added to the exports is owned. -/
lemma offering_owns {e : Export} {exports : Exports} {name : String} (there : (r.home : Nat) < r.program.modules.size)
    (inserted : (r.program.exportsOf r.home).insert e = .ok exports) (same : e.name = name)
    (target : e.target = .item r.home name) (own : e.reexport = false) : (r.offering exports).Owns r.home name e := by
  refine ⟨?_, target, own⟩
  have home := Array.getElem?_eq_getElem there
  simp only [Resolution.offering, Program.exportsOf, Program.modify_modules, if_true, home, Option.map_some]
  exact same ▸ Exports.get?_inserted inserted

/-- One more exported definition. -/
lemma Backed.define {b : Binding} {e : Export} {exports : Exports} (h : r.Backed)
    (kept : r.program.Retains (r.offering exports)) (target : b.target = .item r.home b.name) (loops : b.loops = [])
    (name : e.name = b.name) (target' : e.target = b.target) (ty : e.ty = b.ty) (own : e.reexport = false)
    (inserted : (r.program.exportsOf r.home).insert e = .ok exports) :
    { r with scopes := r.scopes.insert b, program := r.offering exports }.Backed := by
  have owns : (r.offering exports).Owns r.home b.name e := offering_owns h.home inserted name (target'.trans target) own
  have grounds : (r.offering exports).Grounds e := by
    refine ⟨?_, fun id name' same => ?_⟩
    · rw [target', target]
      exact .item (Nat.lt_of_lt_of_le h.home kept.size_le)
    · rw [target', target] at same
      cases same
      exact ⟨e, owns, rfl, rfl⟩
  have offering : { r with program := r.offering exports }.Backed := h.later kept (h.offering inserted kept grounds)
  have stands : (r.offering exports).Stands (r.scopes.insert b) b.target b.ty := target ▸ .item owns ty
  exact offering.insert (fun _ => stands) (fun _ _ _ => loops) (by simp [target])

/-- A definition whose name has been exported before is a fault. -/
lemma Backed.redefine {b : Binding} {fault : Fault} (h : r.Backed) (target : b.target = .item r.home b.name) :
    { r with scopes := r.scopes.insert b, faults := r.faults ++ [fault] }.Backed := by
  refine { h with
    knows := ⟨fun {id b'} found j same => ?_, h.knows.references⟩
    bindings := fun clean => by simp at clean
    plain := fun clean => by simp at clean
    references := fun clean => by simp at clean }
  rcases Scopes.bindings_insert found with old | ⟨-, rfl⟩
  · exact h.knows.bindings old j same
  · simp [target] at same

end Resolution

/-- A change leaves names standing for something. -/
lemma Change.backed (keeps : load.Keeps) (canonical : load.KeepsCanonical) (change : Change load mentions topLevel r r')
    (h : r.Backed) : r'.Backed := by
  have kept := (change.keeps keeps).1.retains
  cases change with
  | tables program home bindings references faults => exact h.tables program home bindings references faults
  | record denotes => exact h.record denotes
  | bind binds => exact h.bind binds
  | edge => exact h.later kept (h.program.settles { Program.Keeps.refl with hosts := rfl } rfl)
  | load member => exact h.later kept (canonical _ _ h.program)
  | forward top inserted forwards =>
    exact h.later kept (h.offering inserted kept ((forwards.grounds h.program).later kept))
  | define top target loops name target' ty own inserted =>
    exact h.define kept target loops name target' ty own inserted
  | redefine top target => exact h.redefine target
  | @assembly place top =>
    exact h.later kept (h.program.exporting (f := fun e => { e with assembly := place }) kept fun _ _ _ => Or.inl)

/-- Changes leave names standing for something. -/
theorem Changes.backed (keeps : load.Keeps) (canonical : load.KeepsCanonical)
    (changes : Changes load mentions topLevel r r') (h : r.Backed) : r'.Backed := by
  induction changes with
  | refl => exact h
  | tail _ change ih => exact change.backed keeps canonical ih

namespace Program

open Resolve (after)

variable {p : Program} {path : ModulePath} {source : String} {ast : Module}

/-- What is exported in a canonical program can be exported. -/
lemma Canonical.isOffers (h : p.Canonical) : p.Offers :=
  fun _ _ found e member => (h.exports found e member).offered

/-- A module that has been entered exports nothing and has no tables. -/
lemma Canonical.enters {p' : Program} (h : p.Canonical) (keeps : p.Retains p')
    (modules : ∀ {i : Nat} {m}, p'.modules[i]? = some m → p.modules[i]? = some m ∨
      m.exports = .empty ∧ m.resolved = none) : p'.Canonical where
  exports found e member := by
    rcases modules found with known | ⟨empty, -⟩
    · exact (h.exports known e member).later keeps
    · simp [empty, Exports.empty] at member
  knows found resolved := by
    rcases modules found with known | ⟨-, untabled⟩
    · exact (h.knows known resolved).later keeps.size_le
    · simp [untabled] at resolved
  references found usable resolved _ _ recorded := by
    rcases modules found with known | ⟨-, untabled⟩
    · exact (h.references known usable resolved recorded).later keeps id
    · simp [untabled] at resolved

lemma enter_entered {i : Nat} {m : LoadedModule} (found : (p.enter path source).modules[i]? = some m) :
    p.modules[i]? = some m ∨ m.exports = .empty ∧ m.resolved = none := by
  rw [enter_modules] at found
  split at found
  · cases found
    exact Or.inr ⟨rfl, rfl⟩
  · exact Or.inl found

lemma starting_entered {i : Nat} {m : LoadedModule} (found : (p.starting path source ast).modules[i]? = some m) :
    p.modules[i]? = some m ∨ m.exports = .empty ∧ m.resolved = none := by
  rw [starting_modules] at found
  split at found
  · cases found
    exact Or.inr ⟨rfl, rfl⟩
  · exact Or.inl found

lemma Canonical.enter (h : p.Canonical) : (p.enter path source).Canonical :=
  h.enters enter_keeps.retains enter_entered

lemma Canonical.starting (h : p.Canonical) : (p.starting path source ast).Canonical :=
  h.enters starting_keeps.retains starting_entered

/-- A module that is done has tables in which names stand for something, if it has no faults. -/
lemma Canonical.done {id : Nat} {t : Option Resolved} {faults : List Fault} (h : p.Canonical)
    (knows : ∀ t', t = some t' → p.Knows t'.scopes t'.references)
    (references : faults = [] → ∀ t', t = some t' → ∀ {s ref}, t'.references.get? s = some ref →
      p.Stands t'.scopes ref.target ref.ty) :
    (p.modify id fun m => m.done t faults).Canonical := by
  have keeps : p.Retains (p.modify id fun m => m.done t faults) := modify_retains fun _ => rfl
  constructor
  · intro i m' found e member
    rw [modify_modules] at found
    split at found
    · obtain ⟨m, old, rfl⟩ := Option.map_eq_some_iff.1 found
      exact (h.exports old e member).later keeps
    · exact (h.exports found e member).later keeps
  · intro i m' t' found resolved
    rw [modify_modules] at found
    split at found
    · obtain ⟨m, old, rfl⟩ := Option.map_eq_some_iff.1 found
      exact (knows t' resolved).later keeps.size_le
    · exact (h.knows found resolved).later keeps.size_le
  · intro i m' t' found usable resolved s ref recorded
    rw [modify_modules] at found
    split at found
    · obtain ⟨m, old, rfl⟩ := Option.map_eq_some_iff.1 found
      obtain ⟨-, clean⟩ := List.append_eq_nil_iff.1 (LoadedModule.isUsable_iff.1 usable).2
      exact (references clean t' resolved recorded).later keeps fun found => found
    · exact (h.references found usable resolved recorded).later keeps fun found => found

/-- A module that is finished leaves the program as canonical as it is without the faults of the importers. -/
lemma Canonical.finish {id : Nat} {faults : List Fault}
    (h : (p.modify id fun m => { m with faults := m.faults ++ faults, status := .loaded }).Canonical) :
    (p.finish id faults).Canonical := by
  refine h.settles finish_keeps ?_
  simp only [Program.finish]
  split
  · split
    · rfl
    · exact (propagate_offers [id] h.isOffers).2.1
  · rfl

lemma Canonical.start_backed (h : p.Canonical) {id : Nat} (inside : id < p.modules.size) {range : Span} :
    (Resolution.start p id range).Backed where
  program := h
  home := inside
  knows := ⟨fun found => by simp [Resolution.start, Scopes.new] at found,
    fun found => by simp [Resolution.start] at found⟩
  bindings _ _ _ found := by simp [Resolution.start, Scopes.new] at found
  plain _ _ _ _ _ found := by simp [Resolution.start, Scopes.new] at found
  references _ _ _ found := by simp [Resolution.start] at found

/-- Loaders keep programs canonical, at every depth. -/
theorem loader_keepsCanonical (depth : Nat) : (loader depth).KeepsCanonical := by
  induction depth using Nat.strongRecOn with
  | ind depth ih =>
    have loads {p : Program} {path : ModulePath} (canonical : p.Canonical) : (p.loadPath depth path).2.Canonical := by
      have loadsTo := loadPath_loadsTo p depth path
      generalize p.loadPath depth path = result at loadsTo ⊢
      cases loadsTo with
      | found inside => exact canonical
      | refused => exact canonical
      | @loaded inner path source q faults deeper resolved =>
        cases parsed : Module.parse source with
        | error errors =>
          rw [resolveEntered_error parsed, Prod.mk.injEq] at resolved
          obtain ⟨rfl, rfl⟩ := resolved
          refine Canonical.finish ?_
          rw [modify_congr (g := fun m => m.done none (errors.map .malformed)) fun m found => ?_]
          · exact canonical.enter.done nofun fun clean => absurd (List.map_eq_nil_iff.1 clean) (Module.parse_errors parsed)
          · rw [enter_modules, if_pos rfl, Option.some.injEq] at found
            rw [← found]
            rfl
        | ok ast =>
          rw [resolveEntered_ok parsed, Prod.mk.injEq] at resolved
          obtain ⟨rfl, rfl⟩ := resolved
          have keeps := loader_keeps inner
          have inside : p.modules.size < (p.starting path source ast).modules.size := by simp [starting_size]
          have changes := Resolve.module_changes (loader inner) ast
            (.start (p.starting path source ast) p.modules.size ast.span)
          have backed := changes.backed keeps (ih inner (by omega)) (canonical.starting.start_backed inside)
          refine Canonical.finish ?_
          rw [modify_modify]
          refine backed.program.done (fun t same => ?_) fun clean t same => ?_
          · cases same
            exact backed.knows
          · cases same
            exact backed.references clean
    intro p raw canonical
    simp only [loader]
    split
    · exact loads canonical
    · exact canonical

lemma Canonical.loaded (h : p.Canonical) (raw : String) : (p.load raw).2.Canonical :=
  loader_keepsCanonical (p.sources.limit + 1) p raw h

lemma Canonical.loadAll (h : p.Canonical) (paths : List String) : (p.loadAll paths).Canonical := by
  induction paths generalizing p with
  | nil => exact h
  | cons raw paths ih => exact ih (h.loaded raw)

lemma canonical_new {sources : Sources} {policy : GlobPolicy} {hosts : Hosts} : (new sources policy hosts).Canonical where
  exports found := by simp [new] at found
  knows found := by simp [new] at found
  references found := by simp [new] at found

/-- In a module that is being resolved names stand for something. -/
lemma Canonical.opens (h : p.Canonical) {raw : String} {depth : Nat} {a : Pending} (opens : p.Opens raw depth a) :
    a.resolution.Backed := by
  have changes := opens.changes
  refine changes.backed (loader_keeps depth) (loader_keepsCanonical depth) ?_
  obtain ⟨path, source, -, start⟩ := opens.start
  rw [start]
  exact h.starting.start_backed (by simp [starting_size])

/-- A program that is asked for a module is canonical. -/
lemma Canonical.loading {p₀ : Program} (h : p₀.Canonical) {raw₀ : String} {depth : Nat} {pending : List Pending}
    {raw : String} (loading : p₀.Loading raw₀ depth pending p raw) : p.Canonical := by
  induction loading with
  | request => exact h
  | nested _ opens _ asks ih =>
    obtain ⟨i, asking, -, -, rfl, changes⟩ := Statement.asks _ asks
    exact (changes.backed (loader_keeps _) (loader_keepsCanonical _) (ih.opens opens)).program

/-- Definitions are exported under the target, kind and type that their own module exports them with, however long the
chain of modules that forward them, and also while modules are loaded that import each other. Modules that are named are
there, and in a module that can be used every use denotes a binding of the module itself, a host function, a module, or a
definition that its own module exports. -/
theorem visits_canonical (sources : Sources) (policy : GlobPolicy) (hosts : Hosts) (paths : List String) {p : Program}
    (visits : ((new sources policy hosts).loadAll paths).Visits p) : p.Canonical := by
  have canonical : ((new sources policy hosts).loadAll paths).Canonical := canonical_new.loadAll paths
  cases visits with
  | asked loading => exact canonical.loading loading
  | between loading opens => exact ((canonical.loading loading).opens opens).program
  | answered loading => exact loader_keepsCanonical _ _ _ (canonical.loading loading)

/-- A program of which nothing is loaded, with two modules that import each other; one forwards a definition of the
other. -/
def forwarding : Program :=
  new (.ofTexts (.ofList [("main.kcl", "export t = true\nimport \"lib\"\n"),
    ("lib.kcl", "export import t as u from \"main\"\n")])) .eager .prelude

/-- While the other module is still being resolved, what is forwarded of it goes back to its own export. -/
theorem visits_canonical_forwarding : ∃ p m e own, forwarding.Visits p ∧ p.modules[0]? = some m ∧ m.status = .loading ∧
    e ∈ (p.exportsOf 1).entries ∧ e.reexport = true ∧ p.Owns 0 "t" own ∧ own.kind = e.kind ∧ own.ty = e.ty := by
  have computed : ((forwarding.open? "main" 2 1).any fun a =>
      nextImports "lib" a.rest && (a.resolution.program.open? "lib" 1 1).any fun b =>
        (b.resolution.program.modules[0]?.any fun m => decide (m.status = .loading)) &&
        (b.resolution.program.exportsOf 1).entries.any fun e => e.reexport && decide (e.target = .item 0 "t")) = true := by
    decide +kernel
  simp only [Option.any_eq_true, Bool.and_eq_true, List.any_eq_true, decide_eq_true_eq] at computed
  obtain ⟨a, opened, asks, b, opened', ⟨m, found, loading⟩, e, member, forwarded, target⟩ := computed
  have first : forwarding.Loading "main" 3 [] forwarding "main" := .request
  obtain ⟨i, _, rest, path⟩ := nextImports_iff.1 asks
  have second : forwarding.Loading "main" 2 [a] a.resolution.program i.path :=
    .nested first (opens_of_open? opened) rest (i.asks _ _)
  rw [path] at second
  have visits : forwarding.Visits b.resolution.program := .between second (opens_of_open? opened')
  have canonical := visits_canonical _ _ _ [] visits
  obtain ⟨own, owns, kind, ty⟩ := (canonical.grounds member).item 0 "t" target
  exact ⟨_, m, e, own, visits, found, loading, member, forwarded, owns, kind, ty⟩

end Program

end PipeLang
