import PipeLang.Proofs.Load.Moments

/-!
# The top level of modules

Behind any loads the statements at the top level of a module stand one behind the other, as they do in what has been parsed, and a
definition that others can see is introduced there, by one name only: `Program.loadAll_parsed`, `Program.loadAll_onePlace`.
-/

namespace PipeLang

/-- Places in order do not meet. -/
lemma Span.InOrder.pairwise {lo hi : Nat} {spans : List Span} (h : Span.InOrder lo hi spans) :
    spans.Pairwise fun s s' => s.stop < s'.start := by
  induction h with
  | nil => exact .nil
  | cons _ _ behind ih => exact .cons (fun s member => (behind.within member).1) ih

/-- Statements of which each one stands behind those before it. -/
def Statement.Behind (s s' : Statement) : Prop :=
  s.span.Proper ∧ s.span.stop < s'.span.start ∧ s.Ordered ∧ s'.Ordered

/-- The statements of what has been parsed stand one behind the other. -/
lemma Module.parse_behind {source : String} {ast : Module} (parsed : Module.parse source = .ok ast) :
    ast.statements.Pairwise Statement.Behind := by
  obtain ⟨⟨hi, order⟩, ordered⟩ := Module.parse_ordered parsed
  have apart := List.pairwise_map.1 order.pairwise
  refine apart.imp_of_mem fun {s s'} member member' between => ?_
  exact ⟨(ordered s member).proper, between, ordered s member, ordered s' member'⟩

/-- The statements of what has been parsed are different from each other. -/
lemma Module.parse_nodup {source : String} {ast : Module} (parsed : Module.parse source = .ok ast) : ast.statements.Nodup := by
  refine (Module.parse_behind parsed).imp fun {s s'} behind same => ?_
  obtain ⟨proper, between, -⟩ := behind
  subst same
  simp only [Span.Proper] at proper
  omega

/-- Names of different statements that introduce definitions stand at different places. -/
lemma Statement.Behind.name_ne {exported exported' : Bool} {name name' : Ident} {value value' : Expr} {span span' : Span}
    (h : Statement.Behind (.define exported name value span) (.define exported' name' value' span')) :
    name'.span ≠ name.span := by
  obtain ⟨-, between, first, second⟩ := h
  cases first with
  | define _ proper before ordered behind =>
    cases second with
    | define begins _ _ _ _ =>
      have := ordered.proper
      simp only [Statement.span, Span.Proper] at *
      intro same
      rw [same] at begins
      omega

/-- What names of a module introduce that others can see: each is a definition of the module itself, at the top level, and no
other name introduces it. -/
structure Resolved.OnePlace (t : Resolved) (id : ModuleId) : Prop where
  own : ∀ {site b i name}, t.declarations.get? site = some b → t.scopes.target b = .item i name → i = id
  top : ∀ {site b i name scope mark}, t.declarations.get? site = some b → t.scopes.target b = .item i name →
    t.Declares scope site mark → scope = Scopes.root
  once : ∀ {site site' b b' i name}, t.declarations.get? site = some b → t.scopes.target b = .item i name →
    t.declarations.get? site' = some b' → t.scopes.target b' = .item i name → site' = site

/-- The names that a module has declared, if nothing is wrong with it. -/
lemma Resolution.Accounted.onePlace {f : Resolution} (h : f.Accounted) (clean : f.faults = []) :
    f.resolved.OnePlace f.home := by
  -- a name that introduces something that others can see
  have shown {site : Span} {id i : Nat} {name : String} (declared : f.declarations.get? site = some id)
      (target : f.scopes.target id = .item i name) : ∃ b, f.scopes.bindings[id]? = some b ∧ i = f.home ∧ b.AtTop ∧
        ∃ e, f.program.Owns f.home name e ∧ e.site = site := by
    obtain ⟨b, found, here, owned⟩ := h.declared declared
    have same : b.target = .item i name := by simpa [Scopes.target, found] using target
    rcases owned with inner | ⟨item, owned⟩
    · rw [inner] at same
      cases same
    · obtain ⟨rfl, rfl⟩ := Target.item.inj (item.symm.trans same)
      obtain ⟨top, e, owns, place⟩ := owned clean
      exact ⟨b, found, rfl, top, e, owns, place.trans here⟩
  refine ⟨fun declared target => ?_, fun declared target declares => ?_, fun declared target declared' target' => ?_⟩
  · obtain ⟨_, _, own, _⟩ := shown declared target
    exact own
  · obtain ⟨b, found, -, ⟨root, noLoops⟩, -⟩ := shown declared target
    obtain ⟨id, b', declared', found', stored, -⟩ := declares
    cases declared.symm.trans declared'
    cases found.symm.trans found'
    rcases stored with scope | loop
    · exact scope.symm.trans root
    · rw [noLoops] at loop
      cases loop
  · obtain ⟨-, -, -, -, e, owns, place⟩ := shown declared target
    obtain ⟨-, -, -, -, e', owns', place'⟩ := shown declared' target'
    obtain rfl : e' = e := by simpa [owns.exported] using owns'.exported.symm
    exact place'.symm.trans place

namespace Program

/-- The syntax of every module that can be used has been parsed. -/
def Parsed (p : Program) : Prop :=
  ∀ {id : Nat} {l ast}, p.modules[id]? = some l → l.isUsable = true → l.ast = some ast → ∃ source, Module.parse source = .ok ast

/-- The names of every module that can be used introduce in one place what others can see. -/
def OnePlace (p : Program) : Prop :=
  ∀ {id t}, p.Usable id → p.resolvedOf id = some t → t.OnePlace id

variable {p : Program} {raw : String} {depth : Nat} {a : Pending}

variable {sources : Sources} {policy : GlobPolicy} {hosts : Hosts} {paths : List String}

/-- Behind any loads, the syntax of every module that can be used has been parsed. -/
theorem loadAll_parsed : ((new sources policy hosts).loadAll paths).Parsed := by
  intro id l ast found usable parsed
  have rest : ((new sources policy hosts).loadAll paths).AtRest := (atRest_new.loadAll paths).1
  cases loadAll_opened found (rest.sound.usable found usable) with
  | mk settings canonical opens home ast' =>
    cases ast'.symm.trans parsed
    obtain ⟨path, source, parses, -⟩ := opens.start
    exact ⟨source, parses⟩

/-- Behind any loads, the names of every module that can be used introduce in one place what others can see. -/
theorem loadAll_onePlace : ((new sources policy hosts).loadAll paths).OnePlace := by
  intro id t ⟨l, found, usable⟩ known
  have tables : l.resolved = some t := by simpa [resolvedOf, found] using known
  cases loadAll_opened found (by simp [tables]) with
  | @mk q raw depth a settings canonical opens home ast resolved faults =>
    have clean : a.finished.faults = [] := List.subset_nil.1 ((LoadedModule.isUsable_iff.1 usable).2 ▸ faults)
    have done : a.finished.resolved = t := by simpa [resolved] using tables
    have here : a.finished.home = id := (opens.finished_home canonical.isOffers).trans home
    exact done ▸ here ▸ (opens.done_accounted canonical.isOffers canonical.shown).onePlace clean

end Program

end PipeLang
