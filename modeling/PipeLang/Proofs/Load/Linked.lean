import PipeLang.Proofs.Load.Moments
import PipeLang.Proofs.Reader.Places

/-!
# How modules are linked

What a module exports it binds at its top level, under the same name and to the same target, and what its imports bind is what
the imported module exports under the name that is taken from it. Every move of a resolution keeps to that,
`Resolution.Linked.moves`, and so does every module that is loaded, `Program.loadAll_linked`.
-/

namespace PipeLang

variable {load : Loader} {lo hi : Nat} {r r' : Resolution}

/-- No name is exported twice. -/
def Exports.Distinct (t : Exports) : Prop :=
  ∀ e ∈ t.entries, t.get? e.name = some e

lemma Exports.Distinct.insert {t t' : Exports} {e : Export} (h : t.Distinct) (inserted : t.insert e = .ok t') : t'.Distinct := by
  have new := Exports.get?_inserted inserted
  simp only [Exports.insert] at inserted
  split at inserted
  · cases inserted
  · cases inserted
    intro e' member
    rcases List.mem_append.1 member with old | added
    · have known := h e' old
      simp only [Exports.get?] at known ⊢
      rw [List.find?_append, known, Option.some_or]
    · cases List.mem_singleton.1 added
      exact new

namespace Resolution

lemma Presents.later {e : Export} (h : r.Presents e)
    (bindings : ∀ {id : Nat} {b}, r.scopes.bindings[id]? = some b → r'.scopes.bindings[id]? = some b) : r'.Presents e := by
  obtain ⟨id, b, found, rest⟩ := h
  exact ⟨id, b, bindings found, rest⟩

lemma Sources.later {b : Binding} {growing : Nat → Prop} (h : r.Sources b) (program : r.program.Keeps growing r'.program)
    (imports : ∀ {s x}, r.imports.get? s = some x → r'.imports.get? s = some x) : r'.Sources b := by
  obtain ⟨site, id, m, known, visible, found, shown⟩ := h
  obtain ⟨m', found', kept⟩ := program.modules found
  refine ⟨site, id, m', imports known, visible, found', shown.imp_right ?_⟩
  rintro ⟨e, member, rest⟩
  exact ⟨e, kept.exports.subset member, rest⟩

/-- What a module exports it binds at its top level, and what its imports bind comes from the imported modules. Import statements
stop at different offsets. -/
structure Linked (r : Resolution) : Prop where
  distinct : (r.program.exportsOf r.home).Distinct
  presents : ∀ e ∈ (r.program.exportsOf r.home).entries, r.Presents e
  sources : ∀ {id : Nat} {b}, r.scopes.bindings[id]? = some b → b.origin.IsImport → b.target ≠ .invalid → r.Sources b
  stops : ∀ {s s' x x'}, r.imports.get? s = some x → r.imports.get? s' = some x' → s.stop = s'.stop → s = s'

/-- What a move makes of the exports of the module that is resolved: one more that the module presents, or nothing. -/
lemma exports_move (keeps : load.Keeps) (move : Move load lo hi r r') (there : (r.home : Nat) < r.program.modules.size) :
    (r'.program.exportsOf r.home).entries = (r.program.exportsOf r.home).entries ∨
      ∃ e, (r.program.exportsOf r.home).insert e = .ok (r'.program.exportsOf r.home) ∧ r'.Presents e := by
  have offering {e : Export} {exports : Exports} (inserted : (r.program.exportsOf r.home).insert e = .ok exports) :
      (r.program.exportsOf r.home).insert e = .ok ((r.offering exports).exportsOf r.home) := by
    rw [inserted]
    simp [Resolution.offering, Program.exportsOf, Program.modify_modules, Array.getElem?_eq_getElem there]
  cases move with
  | @define b e exports declarable target top name target' site own inserted =>
    refine Or.inr ⟨e, offering inserted, r.scopes.nextBinding, b, ?_, top, name.symm, target'.symm⟩
    simp [declaring, Scopes.insert, Scopes.nextBinding]
  | @forward e exports inserted brings forwarded presents => exact Or.inr ⟨e, offering inserted, presents⟩
  | @load path => exact Or.inl (congrArg _ ((keeps r.program path).exportsOf there not_false))
  | assembly => exact Or.inl (Program.modify_exportsOf Exports.entries fun _ => rfl)
  | _ => exact Or.inl rfl

/-- What a move makes of the imports: one more, behind the others, or nothing. -/
lemma imports_move (move : Move load lo hi r r') : r'.imports = r.imports ∨
    ∃ site target, r'.imports = r.imports.insert site target ∧ ∀ {s x}, r.imports.get? s = some x → s.stop < site.stop := by
  cases move with
  | accept within fresh last | refuse within fresh last => exact Or.inr ⟨_, _, rfl, last⟩
  | _ => exact Or.inl rfl

/-- A binding that is new behind a move and comes from an import. -/
lemma binding_move (move : Move load lo hi r r') {id : Nat} {b : Binding} (found : r'.scopes.bindings[id]? = some b)
    (brought : b.origin.IsImport) (valid : b.target ≠ .invalid) : r.scopes.bindings[id]? = some b ∨ r.Sources b := by
  cases move with
  | bind _ _ _ _ _ sources =>
    rcases Scopes.bindings_insert found with old | ⟨-, rfl⟩
    · exact Or.inl old
    · exact Or.inr sources
  | keep =>
    rcases Scopes.bindings_insert found with old | ⟨-, rfl⟩
    · exact Or.inl old
    · exact absurd rfl valid
  | declare declarable | define declarable | redefine declarable =>
    rcases Scopes.bindings_insert found with old | ⟨-, rfl⟩
    · exact Or.inl old
    · exact absurd brought declarable.own
  | _ => exact Or.inl found

/-- A move leaves what is linked linked. -/
lemma Linked.move (keeps : load.Keeps) (h : r.Linked) (move : Move load lo hi r r')
    (there : (r.home : Nat) < r.program.modules.size) : r'.Linked := by
  have spread : r.Spread lo hi r' := move.spread
  have program := move.keeps keeps
  have old {e : Export} (presents : r.Presents e) : r'.Presents e := presents.later spread.scopes.bindings
  have sources {b : Binding} (sources : r.Sources b) : r'.Sources b := sources.later program spread.imports.kept
  constructor
  · rw [spread.home]
    rcases exports_move keeps move there with same | ⟨e, inserted, -⟩
    · intro e member
      have known := h.distinct e (same ▸ member)
      rwa [Exports.get?, same]
    · exact h.distinct.insert inserted
  · rw [spread.home]
    intro e member
    rcases exports_move keeps move there with same | ⟨e', inserted, presents⟩
    · exact old (h.presents e (same ▸ member))
    · rcases Exports.mem_insert inserted member with before | rfl
      · exact old (h.presents e before)
      · exact presents
  · intro id b found brought valid
    rcases binding_move move found brought valid with before | new
    · exact sources (h.sources before brought valid)
    · exact sources new
  · intro s s' x x' known known' stop
    rcases imports_move move with same | ⟨site, target, added, last⟩
    · exact h.stops (same ▸ known) (same ▸ known') stop
    · rw [added, SpanTable.get?_insert] at known known'
      split at known
      · next here =>
        split at known'
        · next here' => exact here.trans here'.symm
        · exact absurd stop (here ▸ Nat.ne_of_gt (last known'))
      · split at known'
        · next here' => exact absurd stop (here' ▸ Nat.ne_of_lt (last known))
        · exact h.stops known known' stop

/-- Moves leave what is linked linked. -/
theorem Linked.moves (keeps : load.Keeps) (h : r.Linked) (there : (r.home : Nat) < r.program.modules.size)
    (moves : Moves load lo hi r r') : r'.Linked := by
  induction moves with
  | refl => exact h
  | @tail now f before move ih =>
    have there' : (now.home : Nat) < now.program.modules.size := by
      rw [(Moves.spread before).home]
      exact Nat.lt_of_lt_of_le there (Moves.keeps keeps before).size_le
    exact ih.move keeps move there'

end Resolution

/-! ### Statements in the place of the whole -/

lemma Import.node_span (i : Import) : i.node.span = i.span := by
  unfold node
  split <;> rfl

lemma Statement.node_span (s : Statement) : s.node.span = s.span := by
  cases s with
  | importing i => simp only [node, span, i.node_span]
  | _ => rfl

lemma Statement.allNodes_eq (ss : List Statement) : Statement.allNodes ss = ss.map Statement.node := by
  induction ss with
  | nil => rfl
  | cons s ss ih => simp [Statement.allNodes, ih]

/-- The statements of what has been parsed stand in the place of the whole. -/
lemma Module.parse_order {source : String} {ast : Module} (parsed : Module.parse source = .ok ast) :
    Span.InOrder 0 ast.span.stop (ast.statements.map Statement.span) := by
  have identified := Module.parse_identified parsed
  obtain ⟨⟨hi, order⟩, ordered⟩ := Module.parse_ordered parsed
  have inside : ∀ place ∈ ast.statements.map Statement.span, place.stop ≤ ast.span.stop := by
    intro place member
    obtain ⟨s, among, rfl⟩ := List.mem_map.1 member
    have node : s.node ∈ ast.node.inner := by
      apply Node.mem_allOf
      rw [Module.node, Node.parts, Statement.allNodes_eq]
      exact List.mem_map_of_mem among
    have whole : ast.node ∈ ast.node.all := by
      rw [Module.node, Node.all]
      exact List.mem_cons_self
    have nested := identified.nested ast.node whole s.node node
    rwa [s.node_span] at nested
  exact order.narrow (Nat.zero_le _) inside

namespace Program

variable {p : Program} {raw : String} {depth : Nat} {a : Pending}

/-- A module that is opened is resolved by moves in its place. -/
lemma Opens.moves_inside (h : p.Opens raw depth a) (offers : p.Offers) :
    Moves (loader depth) 0 a.ast.span.stop a.start a.finished := by
  obtain ⟨path, source, parsed, start⟩ := h.start
  obtain ⟨keeps, answers⟩ := loader_keepsOffers depth
  have inside : p.modules.size < (p.starting path source a.ast).modules.size := by simp [starting_size]
  rw [Pending.finished, h.depth_eq, start]
  exact (Resolve.module_walked keeps answers (withSyntax_offers (enter_offers offers)) inside (Module.parse_order parsed)
    (Module.parse_ordered parsed).2).moves

/-- What a module exports when it is done it presents, and what its imports bind comes from the imported modules. -/
lemma Opens.linked (h : p.Opens raw depth a) (offers : p.Offers) : a.finished.Linked := by
  obtain ⟨path, source, -, start⟩ := h.start
  have inside : p.modules.size < (p.starting path source a.ast).modules.size := by simp [starting_size]
  have none : (a.start.program.exportsOf a.start.home).entries = [] := by
    rw [start]
    show ((p.starting path source a.ast).exportsOf p.modules.size).entries = []
    rw [Program.exportsOf, starting_modules, if_pos rfl]
    rfl
  refine Resolution.Linked.moves (loader_keeps depth) ?_ (start ▸ inside) (h.moves_inside offers)
  refine ⟨fun e member => ?_, fun e member => ?_, fun found => ?_, fun known => ?_⟩
  · rw [none] at member
    cases member
  · rw [none] at member
    cases member
  · simp [start, Resolution.start, Scopes.new] at found
  · simp [start, Resolution.start] at known

end Program

/-- How the tables of a module are linked with what it exports and what others export. -/
structure Resolved.Linked (p : Program) (m : LoadedModule) (ast : Module) (t : Resolved) : Prop where
  distinct : m.exports.Distinct
  presents : ∀ e ∈ m.exports.entries, ∃ (id : Nat) (b : Binding), t.scopes.bindings[id]? = some b ∧ b.scope = Scopes.root ∧
    b.name = e.name ∧ b.target = e.target
  sources : ∀ {id : Nat} {b}, t.scopes.bindings[id]? = some b → b.origin.IsImport → b.target ≠ .invalid →
    ∃ (site : Span) (source : ModuleId), t.imports.get? site = some source ∧ b.visibleFrom = site.stop ∧
      (b.target = .module source ∨ ∃ e ∈ (p.exportsOf source).entries, e.name = b.sourceName ∧ b.target = e.target)
  stops : ∀ {s s' x x'}, t.imports.get? s = some x → t.imports.get? s' = some x' → s.stop = s'.stop → s = s'
  visible : ∀ {id : Nat} {b}, t.scopes.bindings[id]? = some b → b.visibleFrom ≤ ast.span.stop

/-- What an import statement binds comes from the module that it imports. -/
lemma Resolved.Linked.taken {p : Program} {m : LoadedModule} {ast : Module} {t : Resolved} {id : Nat} {b : Binding} {site : Span}
    {source : ModuleId} (h : t.Linked p m ast) (found : t.scopes.bindings[id]? = some b) (brought : b.origin.IsImport)
    (valid : b.target ≠ .invalid) (recorded : t.imports.get? site = some source) (visible : b.visibleFrom = site.stop) :
    b.target = .module source ∨ ∃ e ∈ (p.exportsOf source).entries, e.name = b.sourceName ∧ b.target = e.target := by
  obtain ⟨site', source', recorded', visible', shown⟩ := h.sources found brought valid
  have same : site = site' := h.stops recorded recorded' (visible.symm.trans visible')
  subst same
  cases recorded.symm.trans recorded'
  exact shown

namespace Program

/-- Behind any loads, the tables of every module are linked with exports. -/
theorem loadAll_linked {sources : Sources} {policy : GlobPolicy} {hosts : Hosts} {paths : List String} {i : Nat}
    {m : LoadedModule} {ast : Module} {t : Resolved} (found : ((new sources policy hosts).loadAll paths).modules[i]? = some m)
    (parsed : m.ast = some ast) (resolved : m.resolved = some t) :
    t.Linked ((new sources policy hosts).loadAll paths) m ast := by
  cases loadAll_opened found (by simp [resolved]) with
  | @mk q raw depth a settings canonical opens home ast' tables faults retains exports =>
    cases ast'.symm.trans parsed
    obtain rfl : a.finished.resolved = t := by simpa [resolved] using tables.symm
    have linked := opens.linked canonical.isOffers
    have moves := opens.moves_inside canonical.isOffers
    have here : a.finished.home = i := (opens.finished_home canonical.isOffers).trans home
    rw [← here] at exports
    refine ⟨exports ▸ linked.distinct, fun e member => ?_, fun bound brought valid => ?_, linked.stops, fun {id b} bound => ?_⟩
    · obtain ⟨id, b, bound, top, rest⟩ := linked.presents e (exports ▸ member)
      exact ⟨id, b, bound, top.1, rest⟩
    · obtain ⟨site, source, m', known, visible, there, shown⟩ := linked.sources bound brought valid
      refine ⟨site, source, known, visible, shown.imp_right ?_⟩
      rintro ⟨e, member, rest⟩
      refine ⟨e, retains.entries ?_, rest⟩
      rwa [exportsOf, there]
    · obtain ⟨path, source, -, start⟩ := opens.start
      exact moves.spread.newBinding bound (by simp [start, Resolution.start, Scopes.new])

end Program

end PipeLang
