import PipeLang.Proofs.Resolve.Imports
import PipeLang.Proofs.Syntax.Occurrences

/-!
# What a resolution notes of names

Resolution reports that a name cannot be used, leaves it open, or keeps it as invalid because its import has failed. Every step
does so only for the names that it goes over, and keeps a name as invalid only behind a report of the import that it comes from:
`Resolve.Notes`, with a lemma for each step up to `importStatement_notes`.
-/

namespace PipeLang

/-- A fault of a name: it has no meaning where it stands, or several, or none that a path can go on from. -/
def Fault.isAboutName : Fault → Bool
  | nameCollision .. | notYetDeclared .. | notInScope .. | notAModule .. | unknownExport .. => true
  | _ => false

/-- The name that a fault says is not bound where it stands. -/
def Fault.unbound? : Fault → Option Ident
  | notYetDeclared name site _ | notInScope name site => some ⟨name, site⟩
  | _ => none

/-- A fault of an import statement that keeps names from being bound. -/
def Fault.failsImport : Fault → Bool
  | importFailed .. | dependencyFailed .. | unknownExport .. => true
  | _ => false

/-- Whether a place lies in another. -/
def Span.holds (outer inner : Span) : Bool :=
  outer.start ≤ inner.start && inner.stop ≤ outer.stop

namespace Span

lemma holds_iff {outer inner : Span} :
    outer.holds inner = true ↔ outer.start ≤ inner.start ∧ inner.stop ≤ outer.stop := by
  simp [holds]

lemma Between.holds {outer inner : Span} (h : inner.Between outer.start outer.stop) : outer.holds inner = true :=
  holds_iff.2 ⟨h.1, h.2.2⟩

lemma Between.widen {lo lo' hi hi' : Nat} {s : Span} (h : s.Between lo hi) (before : lo' ≤ lo) (behind : hi ≤ hi') :
    s.Between lo' hi' :=
  ⟨Nat.le_trans before h.1, h.2.1, Nat.le_trans h.2.2 behind⟩

/-- A place before or behind another does not lie in it. -/
lemma Between.not_holds {lo hi : Nat} {outer inner : Span} (h : inner.Between lo hi)
    (apart : hi ≤ outer.start ∨ outer.stop ≤ lo) : ¬ outer.holds inner = true := by
  obtain ⟨from_, proper, upTo⟩ := h
  rw [holds_iff]
  omega

end Span

namespace Import

/-- An import statement has been reported for not bringing what it names. -/
def Fails (i : Import) (faults : List Fault) : Prop :=
  ∃ f ∈ faults, f.failsImport = true ∧ i.span.holds f.site = true

/-- A binding that stands in for what an import statement does not bring. -/
def Keeps (i : Import) (b : Binding) : Prop :=
  b.visibleFrom = i.span.stop ∧ i.span.holds b.site = true

variable {i : Import}

lemma Fails.mono {faults more : List Fault} (h : i.Fails faults) (sub : faults ⊆ more) : i.Fails more := by
  obtain ⟨f, member, told⟩ := h
  exact ⟨f, sub member, told⟩

/-- The path that an import statement names lies in the statement. -/
lemma path_between (placed : (Occurrence.importing i).Placed) : i.pathSpan.Between i.span.start i.span.stop := by
  refine placed (.mk .other i.pathSpan []) ?_
  simp only [Occurrence.node, node]
  cases i.items <;> simp [Node.parts]

/-- What an import statement lists lies in the statement. -/
lemma item_between (placed : (Occurrence.importing i).Placed) {items : List ImportItem} (lists : i.items = .list items)
    {item : ImportItem} (member : item ∈ items) : ∀ n ∈ item.nodes, n.span.Between i.span.start i.span.stop := by
  intro n here
  refine placed n ?_
  simp only [Occurrence.node, node, lists, Node.parts]
  exact List.mem_append_left _ (List.mem_flatMap.2 ⟨item, member, here⟩)

/-- What an import statement for a module alone holds lies in the statement. -/
lemma self_between (placed : (Occurrence.importing i).Placed) {newName : Option Ident} (whole : i.items = .module newName) :
    ∀ n ∈ (ImportItem.self i.pathSpan newName).nodes, n.span.Between i.span.start i.span.stop := by
  intro n here
  refine placed n ?_
  simpa only [Occurrence.node, node, whole, Node.parts, ImportItem.nodes] using here

end Import

/-- If a fault is one of a name, it is at a place of some kind, and where it says that a name is not bound, one of some occurrences
looks the name up. -/
structure Fault.Stands (P : Span → Prop) (occs : List Occurrence) (f : Fault) : Prop where
  place : f.isAboutName = true → P f.site
  head : ∀ ident, f.unbound? = some ident → ∃ o ∈ occs, o.head? = some ident

/-- A name that is left open is at a place of some kind, where one of some occurrences looks it up. -/
structure OpenName.Stands (P : Span → Prop) (occs : List Occurrence) (n : OpenName) : Prop where
  place : P n.site
  head : ∃ o ∈ occs, o.head? = some ⟨n.name, n.site⟩

namespace Fault.Stands

variable {P Q : Span → Prop} {occs occs' : List Occurrence} {f : Fault}

/-- A fault that says of no name that it is not bound. -/
lemma bound (place : P f.site) (none : f.unbound? = none) : f.Stands P occs :=
  ⟨fun _ => place, fun _ same => by simp [none] at same⟩

/-- A fault of something else. -/
lemma aside (other : f.isAboutName = false) : f.Stands P occs where
  place about := Bool.noConfusion (other.symm.trans about)
  head ident same := by
    cases f with
    | notYetDeclared | notInScope => cases other
    | _ => cases same

lemma mono (h : f.Stands P occs) (wider : ∀ s, P s → Q s) (sub : occs ⊆ occs') : f.Stands Q occs' where
  place about := wider _ (h.place about)
  head ident same := (h.head ident same).imp fun _ => And.imp_left (@sub _)

end Fault.Stands

lemma OpenName.Stands.mono {P Q : Span → Prop} {occs occs' : List Occurrence} {n : OpenName} (h : n.Stands P occs)
    (wider : ∀ s, P s → Q s) (sub : occs ⊆ occs') : n.Stands Q occs' :=
  ⟨wider _ h.place, h.head.imp fun _ => And.imp_left (@sub _)⟩

/-- What a resolution notes of names from one state to another: it reports them and leaves them open at places of some kind, and it
keeps them as invalid behind a report of one of some import statements. -/
structure Resolution.Notes (P : Span → Prop) (occs : List Occurrence) (r r' : Resolution) : Prop where
  faults : ∃ new, r'.faults = r.faults ++ new ∧ ∀ f ∈ new, f.Stands P occs
  openNames : ∃ new, r'.openNames = r.openNames ++ new ∧ ∀ n ∈ new, n.Stands P occs
  invalid : ∀ {id : Nat} {b}, r'.scopes.bindings[id]? = some b → b.target = .invalid →
    r.scopes.bindings[id]? = some b ∨ ∃ i, .importing i ∈ occs ∧ i.Keeps b ∧ i.Fails r'.faults

namespace Resolution.Notes

variable {P Q : Span → Prop} {occs occs' : List Occurrence} {r r' r'' : Resolution}

/-- No fault is taken back. -/
lemma faults_subset (h : r.Notes P occs r') : r.faults ⊆ r'.faults := by
  obtain ⟨new, same, -⟩ := h.faults
  exact same ▸ List.subset_append_left _ _

/-- Nothing changes that has to do with names. -/
lemma of_same (faults : r'.faults = r.faults) (openNames : r'.openNames = r.openNames)
    (bindings : r'.scopes.bindings = r.scopes.bindings) : r.Notes P occs r' where
  faults := ⟨[], by simp [faults], nofun⟩
  openNames := ⟨[], by simp [openNames], nofun⟩
  invalid found _ := Or.inl (bindings ▸ found)

lemma refl : r.Notes P occs r :=
  .of_same rfl rfl rfl

lemma trans (h : r.Notes P occs r') (h' : r'.Notes P occs r'') : r.Notes P occs r'' where
  faults := by
    obtain ⟨new, same, places⟩ := h.faults
    obtain ⟨new', same', places'⟩ := h'.faults
    exact ⟨new ++ new', by rw [same', same, List.append_assoc], fun f member =>
      (List.mem_append.1 member).elim (places f) (places' f)⟩
  openNames := by
    obtain ⟨new, same, places⟩ := h.openNames
    obtain ⟨new', same', places'⟩ := h'.openNames
    exact ⟨new ++ new', by rw [same', same, List.append_assoc], fun n member =>
      (List.mem_append.1 member).elim (places n) (places' n)⟩
  invalid found invalid := by
    rcases h'.invalid found invalid with old | new
    · refine (h.invalid old invalid).imp_right fun ⟨i, member, keeps, fails⟩ => ?_
      exact ⟨i, member, keeps, fails.mono h'.faults_subset⟩
    · exact Or.inr new

lemma mono (h : r.Notes P occs r') (wider : ∀ s, P s → Q s) (sub : occs ⊆ occs') : r.Notes Q occs' r' where
  faults := by
    obtain ⟨new, same, places⟩ := h.faults
    exact ⟨new, same, fun f member => (places f member).mono wider sub⟩
  openNames := by
    obtain ⟨new, same, places⟩ := h.openNames
    exact ⟨new, same, fun n member => (places n member).mono wider sub⟩
  invalid found invalid := (h.invalid found invalid).imp_right fun ⟨i, member, kept⟩ => ⟨i, sub member, kept⟩

lemma report {faults : List Fault} (places : ∀ f ∈ faults, f.Stands P occs) :
    r.Notes P occs { r with faults := r.faults ++ faults } where
  faults := ⟨faults, rfl, places⟩
  openNames := ⟨[], by simp, nofun⟩
  invalid found _ := Or.inl found

/-- A binding for something. -/
lemma insert {b : Binding} (valid : b.target ≠ .invalid) : r.Notes P occs { r with scopes := r.scopes.insert b } where
  faults := ⟨[], by simp, nofun⟩
  openNames := ⟨[], by simp, nofun⟩
  invalid found invalid := by
    rcases Scopes.bindings_insert found with old | ⟨-, rfl⟩
    · exact Or.inl old
    · exact absurd invalid valid

end Resolution.Notes

/-! ### Steps -/

namespace Resolve

variable {α β : Type} {P Q : Span → Prop} {occs : List Occurrence} {x : Resolve α} {f : α → Resolve β}

/-- What a step notes of names, wherever it begins. -/
def Notes (P : Span → Prop) (occs : List Occurrence) (x : Resolve α) : Prop :=
  ∀ r : Resolution, r.Notes P occs (after x r)

namespace Notes

lemma bind (first : Notes P occs x) (next : ∀ a, Notes P occs (f a)) : Notes P occs (x >>= f) :=
  fun r => (first r).trans (next _ _)

lemma pure (a : α) : Notes P occs (Pure.pure a : Resolve α) :=
  fun _ => .refl

lemma get : Notes P occs (MonadState.get : Resolve Resolution) :=
  fun _ => .refl

/-- A report of a name that is bound. -/
lemma blame {fault : Fault} (here : P fault.site) (bound : fault.unbound? = none) : Notes P occs (report [fault]) :=
  fun _ => .report (List.forall_mem_singleton.2 (.bound here bound))

/-- A report of something else. -/
lemma aside {faults : List Fault} (other : ∀ f ∈ faults, f.isAboutName = false) : Notes P occs (Resolve.report faults) :=
  fun _ => .report fun f member => .aside (other f member)

lemma record {site : Span} {target : Target} {ty : Ty} : Notes P occs (record site target ty) :=
  fun _ => .of_same rfl rfl rfl

lemma leaveOpen {ident : Ident} (here : P ident.span) (head : ∃ o ∈ occs, o.head? = some ident) :
    Notes P occs (leaveOpen ident) := fun r =>
  ⟨⟨[], by simp, nofun⟩, ⟨[⟨ident.name, ident.span, r.current⟩], rfl, List.forall_mem_singleton.2 ⟨here, head⟩⟩,
    fun found _ => Or.inl found⟩

lemma forM {l : List α} {g : α → Resolve PUnit} (each : ∀ a ∈ l, Notes P occs (g a)) : Notes P occs (l.forM g) := by
  induction l with
  | nil => exact pure _
  | cons a l ih =>
    obtain ⟨first, others⟩ := List.forall_mem_cons.1 each
    exact first.bind fun _ => ih others

end Notes

lemma refuseNested_notes {exported topLevel : Bool} {site : Span} : Notes P occs (refuseNested exported topLevel site) := by
  simp only [refuseNested]
  split
  · exact .aside (List.forall_mem_singleton.2 rfl)
  · exact .pure _

lemma rejectIncoming_notes {incoming : Option Ty} {e : Expr} : Notes P occs (rejectIncoming incoming e) := by
  simp only [rejectIncoming]
  split
  · exact .aside (List.forall_mem_singleton.2 rfl)
  · exact .pure _

lemma rejectTailless_notes {incoming : Option Ty} {body : List Statement} {site : Span} :
    Notes P occs (rejectTailless incoming body site) := by
  simp only [rejectTailless]
  split
  · exact .aside (List.forall_mem_singleton.2 rfl)
  · exact .pure _

lemma checkHostCall_notes {target : Target} {positional : Nat} {keywords : List Ident} {site : Span} :
    Notes P occs (checkHostCall target positional keywords site) := by
  cases target with
  | host name =>
    refine Notes.get.bind fun r => ?_
    split
    · refine .aside fun f member => ?_
      obtain ⟨cause, -, rfl⟩ := List.mem_map.1 member
      rfl
    · exact .pure _
  | _ => exact .pure _

lemma stageType_notes {incoming : Option Ty} {site : Span} {found : Option (Target × Ty)} :
    Notes P occs (stageType incoming site found) := by
  cases found with
  | none => exact .pure _
  | some known =>
    simp only [stageType]
    split
    · exact checkHostCall_notes.bind fun _ => .pure _
    · exact .pure _

lemma useHost_notes {name : String} {site : Span} : Notes P occs (useHost name site) := by
  refine Notes.get.bind fun r => ?_
  split
  · exact Notes.record.bind fun _ => .pure _
  · exact .pure _

lemma useHostOrLeave_notes {name : String} {site : Span} {ident : Ident} (here : P ident.span)
    (head : ∃ o ∈ occs, o.head? = some ident) : Notes P occs (useHostOrLeave name site ident) := by
  refine useHost_notes.bind fun found => ?_
  cases found with
  | none => exact (Notes.leaveOpen here head).bind fun _ => .pure _
  | some found => exact .pure _

lemma useName_notes {ident : Ident} (here : P ident.span) (head : ∃ o ∈ occs, o.head? = some ident) :
    Notes P occs (useName ident) := by
  refine Notes.get.bind fun r => ?_
  cases r.scopes.lookup r.current ident.name ident.span.start with
  | found id =>
    dsimp only
    split
    · exact .pure _
    · exact Notes.record.bind fun _ => .pure _
  | ambiguous ids => exact (Notes.blame here rfl).bind fun _ => .pure _
  | notYetDeclared id =>
    have stands : (Fault.notYetDeclared ident.name ident.span (siteOf r.scopes id)).Stands P occs := by
      refine ⟨fun _ => here, fun _ same => ?_⟩
      cases same
      exact head
    have reported : Notes P occs (report [.notYetDeclared ident.name ident.span (siteOf r.scopes id)]) := fun _ =>
      .report (List.forall_mem_singleton.2 stands)
    exact reported.bind fun _ => .pure _
  | notFound => exact useHostOrLeave_notes here head

lemma followPath_notes {site : Span} {target : Target} {ty : Ty} {before : Ident} {rest : List Ident}
    (here : ∀ ident ∈ before :: rest, P ident.span) : Notes P occs (followPath site target ty before rest) := by
  induction rest generalizing target ty before with
  | nil => exact Notes.record.bind fun _ => .pure _
  | cons segment rest ih =>
    obtain ⟨first, others⟩ := List.forall_mem_cons.1 here
    have behind : P segment.span := others segment List.mem_cons_self
    cases target with
    | module id =>
      refine Notes.get.bind fun r => ?_
      cases r.program.modules[(id : Nat)]? with
      | none => exact .pure _
      | some m =>
        dsimp only
        split
        · exact ih others
        · exact (Notes.blame behind rfl).bind fun _ => .pure _
    | _ => exact (Notes.blame first rfl).bind fun _ => .pure _

lemma usePath_notes {head : Ident} {rest : List Ident} {site : Span} (here : ∀ ident ∈ head :: rest, P ident.span)
    (heads : ∃ o ∈ occs, o.head? = some head) : Notes P occs (usePath head rest site) := by
  have first : P head.span := here head List.mem_cons_self
  have through : Notes P occs (useHead head rest site) := by
    refine (useName_notes first heads).bind fun found => ?_
    cases found with
    | none => exact .pure _
    | some found => exact followPath_notes here
  refine Notes.get.bind fun r => ?_
  cases r.scopes.lookup r.current head.name head.span.start with
  | notFound => exact useHostOrLeave_notes first heads
  | _ => exact through

/-! ### Declarations -/

lemma install_notes {b : Binding} (here : P b.site) (valid : b.target ≠ .invalid) : Notes P occs (install b) := by
  intro r
  cases free : obstacle? r.program.policy r.scopes b with
  | none => exact (install_free free).2 ▸ .insert valid
  | some other => exact (install_taken free).2 ▸ .report (List.forall_mem_singleton.2 (.bound here rfl))

lemma introduce_notes {b : Binding} (here : P b.site) (valid : b.target ≠ .invalid) : Notes P occs (introduce b) := by
  refine (install_notes here valid).bind fun found => ?_
  cases found with
  | none => exact .pure _
  | some id => exact fun r => .of_same rfl rfl rfl

lemma declareInner_notes {ident : Ident} {visibleFrom : Nat} {ty : Ty} {origin : Origin} (here : P ident.span) :
    Notes P occs (declareInner ident visibleFrom ty origin) :=
  Notes.get.bind fun _ => (introduce_notes here Target.noConfusion).bind fun _ => .pure _

lemma addLoopTag_notes {tag : BindingId} {loop : ScopeId} : Notes P occs (addLoopTag tag loop) := by
  intro r
  simp only [addLoopTag, after_modify]
  split
  · exact .of_same rfl rfl rfl
  · exact .refl

lemma declareTag_notes {tag : Ident} {visibleFrom : Nat} {ty : Ty} (here : P tag.span) :
    Notes P occs (declareTag tag visibleFrom ty) := by
  refine Notes.get.bind fun r => (introduce_notes here Target.noConfusion).bind fun found => ?_
  cases found with
  | none => exact .pure _
  | some id => exact .forM fun _ _ => addLoopTag_notes

lemma publish_notes {e : Export} : Notes P occs (publish e) := by
  intro r
  cases inserted : (r.program.exportsOf r.home).insert e with
  | ok exports => exact publish_new inserted ▸ .of_same rfl rfl rfl
  | error first => exact publish_taken inserted ▸ .report (List.forall_mem_singleton.2 (.aside rfl))

lemma define_notes {exported topLevel isFunction : Bool} {name : Ident} {ty : Ty} {span : Span} (here : P name.span) :
    Notes P occs (define exported topLevel name isFunction ty span) := by
  simp only [define]
  split
  · refine Notes.get.bind fun r => (introduce_notes here Target.noConfusion).bind fun found => ?_
    cases found with
    | none => exact .pure _
    | some id => exact publish_notes
  · exact declareInner_notes here

/-! ### Imports -/

section

variable {i : Import} {target : ModuleId} {m : LoadedModule} {explicit : List String} {r : Resolution}

lemma keepInvalid_notes {ident : Ident} (fails : i.Fails r.faults)
    (here : ident.span.Between i.span.start i.span.stop) :
    r.Notes P [.importing i] (after (keepInvalid ident i.span.stop) r) where
  faults := ⟨[], by simp [keepInvalid], nofun⟩
  openNames := ⟨[], by simp [keepInvalid], nofun⟩
  invalid found _ := by
    rcases Scopes.bindings_insert found with old | ⟨-, rfl⟩
    · exact Or.inl old
    · exact Or.inr ⟨i, List.mem_singleton_self _, ⟨rfl, here.holds⟩, fails⟩

lemma keepModuleName_notes {newName : Option Ident} {site : Span} (fails : i.Fails r.faults)
    (here : site.Between i.span.start i.span.stop)
    (alias_ : ∀ n ∈ Ident.optionNodes newName, n.span.Between i.span.start i.span.stop) :
    r.Notes P [.importing i] (after (keepModuleName i newName site) r) := by
  cases newName with
  | some newName => exact keepInvalid_notes fails (alias_ newName.node List.mem_cons_self)
  | none =>
    simp only [keepModuleName]
    split
    · split
      · exact keepInvalid_notes fails here
      · exact .refl
    · exact .refl

/-- A failed import keeps names that stand in the statement. -/
lemma keepNames_notes (placed : (Occurrence.importing i).Placed) (fails : i.Fails r.faults) :
    r.Notes P [.importing i] (after (keepNames i) r) := by
  have listed := @Import.item_between i placed
  have whole := @Import.self_between i placed
  simp only [keepNames]
  cases names : i.items with
  | module newName =>
    obtain ⟨-, alias_⟩ := List.forall_mem_cons.1 (whole names)
    exact keepModuleName_notes fails (Import.path_between placed) alias_
  | list items =>
    replace listed {item : ImportItem} (member : item ∈ items) := listed names member
    clear names
    induction items generalizing r with
    | nil => exact .refl
    | cons item items ih =>
      have here := listed List.mem_cons_self
      simp only [List.forM_eq_forM, List.forM_cons, after_bind] at ih ⊢
      have onward {s : Resolution} (first : r.Notes P [.importing i] s) :=
        first.trans (ih (fails.mono first.faults_subset) fun member => listed (List.mem_cons_of_mem _ member))
      cases item with
      | name name newName =>
        refine onward (keepInvalid_notes fails ?_)
        cases newName with
        | none => exact here name.node List.mem_cons_self
        | some newName => exact here newName.node (List.mem_cons_of_mem _ List.mem_cons_self)
      | self span newName =>
        obtain ⟨first, alias_⟩ := List.forall_mem_cons.1 here
        exact onward (keepModuleName_notes fails first alias_)
      | glob span => exact onward .refl

/-- What an import statement binds stands for something, at a place in the statement. -/
def Brought (i : Import) (items : List Imported) : Prop :=
  ∀ item ∈ items, item.site.Between i.span.start i.span.stop ∧ item.target ≠ .invalid

/-- An item of an import list is reported in the statement if it is not exported, and else brings something. -/
lemma importItem_notes {item : ImportItem} (here : ∀ n ∈ item.nodes, n.span.Between i.span.start i.span.stop)
    (offers : ∀ e ∈ m.exports.entries, e.target ≠ .invalid) :
    r.Notes (Span.Between i.span.start i.span.stop) [.importing i] (after (importItem i target m explicit item) r) ∧
      Brought i (answer (importItem i target m explicit item) r) := by
  cases item with
  | name name newName =>
    have bound : (newName.getD name).span.Between i.span.start i.span.stop := by
      cases newName with
      | none => exact here name.node List.mem_cons_self
      | some newName => exact here newName.node (List.mem_cons_of_mem _ List.mem_cons_self)
    have named : name.span.Between i.span.start i.span.stop := here name.node List.mem_cons_self
    simp only [importItem]
    cases exported : m.exports.get? name.name with
    | some e =>
      exact ⟨.refl, List.forall_mem_singleton.2 ⟨bound, offers e (List.mem_of_find?_eq_some exported)⟩⟩
    | none =>
      let fault : Fault := .unknownExport name.name m.path.render (m.status = .loading) name.span
      have reported : r.Notes (Span.Between i.span.start i.span.stop) [.importing i] (after (report [fault]) r) :=
        Notes.blame named rfl r
      have fails : i.Fails (after (report [fault]) r).faults :=
        ⟨fault, List.mem_append_right _ List.mem_cons_self, rfl, named.holds⟩
      exact ⟨reported.trans (keepInvalid_notes fails bound), List.forall_mem_nil _⟩
  | self span newName =>
    obtain ⟨first, alias_⟩ := List.forall_mem_cons.1 here
    simp only [importItem]
    unfold Import.moduleItem
    cases newName with
    | some newName =>
      exact ⟨.refl, List.forall_mem_singleton.2 ⟨alias_ newName.node List.mem_cons_self, Target.noConfusion⟩⟩
    | none =>
      cases m.path.bindingName? with
      | some name => exact ⟨.refl, List.forall_mem_singleton.2 ⟨first, Target.noConfusion⟩⟩
      | none => exact ⟨.report (List.forall_mem_singleton.2 (.aside rfl)), List.forall_mem_nil _⟩
  | glob span =>
    refine ⟨.refl, fun imported member => ?_⟩
    simp only [importItem, answer_pure, List.mem_map] at member
    obtain ⟨e, member, rfl⟩ := member
    exact ⟨here _ List.mem_cons_self, offers e (List.mem_filter.1 member).1⟩

lemma importItems_notes {items : List ImportItem}
    (here : ∀ item ∈ items, ∀ n ∈ item.nodes, n.span.Between i.span.start i.span.stop)
    (offers : ∀ e ∈ m.exports.entries, e.target ≠ .invalid) :
    r.Notes (Span.Between i.span.start i.span.stop) [.importing i] (after (importItems i target m explicit items) r) ∧
      Brought i (answer (importItems i target m explicit items) r) := by
  induction items generalizing r with
  | nil => exact ⟨.refl, List.forall_mem_nil _⟩
  | cons item items ih =>
    obtain ⟨first, others⟩ := List.forall_mem_cons.1 here
    obtain ⟨notes, brought⟩ := @importItem_notes i target m explicit r item first offers
    obtain ⟨notes', brought'⟩ := @ih (after (importItem i target m explicit item) r) others
    exact ⟨notes.trans notes', fun imported member => (List.mem_append.1 member).elim (brought imported) (brought' imported)⟩

lemma installImports_notes {topLevel : Bool} {items : List Imported} (brought : Brought i items) :
    Notes (Span.Between i.span.start i.span.stop) occs (items.forM (installImport i topLevel)) := by
  refine .forM fun item member => Notes.get.bind fun r => ?_
  obtain ⟨here, valid⟩ := brought item member
  refine Notes.bind (install_notes here valid) fun found => ?_
  split
  · exact publish_notes
  · exact .pure _

lemma bindImports_notes {topLevel : Bool} (placed : (Occurrence.importing i).Placed)
    (offers : ∀ e ∈ m.exports.entries, e.target ≠ .invalid) :
    r.Notes (Span.Between i.span.start i.span.stop) [.importing i] (after (bindImports i topLevel target m) r) := by
  simp only [bindImports]
  cases names : i.items with
  | module newName =>
    obtain ⟨notes, brought⟩ := @importItem_notes i target m [] r (.self i.pathSpan newName)
      (Import.self_between placed names) offers
    exact notes.trans (installImports_notes brought _)
  | list items =>
    obtain ⟨notes, brought⟩ := @importItems_notes i target m (Import.explicitNames items) r items
      (fun item member => Import.item_between placed names member) offers
    exact notes.trans (installImports_notes brought _)

/-- A fault of the path of an import statement is one of the statement, and then its names are kept. -/
lemma reportAndKeep_notes {fault : Fault} (placed : (Occurrence.importing i).Placed) (fails : fault.failsImport = true)
    (other : fault.isAboutName = false) (here : fault.site = i.pathSpan) :
    r.Notes P [.importing i] (after (report [fault] >>= fun _ => keepNames i) r) := by
  have reported : r.Notes P [.importing i] (after (report [fault]) r) :=
    Notes.aside (List.forall_mem_singleton.2 other) r
  refine reported.trans (keepNames_notes placed ⟨fault, List.mem_append_right _ List.mem_cons_self, fails, ?_⟩)
  exact here ▸ (Import.path_between placed).holds

/-- An import statement notes what stands in it, if modules offer nothing invalid. -/
lemma importStatement_notes {load : Loader} {topLevel : Bool} (keeps : load.KeepsOffers)
    (placed : (Occurrence.importing i).Placed) (offers : r.program.Offers) :
    r.Notes (Span.Between i.span.start i.span.stop) [.importing i] (after (importStatement load i topLevel) r) := by
  have refused : r.Notes (Span.Between i.span.start i.span.stop) [.importing i]
    (after (refuseNested i.exported topLevel i.span) r) := refuseNested_notes r
  have program : (after (refuseNested i.exported topLevel i.span) r).program = r.program := by
    simp only [refuseNested]
    split <;> rfl
  refine refused.trans ?_
  show Resolution.Notes _ _ _
    (after (loadAnd load i (bindLoaded i topLevel)) (after (refuseNested i.exported topLevel i.span) r))
  generalize after (refuseNested i.exported topLevel i.span) r = r₁ at program ⊢
  let r₂ : Resolution := { r₁ with program := (load r₁.program i.path).2 }
  have loaded : r₁.Notes (Span.Between i.span.start i.span.stop) [.importing i] r₂ := .of_same rfl rfl rfl
  have offered : r₂.program.Offers := (keeps r₁.program i.path (program ▸ offers)).1
  refine loaded.trans ?_
  show r₂.Notes _ _ (after (bindLoaded i topLevel (load r₁.program i.path).1 r₂.program) r₂)
  cases (load r₁.program i.path).1 with
  | error cause => exact reportAndKeep_notes placed rfl rfl rfl
  | ok target =>
    let r₃ : Resolution := { r₂ with imports := r₂.imports.insert i.span target }
    have recorded : r₂.Notes (Span.Between i.span.start i.span.stop) [.importing i] r₃ := .of_same rfl rfl rfl
    refine recorded.trans ?_
    simp only [bindLoaded, after_bind, after_modify]
    cases found : r₂.program.modules[(target : Nat)]? with
    | none => exact .refl
    | some m =>
      dsimp only
      split
      · exact reportAndKeep_notes placed rfl rfl rfl
      · have valid : ∀ e ∈ m.exports.entries, e.target ≠ .invalid := fun e member =>
          (offered target m found e member).ne_invalid
        let r₄ : Resolution := { r₃ with program := r₃.program.addEdge ⟨r₃.home, target, i.pathSpan⟩ }
        have edged : r₃.Notes (Span.Between i.span.start i.span.stop) [.importing i] r₄ := .of_same rfl rfl rfl
        exact edged.trans (bindImports_notes placed valid)

end

end Resolve

end PipeLang
