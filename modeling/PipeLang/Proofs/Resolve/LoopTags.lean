import Mathlib.Data.List.Count
import PipeLang.Proofs.Resolve.Trace
import PipeLang.Proofs.Syntax.Pieces

/-!
# What loops collect

A loop collects the tags of the stages in its body, each of them once: `Module.loop_gathers`. Resolution keeps the tags of a loop in
a table, to which every tag is added for every loop that it crosses. So a piece of syntax adds its tags to the loops around it,
and to the loops in it the tags of their bodies; how often it does is all that is counted here, not in which order. A tag is left
out only if its declaration is refused, so that nothing is left out if no fault is found.
-/

namespace PipeLang

open Resolve

/-- The scopes that a tag crosses are the loop bodies that it is in. -/
lemma Scopes.tagHome_loops (t : Scopes) (scope : ScopeId) :
    (t.tagHome scope).2 = (t.path scope).takeWhile t.isLoopBody := by
  simp only [tagHome]
  split <;> rfl

/-- A path has the same loop bodies in front if the same scopes on it are loop bodies. -/
lemma Scopes.takeWhile_congr {path : List ScopeId} {p q : ScopeId → Bool} (same : ∀ scope ∈ path, p scope = q scope) :
    path.takeWhile p = path.takeWhile q := by
  induction path with
  | nil => rfl
  | cons scope path ih =>
    obtain ⟨first, others⟩ := List.forall_mem_cons.1 same
    rw [List.takeWhile_cons, List.takeWhile_cons, first, ih others]

/-- The places of the tags in the bodies of those loops that stand at a place. -/
def Loop.tagsAt (loops : List Loop) (place : Span) : List Span :=
  (loops.filter fun l => l.span = place).flatMap fun l => (Stage.allTags l.body.stages).map Ident.span

namespace Resolution

/-- The places of the loops that a tag crosses where a resolution is. -/
def around (r : Resolution) : List Span :=
  (r.scopes.tagHome r.current).2.filterMap fun scope => r.loopSites.lookup scope

/-- The places of the tags that the loop at a place collects so far. -/
def gathered (r : Resolution) (loop : Span) : List Span :=
  ((r.loopTags.get? loop).getD []).map (siteOf r.scopes)

/-- A resolution whose scopes nest, and whose loops collect tags that have been declared. -/
structure Placed (r : Resolution) : Prop where
  nested : r.scopes.Nested
  current : r.current < r.scopes.scopes.size
  tags : ∀ loop, ∀ id ∈ (r.loopTags.get? loop).getD [], r.scopes.IsTag id

/-- A resolution has gone over syntax with some tags and some loops: it is where it was, and every loop collects at most the tags
that are new to it, and all of them if no fault has been found. -/
structure Gathers (tags : List Ident) (loops : List Loop) (r r' : Resolution) : Prop where
  placed : r'.Placed
  scopes : r.scopes.Grows 0 r'.scopes
  current : r'.current = r.current
  loopSites : ∀ scope < r.scopes.scopes.size, r'.loopSites.lookup scope = r.loopSites.lookup scope
  gathered : ∀ loop tag, (r'.gathered loop).count tag ≤ (r.gathered loop).count tag +
    r.around.count loop * (tags.map Ident.span).count tag + (Loop.tagsAt loops loop).count tag
  clean : r'.faults = [] → r.faults = []
  complete : r'.faults = [] → ∀ loop tag, (r.gathered loop).count tag + r.around.count loop * (tags.map Ident.span).count tag +
    (Loop.tagsAt loops loop).count tag ≤ (r'.gathered loop).count tag

variable {r r' r'' : Resolution} {tags tags' : List Ident} {loops loops' : List Loop}

namespace Gathers

/-- The tables of loops stay as they are. -/
lemma quiet (placed : r.Placed) (nested : r'.scopes.Nested) (scopes : r.scopes.Grows 0 r'.scopes)
    (current : r'.current = r.current) (loopSites : r'.loopSites = r.loopSites) (loopTags : r'.loopTags = r.loopTags)
    (clean : r'.faults = [] → r.faults = []) : Gathers [] [] r r' := by
  have same (loop : Span) : r'.gathered loop = r.gathered loop := by
    simp only [Resolution.gathered, loopTags]
    refine List.map_congr_left fun id member => ?_
    have inside := (placed.tags loop id member).lt
    simp only [siteOf, Array.getElem?_eq_getElem inside, scopes.bindings (Array.getElem?_eq_getElem inside)]
  refine ⟨⟨nested, current ▸ Nat.lt_of_lt_of_le placed.current scopes.scopes_size_le, fun loop id member => ?_⟩, scopes, current,
    fun _ _ => by rw [loopSites], fun loop tag => ?_, clean, fun _ loop tag => ?_⟩
  · exact (placed.tags loop id (loopTags ▸ member)).grow scopes
  · simp [same, Loop.tagsAt]
  · simp [same, Loop.tagsAt]

/-- Nothing changes but what does not concern loops. -/
lemma of_same (placed : r.Placed) (scopes : r'.scopes = r.scopes) (current : r'.current = r.current)
    (loopSites : r'.loopSites = r.loopSites) (loopTags : r'.loopTags = r.loopTags) (clean : r'.faults = [] → r.faults = []) :
    Gathers [] [] r r' :=
  quiet placed (scopes ▸ placed.nested) (scopes ▸ .refl) current loopSites loopTags clean

lemma insert (placed : r.Placed) {b : Binding} : Gathers [] [] r { r with scopes := r.scopes.insert b } :=
  quiet placed ⟨placed.nested.root, placed.nested.inner, placed.nested.notLoop⟩ (.insert (Nat.zero_le _)) rfl rfl rfl id

lemma report (placed : r.Placed) {faults : List Fault} : Gathers [] [] r { r with faults := r.faults ++ faults } :=
  of_same placed rfl rfl rfl rfl fun clean => (List.append_eq_nil_iff.1 clean).1

/-- A tag crosses the same loops where a resolution is back. -/
lemma around_eq (h : Gathers tags loops r r') (placed : r.Placed) : r'.around = r.around := by
  have path : r'.scopes.path r.current = r.scopes.path r.current := h.scopes.path_eq placed.current
  have inside {scope : ScopeId} (member : scope ∈ r.scopes.path r.current) : scope < r.scopes.scopes.size :=
    Nat.lt_of_le_of_lt (placed.nested.mem_path member).1 placed.current
  have loopBody : ∀ scope ∈ r.scopes.path r.current, r'.scopes.isLoopBody scope = r.scopes.isLoopBody scope := by
    intro scope member
    have there := Array.getElem?_eq_getElem (inside member)
    simp only [Scopes.isLoopBody, there, h.scopes.scopes there]
  simp only [around, Scopes.tagHome_loops, h.current, path, Scopes.takeWhile_congr loopBody]
  refine List.filterMap_congr fun scope member => h.loopSites scope (inside ?_)
  exact (List.takeWhile_sublist _).subset member

/-- In which order the loops stand does not matter. -/
lemma perm (h : Gathers tags loops r r') (perm : loops.Perm loops') : Gathers tags loops' r r' :=
  { h with
    gathered := fun loop tag => by
      have same : (Loop.tagsAt loops' loop).count tag = (Loop.tagsAt loops loop).count tag :=
        (((perm.filter _).flatMap_right _).count_eq tag).symm
      exact same ▸ h.gathered loop tag
    complete := fun clean loop tag => by
      have same : (Loop.tagsAt loops' loop).count tag = (Loop.tagsAt loops loop).count tag :=
        (((perm.filter _).flatMap_right _).count_eq tag).symm
      exact same ▸ h.complete clean loop tag }

lemma trans (h : Gathers tags loops r r') (h' : Gathers tags' loops' r' r'') (placed : r.Placed) :
    Gathers (tags ++ tags') (loops ++ loops') r r'' where
  placed := h'.placed
  scopes := h.scopes.trans h'.scopes
  current := h'.current.trans h.current
  loopSites scope inside :=
    (h'.loopSites scope (Nat.lt_of_lt_of_le inside h.scopes.scopes_size_le)).trans (h.loopSites scope inside)
  gathered loop tag := by
    have first := h.gathered loop tag
    have second := h'.gathered loop tag
    rw [h.around_eq placed] at second
    simp only [Loop.tagsAt, List.filter_append, List.flatMap_append, List.count_append, List.map_append, Nat.mul_add] at *
    omega
  clean clean := h.clean (h'.clean clean)
  complete clean loop tag := by
    have first := h.complete (h'.clean clean) loop tag
    have second := h'.complete clean loop tag
    rw [h.around_eq placed] at second
    simp only [Loop.tagsAt, List.filter_append, List.flatMap_append, List.count_append, List.map_append, Nat.mul_add] at *
    omega

end Gathers

end Resolution

/-! ### Steps -/

namespace Resolve

variable {α β : Type} {load : Loader} {tags tags' : List Ident} {loops loops' : List Loop} {x : Resolve α} {f : α → Resolve β}

/-- Wherever a step begins, it goes over syntax with some tags and some loops. -/
def Gathers (tags : List Ident) (loops : List Loop) (x : Resolve α) : Prop :=
  ∀ r : Resolution, r.Placed → r.Gathers tags loops (after x r)

namespace Gathers

lemma bind (first : Gathers tags loops x) (next : ∀ a, Gathers tags' loops' (f a)) :
    Gathers (tags ++ tags') (loops ++ loops') (x >>= f) := fun r placed =>
  (first r placed).trans (next _ _ (first r placed).placed) placed

/-- A first part that gathers nothing. -/
lemma late (first : Gathers [] [] x) (next : ∀ a, Gathers tags loops (f a)) : Gathers tags loops (x >>= f) :=
  first.bind next

/-- A second part that gathers nothing. -/
lemma early (first : Gathers tags loops x) (next : ∀ a, Gathers [] [] (f a)) : Gathers tags loops (x >>= f) := by
  simpa only [List.append_nil] using first.bind next

lemma pure (a : α) : Gathers [] [] (Pure.pure a : Resolve α) := fun _ placed => .of_same placed rfl rfl rfl rfl id

lemma get : Gathers [] [] (MonadState.get : Resolve Resolution) := fun _ placed => .of_same placed rfl rfl rfl rfl id

lemma report {faults : List Fault} : Gathers [] [] (report faults) := fun _ placed => .report placed

lemma record {site : Span} {target : Target} {ty : Ty} : Gathers [] [] (record site target ty) := fun _ placed =>
  .of_same placed rfl rfl rfl rfl id

lemma leaveOpen {ident : Ident} : Gathers [] [] (leaveOpen ident) := fun _ placed => .of_same placed rfl rfl rfl rfl id

/-- The program may change as it likes. -/
lemma program {g : Resolution → Program} : Gathers [] [] (modify fun r => { r with program := g r } : Resolve PUnit) :=
  fun _ placed => .of_same placed rfl rfl rfl rfl id

lemma forM {l : List α} {g : α → Resolve PUnit} (each : ∀ a ∈ l, Gathers [] [] (g a)) : Gathers [] [] (l.forM g) := by
  induction l with
  | nil => exact pure _
  | cons a l ih =>
    obtain ⟨first, others⟩ := List.forall_mem_cons.1 each
    exact first.late fun _ => ih others

end Gathers

/-! ### Uses -/

lemma refuseNested_gathers {exported topLevel : Bool} {site : Span} : Gathers [] [] (refuseNested exported topLevel site) := by
  simp only [refuseNested]
  split
  · exact .report
  · exact .pure _

lemma rejectIncoming_gathers {incoming : Option Ty} {e : Expr} : Gathers [] [] (rejectIncoming incoming e) := by
  simp only [rejectIncoming]
  split
  · exact .report
  · exact .pure _

lemma rejectTailless_gathers {incoming : Option Ty} {body : List Statement} {site : Span} :
    Gathers [] [] (rejectTailless incoming body site) := by
  simp only [rejectTailless]
  split
  · exact .report
  · exact .pure _

lemma checkHostCall_gathers {target : Target} {positional : Nat} {keywords : List Ident} {site : Span} :
    Gathers [] [] (checkHostCall target positional keywords site) := by
  cases target with
  | host name =>
    refine Gathers.get.late fun r => ?_
    split
    · exact .report
    · exact .pure _
  | _ => exact .pure _

lemma stageType_gathers {incoming : Option Ty} {site : Span} {found : Option (Target × Ty)} :
    Gathers [] [] (stageType incoming site found) := by
  cases found with
  | none => exact .pure _
  | some known =>
    simp only [stageType]
    split
    · exact checkHostCall_gathers.late fun _ => .pure _
    · exact .pure _

lemma useHost_gathers {name : String} {site : Span} : Gathers [] [] (useHost name site) := by
  refine Gathers.get.late fun r => ?_
  split
  · exact Gathers.record.late fun _ => .pure _
  · exact .pure _

/-- A host function, or a name that is left open. -/
lemma useHostOrLeave_gathers {name : String} {site : Span} {ident : Ident} :
    Gathers [] [] (useHostOrLeave name site ident) := by
  refine useHost_gathers.late fun found => ?_
  cases found with
  | none => exact Gathers.leaveOpen.late fun _ => .pure _
  | some found => exact .pure _

lemma useName_gathers {ident : Ident} : Gathers [] [] (useName ident) := by
  refine Gathers.get.late fun r => ?_
  cases r.scopes.lookup r.current ident.name ident.span.start with
  | found id =>
    dsimp only
    split
    · exact .pure _
    · exact Gathers.record.late fun _ => .pure _
  | ambiguous ids => exact Gathers.report.late fun _ => .pure _
  | notYetDeclared id => exact Gathers.report.late fun _ => .pure _
  | notFound => exact useHostOrLeave_gathers

lemma followPath_gathers {site : Span} {target : Target} {ty : Ty} {before : Ident} {rest : List Ident} :
    Gathers [] [] (followPath site target ty before rest) := by
  induction rest generalizing target ty before with
  | nil => exact Gathers.record.late fun _ => .pure _
  | cons segment rest ih =>
    cases target with
    | module id =>
      refine Gathers.get.late fun r => ?_
      cases r.program.modules[(id : Nat)]? with
      | none => exact .pure _
      | some m =>
        dsimp only
        split
        · exact ih
        · exact Gathers.report.late fun _ => .pure _
    | _ => exact Gathers.report.late fun _ => .pure _

lemma usePath_gathers {head : Ident} {rest : List Ident} {site : Span} : Gathers [] [] (usePath head rest site) := by
  have through : Gathers [] [] (useHead head rest site) := by
    refine useName_gathers.late fun found => ?_
    cases found with
    | none => exact .pure _
    | some found => exact followPath_gathers
  refine Gathers.get.late fun r => ?_
  cases r.scopes.lookup r.current head.name head.span.start with
  | notFound => exact useHostOrLeave_gathers
  | _ => exact through

/-! ### Declarations -/

lemma install_gathers {b : Binding} : Gathers [] [] (install b) := by
  intro r placed
  cases free : obstacle? r.program.policy r.scopes b with
  | none => exact (install_free free).2 ▸ .insert placed
  | some other => exact (install_taken free).2 ▸ .report placed

lemma introduce_gathers {b : Binding} : Gathers [] [] (introduce b) := by
  refine install_gathers.late fun found => ?_
  cases found with
  | none => exact .pure _
  | some id => exact fun r placed => .of_same placed rfl rfl rfl rfl fun clean => clean

lemma declareInner_gathers {ident : Ident} {visibleFrom : Nat} {ty : Ty} {origin : Origin} :
    Gathers [] [] (declareInner ident visibleFrom ty origin) :=
  Gathers.get.late fun _ => introduce_gathers.late fun _ => .pure _

lemma publish_gathers {e : Export} : Gathers [] [] (publish e) := by
  intro r placed
  cases inserted : (r.program.exportsOf r.home).insert e with
  | ok exports => exact publish_new inserted ▸ .of_same placed rfl rfl rfl rfl id
  | error first => exact publish_taken inserted ▸ .report placed

lemma define_gathers {exported topLevel isFunction : Bool} {name : Ident} {ty : Ty} {span : Span} :
    Gathers [] [] (define exported topLevel name isFunction ty span) := by
  simp only [define]
  split
  · refine Gathers.get.late fun r => introduce_gathers.late fun found => ?_
    cases found with
    | none => exact .pure _
    | some id => exact publish_gathers
  · exact declareInner_gathers

/-! ### Imports -/

lemma keepInvalid_gathers {ident : Ident} {visibleFrom : Nat} : Gathers [] [] (keepInvalid ident visibleFrom) := fun _ placed =>
  .insert placed

lemma keepModuleName_gathers {i : Import} {newName : Option Ident} {site : Span} :
    Gathers [] [] (keepModuleName i newName site) := by
  simp only [keepModuleName]
  split
  · exact keepInvalid_gathers
  · split
    · split
      · exact keepInvalid_gathers
      · exact .pure _
    · exact .pure _

lemma keepNames_gathers {i : Import} : Gathers [] [] (keepNames i) := by
  simp only [keepNames]
  split
  · exact keepModuleName_gathers
  · refine Gathers.forM fun item _ => ?_
    cases item with
    | name name newName => exact keepInvalid_gathers
    | self span newName => exact keepModuleName_gathers
    | glob span => exact .pure _

section

variable {i : Import} {topLevel : Bool} {target : ModuleId} {m : LoadedModule} {explicit : List String}

lemma importItem_gathers {item : ImportItem} : Gathers [] [] (importItem i target m explicit item) := by
  cases item with
  | name name newName =>
    simp only [importItem]
    split
    · exact .pure _
    · exact Gathers.report.late fun _ => keepInvalid_gathers.late fun _ => .pure _
  | self span newName =>
    simp only [importItem]
    split
    · exact .pure _
    · exact Gathers.report.late fun _ => .pure _
  | glob span => exact .pure _

lemma importItems_gathers {items : List ImportItem} : Gathers [] [] (importItems i target m explicit items) := by
  induction items with
  | nil => exact .pure _
  | cons item items ih => exact importItem_gathers.late fun _ => ih.late fun _ => .pure _

lemma installImport_gathers {item : Imported} : Gathers [] [] (installImport i topLevel item) := by
  refine Gathers.get.late fun r => install_gathers.late fun found => ?_
  split
  · exact publish_gathers
  · exact .pure _

lemma bindImports_gathers : Gathers [] [] (bindImports i topLevel target m) := by
  have install (items : List Imported) : Gathers [] [] (items.forM (installImport i topLevel)) :=
    .forM fun _ _ => installImport_gathers
  simp only [bindImports]
  split
  · exact importItem_gathers.late install
  · exact importItems_gathers.late install

lemma bindLoaded_gathers {found : Except LoadError ModuleId} {program : Program} :
    Gathers [] [] (bindLoaded i topLevel found program) := by
  cases found with
  | error cause => exact Gathers.report.late fun _ => keepNames_gathers
  | ok target =>
    refine Gathers.late (fun r placed => .of_same placed rfl rfl rfl rfl id) fun _ => ?_
    split
    · exact .pure _
    · split
      · exact Gathers.report.late fun _ => keepNames_gathers
      · exact Gathers.program.late fun _ => bindImports_gathers

/-- What loading does to the program concerns no loop. -/
lemma importStatement_gathers : Gathers [] [] (importStatement load i topLevel) := by
  have loads : Gathers [] [] (loadAnd load i (bindLoaded i topLevel)) := fun r placed =>
    let loaded : r.Gathers [] [] { r with program := (load r.program i.path).2 } := .of_same placed rfl rfl rfl rfl id
    loaded.trans (bindLoaded_gathers _ loaded.placed) placed
  exact refuseNested_gathers.late fun _ => loads

end

/-! ### Tags, scopes and loops -/

/-- Every loop that a tag crosses collects it. -/
lemma addLoopTags_gathered {id : BindingId} (crossed : List ScopeId) {r : Resolution} (placed : r.Placed)
    (isTag : r.scopes.IsTag id) :
    let r' := after (crossed.forM (addLoopTag id)) r
    r'.Placed ∧ r'.scopes = r.scopes ∧ r'.current = r.current ∧ r'.loopSites = r.loopSites ∧ r'.faults = r.faults ∧
      ∀ loop tag, (r'.gathered loop).count tag = (r.gathered loop).count tag +
        (crossed.filterMap fun scope => r.loopSites.lookup scope).count loop * [siteOf r.scopes id].count tag := by
  induction crossed generalizing r with
  | nil => exact ⟨placed, rfl, rfl, rfl, rfl, by simp⟩
  | cons scope crossed ih =>
    rw [List.forM_eq_forM, List.forM_cons, after_bind]
    cases site : r.loopSites.lookup scope with
    | none =>
      have first : after (addLoopTag id scope) r = r := by simp [addLoopTag, site]
      simpa [first, site] using ih placed isTag
    | some place =>
      let r₁ : Resolution := { r with loopTags := r.loopTags.insert place ((r.loopTags.get? place).getD [] ++ [id]) }
      have first : after (addLoopTag id scope) r = r₁ := by simp [addLoopTag, site, r₁]
      have placed₁ : r₁.Placed := by
        refine ⟨placed.nested, placed.current, fun loop other member => ?_⟩
        simp only [r₁, SpanTable.get?_insert] at member
        split at member
        · rcases List.mem_append.1 member with old | new
          · exact placed.tags _ other old
          · exact List.mem_singleton.1 new ▸ isTag
        · exact placed.tags loop other member
      obtain ⟨placed', scopes, current, loopSites, faults, counts⟩ := ih placed₁ isTag
      rw [first]
      refine ⟨placed', scopes, current, loopSites, faults, fun loop tag => ?_⟩
      refine (counts loop tag).trans ?_
      rw [List.filterMap_cons, site]
      by_cases here : loop = place
      · subst here
        simp [r₁, Resolution.gathered, SpanTable.get?_insert, List.count_append, Nat.add_mul]
        omega
      · simp [r₁, Resolution.gathered, SpanTable.get?_insert, here, List.count_cons_of_ne (Ne.symm here)]

lemma declareTag_gathers {tag : Ident} {visibleFrom : Nat} {ty : Ty} : Gathers [tag] [] (declareTag tag visibleFrom ty) := by
  intro r placed
  let b : Binding := ⟨tag.name, tag.name, .inner r.scopes.nextBinding, (r.scopes.tagHome r.current).1, visibleFrom,
    tag.span, ty, .tag, (r.scopes.tagHome r.current).2⟩
  have introduced : r.Gathers [] [] (after (introduce b) r) := introduce_gathers r placed
  show r.Gathers [tag] [] (after (collect b.loops (answer (introduce b) r)) (after (introduce b) r))
  cases free : obstacle? r.program.policy r.scopes b with
  | some other =>
    rw [(introduce_taken free).1]
    refine { introduced with
      gathered := fun loop tag => (introduced.gathered loop tag).trans (by simp)
      complete := fun clean => ?_ }
    have reported : (after (introduce b) r).faults = [] := clean
    simp [(introduce_taken free).2] at reported
  | none =>
    obtain ⟨found, next⟩ := introduce_free free
    rw [found, collect_some]
    have grown : (after (introduce b) r).scopes = r.scopes.insert b := by rw [next]
    have isTag : (after (introduce b) r).scopes.IsTag r.scopes.nextBinding := by
      obtain ⟨loops, home, behind, split, same⟩ := placed.nested.tagHome_split placed.current
      rw [grown]
      refine ⟨b, by simp [Scopes.insert, Scopes.nextBinding], rfl, r.current, behind, ?_⟩
      show r.scopes.path r.current = _
      simpa [b, same] using split
    obtain ⟨placed', scopes, current, loopSites, faults, counts⟩ :=
      addLoopTags_gathered b.loops introduced.placed isTag
    have site : siteOf (after (introduce b) r).scopes r.scopes.nextBinding = tag.span := by
      rw [grown]
      simp [siteOf, Scopes.insert, Scopes.nextBinding, b]
    have sites : (after (introduce b) r).loopSites = r.loopSites := by rw [next]
    refine ⟨placed', scopes ▸ introduced.scopes, current.trans introduced.current,
      fun scope old => loopSites ▸ introduced.loopSites scope old, fun loop tag' => ?_, fun clean => introduced.clean (faults ▸ clean),
      fun clean loop tag' => ?_⟩
    · have before := introduced.gathered loop tag'
      rw [counts, site, sites]
      simp only [List.map_nil, List.count_nil, Nat.mul_zero, Loop.tagsAt, List.filter_nil, List.flatMap_nil, Nat.add_zero] at before
      simpa [Loop.tagsAt, Resolution.around, b] using before
    · have before := introduced.complete (faults ▸ clean) loop tag'
      rw [counts, site, sites]
      simp only [List.map_nil, List.count_nil, Nat.mul_zero, Loop.tagsAt, List.filter_nil, List.flatMap_nil, Nat.add_zero] at before
      simpa [Loop.tagsAt, Resolution.around, b] using before

end Resolve

/-- In a new scope a tag crosses what it crosses around it if the scope is a loop body, and nothing otherwise. -/
lemma Scopes.tagHome_push {t : Scopes} (nested : t.Nested) {parent : ScopeId} (inside : parent < t.scopes.size)
    (kind : ScopeKind) (range : Span) : ((t.push (some parent) kind range).tagHome t.nextScope).2 =
      if kind = .loopBody then t.nextScope :: (t.tagHome parent).2 else [] := by
  have new : (t.push (some parent) kind range).isLoopBody t.nextScope = decide (kind = .loopBody) := by
    simp [isLoopBody, push, nextScope]
  have old : ∀ scope ∈ t.path parent, (t.push (some parent) kind range).isLoopBody scope = t.isLoopBody scope := by
    intro scope member
    have before : scope < t.scopes.size := Nat.lt_of_le_of_lt (nested.mem_path member).1 inside
    simp only [isLoopBody, push, Array.getElem?_push_lt before, Array.getElem?_eq_getElem before]
  rw [tagHome_loops, path_push, List.takeWhile_cons, new, tagHome_loops, takeWhile_congr old]
  by_cases body : kind = .loopBody <;> simp [body]

namespace Resolution

variable {r r₁ r' : Resolution} {tags tags' : List Ident} {loops loops' : List Loop} {kind : ScopeKind} {range : Span}

lemma Placed.enter (placed : r.Placed) : (after (enter kind range) r).Placed where
  nested := placed.nested.push placed.current
  current := by simp [Scopes.push, Scopes.nextScope]
  tags loop id member := (placed.tags loop id member).grow (.push (Nat.zero_le range.start))

/-- The current scope is the body of a loop. -/
lemma Placed.loop {span : Span} (placed : r.Placed) :
    Placed { r with loopSites := (r.current, span) :: r.loopSites } :=
  ⟨placed.nested, placed.current, placed.tags⟩

/-- A resolution comes back to the scope that it has left for another. -/
lemma Gathers.back (h : r₁.Gathers tags loops r') (placed : r.Placed) (scopes : r.scopes.Grows 0 r₁.scopes)
    (loopSites : ∀ scope < r.scopes.scopes.size, r₁.loopSites.lookup scope = r.loopSites.lookup scope)
    (same : r₁.gathered = r.gathered) (clean : r₁.faults = r.faults) (credit : ∀ loop tag : Span,
      r₁.around.count loop * (tags.map Ident.span).count tag + (Loop.tagsAt loops loop).count tag =
        r.around.count loop * (tags'.map Ident.span).count tag + (Loop.tagsAt loops' loop).count tag) :
    r.Gathers tags' loops' { r' with current := r.current } where
  placed := by
    have grows := scopes.trans h.scopes
    exact ⟨h.placed.nested, Nat.lt_of_lt_of_le placed.current grows.scopes_size_le, h.placed.tags⟩
  scopes := scopes.trans h.scopes
  current := rfl
  loopSites scope inside :=
    (h.loopSites scope (Nat.lt_of_lt_of_le inside scopes.scopes_size_le)).trans (loopSites scope inside)
  gathered loop tag := by
    have inner := h.gathered loop tag
    rwa [same, Nat.add_assoc, credit, ← Nat.add_assoc] at inner
  clean finished := clean ▸ h.clean finished
  complete finished loop tag := by
    have inner := h.complete finished loop tag
    rwa [same, Nat.add_assoc, credit, ← Nat.add_assoc] at inner

/-- A function or a block keeps its tags to itself. -/
lemma Gathers.level (kind : ScopeKind) (h : (after (enter kind range) r).Gathers tags loops r') (placed : r.Placed)
    (noLoop : kind ≠ .loopBody) : r.Gathers [] loops { r' with current := r.current } := by
  refine h.back placed (.push (Nat.zero_le _)) (fun _ _ => rfl) rfl rfl fun loop tag => ?_
  have none : (after (enter kind range) r).around = [] := by
    simp only [around, after_enter, Scopes.tagHome_push placed.nested placed.current, if_neg noLoop, List.filterMap_nil]
  rw [none, List.count_nil, Nat.zero_mul, List.map_nil, List.count_nil, Nat.mul_zero]

/-- The body of a loop adds its tags to the loop and to those around it. -/
lemma Gathers.loop (l : Loop) (range : Span) (placed : r.Placed)
    (h : let entered := after (enter .loopBody range) r
      Resolution.Gathers (Stage.allTags l.body.stages) loops
        { entered with loopSites := (entered.current, l.span) :: entered.loopSites } r') :
    r.Gathers (Stage.allTags l.body.stages) (l :: loops) { r' with current := r.current } := by
  have old {scope : ScopeId} (inside : scope < r.scopes.scopes.size) :
      ((r.scopes.nextScope, l.span) :: r.loopSites).lookup scope = r.loopSites.lookup scope := by
    have differs : (scope == r.scopes.nextScope) = false := beq_false_of_ne (Nat.ne_of_lt inside)
    rw [List.lookup_cons, differs]
  refine h.back placed (.push (Nat.zero_le _)) (fun _ inside => old inside) rfl rfl fun loop tag => ?_
  have crossed : ∀ scope ∈ (r.scopes.tagHome r.current).2, scope < r.scopes.scopes.size := fun scope member =>
    Nat.lt_of_le_of_lt (placed.nested.mem_path ((List.takeWhile_sublist _).subset
      (Scopes.tagHome_loops _ _ ▸ member))).1 placed.current
  have around : (Resolution.around { after (enter .loopBody range) r with
      loopSites := (r.scopes.nextScope, l.span) :: r.loopSites }) = l.span :: r.around := by
    simp only [Resolution.around, after_enter, Scopes.tagHome_push placed.nested placed.current, if_true,
      List.filterMap_cons, List.lookup_cons_self]
    exact congrArg _ (List.filterMap_congr fun scope member => old (crossed scope member))
  change List.count loop (Resolution.around { after (enter .loopBody range) r with
    loopSites := (r.scopes.nextScope, l.span) :: r.loopSites }) * _ + _ = _
  rw [around]
  by_cases here : l.span = loop
  · simp only [here, Loop.tagsAt, List.count_cons_self, List.filter_cons, decide_true, if_true, List.flatMap_cons,
      List.count_append, Nat.add_mul, Nat.one_mul, Nat.add_assoc]
  · simp [Loop.tagsAt, here, List.count_cons_of_ne]

end Resolution

/-! ### Syntax -/

open Resolve (Gathers rejectIncoming_gathers stageType_gathers)

namespace Resolve

variable {load : Loader} {tags : List Ident} {loops : List Loop}

lemma calleeOf_gathers {callee : Expr} (h : Gathers tags loops (expr load none callee)) :
    Gathers tags loops (calleeOf load callee) := by
  intro r placed
  rw [after_calleeOf]
  exact h r placed

lemma checkCall_gathers {incoming : Option Ty} {args : List Argument} {span : Span} {found : Option (Target × Ty)} :
    Gathers [] [] (checkCall incoming args span found) := by
  cases found with
  | none => exact .pure _
  | some known => exact checkHostCall_gathers.late fun _ => .pure _

/-- A tag, if there is one, behind what stands before it. -/
lemma tagged_gathers {α β : Type} {x : Resolve α} {tag : Option Ident} {visibleFrom : Nat} {ty : α → Ty} {f : α → β}
    (h : Gathers tags loops x) : Gathers (tags ++ tag.toList) loops (do
      let a ← x
      match tag with
      | some tag => declareTag tag visibleFrom (ty a)
      | none => pure ()
      return f a) := by
  have behind (a : α) : Gathers tag.toList [] (do
      match tag with
      | some tag => declareTag tag visibleFrom (ty a)
      | none => pure ()
      return f a : Resolve β) := by
    cases tag with
    | none => exact .pure _
    | some tag => exact declareTag_gathers.early fun _ => .pure _
  simpa only [List.append_nil] using h.bind behind

end Resolve

section

variable (load : Loader)

mutual

/-- An expression gathers its tags, for the loops around it, and its loops gather those of their bodies. -/
theorem Expr.gathers (e : Expr) (incoming : Option Ty) :
    Gathers e.tags (Piece.loops e.pieces) (expr load incoming e) := by
  match e with
  | .name ident => exact rejectIncoming_gathers.late fun _ => useName_gathers.late fun _ => stageType_gathers
  | .path head rest span => exact rejectIncoming_gathers.late fun _ => usePath_gathers.late fun _ => stageType_gathers
  | .literal value span => exact rejectIncoming_gathers.late fun _ => .pure _
  | .array items span =>
    exact rejectIncoming_gathers.late fun _ => (Expr.all_gathers items).early fun _ => .pure _
  | .range start stop inclusive span =>
    simp only [Expr.tags, Expr.pieces, Piece.loops_append]
    exact rejectIncoming_gathers.late fun _ => (Expr.gathers start none).bind fun _ =>
      (Expr.gathers stop none).early fun _ => .pure _
  | .binary op left right span =>
    simp only [Expr.tags, Expr.pieces, Piece.loops_append]
    exact rejectIncoming_gathers.late fun _ => (Expr.gathers left none).bind fun _ =>
      (Expr.gathers right none).early fun _ => .pure _
  | .unary op operand span =>
    exact rejectIncoming_gathers.late fun _ => (Expr.gathers operand none).early fun _ => .pure _
  | .call callee args span =>
    simp only [expr_call, Expr.tags, Expr.pieces, Piece.loops_append]
    exact rejectIncoming_gathers.late fun _ => (calleeOf_gathers (Expr.gathers callee none)).bind fun _ =>
      (Argument.all_gathers args).early fun _ => checkCall_gathers
  | .index base index span =>
    simp only [Expr.tags, Expr.pieces, Piece.loops_append]
    exact rejectIncoming_gathers.late fun _ => (Expr.gathers base none).bind fun _ =>
      (Expr.gathers index none).early fun _ => .pure _
  | .lambda f => exact rejectIncoming_gathers.late fun _ => Lambda.gathers f
  | .block b => exact rejectIncoming_gathers.late fun _ => Block.gathers b incoming
  | .branch b => exact rejectIncoming_gathers.late fun _ => Branch.gathers b incoming
  | .pipeline ⟨stages, span⟩ =>
    exact rejectIncoming_gathers.late fun _ => (Stage.all_gathers stages incoming).early fun _ => .pure _
  | .loop l => exact rejectIncoming_gathers.late fun _ => Loop.gathers l incoming
termination_by structural e

theorem Expr.all_gathers (es : List Expr) : Gathers (Expr.allTags es) (Piece.loops (Expr.allPieces es)) (exprs load es) := by
  match es with
  | [] => exact .pure _
  | e :: es =>
    simp only [Expr.allTags, Expr.allPieces, Piece.loops_append]
    exact (Expr.gathers e none).bind fun _ => (Expr.all_gathers es).early fun _ => .pure _
termination_by structural es

theorem Argument.all_gathers (args : List Argument) :
    Gathers (Argument.allTags args) (Piece.loops (Argument.allPieces args)) (arguments load args) := by
  match args with
  | [] => exact .pure _
  | ⟨_, value⟩ :: args =>
    simp only [Argument.allTags, Argument.allPieces, Piece.loops_append]
    exact (Expr.gathers value none).bind fun _ => Argument.all_gathers args
termination_by structural args

/-- The tags in the defaults of parameters are gathered in the scope of their function. -/
theorem Param.all_gathers (ps : List Param) :
    ∃ tags, Gathers tags (Piece.loops (Param.allPieces ps)) (params load ps) := by
  match ps with
  | [] => exact ⟨[], .pure _⟩
  | ⟨_, _, none, _⟩ :: ps =>
    obtain ⟨tags, others⟩ := Param.all_gathers ps
    exact ⟨tags, declareInner_gathers.late fun _ => others⟩
  | ⟨_, _, some e, _⟩ :: ps =>
    obtain ⟨tags, others⟩ := Param.all_gathers ps
    refine ⟨e.tags ++ tags, ?_⟩
    simp only [Param.allPieces, Piece.loops_append]
    exact (Expr.gathers e none).bind fun _ => declareInner_gathers.late fun _ => others
termination_by structural ps

theorem Lambda.gathers (f : Lambda) : Gathers [] (Piece.loops f.pieces) (lambda load f) := by
  match f with
  | ⟨ps, returns, body, span⟩ =>
    intro r placed
    obtain ⟨tags, first⟩ := Param.all_gathers ps
    have inner : Gathers (tags ++ body.tags) (Piece.loops (Param.allPieces ps ++ body.pieces))
        (params load ps >>= fun _ => expr load none body) := by
      simpa only [Piece.loops_append] using first.bind fun _ => Expr.gathers body none
    exact Resolution.Gathers.level .function (inner _ placed.enter) placed nofun
termination_by structural f

theorem Block.gathers (b : Block) (incoming : Option Ty) : Gathers [] (Piece.loops b.pieces) (block load incoming b) := by
  match b with
  | ⟨statements, span⟩ =>
    obtain ⟨tags, inner⟩ := Statement.all_gathers statements incoming
    exact rejectTailless_gathers.late fun _ r placed => Resolution.Gathers.level .block (inner _ placed.enter) placed nofun
termination_by structural b

/-- The tags in the statements of a block are gathered in its scope. -/
theorem Statement.all_gathers (ss : List Statement) (incoming : Option Ty) :
    ∃ tags, Gathers tags (Piece.loops (Statement.allPieces ss)) (blockStatements load incoming ss) := by
  match ss with
  | [] => exact ⟨[], .pure _⟩
  | [s] =>
    obtain ⟨tags, only⟩ := Statement.gathers s false incoming
    refine ⟨tags, ?_⟩
    rw [Statement.allPieces, Statement.allPieces, List.append_nil]
    exact only
  | s :: next :: ss =>
    obtain ⟨tags, first⟩ := Statement.gathers s false none
    obtain ⟨tags', others⟩ := Statement.all_gathers (next :: ss) incoming
    refine ⟨tags ++ tags', ?_⟩
    rw [Statement.allPieces, Piece.loops_append]
    exact first.bind fun _ => others
termination_by structural ss

theorem Statement.gathers (s : Statement) (topLevel : Bool) (incoming : Option Ty) :
    ∃ tags, Gathers tags (Piece.loops s.pieces) (statement load topLevel incoming s) := by
  match s with
  | .importing i => exact ⟨[], importStatement_gathers.late fun _ => .pure _⟩
  | .define exported name value span =>
    exact ⟨value.tags, refuseNested_gathers.late fun _ => (Expr.gathers value none).early fun _ =>
      define_gathers.late fun _ => .pure _⟩
  | .expr e span => exact ⟨e.tags, Expr.gathers e incoming⟩
termination_by structural s

theorem Branch.gathers (b : Branch) (incoming : Option Ty) :
    Gathers b.tags (Piece.loops b.pieces) (branch load incoming b) := by
  match b with
  | ⟨condition, consequence, other, _⟩ =>
    simp only [Branch.tags, Branch.pieces, Piece.loops_append]
    exact (Expr.gathers condition none).bind fun _ => (Block.gathers consequence incoming).bind fun _ =>
      (Alternative.gathers other incoming).early fun _ => .pure _
termination_by structural b

theorem Alternative.gathers (a : Alternative) (incoming : Option Ty) :
    Gathers a.tags (Piece.loops a.pieces) (alternative load incoming a) := by
  match a with
  | .absent => exact .pure _
  | .block b => exact Block.gathers b incoming
  | .branch b => exact Branch.gathers b incoming
termination_by structural a

theorem Stage.all_gathers (ss : List Stage) (incoming : Option Ty) :
    Gathers (Stage.allTags ss) (Piece.loops (Stage.allPieces ss)) (stages load incoming ss) := by
  match ss with
  | [] => exact .pure _
  | s :: ss =>
    simp only [Stage.allTags, Stage.allPieces, Piece.loops_append]
    exact (Stage.gathers s incoming).bind fun _ => Stage.all_gathers ss _
termination_by structural ss

theorem Stage.gathers (s : Stage) (incoming : Option Ty) :
    Gathers s.tags (Piece.loops s.pieces) (stage load incoming s) := by
  match s with
  | .expr e tag span => exact tagged_gathers (Expr.gathers e incoming)
  | .operator op operand tag span => exact tagged_gathers (Expr.gathers operand none)
termination_by structural s

theorem Loop.gathers (l : Loop) (incoming : Option Ty) : Gathers l.tags (Piece.loops l.pieces) (loop load incoming l) := by
  match l with
  | ⟨sequence, binding, ⟨stages, inner⟩, span⟩ =>
    have body (ty : Ty) : Gathers (Stage.allTags stages) (Piece.loops (Stage.allPieces stages)) (do
        declareInner binding binding.span.stop ty .loopVariable
        pipeline load incoming ⟨stages, inner⟩) :=
      declareInner_gathers.late fun _ => (Stage.all_gathers stages incoming).early fun _ => .pure _
    have whole : Gathers (sequence.tags ++ Stage.allTags stages) (Piece.loops sequence.pieces ++
        ⟨sequence, binding, ⟨stages, inner⟩, span⟩ :: Piece.loops (Stage.allPieces stages))
        (loop load incoming ⟨sequence, binding, ⟨stages, inner⟩, span⟩) := by
      refine (Expr.gathers sequence none).bind fun ty r placed => ?_
      have around := Resolution.Gathers.loop ⟨sequence, binding, ⟨stages, inner⟩, span⟩ ⟨binding.span.start, span.stop⟩
        placed (body ty.element _ (Resolution.Placed.loop placed.enter))
      cases incoming with
      | none => exact around
      | some seed => exact around
    simp only [Loop.tags, Loop.pieces, Piece.loops_loop, Piece.loops_append]
    exact fun r placed => (whole r placed).perm List.perm_middle

end

/-! ### Modules -/

lemma Resolve.topLevel_gathers (ss : List Statement) :
    ∃ tags, Gathers tags (Piece.loops (Statement.allPieces ss)) (topLevel load ss) := by
  induction ss with
  | nil => exact ⟨[], .pure _⟩
  | cons s ss ih =>
    obtain ⟨tags, first⟩ := Statement.gathers load s true none
    obtain ⟨tags', others⟩ := ih
    refine ⟨tags ++ tags', ?_⟩
    rw [Statement.allPieces, Piece.loops_append]
    exact first.bind fun _ => others

lemma Resolve.module_gathers (m : Module) : ∃ tags, Gathers tags (Piece.loops m.pieces) (Resolve.module load m) := by
  obtain ⟨tags, statements⟩ := topLevel_gathers load m.statements
  have marked : Gathers [] [] (markAssembly m) := by
    simp only [markAssembly]
    split
    · exact .program
    · exact .pure _
  exact ⟨tags, statements.early fun _ => marked.late fun _ r placed =>
    .of_same placed rfl rfl rfl rfl fun clean => (List.append_eq_nil_iff.1 clean).1⟩

end

/-- When a resolution starts, there are no loops. -/
lemma Resolution.placed_start {p : Program} {home : ModuleId} {range : Span} : (start p home range).Placed where
  nested := ⟨rfl, by simp [start, Scopes.new, Scopes.root], rfl⟩
  current := by simp [start, Scopes.new, Scopes.root]
  tags loop id member := by simp [start] at member

/-- At a place where no two loops stand, there is the body of one. -/
lemma Loop.tagsAt_eq {loops : List Loop} (distinct : (loops.map Loop.span).Nodup) {l : Loop} (member : l ∈ loops) :
    tagsAt loops l.span = (Stage.allTags l.body.stages).map Ident.span := by
  induction loops with
  | nil => cases member
  | cons first loops ih =>
    obtain ⟨apart, distinct⟩ := List.nodup_cons.1 distinct
    rcases List.mem_cons.1 member with rfl | member
    · have others : loops.filter (fun other => other.span = l.span) = [] :=
        List.filter_eq_nil_iff.2 fun other there => by
          simpa using fun same => apart (List.mem_map.2 ⟨other, there, same⟩)
      simp [tagsAt, others]
    · have other : first.span ≠ l.span := fun same => apart (same ▸ List.mem_map_of_mem member)
      simpa [tagsAt, other] using ih distinct member

/-- What the loops of a module collect are tags. -/
lemma Module.loop_isTag {m : Module} (load : Loader) (p : Program) (home : ModuleId) {loop : Span} {tags : List BindingId}
    (collected : (after (Resolve.module load m) (.start p home m.span)).loopTags.get? loop = some tags) :
    ∀ id ∈ tags, (after (Resolve.module load m) (.start p home m.span)).scopes.IsTag id := by
  obtain ⟨_, gathers⟩ := Resolve.module_gathers load m
  have placed := (gathers (.start p home m.span) Resolution.placed_start).placed.tags loop
  rw [collected] at placed
  exact placed

section

variable {m : Module} (load : Loader) (p : Program) (home : ModuleId) (distinct : ((Piece.loops m.pieces).map Loop.span).Nodup)
  {l : Loop} (member : .loop l ∈ m.pieces)
include distinct member

/-- How often a loop of a module collects each tag in its body, if no two loops of the module share a place. -/
lemma Module.loop_counts :
    let r := after (Resolve.module load m) (.start p home m.span)
    (∀ tag, (r.gathered l.span).count tag ≤ ((Stage.allTags l.body.stages).map Ident.span).count tag) ∧
      (r.faults = [] → ∀ tag, ((Stage.allTags l.body.stages).map Ident.span).count tag ≤ (r.gathered l.span).count tag) := by
  obtain ⟨tags, gathers⟩ := Resolve.module_gathers load m
  have whole := gathers (.start p home m.span) Resolution.placed_start
  have outside : (Resolution.start p home m.span).around = [] := rfl
  have inside : l ∈ Piece.loops m.pieces := List.mem_filterMap.2 ⟨.loop l, member, rfl⟩
  have begins (tag : Span) : ((Resolution.start p home m.span).gathered l.span).count tag = 0 := by
    simp [Resolution.gathered, Resolution.start]
  refine ⟨fun tag => ?_, fun clean tag => ?_⟩
  · simpa [outside, begins, Loop.tagsAt_eq distinct inside] using whole.gathered l.span tag
  · simpa [outside, begins, Loop.tagsAt_eq distinct inside] using whole.complete clean l.span tag

/-- A loop of a module collects the tags in its body, each at most once. -/
theorem Module.loop_gathers : ((after (Resolve.module load m) (.start p home m.span)).gathered l.span).Subperm
    ((Stage.allTags l.body.stages).map Ident.span) :=
  List.subperm_ext_iff.2 fun tag _ => (loop_counts load p home distinct member).1 tag

/-- If nothing is wrong with the module, it collects each of them. -/
theorem Module.loop_gathers_all (clean : (after (Resolve.module load m) (.start p home m.span)).faults = []) :
    ((after (Resolve.module load m) (.start p home m.span)).gathered l.span).Perm
      ((Stage.allTags l.body.stages).map Ident.span) := by
  obtain ⟨most, least⟩ := loop_counts load p home distinct member
  exact List.perm_iff_count.2 fun tag => Nat.le_antisymm (most tag) (least clean tag)

end

end PipeLang
