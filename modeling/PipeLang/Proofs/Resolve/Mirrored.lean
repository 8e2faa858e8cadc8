import PipeLang.Proofs.Resolve.Mirror
import PipeLang.Proofs.Resolve.Trace

/-!
# Resolutions in step

The resolution of every piece of syntax keeps two resolutions in step whose programs are alike: `Expr.mirrored` and the
theorems beside it, and `Resolve.module_relates` for a whole module.
-/

namespace PipeLang

/-- The same imported name where the modules have other numbers. -/
def Imported.rename (ren : ModuleId → ModuleId) (item : Imported) : Imported :=
  { item with target := item.target.rename ren }

/-- What goes on to be so while programs go on. -/
def Mirror.Lasting (c : Mirror) (P : Program → Prop) : Prop :=
  ∀ p p', c.Onward p p' → P p → P p'

variable {c : Mirror} {load load' : Loader} {mentions : List Mention} {α β : Type}

/-- What lasts is still so behind a step. -/
lemma Mirrored.frame {pre : Program → Prop} {ren : α → α} {post : Program → α → Prop} {x y : Resolve α}
    {P : Program → Prop} (lasting : c.Lasting P) (h : Mirrored c pre ren post x y) :
    Mirrored c (fun p => pre p ∧ P p) ren (fun p a => post p a ∧ P p) x y where
  onward := h.onward
  relates {r s} related given fits := by
    obtain ⟨related', answers, known⟩ := h.relates related given.1 fits
    exact ⟨related', answers, known, lasting _ _ (h.onward r) given.2⟩

/-- What changes go on to. -/
lemma Change.onward (h : c.Reflects load load' mentions) {topLevel : Bool} {r r' : Resolution}
    (change : Change load mentions topLevel r r') : c.Onward r.program r'.program := by
  cases change with
  | tables program => exact program ▸ .refl
  | record | bind | redefine => exact .refl
  | edge => exact h.edgeOnward _ _
  | load => exact h.loadsOnward _ _
  | @forward _ exports | @define _ _ exports =>
    exact h.offerOnward r.program r.home fun _ => exports
  | @assembly place => exact h.offerOnward r.program r.home fun t => { t with assembly := place }

lemma Changes.onward {topLevel : Bool} {r r' : Resolution} (changes : Changes load mentions topLevel r r')
    (h : c.Reflects load load' mentions) : c.Onward r.program r'.program := by
  induction changes with
  | refl => exact .refl
  | tail _ change ih => exact ih.trans (change.onward h)

namespace Resolve

/-! ### Imports -/

lemma keepInvalid_mirrored {ident : Ident} {visibleFrom : Nat} :
    Mirrored.Plain c (keepInvalid ident visibleFrom) (keepInvalid ident visibleFrom) := by
  refine .own (fun _ => rfl) (fun _ => rfl) fun {r q} related _ => ⟨?_, rfl, trivial, fun b member => ?_⟩
  · simp only [keepInvalid, after_modify, Resolution.seenAs, Scopes.insert_rename]
    rfl
  · rcases Array.mem_push.1 member with old | rfl
    · exact related.bound b old
    · trivial

lemma keepModuleName_mirrored {i : Import} {newName : Option Ident} {site : Span} :
    Mirrored.Plain c (keepModuleName i newName site) (keepModuleName i newName site) := by
  simp only [keepModuleName]
  split
  · exact keepInvalid_mirrored
  · split
    · split
      · exact keepInvalid_mirrored
      · exact .pure fun _ _ => trivial
    · exact .pure fun _ _ => trivial

lemma keepNames_mirrored {i : Import} : Mirrored.Plain c (keepNames i) (keepNames i) := by
  simp only [keepNames]
  split
  · exact keepModuleName_mirrored
  · refine Mirrored.forM fun item _ => ?_
    cases item with
    | name name newName => exact keepInvalid_mirrored
    | self span newName => exact keepModuleName_mirrored
    | glob span => exact .pure fun _ _ => trivial

/-- A module and what it exports can be denoted. -/
def Importable (c : Mirror) (target : ModuleId) (m : LoadedModule) (p : Program) : Prop :=
  c.known p target ∧ ∀ e ∈ m.exports.entries, e.target.Known (c.known p)

variable {i : Import} {target : ModuleId} {m m' : LoadedModule} {explicit : List String} {topLevel : Bool}

lemma lasting_importable : c.Lasting (Importable c target m) :=
  fun _ _ onward known => ⟨onward.known target known.1, fun e member => (known.2 e member).mono onward.known⟩

lemma importItem_mirrored {item : ImportItem} (shows : m.ShowsAs c.rename m') :
    Mirrored c (Importable c target m) (List.map (Imported.rename c.rename))
      (fun p items => ∀ item ∈ items, item.target.Known (c.known p)) (importItem i target m explicit item)
      (importItem i (c.rename target) m' explicit item) := by
  cases item with
  | name name newName =>
    simp only [importItem, shows.exports, shows.path, shows.status, Exports.get?_rename]
    cases exported : m.exports.get? name.name with
    | some e =>
      refine .pure fun p known => List.forall_mem_singleton.2 ?_
      exact known.2 e (List.mem_of_find?_eq_some exported)
    | none =>
      exact report_mirrored.given.bind fun _ => keepInvalid_mirrored.bind fun _ => .pure fun _ _ => List.forall_mem_nil _
  | self span newName =>
    simp only [importItem, shows.path]
    have renamed : Import.moduleItem (c.rename target) m.path newName span =
        (Import.moduleItem target m.path newName span).map (Imported.rename c.rename) := by
      unfold Import.moduleItem
      split <;> rfl
    rw [renamed]
    cases brought : Import.moduleItem target m.path newName span with
    | error fault => exact report_mirrored.given.bind fun _ => .pure fun _ _ => List.forall_mem_nil _
    | ok item =>
      refine .pure fun p known => List.forall_mem_singleton.2 ?_
      unfold Import.moduleItem at brought
      split at brought <;> cases brought <;> exact known.1
  | glob span =>
    have renamed : ((m'.exports.entries.filter fun e => !explicit.contains e.name).map fun e =>
          Import.ofExport e e.name span .glob) =
        ((m.exports.entries.filter fun e => !explicit.contains e.name).map fun e =>
          Import.ofExport e e.name span .glob).map (Imported.rename c.rename) := by
      simp only [shows.exports, Exports.rename, List.filter_map, List.map_map]
      rfl
    simp only [importItem, renamed]
    refine .pure fun p known item member => ?_
    obtain ⟨e, member', rfl⟩ := List.mem_map.1 member
    exact known.2 e (List.mem_filter.1 member').1

lemma importItems_mirrored {items : List ImportItem} (shows : m.ShowsAs c.rename m') :
    Mirrored c (Importable c target m) (List.map (Imported.rename c.rename))
      (fun p items => ∀ item ∈ items, item.target.Known (c.known p)) (importItems i target m explicit items)
      (importItems i (c.rename target) m' explicit items) := by
  induction items with
  | nil => exact .pure fun _ _ => nofun
  | cons item items ih =>
    have importable : c.Lasting (Importable c target m) := lasting_importable
    have first : Mirrored c (Importable c target m) (List.map (Imported.rename c.rename))
        (fun p items => ∀ item ∈ items, item.target.Known (c.known p)) (importItem i target m explicit item)
        (importItem i (c.rename target) m' explicit item) := importItem_mirrored shows
    refine ((first.frame importable).weaken (fun p known => ⟨known, known⟩) fun p found known => known).bind fun found => ?_
    have known : c.Lasting fun p => ∀ item ∈ found, item.target.Known (c.known p) :=
      fun _ _ onward known item member => (known item member).mono onward.known
    refine ((ih.frame known).weaken (fun p both => both.symm) fun p rest both => both).bind fun rest => ?_
    rw [← List.map_append]
    refine .pure fun p both item member => ?_
    exact (List.mem_append.1 member).elim (both.2 item) (both.1 item)

section

variable (h : c.Reflects load load' mentions)
include h

lemma installImport_mirrored {item : Imported} : Mirrored c (fun p => item.target.Known (c.known p)) id
    (fun p _ => item.target.Known (c.known p)) (installImport i topLevel item)
    (installImport i topLevel (item.rename c.rename)) := by
  let b (current : ScopeId) : Binding :=
    ⟨item.name, item.sourceName, item.target, current, i.span.stop, item.site, item.ty, item.origin, []⟩
  let e : Export := ⟨item.name, item.target, item.kind, item.site, item.ty, true⟩
  let offer (e : Export) (found : Option BindingId) : Resolve Unit :=
    if found.isSome && i.exported && topLevel then publish e else Pure.pure ()
  have known : c.Lasting fun p => item.target.Known (c.known p) := fun _ _ onward known => known.mono onward.known
  have installed (current : ScopeId) : Mirrored c (fun p => item.target.Known (c.known p)) id
      (fun p _ => item.target.Known (c.known p)) (install (b current) >>= offer e)
      (install ((b current).rename c.rename) >>= offer (e.rename c.rename)) := by
    have first := (install_mirrored (b := b current) h).frame known
    refine (first.weaken (fun p known => ⟨known, known⟩) fun p _ both => both.2).bind fun found => ?_
    simp only [offer, id_eq]
    split
    · exact ((publish_mirrored h).frame known).weaken (fun p known => ⟨known, known⟩) fun p _ both => both.2
    · exact .pure fun _ known => known
  refine .get (fun r => (installed r.current).onward r) fun {r q} _ known => ?_
  exact (installed r.current).weaken (fun p same => same ▸ known) fun _ _ known => known

lemma installImports_mirrored {items : List Imported} :
    Mirrored c (fun p => ∀ item ∈ items, item.target.Known (c.known p)) id (fun _ _ => True)
      (items.forM (installImport i topLevel)) ((items.map (Imported.rename c.rename)).forM (installImport i topLevel)) := by
  induction items with
  | nil => exact .pure fun _ _ => trivial
  | cons item items ih =>
    simp only [List.forM_eq_forM, List.map_cons, List.forM_cons] at ih ⊢
    have known : c.Lasting fun p => ∀ item ∈ items, item.target.Known (c.known p) :=
      fun _ _ onward known item member => (known item member).mono onward.known
    have first : Mirrored c (fun p => item.target.Known (c.known p)) id (fun p _ => item.target.Known (c.known p))
        (installImport i topLevel item) (installImport i topLevel (item.rename c.rename)) := installImport_mirrored h
    exact ((first.frame known).weaken (fun p all => List.forall_mem_cons.1 all) fun p _ both => both.2).bind fun _ => ih

lemma bindImports_mirrored (shows : m.ShowsAs c.rename m') : Mirrored c (Importable c target m) id (fun _ _ => True)
    (bindImports i topLevel target m) (bindImports i topLevel (c.rename target) m') := by
  simp only [bindImports]
  cases i.items with
  | module newName => exact (importItem_mirrored shows).bind fun items => installImports_mirrored h
  | list items => exact (importItems_mirrored shows).bind fun items => installImports_mirrored h

lemma edge_mirrored {site : Span} : Mirrored c (Importable c target m) id (fun p _ => Importable c target m p)
    (modify fun r => { r with program := r.program.addEdge ⟨r.home, target, site⟩ })
    (modify fun r => { r with program := r.program.addEdge ⟨r.home, c.rename target, site⟩ }) where
  onward r := h.edgeOnward _ _
  relates {r s} related given fits := by
    obtain ⟨q, rfl⟩ : ∃ q, s = r.seenAs c.rename q := ⟨_, related.seen⟩
    have onward : c.Onward r.program (r.program.addEdge ⟨r.home, target, site⟩) := h.edgeOnward _ _
    have alike : c.alike (r.program.addEdge ⟨r.home, target, site⟩)
        (q.addEdge ⟨c.rename r.home, c.rename target, site⟩) := by
      rw [related.home]
      exact h.edge site given.1 related.program
    refine ⟨⟨rfl, alike, related.home, ?_, ?_⟩, rfl, lasting_importable _ _ onward given⟩
    · exact fun b member => (related.bound b member).mono onward.known
    · exact fun e member => (related.offers e member).mono onward.known

/-- What follows when two loaders have answered alike. -/
lemma bindLoaded_mirrored {p q : Program} {found found' : Except LoadError ModuleId} (alike : c.alike p q)
    (answers : c.Answers p found found') :
    Mirrored c (· = p) id (fun _ _ => True) (bindLoaded i topLevel found p) (bindLoaded i topLevel found' q) := by
  cases answers with
  | refused => exact report_mirrored.given.bind fun _ => keepNames_mirrored
  | @found target known =>
    have recorded : Mirrored c (· = p) id (fun p' _ => p' = p)
        (modify fun r => { r with imports := r.imports.insert i.span target })
        (modify fun r => { r with imports := r.imports.insert i.span (c.rename target) }) :=
      .own (fun _ => rfl) (fun _ => rfl) fun related same => ⟨rfl, rfl, same, related.bound⟩
    refine recorded.bind fun _ => ?_
    cases there : p.modules[(target : Nat)]? with
    | none =>
      simp only [h.missing alike known there]
      exact .pure fun _ _ => trivial
    | some m =>
      obtain ⟨m', there', shows, exports⟩ := h.shown alike known there
      have failed : (!m'.faults.isEmpty) = !m.faults.isEmpty := by
        rw [Bool.eq_iff_iff]
        simpa using not_congr shows.faults
      simp only [there', shows.status, shows.path, failed]
      split
      · exact report_mirrored.given.bind fun _ => keepNames_mirrored
      · have edge : Mirrored c (Importable c target m) id (fun p _ => Importable c target m p)
            (modify fun r => { r with program := r.program.addEdge ⟨r.home, target, i.pathSpan⟩ })
            (modify fun r => { r with program := r.program.addEdge ⟨r.home, c.rename target, i.pathSpan⟩ }) :=
          edge_mirrored h
        refine (edge.weaken (fun p' same => ?_) fun _ _ known => known).bind fun _ => bindImports_mirrored h shows
        rw [same]
        exact ⟨known, exports⟩

/-- The loaders are asked for the path of an import. -/
lemma importStatement_mirrored (member : .importing i ∈ mentions) :
    Mirrored.Plain c (importStatement load i topLevel) (importStatement load' i topLevel) := by
  refine refuseNested_mirrored.bind fun _ => ?_
  let next (load : Loader) : Resolve Unit := loadAnd load i (bindLoaded i topLevel)
  show Mirrored c (fun _ => True) id (fun _ _ => True) (next load) (next load')
  have onward (r : Resolution) : c.Onward (load r.program i.path).2 (after (next load) r).program := by
    let r' : Resolution := { r with program := (load r.program i.path).2 }
    have changes : Changes load mentions topLevel r'
        (after (bindLoaded i topLevel (load r.program i.path).1 r'.program) r') := bindLoaded_changes
    exact changes.onward h
  refine ⟨fun r => (h.loadsOnward _ _).trans (onward r), fun {r s} related _ fits => ?_⟩
  obtain ⟨q, rfl⟩ : ∃ q, s = r.seenAs c.rename q := ⟨_, related.seen⟩
  obtain ⟨alike, answers, offers⟩ := h.loads member related.program ((onward r).fits fits)
  have known : ∀ id, c.known r.program id → c.known (load r.program i.path).2 id := (h.loadsOnward _ _).known
  have loaded : c.Relates { r with program := (load r.program i.path).2 }
      { r.seenAs c.rename q with program := (load' q i.path).2 } := by
    refine ⟨rfl, alike, related.home, fun b member => (related.bound b member).mono known, fun e member => ?_⟩
    rw [offers] at member
    exact (related.offers e member).mono known
  exact (bindLoaded_mirrored h alike answers).relates loaded rfl fits

/-! ### Syntax -/

lemma calleeOf_mirrored {callee : Expr} (mirrored : Mirrored.Plain c (expr load none callee) (expr load' none callee)) :
    Mirrored.Found c (calleeOf load callee) (calleeOf load' callee) := by
  cases callee with
  | name ident => exact useName_mirrored h
  | path head rest span => exact usePath_mirrored h
  | _ =>
    refine mirrored.bind fun ty => .pure fun p _ known same => ?_
    cases same
    trivial

lemma checkCall_mirrored {incoming : Option Ty} {args : List Argument} {span : Span} {found : Option (Target × Ty)} :
    Mirrored.Plain c (checkCall incoming args span found)
      (checkCall incoming args span (found.map fun known => (known.1.rename c.rename, known.2))) := by
  cases found with
  | none => exact .pure fun _ _ => trivial
  | some known => exact (checkHostCall_mirrored h).bind fun _ => .pure fun _ _ => trivial

end

end Resolve

open Resolve

section

variable (h : c.Reflects load load' mentions)
include h

set_option linter.unusedSectionVars false in
mutual

/-- The resolution of an expression keeps resolutions in step. -/
theorem Expr.mirrored (e : Expr) (sub : e.mentions ⊆ mentions) (incoming : Option Ty) :
    Mirrored.Plain c (expr load incoming e) (expr load' incoming e) := by
  match e with
  | .name ident =>
    exact rejectIncoming_mirrored.bind fun _ => (useName_mirrored h).bind fun _ => (stageType_mirrored h).given
  | .path head rest span =>
    exact rejectIncoming_mirrored.bind fun _ => (usePath_mirrored h).bind fun _ => (stageType_mirrored h).given
  | .literal value span => exact rejectIncoming_mirrored.bind fun _ => .pure fun _ _ => trivial
  | .array items span =>
    exact rejectIncoming_mirrored.bind fun _ => (Expr.all_mirrored items sub).bind fun _ => .pure fun _ _ => trivial
  | .range start stop inclusive span =>
    obtain ⟨first, last⟩ := List.append_subset.1 sub
    exact rejectIncoming_mirrored.bind fun _ => (Expr.mirrored start first none).bind fun _ =>
      (Expr.mirrored stop last none).bind fun _ => .pure fun _ _ => trivial
  | .binary op left right span =>
    obtain ⟨first, last⟩ := List.append_subset.1 sub
    exact rejectIncoming_mirrored.bind fun _ => (Expr.mirrored left first none).bind fun _ =>
      (Expr.mirrored right last none).bind fun _ => .pure fun _ _ => trivial
  | .unary op operand span =>
    exact rejectIncoming_mirrored.bind fun _ => (Expr.mirrored operand sub none).bind fun _ => .pure fun _ _ => trivial
  | .call callee args span =>
    obtain ⟨first, last⟩ := List.append_subset.1 sub
    simp only [expr_call]
    exact rejectIncoming_mirrored.bind fun _ => (calleeOf_mirrored h (Expr.mirrored callee first none)).bind fun _ =>
      (Argument.all_mirrored args last).given.bind fun _ => checkCall_mirrored h
  | .index base index span =>
    obtain ⟨first, last⟩ := List.append_subset.1 sub
    exact rejectIncoming_mirrored.bind fun _ => (Expr.mirrored base first none).bind fun _ =>
      (Expr.mirrored index last none).bind fun _ => .pure fun _ _ => trivial
  | .lambda f => exact rejectIncoming_mirrored.bind fun _ => Lambda.mirrored f sub
  | .block b => exact rejectIncoming_mirrored.bind fun _ => Block.mirrored b sub incoming
  | .branch b => exact rejectIncoming_mirrored.bind fun _ => Branch.mirrored b sub incoming
  | .pipeline p => exact rejectIncoming_mirrored.bind fun _ => Pipeline.mirrored p sub incoming
  | .loop l => exact rejectIncoming_mirrored.bind fun _ => Loop.mirrored l sub incoming
termination_by structural e

theorem Expr.all_mirrored (es : List Expr) (sub : Expr.allMentions es ⊆ mentions) :
    Mirrored.Plain c (exprs load es) (exprs load' es) := by
  match es with
  | [] => exact .pure fun _ _ => trivial
  | e :: es =>
    obtain ⟨first, rest⟩ := List.append_subset.1 sub
    exact (Expr.mirrored e first none).bind fun _ => (Expr.all_mirrored es rest).bind fun _ => .pure fun _ _ => trivial
termination_by structural es

theorem Argument.all_mirrored (args : List Argument) (sub : Argument.allMentions args ⊆ mentions) :
    Mirrored.Plain c (arguments load args) (arguments load' args) := by
  match args with
  | [] => exact .pure fun _ _ => trivial
  | ⟨_, value⟩ :: args =>
    obtain ⟨first, rest⟩ := List.append_subset.1 sub
    exact (Expr.mirrored value first none).bind fun _ => Argument.all_mirrored args rest
termination_by structural args

theorem Param.all_mirrored (ps : List Param) (sub : Param.allMentions ps ⊆ mentions) :
    Mirrored.Plain c (params load ps) (params load' ps) := by
  match ps with
  | [] => exact .pure fun _ _ => trivial
  | ⟨_, _, none, _⟩ :: ps => exact (declareInner_mirrored h).bind fun _ => Param.all_mirrored ps sub
  | ⟨_, _, some e, _⟩ :: ps =>
    obtain ⟨first, rest⟩ := List.append_subset.1 sub
    exact (Expr.mirrored e first none).bind fun _ => (declareInner_mirrored h).bind fun _ => Param.all_mirrored ps rest
termination_by structural ps

theorem Lambda.mirrored (f : Lambda) (sub : f.mentions ⊆ mentions) :
    Mirrored.Plain c (lambda load f) (lambda load' f) := by
  match f with
  | ⟨ps, returns, body, span⟩ =>
    obtain ⟨first, rest⟩ := List.append_subset.1 sub
    exact enter_mirrored.bind fun _ => (Param.all_mirrored ps first).bind fun _ =>
      (Expr.mirrored body rest none).bind fun _ => leave_mirrored.bind fun _ => .pure fun _ _ => trivial
termination_by structural f

theorem Block.mirrored (b : Block) (sub : b.mentions ⊆ mentions) (incoming : Option Ty) :
    Mirrored.Plain c (block load incoming b) (block load' incoming b) := by
  match b with
  | ⟨statements, span⟩ =>
    exact rejectTailless_mirrored.bind fun _ => enter_mirrored.bind fun _ =>
      (Statement.all_mirrored statements sub incoming).bind fun _ => leave_mirrored.bind fun _ =>
        .pure fun _ _ => trivial
termination_by structural b

theorem Statement.all_mirrored (ss : List Statement) (sub : Statement.allMentions ss ⊆ mentions)
    (incoming : Option Ty) : Mirrored.Plain c (blockStatements load incoming ss) (blockStatements load' incoming ss) := by
  match ss with
  | [] => exact .pure fun _ _ => trivial
  | [s] => exact Statement.mirrored s (List.append_subset.1 sub).1 false incoming
  | s :: next :: ss =>
    obtain ⟨first, rest⟩ := List.append_subset.1 sub
    exact (Statement.mirrored s first false none).bind fun _ => Statement.all_mirrored (next :: ss) rest incoming
termination_by structural ss

/-- The resolution of a statement keeps resolutions in step. -/
theorem Statement.mirrored (s : Statement) (sub : s.mentions ⊆ mentions) (topLevel : Bool) (incoming : Option Ty) :
    Mirrored.Plain c (statement load topLevel incoming s) (statement load' topLevel incoming s) := by
  match s with
  | .importing i =>
    exact (importStatement_mirrored h (sub List.mem_cons_self)).bind fun _ => .pure fun _ _ => trivial
  | .define exported name value span =>
    exact refuseNested_mirrored.bind fun _ => (Expr.mirrored value sub none).bind fun _ =>
      (define_mirrored h).bind fun _ => .pure fun _ _ => trivial
  | .expr e span => exact Expr.mirrored e sub incoming
termination_by structural s

theorem Branch.mirrored (b : Branch) (sub : b.mentions ⊆ mentions) (incoming : Option Ty) :
    Mirrored.Plain c (branch load incoming b) (branch load' incoming b) := by
  match b with
  | ⟨condition, consequence, other, _⟩ =>
    obtain ⟨both, last⟩ := List.append_subset.1 sub
    obtain ⟨first, second⟩ := List.append_subset.1 both
    exact (Expr.mirrored condition first none).bind fun _ => (Block.mirrored consequence second incoming).bind fun _ =>
      (Alternative.mirrored other last incoming).bind fun _ => .pure fun _ _ => trivial
termination_by structural b

theorem Alternative.mirrored (a : Alternative) (sub : a.mentions ⊆ mentions) (incoming : Option Ty) :
    Mirrored.Plain c (alternative load incoming a) (alternative load' incoming a) := by
  match a with
  | .absent => exact .pure fun _ _ => trivial
  | .block b => exact Block.mirrored b sub incoming
  | .branch b => exact Branch.mirrored b sub incoming
termination_by structural a

theorem Pipeline.mirrored (p : Pipeline) (sub : p.mentions ⊆ mentions) (incoming : Option Ty) :
    Mirrored.Plain c (pipeline load incoming p) (pipeline load' incoming p) := by
  match p with
  | ⟨body, _⟩ => exact (Stage.all_mirrored body sub incoming).bind fun _ => .pure fun _ _ => trivial
termination_by structural p

theorem Stage.all_mirrored (ss : List Stage) (sub : Stage.allMentions ss ⊆ mentions) (incoming : Option Ty) :
    Mirrored.Plain c (stages load incoming ss) (stages load' incoming ss) := by
  match ss with
  | [] => exact .pure fun _ _ => trivial
  | s :: ss =>
    obtain ⟨first, rest⟩ := List.append_subset.1 sub
    exact (Stage.mirrored s first incoming).bind fun _ => Stage.all_mirrored ss rest _
termination_by structural ss

theorem Stage.mirrored (s : Stage) (sub : s.mentions ⊆ mentions) (incoming : Option Ty) :
    Mirrored.Plain c (stage load incoming s) (stage load' incoming s) := by
  match s with
  | .expr e none span => exact (Expr.mirrored e sub incoming).bind fun _ => .pure fun _ _ => trivial
  | .expr e (some tag) span =>
    exact (Expr.mirrored e sub incoming).bind fun _ => (declareTag_mirrored h).bind fun _ => .pure fun _ _ => trivial
  | .operator op operand none span => exact (Expr.mirrored operand sub none).bind fun _ => .pure fun _ _ => trivial
  | .operator op operand (some tag) span =>
    exact (Expr.mirrored operand sub none).bind fun _ => (declareTag_mirrored h).bind fun _ =>
      .pure fun _ _ => trivial
termination_by structural s

theorem Loop.mirrored (l : Loop) (sub : l.mentions ⊆ mentions) (incoming : Option Ty) :
    Mirrored.Plain c (loop load incoming l) (loop load' incoming l) := by
  match l with
  | ⟨sequence, binding, body, span⟩ =>
    obtain ⟨first, rest⟩ := List.append_subset.1 sub
    refine (Expr.mirrored sequence first none).bind fun _ => enter_mirrored.bind fun _ => loopSite_mirrored.bind fun _ =>
      (declareInner_mirrored h).bind fun _ => (Pipeline.mirrored body rest incoming).bind fun _ =>
        leave_mirrored.bind fun _ => ?_
    cases incoming with
    | none => exact .pure fun _ _ => trivial
    | some seed => exact .pure fun _ _ => trivial
termination_by structural l

end

/-! ### Modules -/

lemma Resolve.topLevel_mirrored (ss : List Statement) (sub : Statement.allMentions ss ⊆ mentions) :
    Mirrored.Plain c (topLevel load ss) (topLevel load' ss) := by
  induction ss with
  | nil => exact .pure fun _ _ => trivial
  | cons s ss ih =>
    obtain ⟨first, rest⟩ := List.append_subset.1 sub
    exact (Statement.mirrored h s first true none).bind fun _ => ih rest

lemma Resolve.markAssembly_mirrored (m : Module) : Mirrored.Plain c (markAssembly m) (markAssembly m) := by
  simp only [markAssembly]
  cases m.assembly? with
  | none => exact .pure fun _ _ => trivial
  | some e =>
    let f (t : Exports) : Exports := { t with assembly := some e.span }
    refine ⟨fun r => ?_, fun {r s} related _ _ => ?_⟩
    · have onward : c.Onward r.program (r.program.offer r.home f) := h.offerOnward _ _ _
      exact onward
    · obtain ⟨q, rfl⟩ : ∃ q, s = r.seenAs c.rename q := ⟨_, related.seen⟩
      exact ⟨offer_relates h (f := f) (g := f) related (fun _ => rfl) related.offers, rfl, trivial⟩

/-- The resolution of a module keeps resolutions in step. -/
theorem Resolve.module_mirrored (m : Module) (sub : Statement.allMentions m.statements ⊆ mentions) :
    Mirrored.Plain c (Resolve.module load m) (Resolve.module load' m) :=
  (topLevel_mirrored h m.statements sub).bind fun _ => (markAssembly_mirrored h m).bind fun _ =>
    reportOpenNames_mirrored h

end

end PipeLang
