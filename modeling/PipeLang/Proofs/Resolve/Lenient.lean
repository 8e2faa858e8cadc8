import PipeLang.Proofs.Resolve.Trace

/-!
# Deferred collisions

Under the policy that defers collisions a resolution goes the same way as under any other policy, as long as the other one finds
nothing wrong: `Lenient` says so of two steps. A collision that is deferred is a fault under the other policy, and faults never go
away. Each step is lenient, `Expr.lenient` and the theorems beside it, and so is the resolution of a module,
`Resolve.module_lenient`.
-/

namespace PipeLang

namespace Program

/-- The program under the policy that defers collisions. -/
def deferring (p : Program) : Program :=
  { p with policy := .onUse }

/-- No module of a program has faults. -/
def Faultless (p : Program) : Prop :=
  ∀ m ∈ p.modules, m.faults = []

/-- A change of one module that leaves its faults alone. -/
lemma Faultless.of_modify {p : Program} {id : ModuleId} {f : LoadedModule → LoadedModule}
    (h : (p.modify id f).Faultless) (same : ∀ m, (f m).faults = m.faults) : p.Faultless := by
  intro m member
  obtain ⟨i, found⟩ := Array.mem_iff_getElem?.1 member
  have found' : (p.modify id f).modules[i]? = some (if id = i then f m else m) := by
    simp only [modify, Array.getElem?_modify, found]
    split <;> rfl
  have none := h _ (Array.mem_of_getElem? found')
  split at none
  · exact (same m).symm.trans none
  · exact none

end Program

namespace Resolution

/-- The resolution under the policy that defers collisions. -/
def deferring (r : Resolution) : Resolution :=
  { r with program := r.program.deferring }

/-- Nothing has been found wrong, in the module that is being resolved or in others. -/
structure Faultless (r : Resolution) : Prop where
  own : r.faults = []
  others : r.program.Faultless

end Resolution

/-- Two loaders, the second for programs that defer collisions, answer the same as long as the first leaves no module with faults.
It takes no faults away. -/
structure Loader.Lenient (load load' : Loader) : Prop where
  before : ∀ {p raw}, (load p raw).2.Faultless → p.Faultless
  same : ∀ {p raw}, (load p raw).2.Faultless → load' p.deferring raw = ((load p raw).1, (load p raw).2.deferring)

open Resolve (after answer)

variable {α β : Type} {load load' : Loader} {r : Resolution}

/-- Two steps, the second for programs that defer collisions, do the same as long as the first finds nothing wrong. It takes no
faults away. -/
structure Lenient (x y : Resolve α) : Prop where
  before : ∀ {r}, (after x r).Faultless → r.Faultless
  same : ∀ {r}, (after x r).Faultless → y.run r.deferring = (answer x r, (after x r).deferring)

namespace Lenient

variable {x y : Resolve α}

lemma pure (a : α) : Lenient (Pure.pure a) (Pure.pure a) :=
  ⟨id, fun _ => rfl⟩

lemma bind {f g : α → Resolve β} (first : Lenient x y) (second : ∀ a, Lenient (f a) (g a)) :
    Lenient (x >>= f) (y >>= g) where
  before fine := first.before ((second _).before fine)
  same {r} fine := by
    have between : (after x r).Faultless := (second _).before fine
    change (g (answer y r.deferring)).run (after y r.deferring) = _
    simp only [answer, after, first.same between]
    exact (second _).same fine

/-- Steps that look at the state first. -/
lemma get {f g : Resolution → Resolve β} (each : ∀ r, Lenient (f r) (g r.deferring)) :
    Lenient (MonadState.get >>= f) (MonadState.get >>= g) where
  before fine := (each _).before fine
  same fine := (each _).same fine

/-- A change that takes no faults away and does not look at the policy. -/
lemma change {f : Resolution → Resolution} (fine : ∀ {r}, (f r).Faultless → r.Faultless)
    (same : ∀ r, f r.deferring = (f r).deferring) : Lenient (modify f) (modify f) where
  before := fine
  same {r} _ := congrArg (Prod.mk ()) (same r)

/-- A change of the tables of a resolution. -/
lemma tables {f : Resolution → Resolution} (program : ∀ r, (f r).program = r.program) (faults : ∀ r, (f r).faults = r.faults)
    (same : ∀ r, f r.deferring = (f r).deferring) : Lenient (modify f) (modify f) :=
  change (fun {r} fine => ⟨faults r ▸ fine.own, program r ▸ fine.others⟩) same

lemma forM {f g : β → Resolve Unit} {l : List β} (each : ∀ b ∈ l, Lenient (f b) (g b)) : Lenient (l.forM f) (l.forM g) := by
  induction l with
  | nil => exact .pure ()
  | cons b l ih =>
    simp only [List.forM_eq_forM, List.forM_cons]
    exact (each b List.mem_cons_self).bind fun _ => ih fun b member => each b (List.mem_cons_of_mem _ member)

end Lenient

namespace Resolve

/-! ### Faults, scopes and names left open -/

lemma report_lenient {faults : List Fault} : Lenient (report faults) (report faults) :=
  .change (fun fine => ⟨(List.append_eq_nil_iff.1 fine.own).1, fine.others⟩) fun _ => rfl

lemma refuseNested_lenient {exported topLevel : Bool} {site : Span} :
    Lenient (refuseNested exported topLevel site) (refuseNested exported topLevel site) := by
  simp only [refuseNested]
  split
  · exact report_lenient
  · exact .pure ()

lemma rejectIncoming_lenient {incoming : Option Ty} {e : Expr} :
    Lenient (rejectIncoming incoming e) (rejectIncoming incoming e) := by
  simp only [rejectIncoming]
  split
  · exact report_lenient
  · exact .pure ()

lemma rejectTailless_lenient {incoming : Option Ty} {body : List Statement} {site : Span} :
    Lenient (rejectTailless incoming body site) (rejectTailless incoming body site) := by
  simp only [rejectTailless]
  split
  · exact report_lenient
  · exact .pure ()

lemma record_lenient {site : Span} {target : Target} {ty : Ty} :
    Lenient (record site target ty) (record site target ty) :=
  .tables (fun _ => rfl) (fun _ => rfl) fun _ => rfl

lemma enter_lenient {kind : ScopeKind} {range : Span} : Lenient (enter kind range) (enter kind range) where
  before fine := ⟨fine.own, fine.others⟩
  same _ := rfl

lemma leave_lenient {outer : ScopeId} : Lenient (leave outer) (leave outer) :=
  .tables (fun _ => rfl) (fun _ => rfl) fun _ => rfl

lemma leaveOpen_lenient {ident : Ident} : Lenient (leaveOpen ident) (leaveOpen ident) :=
  .tables (fun _ => rfl) (fun _ => rfl) fun _ => rfl

lemma declare_lenient {site : Span} {id : BindingId} : Lenient (declare site id) (declare site id) :=
  .tables (fun _ => rfl) (fun _ => rfl) fun _ => rfl

lemma loopSite_lenient {site : Span} : Lenient
    (modify fun r => { r with loopSites := (r.current, site) :: r.loopSites })
    (modify fun r => { r with loopSites := (r.current, site) :: r.loopSites }) :=
  .tables (fun _ => rfl) (fun _ => rfl) fun _ => rfl

lemma addLoopTag_lenient {tag : BindingId} {loop : ScopeId} : Lenient (addLoopTag tag loop) (addLoopTag tag loop) := by
  refine .tables (fun r => ?_) (fun r => ?_) fun r => ?_
  · split <;> rfl
  · split <;> rfl
  · have sites : r.deferring.loopSites = r.loopSites := rfl
    rw [sites]
    split <;> rfl

lemma reportOpenNames_lenient : Lenient reportOpenNames reportOpenNames :=
  .change (fun fine => ⟨(List.append_eq_nil_iff.1 fine.own).1, fine.others⟩) fun _ => rfl

/-! ### Bindings and exports -/

/-- Where nothing is in the way of a binding under some policy, nothing is when collisions are deferred. -/
lemma obstacle?_deferring {policy : GlobPolicy} {scopes : Scopes} {b : Binding} (free : obstacle? policy scopes b = none) :
    obstacle? .onUse scopes b = none := by
  simp only [obstacle?, List.findSome?_eq_none_iff] at free ⊢
  intro id member
  have each := free id member
  cases found : scopes.bindings[id]? with
  | none => rfl
  | some other =>
    simp only [found] at each ⊢
    by_cases same : other.target.sameItem b.target = true
    · simp [same]
    · have deferred : (other.origin = .glob ∨ b.origin = .glob) ∧ policy = .onUse := by simpa [same] using each
      simp [deferred.1]

lemma install_lenient {b : Binding} : Lenient (install b) (install b) where
  before {r} fine := by
    cases free : obstacle? r.program.policy r.scopes b with
    | none =>
      rw [(install_free free).2] at fine
      exact ⟨fine.own, fine.others⟩
    | some other =>
      rw [(install_taken free).2] at fine
      exact ⟨(List.append_eq_nil_iff.1 fine.own).1, fine.others⟩
  same {r} fine := by
    cases free : obstacle? r.program.policy r.scopes b with
    | none =>
      obtain ⟨found, next⟩ := install_free free
      have free' : obstacle? r.deferring.program.policy r.deferring.scopes b = none := obstacle?_deferring free
      obtain ⟨found', next'⟩ := install_free free'
      rw [found, next]
      exact Prod.ext found' next'
    | some other =>
      -- the collision is a fault
      rw [(install_taken free).2] at fine
      exact absurd (List.append_eq_nil_iff.1 fine.own).2 (List.cons_ne_nil _ _)

lemma introduce_lenient {b : Binding} : Lenient (introduce b) (introduce b) := by
  refine install_lenient.bind fun found => ?_
  cases found with
  | none => exact .pure none
  | some id => exact declare_lenient.bind fun _ => .pure _

lemma publish_lenient {e : Export} : Lenient (publish e) (publish e) where
  before {r} fine := by
    cases inserted : (r.program.exportsOf r.home).insert e with
    | ok exports =>
      rw [publish_new inserted] at fine
      exact ⟨fine.own, fine.others.of_modify fun _ => rfl⟩
    | error first =>
      rw [publish_taken inserted] at fine
      exact ⟨(List.append_eq_nil_iff.1 fine.own).1, fine.others⟩
  same {r} _ := by
    have inserted' : (r.deferring.program.exportsOf r.deferring.home).insert e =
      (r.program.exportsOf r.home).insert e := rfl
    cases inserted : (r.program.exportsOf r.home).insert e with
    | ok exports =>
      rw [publish_new inserted]
      exact Prod.ext rfl (publish_new (inserted'.trans inserted))
    | error first =>
      rw [publish_taken inserted]
      exact Prod.ext rfl (publish_taken (inserted'.trans inserted))

lemma declareInner_lenient {ident : Ident} {visibleFrom : Nat} {ty : Ty} {origin : Origin} :
    Lenient (declareInner ident visibleFrom ty origin) (declareInner ident visibleFrom ty origin) :=
  .get fun _ => introduce_lenient.bind fun _ => .pure ()

lemma declareTag_lenient {tag : Ident} {visibleFrom : Nat} {ty : Ty} :
    Lenient (declareTag tag visibleFrom ty) (declareTag tag visibleFrom ty) := by
  refine .get fun r => introduce_lenient.bind fun found => ?_
  cases found with
  | none => exact .pure ()
  | some id => exact Lenient.forM fun loop _ => addLoopTag_lenient

lemma define_lenient {exported topLevel isFunction : Bool} {name : Ident} {ty : Ty} {span : Span} :
    Lenient (define exported topLevel name isFunction ty span) (define exported topLevel name isFunction ty span) := by
  simp only [define]
  split
  · refine .get fun r => introduce_lenient.bind fun found => ?_
    cases found with
    | none => exact .pure ()
    | some id => exact publish_lenient
  · exact declareInner_lenient

/-! ### Uses -/

lemma checkHostCall_lenient {target : Target} {positional : Nat} {keywords : List Ident} {site : Span} :
    Lenient (checkHostCall target positional keywords site) (checkHostCall target positional keywords site) := by
  cases target with
  | host name =>
    refine .get fun r => ?_
    have hosts : r.deferring.program.hosts = r.program.hosts := rfl
    simp only [hosts]
    cases r.program.hosts.signature? name with
    | none => exact .pure ()
    | some signature => exact report_lenient
  | _ => exact .pure ()

lemma stageType_lenient {incoming : Option Ty} {site : Span} {found : Option (Target × Ty)} :
    Lenient (stageType incoming site found) (stageType incoming site found) := by
  cases found with
  | none => exact .pure Ty.any
  | some known =>
    simp only [stageType]
    split
    · exact checkHostCall_lenient.bind fun _ => .pure _
    · exact .pure _

lemma useHost_lenient {name : String} {site : Span} : Lenient (useHost name site) (useHost name site) := by
  refine .get fun r => ?_
  have hosts : r.deferring.program.hosts = r.program.hosts := rfl
  simp only [hosts]
  cases r.program.hosts.signature? name with
  | none => exact .pure none
  | some signature => exact record_lenient.bind fun _ => .pure _

/-- A name that is no host function is left open. -/
lemma useHostOrLeave_lenient {name : String} {site : Span} {ident : Ident} :
    Lenient (useHostOrLeave name site ident) (useHostOrLeave name site ident) := by
  refine useHost_lenient.bind fun found => ?_
  cases found with
  | none => exact leaveOpen_lenient.bind fun _ => .pure none
  | some known => exact .pure _

lemma useName_lenient {ident : Ident} : Lenient (useName ident) (useName ident) := by
  refine .get fun r => ?_
  have scopes : r.deferring.scopes = r.scopes := rfl
  have current : r.deferring.current = r.current := rfl
  simp only [scopes, current]
  cases r.scopes.lookup r.current ident.name ident.span.start with
  | found id =>
    dsimp only
    split
    · exact .pure none
    · exact record_lenient.bind fun _ => .pure _
  | ambiguous ids => exact report_lenient.bind fun _ => .pure none
  | notYetDeclared id => exact report_lenient.bind fun _ => .pure none
  | notFound => exact useHostOrLeave_lenient

lemma followPath_lenient {site : Span} {target : Target} {ty : Ty} {before : Ident} {rest : List Ident} :
    Lenient (followPath site target ty before rest) (followPath site target ty before rest) := by
  induction rest generalizing target ty before with
  | nil => exact record_lenient.bind fun _ => .pure _
  | cons segment rest ih =>
    cases target with
    | module id =>
      refine .get fun r => ?_
      have modules : r.deferring.program.modules = r.program.modules := rfl
      simp only [modules]
      cases r.program.modules[(id : Nat)]? with
      | none => exact .pure none
      | some m =>
        dsimp only
        cases m.exports.get? segment.name with
        | none => exact report_lenient.bind fun _ => .pure none
        | some e => exact ih
    | _ => exact report_lenient.bind fun _ => .pure none

lemma usePath_lenient {head : Ident} {rest : List Ident} {site : Span} :
    Lenient (usePath head rest site) (usePath head rest site) := by
  have through : Lenient (useHead head rest site) (useHead head rest site) := by
    refine useName_lenient.bind fun found => ?_
    cases found with
    | none => exact .pure none
    | some known => exact followPath_lenient
  refine .get fun r => ?_
  have looked : r.deferring.scopes.lookup r.deferring.current head.name head.span.start =
    r.scopes.lookup r.current head.name head.span.start := rfl
  simp only [looked]
  cases r.scopes.lookup r.current head.name head.span.start with
  | notFound => exact useHostOrLeave_lenient
  | _ => exact through

/-! ### Imports -/

lemma keepInvalid_lenient {ident : Ident} {visibleFrom : Nat} :
    Lenient (keepInvalid ident visibleFrom) (keepInvalid ident visibleFrom) :=
  .tables (fun _ => rfl) (fun _ => rfl) fun _ => rfl

variable {i : Import} {target : ModuleId} {m : LoadedModule} {explicit : List String} {topLevel : Bool}

lemma keepModuleName_lenient {newName : Option Ident} {site : Span} :
    Lenient (keepModuleName i newName site) (keepModuleName i newName site) := by
  simp only [keepModuleName]
  split
  · exact keepInvalid_lenient
  · split
    · split
      · exact keepInvalid_lenient
      · exact .pure ()
    · exact .pure ()

lemma keepNames_lenient : Lenient (keepNames i) (keepNames i) := by
  simp only [keepNames]
  split
  · exact keepModuleName_lenient
  · refine Lenient.forM fun item _ => ?_
    cases item with
    | name name newName => exact keepInvalid_lenient
    | self span newName => exact keepModuleName_lenient
    | glob span => exact .pure ()

lemma importItem_lenient {item : ImportItem} :
    Lenient (importItem i target m explicit item) (importItem i target m explicit item) := by
  cases item with
  | name name newName =>
    simp only [importItem]
    split
    · exact .pure _
    · exact report_lenient.bind fun _ => keepInvalid_lenient.bind fun _ => .pure []
  | self span newName =>
    simp only [importItem]
    split
    · exact .pure _
    · exact report_lenient.bind fun _ => .pure []
  | glob span => exact .pure _

lemma importItems_lenient {items : List ImportItem} :
    Lenient (importItems i target m explicit items) (importItems i target m explicit items) := by
  induction items with
  | nil => exact .pure []
  | cons item items ih => exact importItem_lenient.bind fun _ => ih.bind fun _ => .pure _

lemma installImport_lenient {item : Imported} :
    Lenient (installImport i topLevel item) (installImport i topLevel item) := by
  refine .get fun r => install_lenient.bind fun found => ?_
  split
  · exact publish_lenient
  · exact .pure ()

lemma bindImports_lenient : Lenient (bindImports i topLevel target m) (bindImports i topLevel target m) := by
  have installs (items : List Imported) :
      Lenient (items.forM (installImport i topLevel)) (items.forM (installImport i topLevel)) :=
    Lenient.forM fun item _ => installImport_lenient
  simp only [bindImports]
  cases i.items with
  | module newName => exact importItem_lenient.bind installs
  | list items => exact importItems_lenient.bind installs

/-- What follows when the loader has answered. -/
lemma bindLoaded_lenient {p : Program} {found : Except LoadError ModuleId} :
    Lenient (bindLoaded i topLevel found p) (bindLoaded i topLevel found p.deferring) := by
  cases found with
  | error cause => exact report_lenient.bind fun _ => keepNames_lenient
  | ok target =>
    have recorded : Lenient (modify fun r => { r with imports := r.imports.insert i.span target })
        (modify fun r => { r with imports := r.imports.insert i.span target }) :=
      .tables (fun _ => rfl) (fun _ => rfl) fun _ => rfl
    refine recorded.bind fun _ => ?_
    have modules : p.deferring.modules = p.modules := rfl
    simp only [modules]
    cases p.modules[(target : Nat)]? with
    | none => exact .pure ()
    | some m =>
      dsimp only
      split
      · exact report_lenient.bind fun _ => keepNames_lenient
      · have accepted : Lenient
            (modify fun r => { r with program := r.program.addEdge ⟨r.home, target, i.pathSpan⟩ })
            (modify fun r => { r with program := r.program.addEdge ⟨r.home, target, i.pathSpan⟩ }) :=
          .change (fun fine => ⟨fine.own, fine.others⟩) fun _ => rfl
        exact accepted.bind fun _ => bindImports_lenient

variable (h : load.Lenient load')
include h

/-- The loaders are asked for the path of an import. -/
lemma importStatement_lenient :
    Lenient (importStatement load i topLevel) (importStatement load' i topLevel) := by
  refine refuseNested_lenient.bind fun _ => ?_
  show Lenient (loadAnd load i (bindLoaded i topLevel)) (loadAnd load' i (bindLoaded i topLevel))
  constructor
  · intro r fine
    have loaded := bindLoaded_lenient.before fine
    exact ⟨loaded.own, h.before loaded.others⟩
  · intro r fine
    have loaded := bindLoaded_lenient.before fine
    have same : load' r.deferring.program i.path = _ := h.same loaded.others
    change (bindLoaded i topLevel (load' r.deferring.program i.path).1 (load' r.deferring.program i.path).2).run
      { r.deferring with program := (load' r.deferring.program i.path).2 } = _
    rw [same]
    exact bindLoaded_lenient.same fine

/-! ### Syntax -/

omit h in
lemma calleeOf_lenient {callee : Expr} (lenient : Lenient (expr load none callee) (expr load' none callee)) :
    Lenient (calleeOf load callee) (calleeOf load' callee) := by
  cases callee with
  | name ident => exact useName_lenient
  | path head rest span => exact usePath_lenient
  | _ => exact lenient.bind fun _ => .pure _

omit h in
lemma checkCall_lenient {incoming : Option Ty} {args : List Argument} {span : Span} {found : Option (Target × Ty)} :
    Lenient (checkCall incoming args span found) (checkCall incoming args span found) := by
  cases found with
  | none => exact .pure Ty.any
  | some known => exact checkHostCall_lenient.bind fun _ => .pure _

end Resolve

open Resolve

section

variable (h : load.Lenient load')
include h

set_option linter.unusedSectionVars false in
mutual

/-- The resolution of an expression is lenient. -/
theorem Expr.lenient (e : Expr) (incoming : Option Ty) : Lenient (expr load incoming e) (expr load' incoming e) := by
  match e with
  | .name ident => exact rejectIncoming_lenient.bind fun _ => useName_lenient.bind fun _ => stageType_lenient
  | .path head rest span => exact rejectIncoming_lenient.bind fun _ => usePath_lenient.bind fun _ => stageType_lenient
  | .literal value span => exact rejectIncoming_lenient.bind fun _ => .pure _
  | .array items span => exact rejectIncoming_lenient.bind fun _ => (Expr.all_lenient items).bind fun _ => .pure _
  | .range start stop inclusive span =>
    exact rejectIncoming_lenient.bind fun _ => (Expr.lenient start none).bind fun _ =>
      (Expr.lenient stop none).bind fun _ => .pure _
  | .binary op left right span =>
    exact rejectIncoming_lenient.bind fun _ => (Expr.lenient left none).bind fun _ =>
      (Expr.lenient right none).bind fun _ => .pure _
  | .unary op operand span =>
    exact rejectIncoming_lenient.bind fun _ => (Expr.lenient operand none).bind fun _ => .pure _
  | .call callee args span =>
    simp only [expr_call]
    exact rejectIncoming_lenient.bind fun _ => (calleeOf_lenient (Expr.lenient callee none)).bind fun _ =>
      (Argument.all_lenient args).bind fun _ => checkCall_lenient
  | .index base index span =>
    exact rejectIncoming_lenient.bind fun _ => (Expr.lenient base none).bind fun _ =>
      (Expr.lenient index none).bind fun _ => .pure _
  | .lambda f => exact rejectIncoming_lenient.bind fun _ => Lambda.lenient f
  | .block b => exact rejectIncoming_lenient.bind fun _ => Block.lenient b incoming
  | .branch b => exact rejectIncoming_lenient.bind fun _ => Branch.lenient b incoming
  | .pipeline p => exact rejectIncoming_lenient.bind fun _ => Pipeline.lenient p incoming
  | .loop l => exact rejectIncoming_lenient.bind fun _ => Loop.lenient l incoming
termination_by structural e

theorem Expr.all_lenient (es : List Expr) : Lenient (exprs load es) (exprs load' es) := by
  match es with
  | [] => exact .pure []
  | e :: es => exact (Expr.lenient e none).bind fun _ => (Expr.all_lenient es).bind fun _ => .pure _
termination_by structural es

theorem Argument.all_lenient (args : List Argument) : Lenient (arguments load args) (arguments load' args) := by
  match args with
  | [] => exact .pure ()
  | ⟨_, value⟩ :: args => exact (Expr.lenient value none).bind fun _ => Argument.all_lenient args
termination_by structural args

theorem Param.all_lenient (ps : List Param) : Lenient (params load ps) (params load' ps) := by
  match ps with
  | [] => exact .pure ()
  | ⟨_, _, none, _⟩ :: ps => exact declareInner_lenient.bind fun _ => Param.all_lenient ps
  | ⟨_, _, some e, _⟩ :: ps =>
    exact (Expr.lenient e none).bind fun _ => declareInner_lenient.bind fun _ => Param.all_lenient ps
termination_by structural ps

theorem Lambda.lenient (f : Lambda) : Lenient (lambda load f) (lambda load' f) := by
  match f with
  | ⟨ps, returns, body, span⟩ =>
    exact enter_lenient.bind fun _ => (Param.all_lenient ps).bind fun _ => (Expr.lenient body none).bind fun _ =>
      leave_lenient.bind fun _ => .pure _
termination_by structural f

theorem Block.lenient (b : Block) (incoming : Option Ty) : Lenient (block load incoming b) (block load' incoming b) := by
  match b with
  | ⟨statements, span⟩ =>
    exact rejectTailless_lenient.bind fun _ => enter_lenient.bind fun _ =>
      (Statement.all_lenient statements incoming).bind fun _ => leave_lenient.bind fun _ => .pure _
termination_by structural b

theorem Statement.all_lenient (ss : List Statement) (incoming : Option Ty) :
    Lenient (blockStatements load incoming ss) (blockStatements load' incoming ss) := by
  match ss with
  | [] => exact .pure Ty.unit
  | [s] => exact Statement.lenient s false incoming
  | s :: next :: ss =>
    exact (Statement.lenient s false none).bind fun _ => Statement.all_lenient (next :: ss) incoming
termination_by structural ss

/-- The resolution of a statement is lenient. -/
theorem Statement.lenient (s : Statement) (topLevel : Bool) (incoming : Option Ty) :
    Lenient (statement load topLevel incoming s) (statement load' topLevel incoming s) := by
  match s with
  | .importing i => exact (importStatement_lenient h).bind fun _ => .pure _
  | .define exported name value span =>
    exact refuseNested_lenient.bind fun _ => (Expr.lenient value none).bind fun _ => define_lenient.bind fun _ => .pure _
  | .expr e span => exact Expr.lenient e incoming
termination_by structural s

theorem Branch.lenient (b : Branch) (incoming : Option Ty) : Lenient (branch load incoming b) (branch load' incoming b) := by
  match b with
  | ⟨condition, consequence, other, _⟩ =>
    exact (Expr.lenient condition none).bind fun _ => (Block.lenient consequence incoming).bind fun _ =>
      (Alternative.lenient other incoming).bind fun _ => .pure _
termination_by structural b

theorem Alternative.lenient (a : Alternative) (incoming : Option Ty) :
    Lenient (alternative load incoming a) (alternative load' incoming a) := by
  match a with
  | .absent => exact .pure _
  | .block b => exact Block.lenient b incoming
  | .branch b => exact Branch.lenient b incoming
termination_by structural a

theorem Pipeline.lenient (p : Pipeline) (incoming : Option Ty) :
    Lenient (pipeline load incoming p) (pipeline load' incoming p) := by
  match p with
  | ⟨body, _⟩ => exact (Stage.all_lenient body incoming).bind fun _ => .pure _
termination_by structural p

theorem Stage.all_lenient (ss : List Stage) (incoming : Option Ty) :
    Lenient (stages load incoming ss) (stages load' incoming ss) := by
  match ss with
  | [] => exact .pure incoming
  | s :: ss => exact (Stage.lenient s incoming).bind fun _ => Stage.all_lenient ss _
termination_by structural ss

theorem Stage.lenient (s : Stage) (incoming : Option Ty) : Lenient (stage load incoming s) (stage load' incoming s) := by
  match s with
  | .expr e none span => exact (Expr.lenient e incoming).bind fun _ => .pure _
  | .expr e (some tag) span => exact (Expr.lenient e incoming).bind fun _ => declareTag_lenient.bind fun _ => .pure _
  | .operator op operand none span => exact (Expr.lenient operand none).bind fun _ => .pure _
  | .operator op operand (some tag) span =>
    exact (Expr.lenient operand none).bind fun _ => declareTag_lenient.bind fun _ => .pure _
termination_by structural s

theorem Loop.lenient (l : Loop) (incoming : Option Ty) : Lenient (loop load incoming l) (loop load' incoming l) := by
  match l with
  | ⟨sequence, binding, body, span⟩ =>
    refine (Expr.lenient sequence none).bind fun _ => enter_lenient.bind fun _ => loopSite_lenient.bind fun _ =>
      declareInner_lenient.bind fun _ => (Pipeline.lenient body incoming).bind fun _ => leave_lenient.bind fun _ => ?_
    cases incoming with
    | none => exact .pure _
    | some seed => exact .pure _
termination_by structural l

end

/-! ### Modules -/

lemma Resolve.topLevel_lenient (ss : List Statement) : Lenient (topLevel load ss) (topLevel load' ss) := by
  induction ss with
  | nil => exact .pure ()
  | cons s ss ih => exact (Statement.lenient h s true none).bind fun _ => ih

omit h in
lemma Resolve.markAssembly_lenient (m : Module) : Lenient (markAssembly m) (markAssembly m) := by
  simp only [markAssembly]
  cases m.assembly? with
  | none => exact .pure ()
  | some e => exact .change (fun fine => ⟨fine.own, fine.others.of_modify fun _ => rfl⟩) fun _ => rfl

/-- The resolution of a module is lenient. -/
theorem Resolve.module_lenient (m : Module) : Lenient (Resolve.module load m) (Resolve.module load' m) :=
  (topLevel_lenient h m.statements).bind fun _ => (markAssembly_lenient m).bind fun _ => reportOpenNames_lenient

end

end PipeLang
