import PipeLang.Proofs.Load.Keeps

/-!
# Nested loads

While a module is loaded, statements of it ask for further modules, whose statements ask for further ones: the loads that
are under way form a stack. `Program.Loading` are the requests that come up in this way, and `Program.Visits` the
programs.
-/

namespace PipeLang

open Resolve (after Asks)

/-- A module that is being resolved, with some of its statements done. -/
structure Pending where
  home : ModuleId
  /-- How deeply loads can be nested in it. -/
  depth : Nat
  /-- The resolution before its first statement. -/
  start : Resolution
  ast : Module
  done : List Statement
  rest : List Statement

/-- The resolution of a module behind the statements that are done. -/
def Pending.resolution (a : Pending) : Resolution :=
  after (Resolve.topLevel (Program.loader a.depth) a.done) a.start

/-- A module with one more statement done. -/
def Pending.past (a : Pending) (s : Statement) (rest : List Statement) : Pending :=
  { a with done := a.done ++ [s], rest := rest }

/-- The resolution of a module behind one more statement. -/
@[simp] lemma Pending.past_resolution {a : Pending} {s : Statement} {rest : List Statement} : (a.past s rest).resolution =
    after (Resolve.statement (Program.loader a.depth) true none s) a.resolution :=
  Resolve.after_topLevel_append

/-- The resolution of a module when it is done. -/
def Pending.finished (a : Pending) : Resolution :=
  after (Resolve.module (Program.loader a.depth) a.ast) a.start

namespace Program

/-- A request opens a module: the text names a path that is not loaded yet, and the sources have a text for it that
parses. -/
inductive Opens (p : Program) (raw : String) (depth : Nat) : Pending → Prop where
  | mk {path source ast done rest} :
    ModulePath.parse raw = .ok path →
    p.findPath? path = none →
    p.sources.read path = .ok source →
    Module.parse source = .ok ast →
    ast.statements = done ++ rest →
    Opens p raw depth
      ⟨p.modules.size, depth, .start (p.starting path source ast) p.modules.size ast.span, ast, done, rest⟩

/-- The module that a request opens, with some number of its statements done. -/
def open? (p : Program) (raw : String) (depth done : Nat) : Option Pending := do
  let path ← (ModulePath.parse raw).toOption
  let source ← (p.sources.read path).toOption
  let ast ← (Module.parse source).toOption
  match p.findPath? path with
  | none => some ⟨p.modules.size, depth, .start (p.starting path source ast) p.modules.size ast.span,
      ast, ast.statements.take done, ast.statements.drop done⟩
  | some _ => none

/-- Whether the next of some statements imports the module that a text names. -/
def nextImports (raw : String) : List Statement → Bool
  | .importing i :: _ => i.path == raw
  | _ => false

/-- While a load is under way, a program is asked for the module that a text names, at a depth that is left, while some
modules are being resolved, the innermost first. Each of them is at a statement that asks for the next. -/
inductive Loading (p₀ : Program) (raw₀ : String) : Nat → List Pending → Program → String → Prop where
  | request :
    Loading p₀ raw₀ (p₀.sources.limit + 1) [] p₀ raw₀
  | nested {depth pending p raw a s rest p' raw'} :
    Loading p₀ raw₀ (depth + 1) pending p raw →
    p.Opens raw depth a →
    a.rest = s :: rest →
    Asks (fun load => Resolve.statement load true none s) (loader depth) a.resolution p' raw' →
    Loading p₀ raw₀ depth (a :: pending) p' raw'

/-- The programs that there are while a load is under way: at each request, behind some statements of each module that is
being resolved, and when a request is answered. -/
inductive Visits (p₀ : Program) : Program → Prop where
  | asked {raw₀ depth pending p raw} :
    p₀.Loading raw₀ depth pending p raw →
    Visits p₀ p
  | between {raw₀ depth pending p raw a} :
    p₀.Loading raw₀ (depth + 1) pending p raw →
    p.Opens raw depth a →
    Visits p₀ a.resolution.program
  | answered {raw₀ depth pending p raw} :
    p₀.Loading raw₀ depth pending p raw →
    Visits p₀ (loader depth p raw).2

variable {p : Program} {raw : String} {depth : Nat} {a : Pending}

lemma toOption_eq_some {ε α : Type} {x : Except ε α} {a : α} (h : x.toOption = some a) : x = .ok a := by
  cases x with
  | error cause => cases h
  | ok b => exact congrArg Except.ok (Option.some.inj h)

lemma opens_of_open? {done : Nat} (h : p.open? raw depth done = some a) : p.Opens raw depth a := by
  obtain ⟨path, named, h⟩ := Option.bind_eq_some_iff.1 h
  obtain ⟨source, read, h⟩ := Option.bind_eq_some_iff.1 h
  obtain ⟨ast, parsed, h⟩ := Option.bind_eq_some_iff.1 h
  split at h
  · next unknown =>
    cases h
    exact .mk (toOption_eq_some named) unknown (toOption_eq_some read) (toOption_eq_some parsed)
      (List.take_append_drop done ast.statements).symm
  · cases h

lemma nextImports_iff {statements : List Statement} :
    nextImports raw statements = true ↔ ∃ i rest, statements = .importing i :: rest ∧ i.path = raw := by
  constructor
  · intro h
    unfold nextImports at h
    split at h
    · next i rest => exact ⟨i, rest, rfl, eq_of_beq h⟩
    · cases h
  · rintro ⟨i, rest, rfl, rfl⟩
    exact beq_self_eq_true i.path

namespace Opens

variable (h : p.Opens raw depth a)
include h

lemma home : a.home = p.modules.size := by
  cases h
  rfl

lemma depth_eq : a.depth = depth := by
  cases h
  rfl

lemma statements : a.ast.statements = a.done ++ a.rest := by
  cases h
  assumption

lemma start : ∃ path source, Module.parse source = .ok a.ast ∧
    a.start = .start (p.starting path source a.ast) p.modules.size a.ast.span := by
  cases h with
  | mk _ _ _ parsed => exact ⟨_, _, parsed, rfl⟩

/-- The statements that are done make changes. -/
lemma changes : Changes (loader depth) (Statement.allMentions a.done) true a.start a.resolution := by
  cases h
  exact (Resolve.topLevel_traced _ (List.Subset.refl _)).changes _

lemma resolution_home : a.resolution.home = a.home := by
  obtain ⟨path, source, -, start⟩ := h.start
  rw [(h.changes.keeps (loader_keeps depth)).2, start, h.home]
  rfl

/-- A module is still open when one more statement is done. -/
lemma past {s : Statement} {rest : List Statement} (next : a.rest = s :: rest) : p.Opens raw depth (a.past s rest) := by
  cases h with
  | mk named unknown read parsed statements =>
    cases next
    exact .mk named unknown read parsed (by simp [statements])

/-- A module is done when the rest of it has been resolved. -/
lemma finished : a.finished = after (Resolve.remaining (loader depth) a.ast a.rest) a.resolution := by
  have statements := h.statements
  cases h with
  | @mk path source ast done rest =>
    show after (Resolve.remaining (loader depth) ast ast.statements) _ = _
    rw [statements]
    simp only [Resolve.remaining, Resolve.after_bind, Resolve.after_topLevel_append]
    rfl

/-- The module that a request opens is what the request is answered with. -/
lemma answered : (loader (depth + 1) p raw).2 =
    (a.finished.program.modify p.modules.size fun m => { m with resolved := some a.finished.resolved }).finish
      p.modules.size a.finished.faults := by
  cases h with
  | @mk path source ast done rest named unknown read parsed =>
    have asked : loader (depth + 1) p raw = p.loadPath (depth + 1) path := by rw [loader, named]
    have loaded : (p.loadPath (depth + 1) path).2 =
        (resolveEntered (loader depth) (p.enter path source) p.modules.size source).1.finish p.modules.size
          (resolveEntered (loader depth) (p.enter path source) p.modules.size source).2 := by
      rw [loadPath, unknown, read]
      rfl
    rw [asked, loaded, resolveEntered_ok parsed]
    rfl

end Opens

end Program

variable {load : Loader} {topLevel : Bool} {r r' : Resolution}

/-- Texts are parsed by loading only. -/
lemma Changes.parsed (h : Changes load [] topLevel r r') : r'.program.parsed = r.program.parsed := by
  induction h with
  | refl => rfl
  | tail _ change ih =>
    rw [← ih]
    cases change with
    | tables program home bindings references faults => rw [program]
    | load member => cases member
    | record denotes => rfl
    | bind binds => rfl
    | edge => rfl
    | forward top inserted forwards => rfl
    | define top target loops name target' ty own inserted => rfl
    | redefine top target => rfl
    | assembly top => rfl

/-- An import statement asks for the module that it names. -/
theorem Import.asks (i : Import) (load : Loader) (r : Resolution) :
    Asks (fun load => Resolve.statement load true none (.importing i)) load r r.program i.path := by
  classical
  let count := (after (Resolve.statement load true none (.importing i)) r).program.parsed + 1
  let refusing : Loader := fun p raw =>
    if p = r.program ∧ raw = i.path then (.error (.tooDeep raw), { p with parsed := count }) else load p raw
  have other (p : Program) (raw : String) (differs : p ≠ r.program ∨ raw ≠ i.path) : refusing p raw = load p raw :=
    if_neg fun both => differs.elim (fun ne => ne both.1) fun ne => ne both.2
  refine ⟨refusing, other, fun same => ?_⟩
  have counted : (after (Resolve.statement refusing true none (.importing i)) r).program.parsed = count := by
    let refused : Resolution := { r with program := { r.program with parsed := count } }
    have answers : refusing r.program i.path = (.error (.tooDeep i.path), refused.program) := if_pos ⟨rfl, rfl⟩
    have goes : after (Resolve.statement refusing true none (.importing i)) r =
        after (Resolve.bindLoaded i true (.error (.tooDeep i.path)) refused.program) refused := by
      simp only [Resolve.statement, Resolve.after_bind, Resolve.importStatement_after, answers]
      rfl
    rw [goes]
    have binds : Changes load [] true refused
        (after (Resolve.bindLoaded i true (.error (.tooDeep i.path)) refused.program) refused) :=
      Resolve.bindLoaded_changes
    exact binds.parsed
  have parsed := congrArg (fun result => result.2.program.parsed) same
  have : count = count - 1 := counted.symm.trans parsed
  omega

end PipeLang
