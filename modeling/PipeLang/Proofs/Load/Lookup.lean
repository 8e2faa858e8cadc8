import PipeLang.Proofs.Load.Loaded
import PipeLang.Proofs.Resolve.Uses

/-!
# Looking names up afterwards

A finished table of scopes answers for every offset of the text what resolution decided there, although it has grown
since: `Program.lookupAt_recorded`.
-/

namespace PipeLang.Program

/-- Behind any loads, every module that is parsed is resolved, and where a name or the head of a path has been given a
target, the table of scopes finds a binding of that target and type there; a host function it does not find. -/
theorem lookupAt_recorded (sources : Sources) (policy : GlobPolicy) (hosts : Hosts) (paths : List String)
    {id : Nat} {m : LoadedModule} {ast : Module}
    (found : ((new sources policy hosts).loadAll paths).modules[id]? = some m) (parsed : m.ast = some ast) :
    ∃ t, m.resolved = some t ∧ ∀ use ∈ ast.uses, ∀ known, t.references.get? use.span = some known →
      ((∀ name, known.target ≠ .host name) → ∃ b, t.lookupAt use.name use.span.start = .found b ∧
        t.scopes.target b = known.target ∧ t.scopes.typeAt b (t.scopes.scopeAt use.span.start) = known.ty) ∧
      (∀ name, known.target = .host name → t.lookupAt use.name use.span.start = .notFound ∨
        ∃ b, t.lookupAt use.name use.span.start = .notYetDeclared b) := by
  have rest : ((new sources policy hosts).loadAll paths).AtRest := (atRest_new.loadAll paths).1
  have isSome := rest.sound.parsed found (rest.loaded found) (by simp [parsed])
  obtain ⟨t, resolved⟩ := Option.isSome_iff_exists.1 isSome
  refine ⟨t, resolved, fun use member known recorded => ?_⟩
  obtain ⟨ast', clean, settled⟩ := rest.sound.settled found resolved
  obtain rfl : ast' = ast := by
    rw [settled.parsed, Option.some.injEq] at parsed
    exact parsed
  have answers := Module.answers (settled.statements _ .refl rest.offers) use member known recorded
  exact ⟨answers.bound, answers.host⟩

/-- A program with a function, a loop and a tag that is used behind the loop. -/
def tagged : Program :=
  (new (.ofTexts (.ofList [("main.kcl", "t = true\nf = (x) => [t, x]\nr = for [t] as i |> f(i) as y\ns = y\n")]))
    .eager .empty).loadAll ["main"]

/-- The tag is found behind its loop, as a sequence. -/
theorem lookupAt_tagged : ∃ m t known, tagged.modules[0]? = some m ∧ m.resolved = some t ∧
    t.references.get? ⟨61, 62⟩ = some known ∧ known.ty = .array (.array .bool) ∧ ∃ b, t.lookupAt "y" 61 = .found b ∧
      t.scopes.target b = known.target ∧ t.scopes.typeAt b (t.scopes.scopeAt 61) = known.ty := by
  have computed : (tagged.modules[0]?.any fun m => (m.ast.any fun ast => decide (⟨"y", ⟨61, 62⟩⟩ ∈ ast.uses)) &&
      m.resolved.any fun t => (t.references.get? ⟨61, 62⟩).any fun known =>
        decide (known.target = .inner 4) && decide (known.ty = .array (.array .bool))) = true := by decide +kernel
  simp only [Option.any_eq_true, Bool.and_eq_true, decide_eq_true_eq] at computed
  obtain ⟨m, found, ⟨ast, parsed, used⟩, t, resolved, known, recorded, target, ty⟩ := computed
  obtain ⟨t', resolved', answers⟩ := lookupAt_recorded _ _ _ _ found parsed
  rw [resolved, Option.some.injEq] at resolved'
  subst resolved'
  exact ⟨m, t, known, found, resolved, recorded, ty, (answers _ used known recorded).1 (by simp [target])⟩

end PipeLang.Program
