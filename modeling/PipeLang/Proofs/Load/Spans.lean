import PipeLang.Proofs.Load.Moments
import PipeLang.Proofs.Reader.Places

/-!
# Keys of tables

A span table keeps every entry that was ever recorded, and loops are kept in a list, so that an entry has been overwritten
just if a key occurs twice. No move records under a key that is there: `Moves.keyedOnce`. Places tell syntax apart, and so
do the tables of every resolution: `Program.spans_identify`.
-/

namespace PipeLang

open Resolve (after)

variable {load : Loader} {lo hi : Nat} {r r' : Resolution}

/-- A table of which no entry was overwritten. -/
def SpanTable.KeyedOnce {α : Type} (t : SpanTable α) : Prop :=
  (t.entries.map Prod.fst).Nodup

/-- A resolution that has recorded at most one thing of each place, and one loop at most for each scope. -/
structure Resolution.KeyedOnce (r : Resolution) : Prop where
  references : r.references.KeyedOnce
  declarations : r.declarations.KeyedOnce
  imports : r.imports.KeyedOnce
  loopSites : (r.loopSites.map Prod.fst).Nodup

/-- A place of which nothing is known has no entry. -/
lemma SpanTable.KeyedOnce.insert {α : Type} {t : SpanTable α} (h : t.KeyedOnce) {s : Span} (fresh : t.get? s = none)
    (x : α) : (t.insert s x).KeyedOnce := by
  refine List.nodup_cons.2 ⟨fun member => ?_, h⟩
  obtain ⟨entry, known, rfl⟩ := List.mem_map.1 member
  have unlike := List.lookup_eq_none_iff.1 fresh entry known
  simp at unlike

/-- A move records nothing of a place of which something is known. -/
lemma Move.keyedOnce (move : Move load lo hi r r') (h : r.KeyedOnce) : r'.KeyedOnce := by
  cases move with
  | record _ fresh => exact { h with references := h.references.insert fresh _ }
  | declare declarable | define declarable | redefine declarable =>
    exact { h with declarations := h.declarations.insert declarable.fresh _ }
  | accept _ fresh | refuse _ fresh => exact { h with imports := h.imports.insert fresh _ }
  | loop _ fresh =>
    refine { h with loopSites := List.nodup_cons.2 ⟨fun member => ?_, h.loopSites⟩ }
    obtain ⟨known, member, same⟩ := List.mem_map.1 member
    exact (fresh known member).1 same
  | _ => exact { h with }

/-- Moves keep at most one thing of each place. -/
theorem Moves.keyedOnce (moves : Moves load lo hi r r') (h : r.KeyedOnce) : r'.KeyedOnce := by
  induction moves with
  | refl => exact h
  | tail _ move ih => exact move.keyedOnce ih

/-- When a resolution starts, nothing has been recorded. -/
lemma Resolution.start_keyedOnce {p : Program} {home : ModuleId} {range : Span} : (start p home range).KeyedOnce :=
  ⟨List.nodup_nil, List.nodup_nil, List.nodup_nil, List.nodup_nil⟩

namespace Program

/-- In every text that parses, no two names, paths, loops or imports have the same place, no path has that of a name, every
place lies in the text between characters, and no node ends before what it holds. Behind any loads, the tables of every
module that has been parsed are those of a resolution in which no entry was overwritten. -/
theorem spans_identify (sources : Sources) (policy : GlobPolicy) (hosts : Hosts) (paths : List String) :
    (∀ source ast, Module.parse source = .ok ast → ast.node.Identified source) ∧
    ∀ (id : Nat) (m : LoadedModule) (ast : Module),
      ((new sources policy hosts).loadAll paths).modules[id]? = some m → m.ast = some ast →
        ∃ (q : Program) (depth : Nat),
          let r := after (Resolve.module (loader depth) ast) (.start q id ast.span)
          m.resolved = some r.resolved ∧ r.KeyedOnce := by
  refine ⟨fun source ast parsed => Module.parse_identified parsed, fun id m ast found parsed => ?_⟩
  have rest : ((new sources policy hosts).loadAll paths).AtRest := (atRest_new.loadAll paths).1
  have isSome := rest.sound.parsed found (rest.loaded found) (by simp [parsed])
  cases loadAll_opened found isSome with
  | @mk q raw depth a _ canonical opens home sameAst resolved _ _ =>
    obtain ⟨path, source, -, start⟩ := opens.start
    obtain ⟨hi, moves⟩ := opens.moves canonical.isOffers
    obtain rfl : a.ast = ast := Option.some.inj (sameAst.symm.trans parsed)
    have finished : a.finished =
        after (Resolve.module (loader depth) a.ast) (.start (q.starting path source a.ast) id a.ast.span) := by
      rw [Pending.finished, opens.depth_eq, start, ← opens.home, home]
    have keyed : a.finished.KeyedOnce := moves.keyedOnce (start ▸ Resolution.start_keyedOnce)
    rw [finished] at resolved keyed
    exact ⟨q.starting path source a.ast, depth, resolved, keyed⟩

/-- A text with an import, a loop and a path. -/
def loopingText : String :=
  "import \"lib\"\nr = for [lib::t] as i |> [i] as y\n"

/-- The sources of a program of that text. -/
def looping : Sources :=
  .ofTexts (.ofList [("main.kcl", loopingText), ("lib.kcl", "export t = true\n")])

/-- The path begins where its first name does. Uses of both are in one table, under keys of their own. -/
theorem spans_identify_looping :
    (∃ ast, Module.parse loopingText = .ok ast ∧ ast.node.spansOf .path = [⟨22, 28⟩] ∧
      ⟨22, 25⟩ ∈ ast.node.spansOf .identifier ∧ ast.node.Identified loopingText) ∧
    ∃ m t, ((new looping .eager .empty).loadAll ["main"]).modules[0]? = some m ∧ m.resolved = some t ∧
      ⟨22, 28⟩ ∈ t.references.entries.map Prod.fst ∧ ⟨22, 25⟩ ∈ t.references.entries.map Prod.fst ∧
        t.references.KeyedOnce := by
  obtain ⟨parses, tables⟩ := spans_identify looping .eager .empty ["main"]
  constructor
  · have computed : ((Module.parse loopingText).toOption.any fun ast =>
        decide (ast.node.spansOf .path = [⟨22, 28⟩]) && decide (⟨22, 25⟩ ∈ ast.node.spansOf .identifier)) = true := by
      decide +kernel
    cases parsed : Module.parse loopingText with
    | error errors => simp [parsed, Except.toOption] at computed
    | ok ast =>
      simp only [parsed, Except.toOption, Option.any_some, Bool.and_eq_true, decide_eq_true_eq] at computed
      exact ⟨ast, rfl, computed.1, computed.2, parses loopingText ast parsed⟩
  · have computed : (((new looping .eager .empty).loadAll ["main"]).modules[0]?.any fun m => m.ast.isSome &&
        m.resolved.any fun t => decide (⟨22, 28⟩ ∈ t.references.entries.map Prod.fst) &&
          decide (⟨22, 25⟩ ∈ t.references.entries.map Prod.fst)) = true := by decide +kernel
    simp only [Option.any_eq_true, Bool.and_eq_true, decide_eq_true_eq, Option.isSome_iff_exists] at computed
    obtain ⟨m, found, ⟨ast, parsed⟩, t, resolved, pathUsed, nameUsed⟩ := computed
    obtain ⟨q, depth, resolved', keyed⟩ := tables 0 m ast found parsed
    obtain rfl := Option.some.inj (resolved.symm.trans resolved')
    exact ⟨m, _, found, resolved, pathUsed, nameUsed, keyed.references⟩

end Program

end PipeLang
