import PipeLang.Proofs.Eval.Evaluated

/-!
# Tags of loops

A tag in the body of a loop has a value in the frame of every iteration in which its stage is evaluated. When the loop comes to its
end, its frame is given the sequence of these values, and so on outward through the loops around it: `Program.Tagged`. A use of the
tag sees one layer for every loop that it stands outside of, as its type says: `Program.loop_tags`.
-/

namespace PipeLang

open Eval

variable {p : Program} {i : ModuleId} {tag : Ident} {t : Resolved} {h h' : Heap} {n fuel : Nat} {f : FrameId} {v : Value}
  {m m' : Machine} {c : Context} {l : Loop} {incoming : Option Value} {run : Task → Eval Value}

/-- By the time that frames are as in a heap, a tag has been given a value in a frame of a module: by its stage, or by a loop with the
tag in its body that has come to its end, when the tag had been given a value in the frame of every iteration. There is one layer for
each loop. -/
inductive Program.Tagged (p : Program) (i : ModuleId) (tag : Ident) : Heap → Nat → FrameId → Value → Prop where
  | stage {h f before s after incoming fuel m v m'} :
    p.Evaluates fuel (.pipeline ⟨i, f⟩ (before ++ s :: after) incoming) m →
    s.tag = some tag →
    Task.run p fuel (.pipeline ⟨i, f⟩ (before ++ [s]) incoming) m = .ok v m' →
    m'.heap.Grows h →
    Tagged p i tag h 0 f v
  | loop {h f l incoming fuel m elements frames m' v n values} :
    p.Evaluates (fuel + 1) (.loop ⟨i, f⟩ l incoming) m →
    tag ∈ Stage.allTags l.body.stages →
    l.Goes p (Task.run p fuel) ⟨i, f⟩ incoming m elements frames m' v →
    frames.length = values.length →
    (∀ entry ∈ frames.zip values, Tagged p i tag m'.heap n entry.1 entry.2) →
    m'.heap.Grows h →
    Tagged p i tag h (n + 1) f (.array values)

lemma Program.Tagged.grows (tagged : p.Tagged i tag h n f v) (grows : h.Grows h') : p.Tagged i tag h' n f v := by
  cases tagged with
  | stage evaluates has ran before => exact .stage evaluates has ran (before.trans grows)
  | loop evaluates inside goes length each before => exact .loop evaluates inside goes length each (before.trans grows)

/-- Stages that give a tag a value whenever they come to their end: one of them has the tag, or is a loop with such stages for its
body. -/
inductive Stage.Marks (tag : Ident) : List Stage → Prop where
  | own {before s after} :
    s.tag = some tag →
    Marks tag (before ++ s :: after)
  | loop {before after l tag' span} :
    Marks tag l.body.stages →
    Marks tag (before ++ .expr (.loop l) tag' span :: after)

lemma Stage.allTags_append {stages others : List Stage} : allTags (stages ++ others) = allTags stages ++ allTags others := by
  induction stages with
  | nil => rfl
  | cons s stages ih => simp [allTags, ih]

lemma Stage.Marks.mem {stages : List Stage} (marks : Marks tag stages) : tag ∈ allTags stages := by
  induction marks with
  | @own before s after has =>
    have own : tag ∈ s.tags := by cases s <;> simp_all [Stage.tags, Stage.tag]
    simp [allTags_append, allTags, own]
  | @loop before after l tag' span _ ih =>
    have inside : tag ∈ l.tags := by
      obtain ⟨sequence, binding, ⟨stages, bodySpan⟩, loopSpan⟩ := l
      exact List.mem_append_right _ ih
    simp [allTags_append, allTags, Stage.tags, Expr.tags, inside]

/-! ### What is given values -/

lemma Machine.WriteOnce.getLocal (once : m.WriteOnce) {id : BindingId} (holds : m.heap.Holds f id v) :
    m.heap.getLocal? f id = some v := by
  obtain ⟨frame, found, member⟩ := holds
  obtain ⟨before, behind, split⟩ := List.append_of_mem member
  have latest : List.lookup id ((id, v) :: behind) = some v := by simp
  simp only [Heap.getLocal?, found]
  exact lookup_of_suffix (split ▸ List.suffix_append before _) (once f frame found) latest

/-- What is found for each of some keys. -/
lemma filterMap_of_forall₂ {α β : Type} {g : α → Option β} {keys : List α} {values : List β}
    (each : List.Forall₂ (fun key v => g key = some v) keys values) : keys.filterMap g = values := by
  induction each with
  | nil => rfl
  | cons found _ ih => rw [List.filterMap_cons_some found, ih]

/-- What is found for each of some keys is in a relation to it. -/
lemma forall₂_filterMap {α β : Type} {R : α → β → Prop} {g : α → Option β} {keys : List α}
    (each : ∀ key ∈ keys, ∃ v, g key = some v ∧ R key v) : List.Forall₂ R keys (keys.filterMap g) := by
  induction keys with
  | nil => exact .nil
  | cons key keys ih =>
    obtain ⟨⟨v, found, related⟩, others⟩ := List.forall_mem_cons.1 each
    rw [List.filterMap_cons_some found]
    exact .cons related (ih others)

namespace Eval

/-- The last of some stages gives its tag its value. -/
lemma pipeline_binds {before : List Stage} {s : Stage} (resolved : p.resolvedOf c.module = some t)
    (there : (c.frame : Nat) < m.heap.size) (has : s.tag = some tag)
    (ran : pipeline p (Task.run p fuel) c incoming (before ++ [s]) m = .ok v m') :
    ∃ id, t.declarations.get? tag.span = some id ∧ m'.heap.Holds c.frame id v := by
  have stage_grows {s : Stage} {incoming : Option Value} {w : Value} {m m₁ : Machine}
      (ran : stage (Task.run p fuel) c incoming s m = .ok w m₁) : m.heap.Grows m₁.heap := by
    have script : Script Machine.Still (fun _ => True) fun run => stage run c incoming s := stage_script fun _ => trivial
    exact script.grows ran
  have bindTag_grows {w : Value} {tag : Option Ident} {m m₁ : Machine} (ran : bindTag p c w tag m = .ok () m₁) :
      m.heap.Grows m₁.heap := by
    have still : m.Still (left (bindTag p c w tag m)) := Apart.bindTag m
    rw [ran] at still
    exact still.heap
  induction before generalizing m incoming with
  | nil =>
    obtain ⟨w, m₁, first, ran⟩ := bind_ok ran
    obtain ⟨_, m₂, bound, ran⟩ := bind_ok ran
    cases ran
    have there₁ := Nat.lt_of_lt_of_le there (stage_grows first).size_le
    rw [has, bindTag, resolvedOf_eq resolved, pure_bind] at bound
    cases declared : t.declarations.get? tag.span with
    | none =>
      rw [declared] at bound
      cases bound
    | some id =>
      rw [declared] at bound
      cases bound
      exact ⟨id, rfl, Heap.holds_define there₁⟩
  | cons first before ih =>
    obtain ⟨w, m₁, ran₁, ran⟩ := bind_ok ran
    obtain ⟨_, m₂, ran₂, ran⟩ := bind_ok ran
    exact ih (Nat.lt_of_lt_of_le there ((stage_grows ran₁).trans (bindTag_grows ran₂)).size_le) ran

/-- The frame around a loop is given, for every tag that is collected, the sequence of its values in the frames of the iterations. -/
lemma collectTags_ok {frames : List FrameId} {tags : List BindingId} (there : (c.frame : Nat) < m.heap.size)
    (apart : c.frame ∉ frames) (ran : tags.forM (collectTag c frames) m = .ok () m') :
    m.heap.Grows m'.heap ∧ (∀ g ∈ frames, ∀ id, m'.heap.getLocal? g id = m.heap.getLocal? g id) ∧ ∀ id ∈ tags,
      m'.heap.Holds c.frame id (.array (frames.filterMap fun g => m'.heap.getLocal? g id)) := by
  induction tags generalizing m with
  | nil =>
    cases ran
    exact ⟨.refl, fun _ _ _ => rfl, nofun⟩
  | cons tag tags ih =>
    rw [List.forM_eq_forM, List.forM_cons] at ran
    obtain ⟨_, m₁, first, others⟩ := bind_ok ran
    cases first
    have grows : m.heap.Grows (m.heap.define c.frame tag (.array (frames.filterMap fun g => m.heap.getLocal? g tag))) := .define
    obtain ⟨behind, same, collected⟩ := ih (Nat.lt_of_lt_of_le there grows.size_le) others
    have same : ∀ g ∈ frames, ∀ id, m'.heap.getLocal? g id = m.heap.getLocal? g id := fun g member id => by
      have differs : c.frame ≠ g := fun same => apart (same ▸ member)
      rw [same g member id, Heap.getLocal?, Heap.getLocal?, Heap.getElem?_define, if_neg differs]
    refine ⟨grows.trans behind, same, List.forall_mem_cons.2 ⟨?_, collected⟩⟩
    rw [List.filterMap_congr fun g member => same g member tag]
    exact (Heap.holds_define there).grows behind

end Eval

/-- What a loop leaves that comes to its end: the frames of its iterations are inside its own, which has been given the tags. -/
lemma Loop.Goes.opens {elements : List Value} {frames : List FrameId} (growing : Growing run)
    (there : (c.frame : Nat) < m.heap.size) (goes : l.Goes p run c incoming m elements frames m' v) :
    ∃ t, p.resolvedOf c.module = some t ∧ m.heap.Grows m'.heap ∧
      List.Forall₂ (m'.heap.Iterates c.frame (t.declarations.get? l.binding.span)) frames elements ∧
      ∀ id ∈ (t.loopTags.get? l.span).getD [],
        m'.heap.Holds c.frame id (.array (frames.filterMap fun g => m'.heap.getLocal? g id)) := by
  cases goes with
  | @mk t between values last evaluated resolved iterations collected =>
    have start : l.Iterations run c _ (LoopProgress.mk incoming [] []).folded between elements frames values last := iterations
    have before := growing _ _ _ _ evaluated
    have there₁ := Nat.lt_of_lt_of_le there before.size_le
    obtain ⟨during, opened⟩ := loop_opens growing there₁ start.ran
    have order : ((LoopProgress.mk incoming [] []).after frames values).frames.reverse = frames := by
      cases incoming <;> simp [LoopProgress.after]
    rw [order] at opened
    have there₂ := Nat.lt_of_lt_of_le there₁ during.size_le
    have apart : c.frame ∉ frames := by
      intro member
      obtain ⟨k, inside, same⟩ := List.getElem_of_mem member
      have around := (opened.get inside (opened.length_eq ▸ inside)).chain
      rw [List.get_eq_getElem, same] at around
      exact absurd (congrArg List.length around) (by simp)
    obtain ⟨behind, -, holds⟩ := collectTags_ok there₂ apart collected
    exact ⟨t, resolved, (before.trans during).trans behind, opened.imp fun _ _ iterates => iterates.grows there₂ behind, holds⟩

/-! ### Where tags stand -/

/-- Loops of modules that can be used collect every tag in their bodies. -/
def Program.Collects (p : Program) : Prop :=
  ∀ (id : Nat) (loaded : LoadedModule) (ast : Module) (t : Resolved), p.modules[id]? = some loaded → loaded.ast = some ast →
    loaded.resolved = some t → loaded.isUsable = true → ∀ l, .loop l ∈ ast.pieces → ∀ tag ∈ Stage.allTags l.body.stages,
      ∃ id ∈ (t.loopTags.get? l.span).getD [], t.declarations.get? tag.span = some id

/-- The frame of a context is in as many others as a scope of a module. -/
structure Context.Deep (c : Context) (h : Heap) (t : Resolved) (scope : ScopeId) : Prop where
  there : (c.frame : Nat) < h.size
  depth : (h.chain c.frame).length = (t.scopes.path scope).length

/-- A loop stands in a scope, with another one for its body. The tags in the body are declared, held in both scopes and collected. -/
structure Loop.Stands (l : Loop) (t : Resolved) (scope inner : ScopeId) : Prop where
  opens : t.scopes.Opens scope inner
  tags : ∀ tag ∈ Stage.allTags l.body.stages, ∃ id b innermost, t.declarations.get? tag.span = some id ∧
    id ∈ (t.loopTags.get? l.span).getD [] ∧ t.scopes.bindings[(id : Nat)]? = some b ∧ b.Fronts (t.scopes.path innermost) ∧
    b.HeldIn scope ∧ inner ∈ b.loops

/-- Around a frame are frames of the scopes around its scope. -/
lemma Heap.Activates.split {labels : Labels} {module : ModuleId} {scope s : ScopeId} {before behind : List ScopeId}
    (activates : h.Activates labels module t scope f) (split : t.scopes.path scope = before ++ s :: behind) :
    ∃ frames g others, h.chain f = frames ++ g :: others ∧ frames.length = before.length ∧
      labels[(g : Nat)]? = some (module, s) ∧ ∀ other ∈ frames, ∃ s ∈ before, labels[(other : Nat)]? = some (module, s) := by
  have chain := activates.chain
  rw [split, List.map_append, List.map_cons, List.map_eq_append_iff] at chain
  obtain ⟨frames, rest, chain, early, late⟩ := chain
  obtain ⟨g, others, rfl, label, -⟩ := List.map_eq_cons_iff.1 late
  refine ⟨frames, g, others, chain, by simpa using congrArg List.length early, label, fun other member => ?_⟩
  have among : labels[(other : Nat)]? ∈ before.map fun s => some (module, s) := early ▸ List.mem_map_of_mem member
  obtain ⟨s, inside, same⟩ := List.mem_map.1 among
  exact ⟨s, inside, same.symm⟩

/-- Around a frame, the nearest scope that a binding may be held in has its frame as far out as it is itself, and no nearer frame has
a value for the binding. -/
lemma Heap.Lexical.nearest {labels : Labels} {module : ModuleId} {scope : ScopeId} {f : FrameId} {id : BindingId} {b : Binding}
    (lexical : m.heap.Lexical p labels) (label : labels[(f : Nat)]? = some (module, scope)) (resolved : p.resolvedOf module = some t)
    (there : t.scopes.bindings[(id : Nat)]? = some b) (around : b.scope ∈ t.scopes.path scope) :
    ∃ before nearest behind frames g others, t.scopes.path scope = before ++ nearest :: behind ∧ b.HeldIn nearest ∧
      (∀ s ∈ before, ¬ b.HeldIn s) ∧ m.heap.chain f = frames ++ g :: others ∧
      frames.length = (t.scopes.path scope).findIdx b.HeldIn ∧ labels[(g : Nat)]? = some (module, nearest) ∧
      ∀ other ∈ frames, m.heap.getLocal? other id = none := by
  obtain ⟨t', resolved', nested, activates⟩ := lexical.frames label
  obtain rfl := Option.some.inj (resolved.symm.trans resolved')
  have somewhere : ((t.scopes.path scope).find? b.HeldIn).isSome :=
    List.find?_isSome.2 ⟨b.scope, around, decide_eq_true (Or.inl rfl)⟩
  obtain ⟨nearest, found⟩ := Option.isSome_iff_exists.1 somewhere
  obtain ⟨held, before, behind, split, passed⟩ := List.find?_eq_some_iff_append.1 found
  replace held : b.HeldIn nearest := of_decide_eq_true held
  replace passed : ∀ s ∈ before, ¬ b.HeldIn s := fun s member => by simpa using passed s member
  obtain ⟨frames, g, others, chain, length, label, each⟩ := activates.split split
  refine ⟨before, nearest, behind, frames, g, others, split, held, passed, chain, ?_, label, fun other member => ?_⟩
  · have none : before.findIdx b.HeldIn = before.length :=
      List.findIdx_eq_length.2 fun s member => decide_eq_false (passed s member)
    rw [length, split, List.findIdx_append, none, if_neg (Nat.lt_irrefl _), List.findIdx_cons, decide_eq_true held]
    simp
  · -- a frame has values only for what its scope may hold
    obtain ⟨s, inside, label⟩ := each other member
    obtain ⟨t', resolved', -, activates'⟩ := lexical.frames label
    obtain rfl := Option.some.inj (resolved.symm.trans resolved')
    by_contra some
    obtain ⟨w, value⟩ := Option.ne_none_iff_exists'.1 some
    obtain ⟨frame, found, stored⟩ := Heap.holds_of_getLocal value
    obtain ⟨b', there', held'⟩ := activates'.stores frame found _ stored
    cases there.symm.trans there'
    exact passed s inside held'

/-- The value that a frame has is seen from the frames inside it that have none. -/
lemma Heap.get_nearest {f g : FrameId} {frames others : List FrameId} {id : BindingId} (chain : h.chain f = frames ++ g :: others)
    (nearer : ∀ other ∈ frames, h.getLocal? other id = none) (value : h.getLocal? g id = some v) : h.get? f id = some v := by
  rw [Heap.get?, chain, List.findSome?_append, List.findSome?_eq_none_iff.2 nearer]
  simp [value]

lemma Context.Stands.deep {labels : Labels} {scope : ScopeId} (stands : c.Stands p labels t scope) (sound : m.Sound p labels) :
    t.scopes.Nested ∧ c.Deep m.heap t scope := by
  obtain ⟨t', resolved, nested, activates⟩ := sound.heap.frames stands.label
  obtain rfl := Option.some.inj (stands.resolved.symm.trans resolved)
  refine ⟨nested, sound.heap.size ▸ (List.getElem?_eq_some_iff.1 stands.label).1, ?_⟩
  simpa using congrArg List.length activates.chain

/-- A stage is settled among others. -/
lemma Stages.Settled.mem {scope : ScopeId} {receives : Bool} {before after : List Stage} {s : Stage}
    (settled : Stages.Settled p t True scope receives (before ++ s :: after)) : ∃ receives, s.Settled p t True scope receives := by
  induction before generalizing receives with
  | nil =>
    cases settled with
    | cons first _ => exact ⟨_, first⟩
  | cons _ before ih =>
    cases settled with
    | cons _ others => exact ih others

section

variable (rest : p.AtRest) (honest : p.hosts.Honest) (onePlace : p.OnePlace) (parsed : p.Parsed)
include rest honest onePlace parsed

/-- The tag of a stage that is evaluated is declared where the stage stands, inside of all loops that it crosses. -/
lemma Program.Evaluates.stage {before after : List Stage} {s : Stage} (has : s.tag = some tag)
    (evaluates : p.Evaluates fuel (.pipeline c (before ++ s :: after) incoming) m) :
    ∃ t scope id b, p.resolvedOf c.module = some t ∧ t.scopes.Nested ∧ c.Deep m.heap t scope ∧
      t.declarations.get? tag.span = some id ∧ t.scopes.bindings[(id : Nat)]? = some b ∧ b.HeldIn scope ∧
      b.Fronts (t.scopes.path scope) := by
  obtain ⟨labels, sound, fits⟩ := evaluates.fits rest honest onePlace parsed
  cases fits with
  | @pipeline _ t scope _ _ stands settled _ =>
    obtain ⟨nested, deep⟩ := stands.deep sound
    obtain ⟨_, settled⟩ := settled.mem
    obtain ⟨id, b, declared, found, held, -, fronts⟩ := stage_declares settled tag has
    exact ⟨t, scope, id, b, stands.resolved, nested, deep, declared, found, held, fronts⟩

variable (laid : p.Laid) (collects : p.Collects)
include laid collects

/-- A loop that is evaluated stands in a scope. -/
lemma Program.Evaluates.loop (evaluates : p.Evaluates fuel (.loop c l incoming) m) :
    ∃ t scope inner, p.resolvedOf c.module = some t ∧ t.scopes.Nested ∧ c.Deep m.heap t scope ∧ l.Stands t scope inner := by
  obtain ⟨labels, sound, fits⟩ := evaluates.fits rest honest onePlace parsed
  obtain ⟨regions, hosts, -⟩ := evaluates.written rest honest laid
  cases fits with
  | @loop _ t scope _ _ stands settled _ =>
    obtain ⟨nested, deep⟩ := stands.deep sound
    obtain ⟨loaded, ast, known⟩ := stands.settled rest
    cases settled with
    | @mk _ _ inner sequence binding stages bodySpan span _ opens _ _ gathered =>
      refine ⟨t, scope, inner, stands.resolved, nested, deep, opens, fun tag inside => ?_⟩
      obtain ⟨module, found, usable⟩ := stands.usable
      cases hosts.there with
      | @mk module' ast' t' found' parsed' resolved' among =>
        obtain rfl := Option.some.inj (found.symm.trans found')
        obtain rfl : t' = t := by
          have same := stands.resolved
          rwa [Program.resolvedOf, found, Option.bind_some, resolved', Option.some.injEq] at same
        have member : Piece.loop ⟨sequence, binding, ⟨stages, bodySpan⟩, span⟩ ∈ ast'.pieces := among.subset List.mem_cons_self
        obtain ⟨id, collected, declared⟩ := collects _ _ _ _ found parsed' resolved' usable _ member tag inside
        cases tags : t'.loopTags.get? span with
        | none => simp [tags] at collected
        | some ids =>
          have among : id ∈ ids := by simpa [tags] using collected
          obtain ⟨b, there, held, crossed⟩ := gathered ids tags id among
          obtain ⟨b', there', -, innermost, fronts⟩ := known.tags tags id among
          cases there.symm.trans there'
          exact ⟨id, b, innermost, declared, among, there, fronts, held, crossed⟩

/-- A tag that has been given a value is declared, and is held in the scopes along a path. -/
lemma Program.Tagged.declared (tagged : p.Tagged i tag h n f v) : ∃ t id b innermost, p.resolvedOf i = some t ∧ t.scopes.Nested ∧
    t.declarations.get? tag.span = some id ∧ t.scopes.bindings[(id : Nat)]? = some b ∧ b.Fronts (t.scopes.path innermost) := by
  cases tagged with
  | stage evaluates has _ _ =>
    obtain ⟨t, scope, id, b, resolved, nested, -, declared, found, -, fronts⟩ := evaluates.stage rest honest onePlace parsed has
    exact ⟨t, id, b, scope, resolved, nested, declared, found, fronts⟩
  | loop evaluates inside _ _ _ _ =>
    obtain ⟨t, scope, inner, resolved, nested, -, stands⟩ := evaluates.loop rest honest onePlace parsed laid collects
    obtain ⟨id, b, innermost, declared, -, found, fronts, -⟩ := stands.tags tag inside
    exact ⟨t, id, b, innermost, resolved, nested, declared, found, fronts⟩

/-- A tag that has been given a value in a frame is held there. -/
lemma Program.Tagged.holds {id : BindingId} (tagged : p.Tagged i tag h n f v) (resolved : p.resolvedOf i = some t)
    (declared : t.declarations.get? tag.span = some id) : h.Holds f id v := by
  induction tagged with
  | @stage h f before s after incoming fuel m v m' evaluates has ran grows =>
    obtain ⟨t', _, id', _, resolved', -, deep, -⟩ := evaluates.stage rest honest onePlace parsed has
    obtain rfl := Option.some.inj (resolved.symm.trans resolved')
    cases fuel with
    | zero => cases ran
    | succ fuel =>
      obtain ⟨id'', declared', holds⟩ := pipeline_binds resolved deep.there has ran
      obtain rfl := Option.some.inj (declared.symm.trans declared')
      exact holds.grows grows
  | @loop h f l incoming fuel m elements frames m' v n values evaluates inside goes length _ grows ih =>
    obtain ⟨t', scope, inner, resolved', -, deep, stands⟩ := evaluates.loop rest honest onePlace parsed laid collects
    obtain rfl := Option.some.inj (resolved.symm.trans resolved')
    obtain ⟨id', _, _, declared', collected, -⟩ := stands.tags tag inside
    obtain rfl := Option.some.inj (declared.symm.trans declared')
    obtain ⟨t'', resolved'', -, -, holds⟩ := goes.opens (Task.run_growing fuel) deep.there
    obtain rfl := Option.some.inj (resolved.symm.trans resolved'')
    have once : m'.WriteOnce := by
      have ends := (evaluates.writeOnce rest honest laid).2
      have ran : Task.run p (fuel + 1) (.loop ⟨i, f⟩ l incoming) m = .ok v m' := loop_ok.2 ⟨elements, frames, goes⟩
      rwa [ran] at ends
    have made : frames.filterMap (fun g => m'.heap.getLocal? g id) = values := filterMap_of_forall₂ <|
      List.forall₂_iff_zip.2 ⟨length, fun {g w} member => once.getLocal (ih _ member)⟩
    exact (made ▸ holds id collected).grows grows

/-- It has as many layers as the frame lies further out than the innermost scope that holds the tag. -/
lemma Program.Tagged.layers {id : BindingId} {b : Binding} {innermost : ScopeId} (tagged : p.Tagged i tag h n f v)
    (resolved : p.resolvedOf i = some t) (declared : t.declarations.get? tag.span = some id)
    (found : t.scopes.bindings[(id : Nat)]? = some b) (fronts : b.Fronts (t.scopes.path innermost)) :
    p.Tagged i tag h ((t.scopes.path innermost).length - (h.chain f).length) f v := by
  induction tagged with
  | @stage h f before s after incoming fuel m v m' evaluates has ran grows =>
    obtain ⟨t', scope, id', b', resolved', nested, deep, declared', found', held, behind, split⟩ :=
      evaluates.stage rest honest onePlace parsed has
    obtain rfl := Option.some.inj (resolved.symm.trans resolved')
    obtain rfl := Option.some.inj (declared.symm.trans declared')
    obtain rfl := Option.some.inj (found.symm.trans found')
    have chain : h.chain f = m.heap.chain f := ((Task.run_growing fuel _ _ _ _ ran).trans grows).chain deep.there
    have none : t.scopes.layersAt b scope = 0 :=
      Scopes.layersAt_eq_zero fun loop member => split ▸ List.mem_append_left _ member
    have depth := Scopes.layersAt_add_depth nested fronts held
    have zero : (t.scopes.path innermost).length - (h.chain f).length = 0 := by
      have around : (m.heap.chain f).length = (t.scopes.path scope).length := deep.depth
      rw [chain]
      omega
    exact zero ▸ .stage evaluates has ran grows
  | @loop h f l incoming fuel m elements frames m' v n values evaluates inside goes length each grows ih =>
    obtain ⟨t', scope, inner, resolved', nested, deep, stands⟩ := evaluates.loop rest honest onePlace parsed laid collects
    obtain rfl := Option.some.inj (resolved.symm.trans resolved')
    obtain ⟨id', b', _, declared', -, found', -, held, crossed⟩ := stands.tags tag inside
    obtain rfl := Option.some.inj (declared.symm.trans declared')
    obtain rfl := Option.some.inj (found.symm.trans found')
    obtain ⟨t'', resolved'', before, opened, -⟩ := goes.opens (Task.run_growing fuel) deep.there
    have chain : h.chain f = m.heap.chain f := (before.trans grows).chain deep.there
    have further := Scopes.layersAt_outside nested stands.opens (nested.loops_nodup fronts) crossed
    have depth := Scopes.layersAt_add_depth nested fronts held
    have around : (m.heap.chain f).length = (t.scopes.path scope).length := deep.depth
    -- the frames of the iterations are one deeper
    have one : (t.scopes.path innermost).length - (h.chain f).length =
        (t.scopes.path innermost).length - ((h.chain f).length + 1) + 1 := by
      rw [chain]
      omega
    rw [one]
    refine .loop evaluates inside goes length (fun entry member => ?_) grows
    have deeper : (m'.heap.chain entry.1).length = (h.chain f).length + 1 := by
      obtain ⟨k, inside, same⟩ := List.getElem_of_mem (List.of_mem_zip member).1
      have iterates := (opened.get inside (opened.length_eq ▸ inside)).chain
      rw [List.get_eq_getElem, same] at iterates
      rw [iterates, List.length_cons, grows.chain (Nat.lt_of_lt_of_le deep.there before.size_le)]
    exact deeper ▸ ih entry member

/-- A loop that comes to its end leaves in its frame, for every tag in its body, the sequence of what the iterations have given it. -/
lemma Program.Evaluates.collected (evaluates : p.Evaluates (fuel + 1) (.loop c l incoming) m)
    (ran : Task.run p (fuel + 1) (.loop c l incoming) m = .ok v m') : ∃ t elements frames, p.resolvedOf c.module = some t ∧
      l.Goes p (Task.run p fuel) c incoming m elements frames m' v ∧
      List.Forall₂ (m'.heap.Iterates c.frame (t.declarations.get? l.binding.span)) frames elements ∧
      ∀ tag ∈ Stage.allTags l.body.stages, ∃ id values, t.declarations.get? tag.span = some id ∧
        m'.heap.getLocal? c.frame id = some (.array values) ∧
        ((∀ f ∈ frames, ∃ n w, p.Tagged c.module tag m'.heap n f w) →
          ∃ n, List.Forall₂ (p.Tagged c.module tag m'.heap n) frames values) := by
  obtain ⟨elements, frames, goes⟩ := loop_ok.1 ran
  obtain ⟨t, scope, inner, resolved, nested, deep, stands⟩ := evaluates.loop rest honest onePlace parsed laid collects
  obtain ⟨t', resolved', before, opened, holds⟩ := goes.opens (Task.run_growing fuel) deep.there
  obtain rfl := Option.some.inj (resolved.symm.trans resolved')
  have once : m'.WriteOnce := by
    have ends := (evaluates.writeOnce rest honest laid).2
    rwa [ran] at ends
  refine ⟨t, elements, frames, resolved, goes, opened, fun tag inside => ?_⟩
  obtain ⟨id, b, innermost, declared, collected, found, fronts, held, crossed⟩ := stands.tags tag inside
  refine ⟨id, _, declared, once.getLocal (holds id collected), fun executed => ?_⟩
  refine ⟨(t.scopes.path innermost).length - ((m'.heap.chain c.frame).length + 1), ?_⟩
  -- all frames of the iterations are equally deep
  have layered : ∀ f ∈ frames, ∃ w, m'.heap.getLocal? f id = some w ∧
      p.Tagged c.module tag m'.heap ((t.scopes.path innermost).length - ((m'.heap.chain c.frame).length + 1)) f w := by
    intro f member
    obtain ⟨n, w, tagged⟩ := executed f member
    obtain ⟨k, inside, same⟩ := List.getElem_of_mem member
    have iterates := (opened.get inside (opened.length_eq ▸ inside)).chain
    rw [List.get_eq_getElem, same] at iterates
    have layers := tagged.layers rest honest onePlace parsed laid collects resolved declared found fronts
    rw [iterates, List.length_cons] at layers
    exact ⟨w, once.getLocal (tagged.holds rest honest onePlace parsed laid collects resolved declared), layers⟩
  exact forall₂_filterMap layered

/-- Stages that mark a tag give it a value when they come to their end. -/
lemma Program.Evaluates.marked {stages : List Stage} (marks : Stage.Marks tag stages)
    (evaluates : p.Evaluates fuel (.pipeline ⟨i, f⟩ stages incoming) m)
    (ran : Task.run p fuel (.pipeline ⟨i, f⟩ stages incoming) m = .ok v m') : ∃ n w, p.Tagged i tag m'.heap n f w := by
  induction marks generalizing fuel f incoming m v m' with
  | @own before s after has =>
    cases fuel with
    | zero => cases ran
    | succ fuel =>
      have split : (pipeline p (Task.run p fuel) ⟨i, f⟩ incoming (before ++ [s]) >>= fun v =>
          pipeline p (Task.run p fuel) ⟨i, f⟩ (some v) after) m = .ok v m' := (congrFun pipeline_split m).symm.trans ran
      obtain ⟨w, m₁, first, others⟩ := bind_ok split
      have script : Script Machine.Still (fun _ => True) fun run => pipeline p run ⟨i, f⟩ (some w) after :=
        pipeline_script fun _ => trivial
      exact ⟨0, w, .stage evaluates has first (script.grows others)⟩
  | @loop before after l tag' span marks ih =>
    cases fuel with
    | zero => cases ran
    | succ fuel =>
    obtain ⟨given, m₁, w, m₂, evaluates, ended, grows⟩ := evaluates.stageExpr ran
    cases fuel with
    | zero => cases ended
    | succ fuel =>
    obtain ⟨evaluates, ended⟩ := evaluates.loopExpr ended
    cases fuel with
    | zero => cases ended
    | succ fuel =>
    obtain ⟨t, elements, frames, -, goes, -, each⟩ := evaluates.collected rest honest onePlace parsed laid collects ended
    obtain ⟨_, values, -, -, all⟩ := each tag marks.mem
    have executed : ∀ g ∈ frames, ∃ n w, p.Tagged i tag m₂.heap n g w := by
      intro g member
      obtain ⟨folded, before, w, after, evaluates, ended, grows⟩ := evaluates.body goes g member
      obtain ⟨n, w, tagged⟩ := ih evaluates ended
      exact ⟨n, w, tagged.grows grows⟩
    obtain ⟨n, tagged⟩ := all executed
    obtain ⟨length, tagged⟩ := List.forall₂_iff_zip.1 tagged
    exact ⟨n + 1, _, .loop evaluates marks.mem goes length (fun entry member => tagged member) grows⟩

/-- A use of a binding sees the value that the nearest frame has which may hold it, with one layer for each loop of the binding that
the use stands outside of. -/
lemma Program.Evaluates.seen {use : Ident} {known : Reference} {id : BindingId} (evaluates : p.Evaluates fuel (.expr c (.name use) none) m)
    (own : ∀ {module t}, p.resolvedOf module = some t → ∀ {i : Nat} {b : Binding} {k : BindingId},
      t.scopes.bindings[i]? = some b → b.target = .inner k → k = i)
    (resolved : p.resolvedOf c.module = some t) (recorded : t.references.get? use.span = some known)
    (target : known.target = .inner id) : ∃ b, t.scopes.bindings[(id : Nat)]? = some b ∧
      let scope := t.scopes.scopeAt use.span.start
      let layers := t.scopes.layersAt b scope
      known.ty = t.scopes.typeAt id scope ∧ t.scopes.typeAt id scope = Ty.array^[layers] b.ty ∧
      ∃ f, (m.heap.chain c.frame)[(t.scopes.path scope).findIdx b.HeldIn]? = some f ∧
        (∀ v, m.heap.getLocal? f id = some v → m.heap.Layered id layers f v ∧
          ∀ fuel, Task.run p (fuel + 1) (.expr c (.name use) none) m = .ok v m) ∧
        ∀ tag n v, t.declarations.get? tag.span = some id → p.Tagged c.module tag m.heap n f v →
          m.heap.getLocal? f id = some v ∧ p.Tagged c.module tag m.heap layers f v := by
  obtain ⟨labels, sound, fits⟩ := evaluates.fits rest honest onePlace parsed
  have once := (evaluates.writeOnce rest honest laid).1
  cases fits with
  | @expr _ t' scope _ _ stands settled _ =>
    obtain rfl := Option.some.inj (resolved.symm.trans stands.resolved)
    obtain ⟨place, -, pieces⟩ := settled
    cases pieces with
    | name answers _ _ =>
      have answer := answers known recorded
      obtain ⟨id', found, target', ty⟩ := answer.bound fun name host => by rw [target] at host; cases host
      have here : t.scopes.scopeAt use.span.start = scope := answer.here.trans place
      obtain ⟨b, there, around⟩ := Scopes.lookupAlong_found found
      subst here
      obtain rfl : id = id' := by
        refine own resolved there ?_
        rw [← target, ← target', Scopes.target, there]
      obtain ⟨before, nearest, behind, frames, f, others, split, held, passed, chain, index, label, nearer⟩ :=
        sound.heap.nearest stands.label resolved there around
      obtain ⟨t', resolved', nested, activates⟩ := sound.heap.frames label
      obtain rfl := Option.some.inj (resolved.symm.trans resolved')
      have layers := Scopes.layersAt_nearest nested split passed
      refine ⟨b, there, ty.symm, Scopes.typeAt_eq there, f, ?_, fun v value => ⟨?_, fun fuel => ?_⟩,
        fun tag n v declared tagged => ⟨?_, ?_⟩⟩
      · rw [← index, chain]
        simp
      · exact layers ▸ sound.layers f _ _ t label resolved id v b (Heap.holds_of_getLocal value) there
      · have seen : m.heap.get? c.frame id = some v := Heap.get_nearest chain nearer value
        have asked : (get : Eval Machine) m = .ok m m := rfl
        show reference p (Task.run p fuel) c use.span use.name m = _
        simp only [Eval.reference, resolvedOf_eq resolved, pure_bind, recorded, target, bind_eq asked, seen]
        rfl
      · exact once.getLocal (tagged.holds rest honest onePlace parsed laid collects resolved declared)
      · obtain ⟨t', id', b', innermost, resolved', _, declared', found', fronts⟩ :=
          tagged.declared rest honest onePlace parsed laid collects
        obtain rfl := Option.some.inj (resolved.symm.trans resolved')
        obtain rfl := Option.some.inj (declared.symm.trans declared')
        obtain rfl := Option.some.inj (there.symm.trans found')
        have depth := Scopes.layersAt_add_depth nested fronts held
        have around : (m.heap.chain f).length = (t.scopes.path nearest).length := by
          simpa using congrArg List.length activates.chain
        have layered := tagged.layers rest honest onePlace parsed laid collects resolved declared there fronts
        rwa [around, ← depth, Nat.add_sub_cancel, ← layers] at layered

end

/-! ### Programs with a loop and a use of its tag -/

/-- The loop and the name that are the values of the two definitions in a module, if there are no other statements. -/
def Module.loopAndName? (ast : Module) : Option (Loop × Ident) :=
  match ast.statements with
  | [.define _ _ (.loop l) _, .define _ _ (.name use) _] => some (l, use)
  | _ => none

lemma Module.loopAndName?_eq_some {ast : Module} {l : Loop} {use : Ident} (h : ast.loopAndName? = some (l, use)) :
    ∃ exported name place exported' name' place',
      ast.statements = [.define exported name (.loop l) place, .define exported' name' (.name use) place'] := by
  unfold loopAndName? at h
  split at h
  · next exported name _ place exported' name' _ place' statements =>
    cases h
    exact ⟨exported, name, place, exported', name', place', statements⟩
  · cases h

/-- The loop that a stage is, if it is one. -/
def Stage.loop? : Stage → Option Loop
  | .expr (.loop l) _ _ => some l
  | _ => none

lemma Stage.Marks.last {stages : List Stage} {s : Stage} (last : stages.getLast? = some s) (tagged : s.tag = some tag) :
    Marks tag stages := by
  obtain ⟨before, rfl⟩ := List.getLast?_eq_some_iff.1 last
  exact .own tagged

lemma Stage.Marks.last_loop {stages : List Stage} {s : Stage} {l : Loop} (last : stages.getLast? = some s)
    (loops : s.loop? = some l) (marks : Marks tag l.body.stages) : Marks tag stages := by
  obtain ⟨before, rfl⟩ := List.getLast?_eq_some_iff.1 last
  unfold loop? at loops
  split at loops
  · cases loops
    exact .loop marks
  · cases loops

/-- The truth values in an array of arrays of arrays, if it has no other elements. -/
def Value.grid? (v : Value) : Option (List (List (List Bool))) := do
  (← v.elements?).mapM fun row => do (← row.elements?).mapM fun cell => do (← cell.elements?).mapM Value.bool?

lemma mapM_eq_some_map {α β : Type} {f : α → Option β} {g : β → α} (inverse : ∀ {a b}, f a = some b → a = g b)
    {as : List α} {bs : List β} (h : as.mapM f = some bs) : as = bs.map g := by
  induction as generalizing bs with
  | nil =>
    cases h
    rfl
  | cons a as ih =>
    simp only [List.mapM_cons, Option.bind_eq_bind, Option.bind_eq_some_iff, Option.pure_def, Option.some.injEq] at h
    obtain ⟨b, first, bs, rest, rfl⟩ := h
    rw [List.map_cons, ← inverse first, ← ih rest]

lemma Value.grid?_eq_some {v : Value} {grid : List (List (List Bool))} (h : v.grid? = some grid) :
    v = .array (grid.map fun row => .array (row.map fun cell => .array (cell.map .bool))) := by
  obtain ⟨rows, array, h⟩ := Option.bind_eq_some_iff.1 h
  rw [elements?_eq_some.1 array]
  refine congrArg _ (mapM_eq_some_map (fun {row cells} h => ?_) h)
  obtain ⟨cells', array, h⟩ := Option.bind_eq_some_iff.1 h
  rw [elements?_eq_some.1 array]
  refine congrArg _ (mapM_eq_some_map (fun {cell values} h => ?_) h)
  obtain ⟨values', array, h⟩ := Option.bind_eq_some_iff.1 h
  rw [elements?_eq_some.1 array]
  exact congrArg _ (mapM_eq_some_map bool?_eq_some.1 h)

namespace Program

/-- Tags of loops hold the values of the iterations. A loop that comes to its end, whether it maps or folds, leaves in its frame for
every tag in its body a sequence. If the tag has been given a value in every iteration, then the sequence has one entry for each
element, in order: the value of the tag in that iteration, with equally many layers in all. That is so for a stage of the body, and for
a stage in further loops there at every level.

A use of a binding sees the value that the nearest frame around it has which may hold the binding. That has as many layers as there
are loops of the binding that the use stands outside of, which is what the type of the binding has there.

Requests are made with values that come from answers, and host functions hand on no functions but those that they are given and
those that are registered. -/
theorem loop_tags (sources : Sources) (policy : GlobPolicy) (hosts : Hosts) (paths : List String) (honest : hosts.Honest) :
    let p := (new sources policy hosts).loadAll paths
    (∀ fuel c l incoming m v m', p.Evaluates (fuel + 1) (.loop c l incoming) m →
      Task.run p (fuel + 1) (.loop c l incoming) m = .ok v m' → ∃ t elements frames, p.resolvedOf c.module = some t ∧
        l.Goes p (Task.run p fuel) c incoming m elements frames m' v ∧
        List.Forall₂ (m'.heap.Iterates c.frame (t.declarations.get? l.binding.span)) frames elements ∧
        ∀ tag ∈ Stage.allTags l.body.stages, ∃ id values, t.declarations.get? tag.span = some id ∧
          m'.heap.getLocal? c.frame id = some (.array values) ∧
          ((∀ f ∈ frames, ∃ n w, p.Tagged c.module tag m'.heap n f w) →
            ∃ n, List.Forall₂ (p.Tagged c.module tag m'.heap n) frames values) ∧
          (Stage.Marks tag l.body.stages → ∀ f ∈ frames, ∃ n w, p.Tagged c.module tag m'.heap n f w)) ∧
    ∀ fuel c (use : Ident) m t known id, p.Evaluates fuel (.expr c (.name use) none) m → p.resolvedOf c.module = some t →
      t.references.get? use.span = some known → known.target = .inner id → ∃ b, t.scopes.bindings[(id : Nat)]? = some b ∧
        let scope := t.scopes.scopeAt use.span.start
        let layers := t.scopes.layersAt b scope
        known.ty = t.scopes.typeAt id scope ∧ t.scopes.typeAt id scope = Ty.array^[layers] b.ty ∧
        ∃ f, (m.heap.chain c.frame)[(t.scopes.path scope).findIdx b.HeldIn]? = some f ∧
          (∀ v, m.heap.getLocal? f id = some v → m.heap.Layered id layers f v ∧
            ∀ fuel, Task.run p (fuel + 1) (.expr c (.name use) none) m = .ok v m) ∧
          ∀ tag n v, t.declarations.get? tag.span = some id → p.Tagged c.module tag m.heap n f v →
            m.heap.getLocal? f id = some v ∧ p.Tagged c.module tag m.heap layers f v := by
  intro p
  obtain ⟨rest, same⟩ : p.AtRest ∧ p.hosts = hosts := atRest_new.loadAll paths
  have honest' : p.hosts.Honest := same ▸ honest
  have laid : p.Laid := fun _ _ _ _ found parsed resolved => loadAll_laid found parsed resolved
  have collects : p.Collects := fun _ _ _ _ found parsed resolved usable l member tag inside =>
    loadAll_collects found parsed resolved usable member inside
  refine ⟨fun fuel c l incoming m v m' evaluates ran => ?_, fun fuel c use m t known id evaluates resolved recorded target => ?_⟩
  · obtain ⟨t, elements, frames, resolved, goes, opened, each⟩ :=
      evaluates.collected rest honest' loadAll_onePlace loadAll_parsed laid collects ran
    refine ⟨t, elements, frames, resolved, goes, opened, fun tag inside => ?_⟩
    obtain ⟨id, values, declared, bound, all⟩ := each tag inside
    refine ⟨id, values, declared, bound, all, fun marks f member => ?_⟩
    obtain ⟨folded, before, w, after, evaluates, ended, grows⟩ := evaluates.body goes f member
    obtain ⟨n, w, tagged⟩ := evaluates.marked rest honest' loadAll_onePlace loadAll_parsed laid collects marks ended
    exact ⟨n, w, tagged.grows grows⟩
  · refine evaluates.seen rest honest' loadAll_onePlace loadAll_parsed laid collects (fun resolved _ _ _ there target => ?_)
      resolved recorded target
    obtain ⟨loaded, found, tables⟩ := Option.bind_eq_some_iff.1 resolved
    exact loadAll_inner found tables there target

/-- A program with a loop that folds in the body of one that maps, and a use of the tag in its body behind them. -/
def gridded : Program :=
  (new (.ofTexts (.ofList [("main.kcl",
    "r = for [true, false] as x |> [x] |> for [false, true] as y |> push(y) as z\ns = z\n")])) .eager .prelude).loadAll ["main"]

/-- The tag has been given a sequence for each iteration of the outer loop, with what was pushed in those of the inner one. The use
of the tag sees both layers. -/
theorem loop_tags_gridded : ∃ (l : Loop) (tag use : Ident) (m : Machine) (v : Value) (between m' : Machine) (grid : Value)
    (t : Resolved) (known : Reference) (b : Binding),
    gridded.Evaluates 9 (.loop ⟨0, 0⟩ l none) m ∧ Task.run gridded 9 (.loop ⟨0, 0⟩ l none) m = .ok v between ∧
    between.heap.Grows m'.heap ∧ Stage.Marks tag l.body.stages ∧
    gridded.resolvedOf 0 = some t ∧ t.references.get? use.span = some known ∧ known.target = .inner 2 ∧
    known.ty = .array (.array b.ty) ∧ gridded.Evaluates 10 (.expr ⟨0, 0⟩ (.name use) none) m' ∧
    gridded.Tagged 0 tag m'.heap 2 0 grid ∧ m'.heap.Layered 2 2 0 grid ∧
    grid = .array [.array [.array [.bool true, .bool false], .array [.bool true, .bool false, .bool true]],
      .array [.array [.bool false, .bool false], .array [.bool false, .bool false, .bool true]]] ∧
    Task.run gridded 1 (.expr ⟨0, 0⟩ (.name use) none) m' = .ok grid m' := by
  have computed : (gridded.modules[0]?.any fun loaded => loaded.isUsable && loaded.ast.any fun ast =>
      ast.loopAndName?.any fun values =>
        (values.1.body.stages.getLast?.any fun s => s.loop?.any fun inner => inner.body.stages.getLast?.any fun s' =>
          s'.tag.any fun tag => loaded.resolved.any fun t => decide (t.declarations.get? tag.span = some 2)) &&
        (loaded.resolved.any fun t => (t.references.get? values.2.span).any fun known =>
          decide (known.target = .inner 2) && t.scopes.bindings[2]?.any fun b =>
            decide (t.scopes.layersAt b (t.scopes.scopeAt values.2.span.start) = 2) &&
              decide ((t.scopes.path (t.scopes.scopeAt values.2.span.start)).findIdx b.HeldIn = 0)) &&
        (ast.statements.head?.any fun s => gives (fun _ m => decide (m.heap.chain 0 = [0]) &&
            (m.heap.getLocal? 0 2).any fun v => decide (v.grid? =
              some [[[true, false], [true, false, true]], [[false, false], [false, false, true]]]))
          (Task.run gridded 11 (.statement ⟨0, 0⟩ s) (begun 0 .new)))) = true ∧
      gives (fun _ _ => true) (Task.run gridded 12 (.module 0) .new) = true := by decide +kernel
  simp only [Option.any_eq_true, Bool.and_eq_true, decide_eq_true_eq, gives_iff] at computed
  obtain ⟨⟨loaded, found, fine, ast, parsed, ⟨l, use⟩, values, ⟨marks, t, resolved, known, recorded, target, b, bound, layers, nearest⟩,
    s₁, head, w, m₂, ran₁, chain, grid, held', shown⟩, v, m', ran, -⟩ := computed
  have resolvedOf : gridded.resolvedOf 0 = some t := by rw [resolvedOf_some found, resolved]
  -- what the body of the loop has the tag in
  obtain ⟨s₂, last, inner, loops, s₃, last', tag, tagged, t', resolved', declared⟩ := marks
  cases resolved.symm.trans resolved'
  have marks : Stage.Marks tag l.body.stages := .last_loop last loops (.last last' tagged)
  -- the first statement
  have evaluates : gridded.Evaluates 12 (.module 0) .new := .module ⟨loaded, found, fine⟩ ran
  obtain ⟨exported, name, place, exported', name', place', statements⟩ := Module.loopAndName?_eq_some values
  let s : Statement := .define exported name (.loop l) place
  let s' : Statement := .define exported' name' (.name use) place'
  have first : ast.statements = [] ++ s :: [s'] := statements
  have second : ast.statements = [s] ++ s' :: [] := statements
  rw [statements] at head
  cases head
  obtain ⟨_, m₁, _, _, start, before, ran₁', -⟩ := evaluates.statement rfl found fine parsed first ran
  obtain ⟨_, m₃, w', m₄, through, behind, ran₂, -⟩ := evaluates.statement rfl found fine parsed second ran
  cases start
  cases ran₁.symm.trans ran₁'
  obtain ⟨_, m₅, ran₁', made⟩ := bind_ok through
  cases made
  cases ran₁.symm.trans ran₁'
  -- the loop is evaluated, and the use behind it
  obtain ⟨_, m₆, looping, ran₁', grows⟩ := before.definition (by simp) ran₁
  obtain ⟨looping, ended⟩ := looping.loopExpr ran₁'
  obtain ⟨_, _, asked, -, -⟩ := behind.definition (by simp) ran₂
  obtain ⟨collected, seen⟩ := loop_tags _ _ _ ["main"] Hosts.prelude_honest
  obtain ⟨_, elements, frames, -, goes, -, each⟩ := collected 8 _ _ _ _ _ _ looping ended
  obtain ⟨_, values, -, -, all, executed⟩ := each tag marks.mem
  obtain ⟨n, related⟩ := all (executed marks)
  obtain ⟨length, related⟩ := List.forall₂_iff_zip.1 related
  have tagged : gridded.Tagged 0 tag m₂.heap (n + 1) 0 (.array values) :=
    .loop looping marks.mem goes length (fun _ member => related member) grows
  obtain ⟨b', bound', ty, outward, f, around, sees, tags⟩ := seen 10 _ use _ t known 2 asked resolvedOf recorded target
  cases bound.symm.trans bound'
  obtain rfl : 0 = f := by
    change (m₂.heap.chain 0)[_]? = some f at around
    simpa [nearest, chain] using around
  obtain ⟨held, tagged⟩ := tags tag _ _ declared tagged
  rw [layers] at outward tagged
  obtain rfl := Option.some.inj (held'.symm.trans held)
  exact ⟨l, tag, use, _, _, _, m₂, _, t, known, b, looping, ended, grows, marks, resolvedOf, recorded, target,
    ty.trans outward, asked, tagged, layers ▸ (sees _ held).1, Value.grid?_eq_some shown, (sees _ held).2 0⟩

end Program

end PipeLang
