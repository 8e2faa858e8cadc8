import PipeLang.Proofs.Resolve.Parts
import PipeLang.Proofs.Scope.Rename
import PipeLang.Proofs.Syntax.Mentions

/-!
# Mirrors

Two resolutions of one module in two programs, with two loaders and with other numbers for the modules. What is alike in
the programs is left open; wherever the resolutions look into them they see the same, and so they stay in step. This
module has the relation between the two states and the steps that do not ask for other modules.
-/

namespace PipeLang

/-- What two resolutions of a module have to do with each other. -/
structure Mirror where
  /-- The numbers of the first program in the second. -/
  rename : ModuleId → ModuleId
  /-- The module that is being resolved, by its number in the first program. -/
  home : ModuleId
  alike : Program → Program → Prop
  /-- The modules of the first program that names can denote. -/
  known : Program → ModuleId → Prop
  /-- The programs to which the first one can come. -/
  fits : Program → Prop

/-- A target that is no module, or one of the known modules. -/
def Target.Known (known : ModuleId → Prop) : Target → Prop
  | .module id => known id
  | _ => True

lemma Target.Known.mono {known known' : ModuleId → Prop} {target : Target} (h : target.Known known)
    (more : ∀ id, known id → known' id) : target.Known known' := by
  cases target with
  | module id => exact more id h
  | _ => trivial

/-- A module shows the same as another, but for the numbers of modules. -/
structure LoadedModule.ShowsAs (ren : ModuleId → ModuleId) (m m' : LoadedModule) : Prop where
  path : m'.path = m.path
  status : m'.status = m.status
  faults : m'.faults = [] ↔ m.faults = []
  exports : m'.exports = m.exports.rename ren

/-- The same resolution in another program with other numbers for the modules. -/
def Resolution.seenAs (ren : ModuleId → ModuleId) (program : Program) (r : Resolution) : Resolution where
  program := program
  home := ren r.home
  scopes := r.scopes.rename ren
  current := r.current
  references := r.references.map (Reference.rename ren)
  declarations := r.declarations
  imports := r.imports.map ren
  loopTags := r.loopTags
  loopSites := r.loopSites
  openNames := r.openNames
  faults := r.faults

namespace Program

/-- A program in which a module offers something else. -/
def offer (p : Program) (id : ModuleId) (f : Exports → Exports) : Program :=
  p.modify id fun m => { m with exports := f m.exports }

lemma exportsOf_offer {p : Program} {id : Nat} {f : Exports → Exports} :
    (p.offer id f).exportsOf id = f (p.exportsOf id) ∨ (p.offer id f).exportsOf id = .empty := by
  simp only [exportsOf, offer, modify, Array.getElem?_modify, if_pos]
  cases p.modules[id]? with
  | none => exact Or.inr rfl
  | some m => exact Or.inl rfl

end Program

namespace Mirror

variable {c : Mirror}

/-- What is known stays known, and where a program can come to has been possible before. -/
structure Onward (c : Mirror) (p p' : Program) : Prop where
  known : ∀ id, c.known p id → c.known p' id
  fits : c.fits p' → c.fits p

lemma Onward.refl {p : Program} : c.Onward p p :=
  ⟨fun _ => id, id⟩

lemma Onward.trans {p p' p'' : Program} (h : c.Onward p p') (h' : c.Onward p' p'') : c.Onward p p'' :=
  ⟨fun id => h'.known id ∘ h.known id, h.fits ∘ h'.fits⟩

/-- What two loaders answer: the same refusal, or the same module. -/
inductive Answers (c : Mirror) (p : Program) : Except LoadError ModuleId → Except LoadError ModuleId → Prop where
  | refused {cause} :
    Answers c p (.error cause) (.error cause)
  | found {id} :
    c.known p id →
    Answers c p (.ok id) (.ok (c.rename id))

/-- Programs that are alike show the same and stay alike through what a resolution does, and two loaders answer alike
when they are asked for what an import among the mentions names. -/
structure Reflects (c : Mirror) (load load' : Loader) (mentions : List Mention) : Prop where
  injective : Function.Injective c.rename
  policy : ∀ {p q}, c.alike p q → q.policy = p.policy
  hosts : ∀ {p q}, c.alike p q → q.hosts = p.hosts
  missing : ∀ {p q id}, c.alike p q → c.known p id → p.modules[id]? = none → q.modules[c.rename id]? = none
  shown : ∀ {p q id m}, c.alike p q → c.known p id → p.modules[id]? = some m →
    ∃ m', q.modules[c.rename id]? = some m' ∧ m.ShowsAs c.rename m' ∧ ∀ e ∈ m.exports.entries, e.target.Known (c.known p)
  offered : ∀ {p q}, c.alike p q → q.exportsOf (c.rename c.home) = (p.exportsOf c.home).rename c.rename
  edge : ∀ {p q target} site, c.known p target → c.alike p q →
    c.alike (p.addEdge ⟨c.home, target, site⟩) (q.addEdge ⟨c.rename c.home, c.rename target, site⟩)
  edgeOnward : ∀ p e, c.Onward p (p.addEdge e)
  offer : ∀ {p q} (f g : Exports → Exports), (∀ t, g (t.rename c.rename) = (f t).rename c.rename) → c.alike p q →
    c.alike (p.offer c.home f) (q.offer (c.rename c.home) g)
  offerOnward : ∀ p id f, c.Onward p (p.offer id f)
  loads : ∀ {p q i}, .importing i ∈ mentions → c.alike p q → c.fits (load p i.path).2 →
    c.alike (load p i.path).2 (load' q i.path).2 ∧ c.Answers (load p i.path).2 (load p i.path).1 (load' q i.path).1 ∧
      (load p i.path).2.exportsOf c.home = p.exportsOf c.home
  loadsOnward : ∀ p raw, c.Onward p (load p raw).2

/-- Two resolutions of a module are in step. -/
structure Relates (c : Mirror) (r s : Resolution) : Prop where
  seen : s = r.seenAs c.rename s.program
  program : c.alike r.program s.program
  home : r.home = c.home
  bound : ∀ b ∈ r.scopes.bindings, b.target.Known (c.known r.program)
  offers : ∀ e ∈ (r.program.exportsOf c.home).entries, e.target.Known (c.known r.program)

end Mirror

open Resolve (after answer)

variable {c : Mirror} {load load' : Loader} {mentions : List Mention} {α β : Type}

/-- Two steps that keep resolutions in step, from programs with some property: what the second answers is what the first
answers under a renaming, and something is known of it. -/
structure Mirrored (c : Mirror) (pre : Program → Prop) (ren : α → α) (post : Program → α → Prop) (x y : Resolve α) :
    Prop where
  onward : ∀ r, c.Onward r.program (after x r).program
  relates : ∀ {r s}, c.Relates r s → pre r.program → c.fits (after x r).program →
    c.Relates (after x r) (after y s) ∧ answer y s = ren (answer x r) ∧ post (after x r).program (answer x r)

/-- Two steps that keep resolutions in step and answer the same. -/
abbrev Mirrored.Plain (c : Mirror) (x y : Resolve α) : Prop :=
  Mirrored c (fun _ => True) id (fun _ _ => True) x y

/-- Two uses that keep resolutions in step and denote the same, but for the numbers of modules, and something known. -/
abbrev Mirrored.Found (c : Mirror) (x y : Resolve (Option (Target × Ty))) : Prop :=
  Mirrored c (fun _ => True) (Option.map fun known => (known.1.rename c.rename, known.2))
    (fun p found => ∀ known ∈ found, known.1.Known (c.known p)) x y

namespace Mirrored

variable {pre : Program → Prop} {ren : α → α} {post : Program → α → Prop} {ren' : β → β} {post' : Program → β → Prop}
  {x y : Resolve α}

lemma pure {a : α} (known : ∀ p, pre p → post p a) : Mirrored c pre ren post (Pure.pure a) (Pure.pure (ren a)) :=
  ⟨fun _ => .refl, fun related given _ => ⟨related, rfl, known _ given⟩⟩

/-- Nothing that is found shows what is asked of whatever is found. -/
lemma none : Mirrored c pre (Option.map ren) (fun p found => ∀ a ∈ found, post p a) (Pure.pure Option.none)
    (Pure.pure Option.none) :=
  pure fun _ _ a member => absurd member (Option.not_mem_none a)

lemma bind {f g : α → Resolve β} (first : Mirrored c pre ren post x y)
    (second : ∀ a, Mirrored c (fun p => post p a) ren' post' (f a) (g (ren a))) :
    Mirrored c pre ren' post' (x >>= f) (y >>= g) where
  onward r := (first.onward r).trans ((second _).onward _)
  relates {r s} related given fits := by
    have fits' := ((second (answer x r)).onward (after x r)).fits fits
    obtain ⟨related', answers, known⟩ := first.relates related given fits'
    have next := (second (answer x r)).relates related' known fits
    rw [← answers] at next
    exact next

/-- From less, for less. -/
lemma weaken {pre' : Program → Prop} {post' : Program → α → Prop} (h : Mirrored c pre ren post x y)
    (less : ∀ p, pre' p → pre p) (more : ∀ p a, post p a → post' p a) : Mirrored c pre' ren post' x y where
  onward := h.onward
  relates related given fits := by
    obtain ⟨related', answers, known⟩ := h.relates related (less _ given) fits
    exact ⟨related', answers, more _ _ known⟩

/-- A step that answers the same, from wherever it starts. -/
lemma Plain.given (h : Mirrored.Plain c x y) : Mirrored c pre id (fun _ _ => True) x y :=
  h.weaken (fun _ _ => trivial) fun _ _ => id

/-- Steps that leave the program alone. -/
lemma own (program : ∀ r, (after x r).program = r.program) (home : ∀ r, (after x r).home = r.home)
    (same : ∀ {r q}, c.Relates r (r.seenAs c.rename q) → pre r.program →
      after y (r.seenAs c.rename q) = (after x r).seenAs c.rename q ∧
        answer y (r.seenAs c.rename q) = ren (answer x r) ∧ post r.program (answer x r) ∧
          ∀ b ∈ (after x r).scopes.bindings, b.target.Known (c.known r.program)) :
    Mirrored c pre ren post x y where
  onward r := program r ▸ .refl
  relates {r s} related given fits := by
    obtain ⟨q, rfl⟩ : ∃ q, s = r.seenAs c.rename q := ⟨_, related.seen⟩
    obtain ⟨seen, answers, known, bound⟩ := same related given
    rw [seen, program]
    refine ⟨⟨rfl, ?_, (home r).trans related.home, ?_, ?_⟩, answers, known⟩
    · rw [program]
      exact related.program
    · rw [program]
      exact bound
    · rw [program]
      exact related.offers

/-- Steps that look at the state first. -/
lemma get {f g : Resolution → Resolve β} (onward : ∀ r, c.Onward r.program (after (f r) r).program)
    (each : ∀ {r q}, c.Relates r (r.seenAs c.rename q) → pre r.program →
      Mirrored c (· = r.program) ren' post' (f r) (g (r.seenAs c.rename q))) :
    Mirrored c pre ren' post' (MonadState.get >>= f) (MonadState.get >>= g) where
  onward := onward
  relates {r s} related given fits := by
    obtain ⟨q, rfl⟩ : ∃ q, s = r.seenAs c.rename q := ⟨_, related.seen⟩
    exact (each related given).relates related rfl fits

lemma forM {f g : β → Resolve Unit} {l : List β} (each : ∀ b ∈ l, Plain c (f b) (g b)) :
    Plain c (l.forM f) (l.forM g) := by
  induction l with
  | nil => exact .pure fun _ _ => trivial
  | cons b l ih =>
    simp only [List.forM_eq_forM, List.forM_cons]
    refine (each b List.mem_cons_self).bind fun _ => ?_
    exact ih fun b member => each b (List.mem_cons_of_mem _ member)

end Mirrored

namespace Resolve

/-! ### Faults, scopes and names left open -/

/-- A change of the tables that adds no binding. -/
lemma modify_mirrored {f : Resolution → Resolution} (program : ∀ r, (f r).program = r.program)
    (home : ∀ r, (f r).home = r.home) (bindings : ∀ r, (f r).scopes.bindings = r.scopes.bindings)
    (same : ∀ r q, f (r.seenAs c.rename q) = (f r).seenAs c.rename q) : Mirrored.Plain c (modify f) (modify f) := by
  refine .own program home fun {r q} related _ => ⟨same r q, rfl, trivial, ?_⟩
  rw [after_modify, bindings]
  exact related.bound

lemma report_mirrored {faults : List Fault} : Mirrored.Plain c (report faults) (report faults) :=
  modify_mirrored (fun _ => rfl) (fun _ => rfl) (fun _ => rfl) fun _ _ => rfl

lemma refuseNested_mirrored {exported topLevel : Bool} {site : Span} :
    Mirrored.Plain c (refuseNested exported topLevel site) (refuseNested exported topLevel site) := by
  simp only [refuseNested]
  split
  · exact report_mirrored
  · exact .pure fun _ _ => trivial

lemma rejectIncoming_mirrored {incoming : Option Ty} {e : Expr} :
    Mirrored.Plain c (rejectIncoming incoming e) (rejectIncoming incoming e) := by
  simp only [rejectIncoming]
  split
  · exact report_mirrored
  · exact .pure fun _ _ => trivial

lemma rejectTailless_mirrored {incoming : Option Ty} {body : List Statement} {site : Span} :
    Mirrored.Plain c (rejectTailless incoming body site) (rejectTailless incoming body site) := by
  simp only [rejectTailless]
  split
  · exact report_mirrored
  · exact .pure fun _ _ => trivial

lemma record_mirrored {site : Span} {target : Target} {ty : Ty} {pre : Program → Prop} :
    Mirrored c pre id (fun p _ => pre p) (record site target ty) (record site (target.rename c.rename) ty) :=
  .own (fun _ => rfl) (fun _ => rfl) fun related given => ⟨rfl, rfl, given, related.bound⟩

lemma enter_mirrored {kind : ScopeKind} {range : Span} : Mirrored.Plain c (enter kind range) (enter kind range) :=
  .own (fun _ => rfl) (fun _ => rfl) fun related _ => ⟨rfl, rfl, trivial, related.bound⟩

lemma leave_mirrored {outer : ScopeId} : Mirrored.Plain c (leave outer) (leave outer) :=
  modify_mirrored (fun _ => rfl) (fun _ => rfl) (fun _ => rfl) fun _ _ => rfl

lemma leaveOpen_mirrored {ident : Ident} : Mirrored.Plain c (leaveOpen ident) (leaveOpen ident) :=
  modify_mirrored (fun _ => rfl) (fun _ => rfl) (fun _ => rfl) fun _ _ => rfl

lemma declare_mirrored {site : Span} {id : BindingId} : Mirrored.Plain c (declare site id) (declare site id) :=
  modify_mirrored (fun _ => rfl) (fun _ => rfl) (fun _ => rfl) fun _ _ => rfl

lemma loopSite_mirrored {site : Span} : Mirrored.Plain c
    (modify fun r => { r with loopSites := (r.current, site) :: r.loopSites })
    (modify fun r => { r with loopSites := (r.current, site) :: r.loopSites }) :=
  modify_mirrored (fun _ => rfl) (fun _ => rfl) (fun _ => rfl) fun _ _ => rfl

lemma addLoopTag_mirrored {tag : BindingId} {loop : ScopeId} :
    Mirrored.Plain c (addLoopTag tag loop) (addLoopTag tag loop) := by
  refine modify_mirrored (fun r => ?_) (fun r => ?_) (fun r => ?_) fun r q => ?_
  · split <;> rfl
  · split <;> rfl
  · split <;> rfl
  · have sites : (r.seenAs c.rename q).loopSites = r.loopSites := rfl
    rw [sites]
    split <;> rfl

variable (h : c.Reflects load load' mentions)
include h

lemma reportOpenNames_mirrored : Mirrored.Plain c reportOpenNames reportOpenNames := by
  refine modify_mirrored (fun _ => rfl) (fun _ => rfl) (fun _ => rfl) fun r q => ?_
  have same : openNameFault (r.scopes.rename c.rename) = openNameFault r.scopes := openNameFault_rename h.injective
  simp only [Resolution.seenAs, same]

/-! ### Bindings and exports -/

lemma install_mirrored {b : Binding} : Mirrored c (fun p => b.target.Known (c.known p)) id (fun _ _ => True)
    (install b) (install (b.rename c.rename)) := by
  have cases (r : Resolution) : (obstacle? r.program.policy r.scopes b = none ∧ answer (install b) r =
        some r.scopes.nextBinding ∧ after (install b) r = { r with scopes := r.scopes.insert b }) ∨
      ∃ other, obstacle? r.program.policy r.scopes b = some other ∧ answer (install b) r = none ∧
        after (install b) r = { r with faults := r.faults ++ [.nameCollision b.name b.site other.site] } := by
    cases free : obstacle? r.program.policy r.scopes b with
    | none => exact Or.inl ⟨rfl, install_free free⟩
    | some other => exact Or.inr ⟨other, rfl, install_taken free⟩
  refine .own (fun r => ?_) (fun r => ?_) fun {r q} related known => ?_
  · obtain ⟨-, -, next⟩ | ⟨other, -, -, next⟩ := cases r <;> rw [next]
  · obtain ⟨-, -, next⟩ | ⟨other, -, -, next⟩ := cases r <;> rw [next]
  · have seen : obstacle? (r.seenAs c.rename q).program.policy (r.seenAs c.rename q).scopes (b.rename c.rename) =
        (obstacle? r.program.policy r.scopes b).map (Binding.rename c.rename) := by
      have policy : q.policy = r.program.policy := h.policy related.program
      show obstacle? q.policy (r.scopes.rename c.rename) _ = _
      rw [policy, obstacle?_rename h.injective]
    obtain ⟨free, found, next⟩ | ⟨other, taken, found, next⟩ := cases r
    · rw [free] at seen
      obtain ⟨found', next'⟩ := install_free seen
      have inserted : (r.scopes.insert b).rename c.rename = (r.scopes.rename c.rename).insert (b.rename c.rename) :=
        Scopes.insert_rename
      rw [found, next, found', next']
      refine ⟨?_, congrArg some Scopes.nextBinding_rename, trivial, fun b' member => ?_⟩
      · simp only [Resolution.seenAs, inserted]
      · simp only [Scopes.insert, Array.mem_push] at member
        rcases member with old | rfl
        · exact related.bound b' old
        · exact known
    · rw [taken] at seen
      obtain ⟨found', next'⟩ := install_taken seen
      rw [found, next, found', next']
      exact ⟨rfl, rfl, trivial, related.bound⟩

lemma introduce_mirrored {b : Binding} : Mirrored c (fun p => b.target.Known (c.known p)) id (fun _ _ => True)
    (introduce b) (introduce (b.rename c.rename)) := by
  refine (install_mirrored h).bind fun found => ?_
  cases found with
  | none => exact .pure fun _ _ => trivial
  | some id => exact declare_mirrored.given.bind fun _ => .pure fun _ _ => trivial

omit h in
lemma publish_cases {e : Export} (r : Resolution) : (∃ exports, (r.program.exportsOf r.home).insert e = .ok exports ∧
      after (publish e) r = { r with program := r.program.offer r.home fun _ => exports }) ∨
    ∃ first, (r.program.exportsOf r.home).insert e = .error first ∧
      after (publish e) r = { r with faults := r.faults ++ [.duplicateExport e.name e.site first.site] } := by
  cases inserted : (r.program.exportsOf r.home).insert e with
  | ok exports => exact Or.inl ⟨exports, rfl, publish_new inserted⟩
  | error first => exact Or.inr ⟨first, rfl, publish_taken inserted⟩

/-- Both modules offer something else that is known. -/
lemma offer_relates {r : Resolution} {q : Program} {f g : Exports → Exports} (related : c.Relates r (r.seenAs c.rename q))
    (same : ∀ t, g (t.rename c.rename) = (f t).rename c.rename)
    (offers : ∀ e ∈ (f (r.program.exportsOf c.home)).entries, e.target.Known (c.known r.program)) :
    c.Relates { r with program := r.program.offer r.home f }
      { r.seenAs c.rename q with program := q.offer (c.rename r.home) g } := by
  have kept : ∀ id, c.known r.program id → c.known (r.program.offer r.home f) id := (h.offerOnward _ _ _).known
  refine ⟨rfl, ?_, related.home, fun b member => (related.bound b member).mono kept, fun e member => ?_⟩
  · rw [related.home]
    exact h.offer f g same related.program
  · rw [related.home] at member
    have cases : (r.program.offer c.home f).exportsOf c.home = f (r.program.exportsOf c.home) ∨
        (r.program.offer c.home f).exportsOf c.home = .empty := Program.exportsOf_offer
    rcases cases with entries | entries
    · rw [entries] at member
      exact (offers e member).mono kept
    · rw [entries] at member
      cases member

lemma publish_mirrored {e : Export} : Mirrored c (fun p => e.target.Known (c.known p)) id (fun _ _ => True)
    (publish e) (publish (e.rename c.rename)) where
  onward r := by
    obtain ⟨exports, -, next⟩ | ⟨first, -, next⟩ := publish_cases (e := e) r
    · rw [next]
      have onward : c.Onward r.program (r.program.offer r.home fun _ => exports) := h.offerOnward _ _ _
      exact onward
    · rw [next]
      exact .refl
  relates {r s} related known fits := by
    obtain ⟨q, rfl⟩ : ∃ q, s = r.seenAs c.rename q := ⟨_, related.seen⟩
    have seen : (q.exportsOf (c.rename r.home)).insert (e.rename c.rename) =
        (((r.program.exportsOf r.home).insert e).map (Exports.rename c.rename)).mapError (Export.rename c.rename) := by
      have offered : q.exportsOf (c.rename c.home) = (r.program.exportsOf c.home).rename c.rename :=
        h.offered related.program
      rw [related.home, offered, Exports.insert_rename]
    obtain ⟨exports, inserted, next⟩ | ⟨first, inserted, next⟩ := publish_cases (e := e) r
    · rw [inserted] at seen
      have next' : after (publish (e.rename c.rename)) (r.seenAs c.rename q) = { r.seenAs c.rename q with
          program := q.offer (c.rename r.home) fun _ => exports.rename c.rename } := publish_new seen
      rw [next, next']
      refine ⟨offer_relates h related (fun _ => rfl) fun e' member => ?_, rfl, trivial⟩
      simp only [Exports.insert] at inserted
      split at inserted
      · cases inserted
      · cases inserted
        rcases List.mem_append.1 member with old | new
        · rw [related.home] at old
          exact related.offers e' old
        · rw [List.mem_singleton.1 new]
          exact known
    · rw [inserted] at seen
      have next' := publish_taken (r := r.seenAs c.rename q) seen
      rw [next, next']
      exact ⟨⟨rfl, related.program, related.home, related.bound, related.offers⟩, rfl, trivial⟩

/-! ### Declarations -/

lemma declareInner_mirrored {ident : Ident} {visibleFrom : Nat} {ty : Ty} {origin : Origin} :
    Mirrored.Plain c (declareInner ident visibleFrom ty origin) (declareInner ident visibleFrom ty origin) := by
  let b (scopes : Scopes) (current : ScopeId) : Binding :=
    ⟨ident.name, ident.name, .inner scopes.nextBinding, current, visibleFrom, ident.span, ty, origin, []⟩
  have introduced (scopes : Scopes) (current : ScopeId) : Mirrored.Plain c
      (introduce (b scopes current)) (introduce (b (scopes.rename c.rename) current)) := by
    have same : b (scopes.rename c.rename) current = (b scopes current).rename c.rename := by
      simp only [b, Scopes.nextBinding_rename]
      rfl
    rw [same]
    exact (introduce_mirrored h).weaken (fun _ _ => trivial) fun _ _ => id
  refine .get (fun r => ?_) fun {r q} _ _ => ?_
  · exact (introduced r.scopes r.current).onward r
  · exact (Mirrored.Plain.given (introduced r.scopes r.current)).bind fun _ => .pure fun _ _ => trivial

lemma declareTag_mirrored {tag : Ident} {visibleFrom : Nat} {ty : Ty} :
    Mirrored.Plain c (declareTag tag visibleFrom ty) (declareTag tag visibleFrom ty) := by
  let b (scopes : Scopes) (current : ScopeId) : Binding := ⟨tag.name, tag.name, .inner scopes.nextBinding,
    (scopes.tagHome current).1, visibleFrom, tag.span, ty, .tag, (scopes.tagHome current).2⟩
  have declared (scopes : Scopes) (current : ScopeId) : Mirrored.Plain c
      (introduce (b scopes current) >>= collect (scopes.tagHome current).2)
      (introduce (b (scopes.rename c.rename) current) >>= collect (scopes.tagHome current).2) := by
    have same : b (scopes.rename c.rename) current = (b scopes current).rename c.rename := by
      simp only [b, Scopes.nextBinding_rename, Scopes.tagHome_rename]
      rfl
    rw [same]
    have introduced : Mirrored.Plain c (introduce (b scopes current)) (introduce ((b scopes current).rename c.rename)) :=
      (introduce_mirrored h).weaken (fun _ _ => trivial) fun _ _ => id
    refine introduced.bind fun found => ?_
    cases found with
    | none => exact .pure fun _ _ => trivial
    | some id => exact Mirrored.forM fun loop _ => addLoopTag_mirrored
  exact .get (fun r => (declared r.scopes r.current).onward r) fun {r q} _ _ => (declared r.scopes r.current).given

lemma define_mirrored {exported topLevel isFunction : Bool} {name : Ident} {ty : Ty} {span : Span} :
    Mirrored.Plain c (define exported topLevel name isFunction ty span)
      (define exported topLevel name isFunction ty span) := by
  by_cases offers : (exported && topLevel) = true
  · let b (home : ModuleId) (current : ScopeId) : Binding :=
      ⟨name.name, name.name, .item home name.name, current, span.stop, name.span, ty, .declaration, []⟩
    let e (home : ModuleId) : Export :=
      ⟨name.name, .item home name.name, if isFunction then .function else .constant, name.span, ty, false⟩
    have defined (home : ModuleId) (current : ScopeId) : Mirrored.Plain c (introduce (b home current) >>= offer (e home))
        (introduce (b (c.rename home) current) >>= offer (e (c.rename home))) := by
      have introduced : Mirrored.Plain c (introduce (b home current)) (introduce (b (c.rename home) current)) :=
        (introduce_mirrored (b := b home current) h).weaken (fun _ _ => trivial) fun _ _ => id
      refine introduced.bind fun found => ?_
      cases found with
      | none => exact .pure fun _ _ => trivial
      | some _ =>
        have published : Mirrored c (fun p => (e home).target.Known (c.known p)) id (fun _ _ => True)
          (publish (e home)) (publish ((e home).rename c.rename)) := publish_mirrored h
        exact published.weaken (fun _ _ => trivial) fun _ _ => id
    simp only [define, offers, if_true]
    exact .get (fun r => (defined r.home r.current).onward r) fun {r q} _ _ => (defined r.home r.current).given
  · simp only [define, offers]
    exact declareInner_mirrored h

/-! ### Uses -/

lemma checkHostCall_mirrored {target : Target} {positional : Nat} {keywords : List Ident} {site : Span} :
    Mirrored.Plain c (checkHostCall target positional keywords site)
      (checkHostCall (target.rename c.rename) positional keywords site) := by
  cases target with
  | host name =>
    let check (signature : Option Signature) : Resolve Unit := checkSignature name positional keywords site signature
    have checked (signature : Option Signature) : Mirrored.Plain c (check signature) (check signature) := by
      cases signature with
      | none => exact .pure fun _ _ => trivial
      | some signature => exact report_mirrored
    refine .get (f := fun r => check (r.program.hosts.signature? name)) (fun r => (checked _).onward r)
      fun {r q} related _ => ?_
    have hosts : q.hosts = r.program.hosts := h.hosts related.program
    show Mirrored c _ id _ (check (r.program.hosts.signature? name)) (check (q.hosts.signature? name))
    rw [hosts]
    exact Mirrored.Plain.given (checked _)
  | _ => exact .pure fun _ _ => trivial

lemma stageType_mirrored {incoming : Option Ty} {site : Span} {found : Option (Target × Ty)} :
    Mirrored.Plain c (stageType incoming site found)
      (stageType incoming site (found.map fun known => (known.1.rename c.rename, known.2))) := by
  cases found with
  | none => exact .pure fun _ _ => trivial
  | some known =>
    obtain ⟨target, ty⟩ := known
    simp only [stageType, Option.map_some]
    split
    · exact (checkHostCall_mirrored h).bind fun _ => .pure fun _ _ => trivial
    · exact .pure fun _ _ => trivial

lemma useHost_mirrored {name : String} {site : Span} : Mirrored.Found c (useHost name site) (useHost name site) := by
  let use := useSignature name site
  have used (signature : Option Signature) : Mirrored.Found c (use signature) (use signature) := by
    cases signature with
    | none => exact .pure fun _ _ => nofun
    | some signature =>
      have recorded : Mirrored.Plain c (record site (.host name) (.function signature.returns))
        (record site (.host name) (.function signature.returns)) := record_mirrored
      exact recorded.bind fun _ => .pure fun _ _ known same => by
        cases same
        trivial
  refine .get (f := fun r => use (r.program.hosts.signature? name)) (fun r => (used _).onward r) fun {r q} related _ => ?_
  have hosts : q.hosts = r.program.hosts := h.hosts related.program
  show Mirrored c _ _ _ (use (r.program.hosts.signature? name)) (use (q.hosts.signature? name))
  rw [hosts]
  exact (used _).weaken (fun _ _ => trivial) fun _ _ => id

lemma useHostOrLeave_mirrored {name : String} {site : Span} {ident : Ident} :
    Mirrored.Found c (useHostOrLeave name site ident) (useHostOrLeave name site ident) := by
  refine (useHost_mirrored h).bind fun found => ?_
  cases found with
  | none => exact leaveOpen_mirrored.given.bind fun _ => .pure fun _ _ => nofun
  | some known => exact .pure fun _ same => same

omit h in
lemma target_known {scopes : Scopes} {known : ModuleId → Prop} (bound : ∀ b ∈ scopes.bindings, b.target.Known known)
    {id : BindingId} : (scopes.target id).Known known := by
  unfold Scopes.target
  split
  · next b found => exact bound b (Array.mem_of_getElem? found)
  · trivial

lemma useName_mirrored {ident : Ident} : Mirrored.Found c (useName ident) (useName ident) := by
  let use := useFound ident
  have used (scopes : Scopes) (current : ScopeId) (found : Lookup) :
      Mirrored c (fun p => ∀ b ∈ scopes.bindings, b.target.Known (c.known p))
        (Option.map fun known => (known.1.rename c.rename, known.2))
        (fun p found => ∀ known ∈ found, known.1.Known (c.known p))
        (use scopes current found) (use (scopes.rename c.rename) current found) := by
    cases found with
    | found there =>
      simp only [use, useFound, Scopes.target_rename, Target.rename_eq_invalid, Scopes.typeAt_rename]
      split
      · exact .none
      · have recorded : Mirrored c (fun p => ∀ b ∈ scopes.bindings, b.target.Known (c.known p)) id
            (fun p _ => ∀ b ∈ scopes.bindings, b.target.Known (c.known p))
            (record ident.span (scopes.target there) (scopes.typeAt there current))
            (record ident.span ((scopes.target there).rename c.rename) (scopes.typeAt there current)) := record_mirrored
        refine recorded.bind fun _ => .pure fun p bound known same => ?_
        cases same
        exact target_known bound
    | ambiguous ids =>
      simp only [use, useFound, siteOf_rename]
      exact report_mirrored.given.bind fun _ => .none
    | notYetDeclared id =>
      simp only [use, useFound, siteOf_rename]
      exact report_mirrored.given.bind fun _ => .none
    | notFound => exact (useHostOrLeave_mirrored h).weaken (fun _ _ => trivial) fun _ _ => id
  refine .get (fun r => (used r.scopes r.current _).onward r) fun {r q} related _ => ?_
  have looked : (r.scopes.rename c.rename).lookup r.current ident.name ident.span.start =
    r.scopes.lookup r.current ident.name ident.span.start := Scopes.lookup_rename h.injective
  show Mirrored c _ _ _ (use r.scopes r.current _)
    (use (r.scopes.rename c.rename) r.current ((r.scopes.rename c.rename).lookup r.current ident.name ident.span.start))
  rw [looked]
  refine (used _ _ _).weaken (fun p same => ?_) fun _ _ => id
  rw [same]
  exact related.bound

omit h in
lemma followPath_program {site : Span} {target : Target} {ty : Ty} {before : Ident} {rest : List Ident} (r : Resolution) :
    (after (followPath site target ty before rest) r).program = r.program := by
  induction rest generalizing target ty before with
  | nil => rfl
  | cons segment rest ih =>
    cases target with
    | module id =>
      simp only [followPath, after_bind, answer_get, after_get]
      split
      · rfl
      · split
        · exact ih
        · rfl
    | _ => rfl

lemma followPath_mirrored {site : Span} {target : Target} {ty : Ty} {before : Ident} {rest : List Ident} :
    Mirrored c (fun p => target.Known (c.known p)) (Option.map fun known => (known.1.rename c.rename, known.2))
      (fun p found => ∀ known ∈ found, known.1.Known (c.known p)) (followPath site target ty before rest)
      (followPath site (target.rename c.rename) ty before rest) := by
  induction rest generalizing target ty before with
  | nil =>
    have recorded : Mirrored c (fun p => target.Known (c.known p)) id (fun p _ => target.Known (c.known p))
      (record site target ty) (record site (target.rename c.rename) ty) := record_mirrored
    refine recorded.bind fun _ => .pure fun p known _ same => ?_
    cases same
    exact known
  | cons segment rest ih =>
    cases target with
    | module id =>
      let follow := followInto site segment rest
      have followed {m m' : LoadedModule} (shows : m.ShowsAs c.rename m') :
          Mirrored c (fun p => ∀ e ∈ m.exports.entries, e.target.Known (c.known p))
            (Option.map fun known => (known.1.rename c.rename, known.2))
            (fun p found => ∀ known ∈ found, known.1.Known (c.known p)) (follow (some m)) (follow (some m')) := by
        simp only [follow, followInto, shows.exports, shows.path, shows.status, Exports.get?_rename]
        cases exported : m.exports.get? segment.name with
        | none => exact report_mirrored.given.bind fun _ => .pure fun _ _ => nofun
        | some e =>
          refine ih.weaken (fun p known => ?_) fun _ _ known => known
          exact known e (List.mem_of_find?_eq_some exported)
      refine .get (f := fun r => follow r.program.modules[(id : Nat)]?) (fun r => ?_) fun {r q} related known => ?_
      · have kept : (after (followPath site (.module id) ty before (segment :: rest)) r).program = r.program :=
          followPath_program r
        have onward : c.Onward r.program (after (followPath site (.module id) ty before (segment :: rest)) r).program :=
          kept ▸ .refl
        exact onward
      · have alike : c.alike r.program q := related.program
        show Mirrored c _ _ _ (follow r.program.modules[(id : Nat)]?) (follow q.modules[(c.rename id : Nat)]?)
        cases found : r.program.modules[(id : Nat)]? with
        | none =>
          rw [h.missing alike known found]
          exact .pure fun _ _ => nofun
        | some m =>
          obtain ⟨m', found', shows, exports⟩ := h.shown alike known found
          rw [found']
          refine (followed shows).weaken (fun p same => ?_) fun _ _ known => known
          rw [same]
          exact exports
    | _ => exact report_mirrored.given.bind fun _ => .pure fun _ _ => nofun

lemma usePath_mirrored {head : Ident} {rest : List Ident} {site : Span} :
    Mirrored.Found c (usePath head rest site) (usePath head rest site) := by
  have goes : Mirrored.Found c (useHead head rest site) (useHead head rest site) := by
    refine (useName_mirrored h).bind fun found => ?_
    cases found with
    | none => exact .pure fun _ _ => nofun
    | some known => exact (followPath_mirrored h).weaken (fun p all => all known rfl) fun _ _ => id
  let use := usePathFound head rest site
  have used (found : Lookup) : Mirrored.Found c (use found) (use found) := by
    cases found with
    | notFound => exact useHostOrLeave_mirrored h
    | _ => exact goes
  refine .get (f := fun r => use (r.scopes.lookup r.current head.name head.span.start)) (fun r => (used _).onward r)
    fun {r q} related _ => ?_
  have looked : (r.scopes.rename c.rename).lookup r.current head.name head.span.start =
    r.scopes.lookup r.current head.name head.span.start := Scopes.lookup_rename h.injective
  show Mirrored c _ _ _ (use _) (use ((r.scopes.rename c.rename).lookup r.current head.name head.span.start))
  rw [looked]
  exact (used _).weaken (fun _ _ => trivial) fun _ _ => id

end Resolve

end PipeLang
