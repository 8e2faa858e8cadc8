import PipeLang.Proofs.Load.Sound
import PipeLang.Proofs.Resolve.Tidy

/-!
# Sound resolutions

What a resolution under way knows beyond the program agrees with it, and every move keeps it so: `Moves.sound`.
-/

namespace PipeLang

/-- One more resolution is under way. -/
def Underway.plus (u : Underway) (r : Resolution) : Underway where
  imports i t := u.imports i t ∨ (i = r.home ∧ ∃ site, r.imports.get? site = some t)
  faulty i := u.faulty i ∨ (i = r.home ∧ r.faults ≠ [])

/-- Loading a module keeps a program sound, whatever else is under way. -/
def Loader.KeepsSound (load : Loader) : Prop :=
  ∀ (u : Underway) (p : Program) (path : String), p.Offers → p.Sound u [] →
    (load p path).2.Sound u [] ∧ p.Grows (load p path).2

/-- A resolution of a module whose syntax is given, while others are under way. -/
structure Resolution.Sound (u : Underway) (ast : Module) (r : Resolution) : Prop where
  program : r.program.Sound (u.plus r) []
  home : ∃ m, r.program.modules[(r.home : Nat)]? = some m ∧ m.status = .loading ∧ m.ast = some ast ∧ m.resolved = none
  bindings : ∀ {id : Nat} {b}, r.scopes.bindings[id]? = some b →
    b.target.Reached (r.program.Leads (u.plus r)) r.home
  references : ∀ {s ref}, r.references.get? s = some ref → ref.target.Reached (r.program.Leads (u.plus r)) r.home
  host : ∀ {s ref name}, r.references.get? s = some ref → ref.target = .host name →
    (r.program.hosts.get? name).isSome
  faults : r.faults ≠ [] → (∃ f ∈ r.faults, f.isPassedOn = false) ∨
    ∃ site t, r.imports.get? site = some t ∧ r.program.Fails t

namespace Resolution

variable {u : Underway} {ast : Module} {r r' : Resolution}

lemma Sound.inside (h : r.Sound u ast) : r.home < r.program.modules.size := by
  obtain ⟨m, found, -⟩ := h.home
  exact (Array.getElem?_eq_some_iff.1 found).1

/-- What a use can mean can be got at. -/
lemma Sound.meant (h : r.Sound u ast) (tidy : r.Tidy) {target : Target} (meant : r.Meant target) :
    target.Reached (r.program.Leads (u.plus r)) r.home ∧
      ∀ name, target = .host name → (r.program.hosts.get? name).isSome := by
  induction meant with
  | bound found valid =>
    exact ⟨h.bindings found, fun name same => absurd same ((tidy.bindable found).ne_host name)⟩
  | host known =>
    refine ⟨trivial, fun name same => ?_⟩
    cases same
    obtain ⟨f, found, -⟩ := Option.map_eq_some_iff.1 known
    simp [found]
  | through _ found member ih =>
    refine ⟨(h.program.exports found _ member).through ih.1, fun name same => ?_⟩
    have offered := tidy.offers _ _ found _ member
    rw [same] at offered
    cases offered

/-- What an import brings can be got at. -/
lemma Sound.brings (h : r.Sound u ast) {target : Target} (brings : r.Brings target) :
    target.Reached (r.program.Leads (u.plus r)) r.home := by
  obtain ⟨site, id, m, known, found, rest⟩ := brings
  have leads : r.program.Leads (u.plus r) r.home id := Or.inr (Or.inr ⟨rfl, site, known⟩)
  rcases rest with rfl | ⟨e, member, rfl⟩
  · exact .single leads
  · exact (h.program.exports found e member).through (.single leads)

/-- More faults of its own, but nothing else. -/
lemma Sound.report {faults : List Fault} (h : r.Sound u ast) (own : ∀ f ∈ faults, f.isPassedOn = false) :
    { r with faults := r.faults ++ faults }.Sound u ast where
  program := h.program.moreFaulty fun i => Or.imp_right fun ⟨same, faulty⟩ => ⟨same, by simp [faulty]⟩
  home := h.home
  bindings := h.bindings
  references := h.references
  host := h.host
  faults faulty := by
    by_cases before : r.faults = []
    · rw [before, List.nil_append] at faulty
      obtain ⟨f, member⟩ := List.exists_mem_of_ne_nil _ faulty
      exact Or.inl ⟨f, List.mem_append_right _ member, own f member⟩
    · exact (h.faults before).imp_left fun ⟨f, member, own⟩ => ⟨f, List.mem_append_left _ member, own⟩

/-- A module may offer more while it is resolved, as long as it gets at it. -/
lemma Sound.offer {f : Exports → Exports} (h : r.Sound u ast)
    (retains : r.program.Retains (r.program.modify r.home fun m => { m with exports := f m.exports }))
    (reached : ∀ m, r.program.modules[(r.home : Nat)]? = some m → ∀ e ∈ (f m.exports).entries,
      e ∈ m.exports.entries ∨ e.target.Reached (r.program.Leads (u.plus r)) r.home) :
    { r with program := r.program.modify r.home fun m => { m with exports := f m.exports } }.Sound u ast := by
  have leads : (r.program.modify r.home fun m => { m with exports := f m.exports }).Leads (u.plus r) =
      r.program.Leads (u.plus r) := Program.leads_modify fun _ _ => rfl
  have fails : (r.program.modify r.home fun m => { m with exports := f m.exports }).Fails = r.program.Fails :=
    Program.fails_modify fun _ _ => rfl
  refine ⟨?_, ?_, fun {id b} found => ?_, fun {s ref} found => ?_, h.host, fun faulty => ?_⟩
  · refine h.program.modify retains (fun m _ => ⟨rfl, rfl, rfl, Or.inl rfl⟩) fun m found e member => ?_
    exact (reached m found e member).elim (h.program.exports found e) id
  · obtain ⟨m, found, rest⟩ := h.home
    exact ⟨{ m with exports := f m.exports }, by simp [Program.modify_modules, found], rest⟩
  · exact leads ▸ h.bindings found
  · exact leads ▸ h.references found
  · exact (h.faults faulty).imp_right fun ⟨site, t, known, failed⟩ => ⟨site, t, known, fails ▸ failed⟩

/-- One more import under way. -/
lemma Sound.imported {site : Span} {target : Nat} (edges : List ImportEdge) (faults : List Fault) (h : r.Sound u ast)
    (fresh : r.imports.get? site = none) (there : target < r.program.modules.size)
    (new : ∀ e ∈ edges, e.importer = r.home ∧ e.target = target ∧
      ∀ m, r.program.modules[target]? = some m → m.status = .loaded → m.faults = [])
    (known : (faults = [] ∧ ∃ e ∈ edges, e.importer = r.home ∧ e.target = target) ∨
      (faults ≠ [] ∧ r.program.Fails target)) :
    { r with
      imports := r.imports.insert site target
      program := { r.program with edges := r.program.edges ++ edges }
      faults := r.faults ++ faults }.Sound u ast := by
  have kept {s : Span} {t : ModuleId} (found : r.imports.get? s = some t) :
      (r.imports.insert site target).get? s = some t := by
    rw [SpanTable.get?_insert]
    split
    · next same =>
      subst same
      simp [fresh] at found
    · exact found
  have added : (r.imports.insert site target).get? site = some target := by simp [SpanTable.get?_insert]
  have imports (i t : ModuleId) : (i = r.home ∧ ∃ s, (r.imports.insert site target).get? s = some t) ↔
      (i = r.home ∧ ∃ s, r.imports.get? s = some t) ∨ (i = r.home ∧ t = target) := by
    constructor
    · rintro ⟨same, s, found⟩
      rw [SpanTable.get?_insert] at found
      split at found
      · exact Or.inr ⟨same, (Option.some.inj found).symm⟩
      · exact Or.inl ⟨same, s, found⟩
    · rintro (⟨same, s, found⟩ | ⟨same, rfl⟩)
      · exact ⟨same, s, kept found⟩
      · exact ⟨same, site, added⟩
  let r' : Resolution := { r with
    imports := r.imports.insert site target
    program := { r.program with edges := r.program.edges ++ edges }
    faults := r.faults ++ faults }
  have leads (i t : ModuleId) (known : r.program.Leads (u.plus r) i t) : r'.program.Leads (u.plus r') i t :=
    known.imp_right (Or.imp_right fun ⟨same, s, found⟩ => ⟨same, s, kept found⟩)
  refine ⟨?_, h.home, fun found => (h.bindings found).mono leads, fun found => (h.references found).mono leads, h.host,
    fun faulty => ?_⟩
  · refine h.program.imported h.inside there (fun i t => ?_) (fun i => Or.imp_right fun ⟨same, faulty⟩ =>
      ⟨same, by simp [faulty]⟩) new (known.imp And.right fun ⟨faulty, _⟩ => Or.inr ⟨rfl, by simp [faulty]⟩)
    exact (or_congr_right (imports i t)).trans or_assoc.symm
  · by_cases before : r.faults = []
    · rcases known with ⟨none, -⟩ | ⟨-, failed⟩
      · simp [before, none] at faulty
      · exact Or.inr ⟨site, target, added, failed⟩
    · rcases h.faults before with ⟨f, member, own⟩ | ⟨s, t, found, failed⟩
      · exact Or.inl ⟨f, List.mem_append_left _ member, own⟩
      · exact Or.inr ⟨s, t, kept found, failed⟩

end Resolution

variable {load : Loader} {lo hi : Nat} {u : Underway} {ast : Module} {r r' : Resolution}

/-- One more binding of what can be got at, and what its name introduces. -/
lemma Resolution.Sound.declaring {b : Binding} (h : r.Sound u ast)
    (reached : b.target.Reached (r.program.Leads (u.plus r)) r.home) : (r.declaring b).Sound u ast := by
  refine { h with bindings := fun found => ?_ }
  rcases Scopes.bindings_insert found with old | ⟨-, rfl⟩
  · exact h.bindings old
  · exact reached

/-- A module may offer one more thing that it gets at. -/
lemma Resolution.Sound.offerOne {e : Export} {exports : Exports} (h : r.Sound u ast)
    (inserted : (r.program.exportsOf r.home).insert e = .ok exports)
    (reached : e.target.Reached (r.program.Leads (u.plus r)) r.home) :
    { r with program := r.program.modify r.home fun m => { m with exports := exports } }.Sound u ast := by
  refine h.offer (f := fun _ => exports) (Program.offer_retains inserted) fun m known e' member => ?_
  have exportsOf : r.program.exportsOf r.home = m.exports := by simp [Program.exportsOf, known]
  rw [exportsOf] at inserted
  rcases Exports.mem_insert inserted member with old | rfl
  · exact Or.inl old
  · exact Or.inr reached

/-- A use is recorded of something that can be got at. -/
lemma Resolution.Sound.recorded {site : Span} {target : Target} {type : Ty} (h : r.Sound u ast)
    (reached : target.Reached (r.program.Leads (u.plus r)) r.home)
    (host : ∀ name, target = .host name → (r.program.hosts.get? name).isSome) :
    { r with references := r.references.insert site ⟨target, type⟩ }.Sound u ast := by
  refine { h with references := fun {s ref} found => ?_, host := fun {s ref name} found same => ?_ }
  all_goals
    rw [SpanTable.get?_insert] at found
    split at found
  · cases found
    exact reached
  · exact h.references found
  · cases found
    exact host name same
  · exact h.host found same

/-- A module may be loaded while another is resolved. -/
lemma Resolution.Sound.loading {q : Program} (h : r.Sound u ast) (sound : q.Sound (u.plus r) []) (grows : r.program.Grows q) :
    { r with program := q }.Sound u ast where
  program := sound
  home := by
    obtain ⟨m, found, loading, parsed, unresolved⟩ := h.home
    obtain ⟨m', found', status, ast', resolved, -⟩ := grows.modules found
    exact ⟨m', found', status.trans loading, ast'.trans parsed, resolved.trans unresolved⟩
  bindings found := (h.bindings found).mono fun _ _ => grows.leads
  references found := (h.references found).mono fun _ _ => grows.leads
  host found same := by
    rw [grows.hosts]
    exact h.host found same
  faults faulty := by
    refine (h.faults faulty).imp_right fun passedOn => ?_
    obtain ⟨site, t, known, failed⟩ := passedOn
    exact ⟨site, t, known, grows.fails failed⟩

/-- What is reported of a name that was left open is a fault of its own. -/
lemma Resolve.openNameFault_own (scopes : Scopes) (n : OpenName) : (openNameFault scopes n).isPassedOn = false := by
  simp only [openNameFault]
  split <;> rfl

/-- A move keeps a resolution sound. -/
lemma Move.sound (keeps : load.KeepsSound) (move : Move load lo hi r r') (tidy : r.Tidy) (h : r.Sound u ast) :
    r'.Sound u ast := by
  cases move with
  | report own => exact h.report own
  | @record site target ty within fresh meant seen =>
    obtain ⟨reached, host⟩ := h.meant tidy meant
    exact h.recorded reached host
  | enter | leave | collect | loop | leaveOpen => exact { h with }
  | @bind b free scope crosses from_ upTo sources =>
    refine { h with bindings := fun found => ?_ }
    rcases Scopes.bindings_insert found with found | ⟨-, rfl⟩
    · exact h.bindings found
    · exact h.brings sources.brings
  | keep =>
    refine { h with bindings := fun found => ?_ }
    rcases Scopes.bindings_insert found with found | ⟨-, rfl⟩
    · exact h.bindings found
    · trivial
  | declare declarable target => exact h.declaring (target ▸ trivial)
  | @define b e exports declarable target top name target' site own inserted =>
    have reached : b.target.Reached (r.program.Leads (u.plus r)) r.home := target ▸ .refl
    exact (h.declaring reached).offerOne inserted (target' ▸ reached)
  | @redefine b fault declarable target own =>
    have reached : b.target.Reached (r.program.Leads (u.plus r)) r.home := target ▸ .refl
    exact (h.declaring reached).report (by simpa using own)
  | forward inserted brings => exact h.offerOne inserted (h.brings brings)
  | @load path =>
    obtain ⟨sound, grows⟩ := keeps (u.plus r) r.program path tidy.offers h.program
    exact h.loading sound grows
  | @accept site target m place within fresh last found usable =>
    have there := (Array.getElem?_eq_some_iff.1 found).1
    have := h.imported [⟨r.home, target, place⟩] [] fresh there (fun e member => ?_)
      (Or.inl ⟨rfl, _, List.mem_singleton_self _, rfl, rfl⟩)
    · simpa [Program.addEdge] using this
    · cases List.mem_singleton.1 member
      refine ⟨rfl, rfl, fun m' found' loaded => ?_⟩
      rw [found, Option.some.injEq] at found'
      subst found'
      by_contra faulty
      exact usable ⟨loaded, faulty⟩
  | @refuse site target m place within fresh last found faulty =>
    have there := (Array.getElem?_eq_some_iff.1 found).1
    have failed : r.program.Fails target := by rwa [Program.Fails, Program.faultsOf_some found]
    have := h.imported [] [.dependencyFailed m.path.render place] fresh there (List.forall_mem_nil _)
      (Or.inr ⟨by simp, failed⟩)
    simpa using this
  | @assembly place =>
    exact h.offer (f := fun e => { e with assembly := place }) (Program.modify_retains fun _ => rfl)
      fun m found e member => Or.inl member
  | settle =>
    have own : ∀ f ∈ r.openNames.map (Resolve.openNameFault r.scopes), f.isPassedOn = false := by
      intro f member
      obtain ⟨n, -, rfl⟩ := List.mem_map.1 member
      exact Resolve.openNameFault_own r.scopes n
    exact { h.report own with }

/-- A move loses no module. -/
lemma Move.grows (keeps : load.KeepsSound) (move : Move load lo hi r r') (tidy : r.Tidy) (h : r.Sound u ast) :
    r.program.Grows r'.program := by
  have offer {f : LoadedModule → LoadedModule} (same : ∀ m, (f m).status = m.status ∧ (f m).ast = m.ast ∧
      (f m).resolved = m.resolved ∧ m.faults ⊆ (f m).faults) : r.program.Grows (r.program.modify r.home f) := by
    refine ⟨rfl, fun {i m} found => ?_, fun {i m} found _ => ?_⟩
    · by_cases home : r.home = i
      · exact ⟨f m, by simp [Program.modify_modules, home, found], same m⟩
      · exact ⟨m, by simp [Program.modify_modules, home, found], rfl, rfl, rfl, List.Subset.refl _⟩
    · simpa [Program.modify] using (Array.getElem?_eq_some_iff.1 found).1
  cases move with
  | define | forward | assembly => exact offer fun m => ⟨rfl, rfl, rfl, List.Subset.refl _⟩
  | @load path => exact (keeps (u.plus r) r.program path tidy.offers h.program).2
  | accept => exact { Program.Grows.refl with hosts := rfl }
  | _ => exact .refl

/-- Moves keep a resolution sound and lose no module. -/
theorem Moves.sound (keeps : load.KeepsOffers) (sound : load.KeepsSound) (moves : Moves load lo hi r r')
    (tidy : r.Tidy) (h : r.Sound u ast) : r'.Sound u ast ∧ r.program.Grows r'.program := by
  induction moves with
  | refl => exact ⟨h, .refl⟩
  | tail before move ih =>
    have tidy' := Moves.tidy keeps before tidy
    exact ⟨move.sound sound tidy' ih.1, ih.2.trans (move.grows sound tidy' ih.1)⟩

/-- A resolution that starts knows nothing beyond the program. -/
lemma Underway.plus_start {p : Program} {home : ModuleId} {range : Span} :
    u.plus (.start p home range) = u := by
  cases u
  simp [Underway.plus, Resolution.start]

lemma Resolution.sound_start {p : Program} {home : Nat} {m : LoadedModule} {range : Span} (sound : p.Sound u [])
    (found : p.modules[home]? = some m) (loading : m.status = .loading) (parsed : m.ast = some ast)
    (unresolved : m.resolved = none) : (start p home range).Sound u ast where
  program := by
    rw [Underway.plus_start]
    exact sound
  home := ⟨m, found, loading, parsed, unresolved⟩
  bindings found := by simp [start, Scopes.new] at found
  references found := by simp [start] at found
  host found := by simp [start] at found
  faults faulty := absurd rfl faulty

end PipeLang
