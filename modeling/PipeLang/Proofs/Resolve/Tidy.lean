import PipeLang.Proofs.Resolve.Spread

/-!
# Tidy resolutions

What every resolution keeps to: scopes nest, bindings and tables refer to what is there, an invalid name has
been reported, and a loop collects only tags that cross it. Main statement: `Moves.tidy`.
-/

namespace PipeLang

/-- Modules offer nothing but modules and items of the program. -/
def Program.Offers (p : Program) : Prop :=
  ∀ (id : Nat) (m : LoadedModule), p.modules[id]? = some m →
    ∀ e ∈ m.exports.entries, e.target.Offered p.modules.size

/-- Loading forgets no module and nothing that is exported, and what the modules offer stays in the program. -/
def Loader.KeepsOffers (load : Loader) : Prop :=
  ∀ (p : Program) (path : String), p.Offers →
    (load p path).2.Offers ∧ p.Retains (load p path).2

/-- What a binding may denote. -/
inductive Target.Bindable (size : Nat) : Target → Prop where
  | inner {id} :
    Bindable size (.inner id)
  | invalid :
    Bindable size .invalid
  | offered {target} :
    target.Offered size →
    Bindable size target

namespace Target

variable {size size' : Nat} {target : Target}

lemma Offered.mono (h : target.Offered size) (le : size ≤ size') : target.Offered size' := by
  cases h with
  | module inside => exact .module (Nat.lt_of_lt_of_le inside le)
  | item inside => exact .item (Nat.lt_of_lt_of_le inside le)

lemma Offered.ne_invalid (h : target.Offered size) : target ≠ .invalid := by
  cases h <;> simp

lemma Bindable.mono (h : target.Bindable size) (le : size ≤ size') : target.Bindable size' := by
  cases h with
  | inner => exact .inner
  | invalid => exact .invalid
  | offered h => exact .offered (h.mono le)

lemma Bindable.ne_host (h : target.Bindable size) (name : String) : target ≠ .host name := by
  cases h with
  | inner | invalid => simp
  | offered h => cases h <;> simp

lemma Bindable.module_lt {id : Nat} (h : (Target.module id).Bindable size) : id < size := by
  cases h with
  | offered h =>
    cases h with
    | module inside => exact inside

end Target

/-- A resolution whose tables fit together. -/
structure Resolution.Tidy (r : Resolution) : Prop where
  nested : r.scopes.Nested
  current : r.current < r.scopes.scopes.size
  inside : ∀ {id : Nat} {b}, r.scopes.bindings[id]? = some b → b.scope < r.scopes.scopes.size
  crosses : ∀ {id : Nat} {b}, r.scopes.bindings[id]? = some b → r.scopes.Crosses b
  bindable : ∀ {id : Nat} {b}, r.scopes.bindings[id]? = some b → b.target.Bindable r.program.modules.size
  invalid : ∀ {id : Nat} {b}, r.scopes.bindings[id]? = some b → b.target = .invalid → r.faults ≠ []
  references : ∀ {s ref}, r.references.get? s = some ref → ref.target ≠ .invalid
  declared : ∀ {s} {id : Nat}, r.declarations.get? s = some id →
    ∃ b, r.scopes.bindings[id]? = some b ∧ b.site = s
  loopSites : ∀ {loop loop' site}, (loop, site) ∈ r.loopSites → (loop', site) ∈ r.loopSites → loop = loop'
  loopScopes : ∀ {known}, known ∈ r.loopSites → known.1 < r.scopes.scopes.size
  loopTags : ∀ {site tags}, r.loopTags.get? site = some tags → ∀ tag ∈ tags, ∃ loop b,
    (loop, site) ∈ r.loopSites ∧ r.scopes.bindings[(tag : Nat)]? = some b ∧ loop ∈ b.loops
  offers : r.program.Offers
  home : r.home < r.program.modules.size

/-- The tables fit together in a later program too. -/
lemma Resolution.Tidy.within {r : Resolution} {p : Program} (h : r.Tidy) (retains : r.program.Retains p)
    (offers : p.Offers) : { r with program := p : Resolution }.Tidy :=
  { h with
    bindable := fun found => (h.bindable found).mono retains.size_le
    offers := offers
    home := Nat.lt_of_lt_of_le h.home retains.size_le }

namespace Scopes

variable {t : Scopes}

/-- The new scope's path goes through its parent. -/
lemma path_push {parent : ScopeId} {kind : ScopeKind} {range : Span} :
    (t.push (some parent) kind range).path t.nextScope = t.nextScope :: t.path parent := by
  simp [path, push, nextScope]

/-- A tree with one more scope is a tree. -/
lemma Nested.push (h : t.Nested) {parent : ScopeId} (inside : parent < t.scopes.size) {kind : ScopeKind}
    {range : Span} : (t.push (some parent) kind range).Nested := by
  have grows : t.Grows range.start (t.push (some parent) kind range) := .push (Nat.le_refl _)
  refine ⟨?_, ?_, ?_⟩
  · rw [grows.path_eq h.root_lt, h.root]
  · intro id bound top
    have bound' : id < t.scopes.size + 1 := by simpa [Scopes.push] using bound
    rcases Nat.lt_succ_iff_lt_or_eq.1 bound' with old | rfl
    · obtain ⟨outer, before, e⟩ := h.inner old top
      exact ⟨outer, before, by rw [grows.path_eq old, grows.path_eq (Nat.lt_trans before old), e]⟩
    · exact ⟨parent, inside, by rw [grows.path_eq inside]; exact path_push⟩
  · have root := Array.getElem?_eq_getElem h.root_lt
    simp only [isLoopBody, grows.scopes root]
    simpa only [isLoopBody, root] using h.notLoop

/-- A binding goes on to count for its loops. -/
lemma Crosses.grow {t' : Scopes} {mark : Nat} {b : Binding} (h : t.Crosses b) (grows : t.Grows mark t') :
    t'.Crosses b := by
  intro loop member
  obtain ⟨outer, rest, e, end_⟩ := h loop member
  refine ⟨outer, rest, ?_, end_⟩
  rw [grows.path_eq (lt_of_mem_path (x := loop) (by simp [e])), e]

/-- The bindings of a table with one more. -/
lemma bindings_insert {b b' : Binding} {id : Nat} (h : (t.insert b).bindings[id]? = some b') :
    t.bindings[id]? = some b' ∨ (id = t.nextBinding ∧ b' = b) := by
  simp only [insert, Array.getElem?_push] at h
  split at h
  · next e =>
    cases h
    exact Or.inr ⟨e, rfl⟩
  · exact Or.inl h

end Scopes

namespace Resolution

variable {r : Resolution}

/-- What an import brings is a module or an item of the program. -/
lemma Brings.offered {target : Target} (h : r.Brings target) (offers : r.program.Offers) :
    target.Offered r.program.modules.size := by
  obtain ⟨_, id, m, -, found, rfl | ⟨e, member, rfl⟩⟩ := h
  · exact .module (Array.getElem?_eq_some_iff.1 found).1
  · exact offers id m found e member

/-- What a name can mean is not invalid. -/
lemma Meant.ne_invalid {target : Target} (h : r.Meant target) (offers : r.program.Offers) :
    target ≠ .invalid := by
  cases h with
  | bound _ valid => exact valid
  | host _ => simp
  | through _ found member => exact (offers _ _ found _ member).ne_invalid

end Resolution

/-- A change of what one module offers keeps what the others do. -/
lemma Program.Offers.modify {p : Program} {id : ModuleId} {f : LoadedModule → LoadedModule} (h : p.Offers)
    (kept : ∀ m, p.modules[(id : Nat)]? = some m →
      ∀ e ∈ (f m).exports.entries, e.target.Offered p.modules.size) : (p.modify id f).Offers := by
  intro id' m found e member
  simp only [Program.modify, Array.getElem?_modify, Array.size_modify] at found ⊢
  split at found
  · next same =>
    subst same
    obtain ⟨m', found', rfl⟩ := Option.map_eq_some_iff.1 found
    exact kept m' found' e member
  · exact h _ _ found e member

/-- Adding an export adds it and nothing else. -/
lemma Exports.mem_insert {t t' : Exports} {e e' : Export} (h : t.insert e = .ok t') (member : e' ∈ t'.entries) :
    e' ∈ t.entries ∨ e' = e := by
  simp only [insert] at h
  split at h
  · cases h
  · cases h
    simpa using member

/-- Adding an export loses none. -/
lemma Exports.mem_of_insert {t t' : Exports} {e e' : Export} (h : t.insert e = .ok t') (member : e' ∈ t.entries) :
    e' ∈ t'.entries := by
  simp only [insert] at h
  split at h
  · cases h
  · cases h
    simp [member]

/-- The exports of a module that is there are its own. -/
lemma Program.Offers.exportsOf {p : Program} {id : ModuleId} (h : p.Offers) :
    ∀ e ∈ (p.exportsOf id).entries, e.target.Offered p.modules.size := by
  intro e member
  simp only [Program.exportsOf] at member
  split at member
  · next m found => exact h _ _ found e member
  · simp [Exports.empty] at member

variable {load : Loader} {lo hi : Nat} {r r' : Resolution}

/-- What is looked up is in the list. -/
lemma mem_of_lookup {α β : Type} [BEq α] [LawfulBEq α] {l : List (α × β)} {a : α} {b : β}
    (h : l.lookup a = some b) : (a, b) ∈ l := by
  obtain ⟨before, behind, rfl, -⟩ := List.lookup_eq_some_iff.1 h
  simp

/-- A tidy resolution with one more binding is tidy. -/
lemma Resolution.Tidy.insert {b : Binding} (h : r.Tidy) (inside : b.scope < r.scopes.scopes.size)
    (crosses : r.scopes.Crosses b) (bindable : b.target.Bindable r.program.modules.size)
    (invalid : b.target = .invalid → r.faults ≠ []) : { r with scopes := r.scopes.insert b }.Tidy := by
  have grows : r.scopes.Grows 0 (r.scopes.insert b) := .insert (Nat.zero_le _)
  refine { h with
    nested := ⟨h.nested.root, h.nested.inner, h.nested.notLoop⟩
    inside := fun found => ?_
    crosses := fun found => ?_
    bindable := fun found => ?_
    invalid := fun found => ?_
    declared := fun found => ?_
    loopTags := fun found tag member => ?_ }
  · rcases Scopes.bindings_insert found with found | ⟨-, rfl⟩
    · exact h.inside found
    · exact inside
  · rcases Scopes.bindings_insert found with found | ⟨-, rfl⟩
    · exact (h.crosses found).grow grows
    · exact crosses.grow grows
  · rcases Scopes.bindings_insert found with found | ⟨-, rfl⟩
    · exact h.bindable found
    · exact bindable
  · rcases Scopes.bindings_insert found with found | ⟨-, rfl⟩
    · exact h.invalid found
    · exact invalid
  · obtain ⟨b', found, site⟩ := h.declared found
    exact ⟨b', grows.bindings found, site⟩
  · obtain ⟨loop, b', site, found, crossed⟩ := h.loopTags found tag member
    exact ⟨loop, b', site, grows.bindings found, crossed⟩

/-- One more binding for what an import brings. -/
lemma Resolution.Tidy.bind {b : Binding} (h : r.Tidy) (inside : b.scope < r.scopes.scopes.size)
    (crosses : r.scopes.Crosses b) (brings : r.Brings b.target) : { r with scopes := r.scopes.insert b }.Tidy := by
  have offered := brings.offered h.offers
  exact h.insert inside crosses (.offered offered) fun invalid => absurd invalid offered.ne_invalid

/-- One more name of the module itself. -/
lemma Resolution.Tidy.declaring {b : Binding} (h : r.Tidy) (declarable : r.Declarable lo hi b)
    (bindable : b.target.Bindable r.program.modules.size) (valid : b.target ≠ .invalid) : (r.declaring b).Tidy := by
  have inserted := h.insert declarable.scope declarable.crosses bindable fun invalid => absurd invalid valid
  refine { inserted with declared := fun {s id} declared => ?_ }
  simp only [Resolution.declaring, SpanTable.get?_insert] at declared
  split at declared
  · next same =>
    cases declared
    exact ⟨b, by simp [Resolution.declaring, Scopes.insert, Scopes.nextBinding], same.symm⟩
  · exact inserted.declared declared

/-- One more export leaves a resolution tidy. -/
lemma Resolution.Tidy.offer {e : Export} {exports : Exports} (h : r.Tidy)
    (inserted : (r.program.exportsOf r.home).insert e = .ok exports) (offered : e.target.Offered r.program.modules.size) :
    { r with program := r.program.modify r.home fun m => { m with exports := exports } }.Tidy := by
  have offers : (r.program.modify r.home fun m => { m with exports := exports }).Offers :=
    h.offers.modify fun m _ e' member => by
      rcases Exports.mem_insert inserted member with old | rfl
      · exact h.offers.exportsOf e' old
      · exact offered
  exact { h with
    offers := offers
    bindable := fun found => by simpa [Program.modify] using h.bindable found
    home := by simpa [Program.modify] using h.home }

/-- One more tag to collect behind a loop that its binding crosses. -/
lemma Resolution.Tidy.collect {tag : Nat} {loop : ScopeId} {site : Span} {b : Binding} (h : r.Tidy)
    (found : r.scopes.bindings[tag]? = some b) (crossed : loop ∈ b.loops) (known : r.loopSites.lookup loop = some site) :
    { r with loopTags := r.loopTags.insert site ((r.loopTags.get? site).getD [] ++ [tag]) }.Tidy := by
  refine { h with loopTags := fun {s tags} collected t member => ?_ }
  rw [SpanTable.get?_insert] at collected
  split at collected
  · next e =>
    cases collected
    rcases List.mem_append.1 member with old | new
    · cases before : r.loopTags.get? site with
      | none => simp [before] at old
      | some tags =>
        rw [before] at old
        exact e ▸ h.loopTags before t old
    · cases List.mem_singleton.1 new
      refine ⟨loop, b, ?_, found, crossed⟩
      rw [e]
      exact mem_of_lookup known
  · exact h.loopTags collected t member

/-- One more loop, at a place of its own. -/
lemma Resolution.Tidy.openLoop {site : Span} (h : r.Tidy) (fresh : ∀ known ∈ r.loopSites, known.2 ≠ site) :
    { r with loopSites := (r.current, site) :: r.loopSites }.Tidy := by
  refine { h with
    loopSites := fun {l l' s} known known' => ?_
    loopScopes := fun known => ?_
    loopTags := fun found tag member => ?_ }
  · rcases List.mem_cons.1 known with e | old <;> rcases List.mem_cons.1 known' with e' | old'
    · cases e
      cases e'
      rfl
    · cases e
      exact absurd rfl (fresh _ old')
    · cases e'
      exact absurd rfl (fresh _ old)
    · exact h.loopSites old old'
  · rcases List.mem_cons.1 known with rfl | old
    · exact h.current
    · exact h.loopScopes old
  · obtain ⟨l, b, known, rest⟩ := h.loopTags found tag member
    exact ⟨l, b, List.mem_cons_of_mem _ known, rest⟩

/-- A move keeps a resolution tidy. -/
lemma Move.tidy (keeps : load.KeepsOffers) (h : Move load lo hi r r') (tidy : r.Tidy) : r'.Tidy := by
  cases h with
  | report own =>
    exact { tidy with invalid := fun found invalid => by simp [tidy.invalid found invalid] }
  | @record site target ty within fresh meant seen =>
    refine { tidy with references := fun {s ref} found => ?_ }
    rw [SpanTable.get?_insert] at found
    split at found
    · cases found
      exact meant.ne_invalid tidy.offers
    · exact tidy.references found
  | @enter kind range start stop =>
    have grows : r.scopes.Grows range.start (r.scopes.push (some r.current) kind range) := .push (Nat.le_refl _)
    exact { tidy with
      nested := tidy.nested.push tidy.current
      current := by simp [Scopes.push, Scopes.nextScope]
      inside := fun found => Nat.lt_of_lt_of_le (tidy.inside found) grows.scopes_size_le
      loopScopes := fun known => Nat.lt_of_lt_of_le (tidy.loopScopes known) grows.scopes_size_le
      crosses := fun found => (tidy.crosses found).grow grows }
  | leave outer =>
    have inside := Scopes.lt_of_mem_path outer
    exact { tidy with current := Nat.lt_of_le_of_lt (tidy.nested.mem_path outer).1 inside }
  | bind free scope crosses from_ upTo sources => exact tidy.bind scope crosses sources.brings
  | keep faulty from_ upTo =>
    exact tidy.insert tidy.current (by simp [Scopes.Crosses, Import.invalidBinding]) .invalid fun _ => faulty
  | declare declarable target => exact tidy.declaring declarable (target ▸ .inner) (by simp [target])
  | @define b e exports declarable target top name target' site own inserted =>
    have item : b.target.Offered r.program.modules.size := target ▸ .item tidy.home
    have declared := tidy.declaring declarable (.offered item) item.ne_invalid
    exact declared.offer inserted (target' ▸ item)
  | @redefine b fault declarable target own =>
    have item : b.target.Offered r.program.modules.size := target ▸ .item tidy.home
    have declared := tidy.declaring declarable (.offered item) item.ne_invalid
    exact { declared with invalid := fun found invalid => by simp }
  | collect found crossed known => exact tidy.collect found crossed known
  | loop within fresh => exact tidy.openLoop fun known member => (fresh known member).2
  | leaveOpen => exact { tidy with }
  | forward inserted brings forwarded presents => exact tidy.offer inserted (brings.offered tidy.offers)
  | load =>
    obtain ⟨offers, retains⟩ := keeps _ _ tidy.offers
    exact tidy.within retains offers
  | accept within fresh last found usable => exact { tidy with }
  | refuse within fresh last found faulty =>
    exact { tidy with invalid := fun found invalid => by simp [tidy.invalid found invalid] }
  | assembly =>
    exact { tidy with
      offers := tidy.offers.modify fun m found e member => tidy.offers _ m found e member
      bindable := fun found => by simpa [Program.modify] using tidy.bindable found
      home := by simpa [Program.modify] using tidy.home }
  | settle =>
    exact { tidy with invalid := fun found invalid => by simp [tidy.invalid found invalid] }

/-- Moves keep a resolution tidy. -/
theorem Moves.tidy (keeps : load.KeepsOffers) (h : Moves load lo hi r r') (tidy : r.Tidy) : r'.Tidy := by
  induction h with
  | refl => exact tidy
  | tail _ move ih => exact move.tidy keeps ih

/-- No binding stands for a host function. -/
lemma Resolution.Tidy.target_ne_host (tidy : r.Tidy) {id : BindingId} {name : String} :
    r.scopes.target id ≠ .host name := by
  simp only [Scopes.target]
  split
  · next found => exact (tidy.bindable found).ne_host name
  · simp

/-- A resolution is tidy when it starts. -/
lemma Resolution.tidy_start {p : Program} {home : ModuleId} {range : Span} (offers : p.Offers)
    (inside : home < p.modules.size) : (start p home range).Tidy where
  nested := ⟨rfl, fun {id} inside top => absurd inside (by simp [start, Scopes.new, Scopes.root] at top ⊢; omega), rfl⟩
  current := by simp [start, Scopes.new, Scopes.root]
  inside found := by simp [start, Scopes.new] at found
  crosses found := by simp [start, Scopes.new] at found
  bindable found := by simp [start, Scopes.new] at found
  invalid found := by simp [start, Scopes.new] at found
  references found := by simp [start] at found
  declared found := by simp [start] at found
  loopSites known := by simp [start] at known
  loopScopes known := by simp [start] at known
  loopTags found := by simp [start] at found
  offers := offers
  home := inside

end PipeLang
