import Mathlib.Data.List.Flatten
import PipeLang.Proofs.Eval.Dialogue
import PipeLang.Proofs.Load.Laid

/-!
# Regions of frames

While a piece of syntax is evaluated in a frame, the frame is given values for the names of that piece only. `Context.Awaits` says
that neither the frame nor those around it have them yet, so that no binding is given a value twice, and none is given a value
where one was seen from further out. `Machine.Writes` says what may be written to the frames of a machine, and that values stay.

Functions are called in frames inside those that they come from, when those have been given further values. So every frame has a
region, the names that it and the frames around it are for, and a function comes from a frame whose region has none of the names
in the function: `Context.Hosts`.
-/

namespace PipeLang

open Eval

/-- The place of a binding of a module. -/
def Program.siteOf (p : Program) (id : ModuleId) (b : BindingId) : Span :=
  match p.resolvedOf id with
  | some t => Resolve.siteOf t.scopes b
  | none => default

/-- The names of frames are laid out in all modules that have been resolved. -/
def Program.Laid (p : Program) : Prop :=
  ∀ (id : Nat) (l : LoadedModule) (ast : Module) (t : Resolved), p.modules[id]? = some l → l.ast = some ast →
    l.resolved = some t → ast.Laid t

/-- Pieces that stand in a module that has been resolved, in the order in which they stand there. -/
inductive Program.Contains (p : Program) (id : ModuleId) (pieces : List Piece) : Prop where
  | mk {l : LoadedModule} {ast t} :
    p.modules[(id : Nat)]? = some l →
    l.ast = some ast →
    l.resolved = some t →
    pieces.Sublist ast.pieces →
    Contains p id pieces

namespace Program.Contains

variable {p : Program} {id : ModuleId} {pieces others : List Piece} {t : Resolved}

lemma part (h : p.Contains id pieces) (sub : others.Sublist pieces) : p.Contains id others := by
  cases h with
  | mk found parsed resolved among => exact .mk found parsed resolved (sub.trans among)

lemma laid (h : p.Contains id pieces) (laid : p.Laid) (resolved : p.resolvedOf id = some t) :
    ∃ ast : Module, ast.Laid t ∧ pieces.Sublist ast.pieces := by
  cases h with
  | mk found parsed resolved' among =>
    rw [Program.resolvedOf, found, Option.bind_some, resolved', Option.some.injEq] at resolved
    exact ⟨_, laid _ _ _ _ found parsed (resolved ▸ resolved'), among⟩

lemma shaped (h : p.Contains id pieces) (laid : p.Laid) : Piece.AllShaped pieces := by
  cases h with
  | mk found parsed resolved among =>
    exact fun q member => (laid _ _ _ _ found parsed resolved).shaped q (among.subset member)

/-- The names in frames have places of their own. -/
lemma distinct (h : p.Contains id pieces) (laid : p.Laid) : ((Piece.allNames pieces).map Ident.span).Nodup := by
  cases h with
  | mk found parsed resolved among =>
    refine (laid _ _ _ _ found parsed resolved).distinct.sublist (List.Sublist.map _ ?_)
    exact (List.Sublist.flatMap among _).trans (List.sublist_append_right _ _)

/-- A declared binding is found at its name. -/
lemma declared (h : p.Contains id pieces) (laid : p.Laid) (resolved : p.resolvedOf id = some t) {site : Span} {b : BindingId}
    (declared : t.declarations.get? site = some b) : p.siteOf id b = site := by
  obtain ⟨ast, laid, -⟩ := h.laid laid resolved
  simp only [Program.siteOf, resolved, laid.declared declared]

end Program.Contains

/-! ### Regions -/

/-- For every frame, the module that it belongs to and the places of the names that it and the frames around it are for. -/
abbrev Regions := List (ModuleId × List Span)

lemma Regions.kept {regions regions' : Regions} {f : Nat} {x : ModuleId × List Span} (grows : regions <+: regions')
    (h : regions[f]? = some x) : regions'[f]? = some x := by
  obtain ⟨inside, rfl⟩ := List.getElem?_eq_some_iff.1 h
  exact List.prefix_iff_getElem?.1 grows f inside

/-- Pieces of the module that a frame belongs to, whose frames are for names that neither the frame nor those around it are for. -/
structure Context.Hosts (p : Program) (regions : Regions) (c : Context) (pieces : List Piece) : Prop where
  there : p.Contains c.module pieces
  apart : ∃ region, regions[(c.frame : Nat)]? = some (c.module, region) ∧ ∀ name ∈ Piece.allNames pieces, name.span ∉ region

namespace Context.Hosts

variable {p : Program} {regions regions' : Regions} {c : Context} {pieces others : List Piece}

lemma part (h : c.Hosts p regions pieces) (sub : others.Sublist pieces) : c.Hosts p regions others := by
  obtain ⟨there, region, known, apart⟩ := h
  exact ⟨there.part sub, region, known, fun name member => apart name ((List.Sublist.flatMap sub _).subset member)⟩

lemma left (h : c.Hosts p regions (pieces ++ others)) : c.Hosts p regions pieces :=
  h.part (List.sublist_append_left _ _)

lemma right (h : c.Hosts p regions (pieces ++ others)) : c.Hosts p regions others :=
  h.part (List.sublist_append_right _ _)

lemma tail {q : Piece} (h : c.Hosts p regions (q :: pieces)) : c.Hosts p regions pieces :=
  h.part (List.sublist_cons_self _ _)

lemma later (h : c.Hosts p regions pieces) (grows : regions <+: regions') : c.Hosts p regions' pieces := by
  obtain ⟨there, region, known, apart⟩ := h
  exact ⟨there, region, Regions.kept grows known, apart⟩

end Context.Hosts

/-- All functions in a value come from frames that host them. -/
def Value.Written (p : Program) (regions : Regions) (v : Value) : Prop :=
  v.Holds fun g => ∀ f, g = .closure f → Context.Hosts p regions ⟨f.module, f.frame⟩ f.lambda.pieces

section

variable {p : Program} {regions regions' : Regions}

lemma Value.written_host {name : String} : (Value.host name).Written p regions :=
  holds_host.2 nofun

lemma Value.written_closure {f : Closure} :
    (Value.closure f).Written p regions ↔ Context.Hosts p regions ⟨f.module, f.frame⟩ f.lambda.pieces := by
  rw [Written, holds_closure]
  refine ⟨fun h => h f rfl, fun h g same => ?_⟩
  cases same
  exact h

namespace Value.Written

lemma later {v : Value} (h : v.Written p regions) (grows : regions <+: regions') : v.Written p regions' :=
  h.imp fun _ hosted f same => (hosted f same).later grows

lemma all_later {vs : List Value} (h : ∀ v ∈ vs, v.Written p regions) (grows : regions <+: regions') :
    ∀ v ∈ vs, v.Written p regions' :=
  fun v member => (h v member).later grows

lemma given_later {incoming : Option Value} (h : ∀ v ∈ incoming, v.Written p regions) (grows : regions <+: regions') :
    ∀ v ∈ incoming, v.Written p regions' :=
  fun v member => (h v member).later grows

end Value.Written

end

/-! ### Heaps -/

namespace Heap

variable {h : Heap} {f g : FrameId} {id b : BindingId} {v : Value}

/-- The frames around a frame that is around another are around that one as well. -/
def Linked (h : Heap) : Prop :=
  ∀ {f before g after}, h.chain f = before ++ g :: after → h.chain g = g :: after

lemma chain_some {frame : Frame} (found : h[(f : Nat)]? = some frame) : h.chain f = f :: frame.outer := by
  rw [chain, found]

/-- A frame with frames around it is there. -/
lemma exists_of_chain {others : List FrameId} (chain : h.chain f = g :: others) :
    ∃ frame, h[(f : Nat)]? = some frame ∧ f = g ∧ frame.outer = others := by
  unfold Heap.chain at chain
  cases found : h[(f : Nat)]? with
  | none => simp [found] at chain
  | some frame =>
    rw [found, List.cons.injEq] at chain
    exact ⟨frame, rfl, chain⟩

/-- The frames around a frame that was there are still around it when another one is opened. -/
lemma chain_push {parent : Option FrameId} (inside : (f : Nat) < h.size) : (h.push parent).chain f = h.chain f := by
  simp only [chain, push_old inside]

namespace Linked

lemma mem (linked : h.Linked) (member : g ∈ h.chain f) : ∃ frame, h[(g : Nat)]? = some frame := by
  obtain ⟨before, after, split⟩ := List.append_of_mem member
  obtain ⟨frame, found, -⟩ := exists_of_chain (linked split)
  exact ⟨frame, found⟩

/-- With one more frame. -/
lemma push (linked : h.Linked) {parent : Option FrameId} (inside : ∀ g ∈ parent, (g : Nat) < h.size) :
    (h.push parent).Linked := by
  have old {g : FrameId} (there : ∃ frame, h[(g : Nat)]? = some frame) : (h.push parent).chain g = h.chain g := by
    obtain ⟨frame, found⟩ := there
    exact chain_push (Array.getElem?_eq_some_iff.1 found).1
  intro f before g after split
  have there : ∃ frame, (h.push parent)[(f : Nat)]? = some frame := by
    cases found : (h.push parent)[(f : Nat)]? with
    | none =>
      rw [chain, found] at split
      simp at split
    | some frame => exact ⟨frame, rfl⟩
  obtain ⟨frame, found⟩ := there
  by_cases inner : (f : Nat) < h.size
  · rw [old ⟨_, Array.getElem?_eq_getElem inner⟩] at split
    rw [old (linked.mem (split ▸ List.mem_append_right _ List.mem_cons_self)), linked split]
  · have last : f = h.size := by
      have below := (Array.getElem?_eq_some_iff.1 found).1
      rw [size_push] at below
      exact Nat.le_antisymm (Nat.le_of_lt_succ below) (Nat.le_of_not_lt inner)
    subst last
    cases before with
    | nil =>
      rw [chain_some found, List.nil_append, List.cons.injEq] at split
      obtain ⟨rfl, rfl⟩ := split
      exact chain_some found
    | cons first before =>
      cases parent with
      | none => simp [Heap.push, chain] at split
      | some parent =>
        rw [push_chain (inside parent rfl), List.cons_append, List.cons.injEq] at split
        have split := split.2
        rw [old (linked.mem (split ▸ List.mem_append_right _ List.mem_cons_self)), linked split]

lemma define (linked : h.Linked) : (h.define f id v).Linked := by
  intro g before g' after split
  rw [chain_define] at split ⊢
  exact linked split

end Linked

lemma getLocal_none {frame : Frame} (found : h[(f : Nat)]? = some frame) :
    h.getLocal? f b = none ↔ b ∉ frame.values.map Prod.fst := by
  simp only [getLocal?, found, List.lookup_eq_none_iff, List.mem_map, not_exists, not_and, bne_iff_ne]
  exact ⟨fun h entry member => (h entry member).symm, fun h entry member same => h entry member same.symm⟩

end Heap

/-! ### Machines -/

/-- Every frame of a machine has a region and values only for names in it, each at most once. Functions come from frames that host
them. -/
structure Machine.Written (p : Program) (regions : Regions) (m : Machine) : Prop where
  size : regions.length = m.heap.size
  linked : m.heap.Linked
  around : ∀ {f g : FrameId} {id region}, regions[(f : Nat)]? = some (id, region) → g ∈ m.heap.chain f →
    ∃ region', regions[(g : Nat)]? = some (id, region') ∧ region' ⊆ region
  within : ∀ {f : FrameId} {id region frame}, regions[(f : Nat)]? = some (id, region) → m.heap[(f : Nat)]? = some frame →
    ∀ entry ∈ frame.values, p.siteOf id entry.1 ∈ region
  once : ∀ {f : FrameId} {frame}, m.heap[(f : Nat)]? = some frame → (frame.values.map Prod.fst).Nodup
  values : ∀ {f : FrameId} {frame}, m.heap[(f : Nat)]? = some frame → ∀ entry ∈ frame.values, entry.2.Written p regions
  items : ∀ entry ∈ m.items, entry.2.Written p regions
  assemblies : ∀ entry ∈ m.assemblies, entry.2.Written p regions

/-- A machine whose frames go on from those of another: none is lost, and those that were there have been given further values of
some bindings only, which were not seen further out. -/
def Machine.Writes (bound : FrameId → BindingId → Prop) (m m' : Machine) : Prop :=
  ∀ (f : FrameId) (frame : Frame), m.heap[(f : Nat)]? = some frame → ∃ new, m'.heap[(f : Nat)]? = some ⟨frame.outer, new ++ frame.values⟩ ∧
    ∀ entry ∈ new, bound f entry.1 ∧ ∀ g ∈ frame.outer, m.heap.getLocal? g entry.1 = none

/-- Nothing is written to any frame that is there. -/
def Machine.nowhere (_ : FrameId) (_ : BindingId) : Prop :=
  False

/-- Anything is written to any frame. -/
def Machine.anywhere (_ : FrameId) (_ : BindingId) : Prop :=
  True

/-- The bindings that names at some places introduce, in the frame of a context. -/
def Context.binds (p : Program) (c : Context) (names : List Ident) (f : FrameId) (id : BindingId) : Prop :=
  f = c.frame ∧ p.siteOf c.module id ∈ names.map Ident.span

/-- The frame of a context is to be given values for some names, which have places of their own. Neither it nor the frames around it
have them yet. -/
structure Context.Awaits (p : Program) (regions : Regions) (c : Context) (names : List Ident) (m : Machine) : Prop where
  written : m.Written p regions
  region : ∃ region, regions[(c.frame : Nat)]? = some (c.module, region) ∧ names.map Ident.span ⊆ region
  distinct : (names.map Ident.span).Nodup
  free : ∀ g ∈ m.heap.chain c.frame, ∀ b, p.siteOf c.module b ∈ names.map Ident.span → m.heap.getLocal? g b = none

section

variable {p : Program} {regions regions' : Regions} {m m' m'' : Machine} {c : Context} {names names' : List Ident} {v : Value}
  {f g : FrameId} {id : BindingId} {bound bound' : FrameId → BindingId → Prop}

namespace Machine.Writes

lemma refl : m.Writes bound m := fun _ _ found => ⟨[], found, nofun⟩

lemma of_heap (same : m'.heap = m.heap) : m.Writes bound m' := fun _ _ found => ⟨[], same ▸ found, nofun⟩

lemma mono (h : m.Writes bound m') (more : ∀ f id, bound f id → bound' f id) : m.Writes bound' m' := fun f frame found => by
  obtain ⟨new, there, within⟩ := h f frame found
  exact ⟨new, there, fun entry member => ⟨more f entry.1 (within entry member).1, (within entry member).2⟩⟩

/-- What has no value has had none. -/
lemma getLocal_none (h : m.Writes bound m') (unknown : m'.heap.getLocal? g id = none) : m.heap.getLocal? g id = none := by
  cases found : m.heap[(g : Nat)]? with
  | none => simp only [Heap.getLocal?, found]
  | some frame =>
    obtain ⟨new, there, -⟩ := h g frame found
    rw [Heap.getLocal_none there, List.map_append] at unknown
    exact (Heap.getLocal_none found).2 fun old => unknown (List.mem_append_right _ old)

lemma trans (h : m.Writes bound m') (h' : m'.Writes bound m'') : m.Writes bound m'' := fun f frame found => by
  obtain ⟨new, there, within⟩ := h f frame found
  obtain ⟨new', there', within'⟩ := h' f _ there
  refine ⟨new' ++ new, by rw [there', List.append_assoc], List.forall_mem_append.2 ⟨fun entry member => ?_, within⟩⟩
  exact ⟨(within' entry member).1, fun g outer => h.getLocal_none ((within' entry member).2 g outer)⟩

/-- The frames around a frame stay. -/
lemma chain (h : m.Writes bound m') {others : List FrameId} (chain : m.heap.chain f = g :: others) :
    m'.heap.chain f = g :: others := by
  obtain ⟨frame, found, rfl, rfl⟩ := Heap.exists_of_chain chain
  obtain ⟨new, there, -⟩ := h f frame found
  have kept := Heap.chain_some there
  exact kept

/-- A value that has been given stays. -/
lemma getLocal (h : m.Writes bound m') (written : m'.Written p regions') (found : m.heap.getLocal? f id = some v) :
    m'.heap.getLocal? f id = some v := by
  unfold Heap.getLocal? at found ⊢
  split at found
  · next frame there =>
    obtain ⟨new, there', -⟩ := h f frame there
    have distinct := written.once there'
    rw [there']
    exact lookup_of_suffix (List.suffix_append _ _) distinct found
  · cases found

/-- A value that is seen from a frame stays. -/
lemma get (h : m.Writes bound m') (linked : m.heap.Linked) (written : m'.Written p regions')
    (found : m.heap.get? f id = some v) : m'.heap.get? f id = some v := by
  obtain ⟨before, g, after, chain, here, none⟩ := List.findSome?_eq_some_iff.1 found
  have kept : m'.heap.chain f = m.heap.chain f := by
    cases split : m.heap.chain f with
    | nil => simp [split] at chain
    | cons first others => exact h.chain split
  refine List.findSome?_eq_some_iff.2 ⟨before, g, after, kept.trans chain, h.getLocal written here, fun x member => ?_⟩
  -- nothing has been written where the value is seen through
  obtain ⟨further, between, rfl⟩ := List.append_of_mem member
  have inner : m.heap.chain x = x :: (between ++ g :: after) := linked (by rw [chain, List.append_assoc, List.cons_append])
  obtain ⟨frame, there, -, outer⟩ := Heap.exists_of_chain inner
  obtain ⟨new, there', within⟩ := h x frame there
  rw [Heap.getLocal_none there', List.map_append, List.mem_append, not_or]
  refine ⟨fun written => ?_, (Heap.getLocal_none there).1 (none x member)⟩
  obtain ⟨entry, among, rfl⟩ := List.mem_map.1 written
  have unseen := (within entry among).2 g (outer ▸ List.mem_append_right _ List.mem_cons_self)
  cases unseen.symm.trans here

lemma push {parent : Option FrameId} : m.Writes bound { m with heap := m.heap.push parent } := fun _ _ found =>
  ⟨[], (Heap.push_old (Array.getElem?_eq_some_iff.1 found).1).trans found, nofun⟩

/-- What is written to a frame that was not there is written nowhere. -/
lemma outside {parent : Option FrameId} (h : m'.Writes bound m'') (opened : m'.heap = m.heap.push parent)
    (inner : ∀ f id, bound f id → f = m.heap.size) : m.Writes Machine.nowhere m'' := fun f frame found => by
  have inside := (Array.getElem?_eq_some_iff.1 found).1
  obtain ⟨new, there, within⟩ := h f frame (opened ▸ (Heap.push_old inside).trans found)
  exact ⟨new, there, fun entry member => absurd (inner f entry.1 (within entry member).1) (Nat.ne_of_lt inside)⟩

lemma define (bounds : bound f id) (unseen : ∀ g ∈ m.heap.chain f, m.heap.getLocal? g id = none) :
    m.Writes bound { m with heap := m.heap.define f id v } := fun g frame found => by
  by_cases same : f = g
  · subst same
    refine ⟨[(id, v)], by simp [Heap.getElem?_define, found], List.forall_mem_singleton.2 ⟨bounds, fun g outer => ?_⟩⟩
    exact unseen g (Heap.chain_some found ▸ List.mem_cons_of_mem _ outer)
  · exact ⟨[], by simp [Heap.getElem?_define, same, found], nofun⟩

end Machine.Writes

namespace Machine.Written

/-- What a frame or one around it has a value for is in its region. -/
lemma site (h : m.Written p regions) {i : ModuleId} {region : List Span} (known : regions[(f : Nat)]? = some (i, region))
    (member : g ∈ m.heap.chain f) (found : m.heap.getLocal? g id = some v) : p.siteOf i id ∈ region := by
  obtain ⟨region', known', inside⟩ := h.around known member
  unfold Heap.getLocal? at found
  split at found
  · next frame there => exact inside (h.within known' there _ (mem_of_lookup found))
  · cases found

lemma getLocal (h : m.Written p regions) (found : m.heap.getLocal? f id = some v) : v.Written p regions := by
  unfold Heap.getLocal? at found
  split at found
  · next frame there => exact h.values there _ (mem_of_lookup found)
  · cases found

lemma get (h : m.Written p regions) (found : m.heap.get? f id = some v) : v.Written p regions := by
  obtain ⟨g, -, here⟩ := List.exists_of_findSome?_eq_some found
  exact h.getLocal here

/-- One more frame, whose region goes on from that of the frame around it. -/
lemma push (h : m.Written p regions) {parent : Option FrameId} {i : ModuleId} {region : List Span}
    (inside : ∀ g ∈ parent, ∃ region', regions[(g : Nat)]? = some (i, region') ∧ region' ⊆ region) :
    { m with heap := m.heap.push parent : Machine }.Written p (regions ++ [(i, region)]) := by
  have grows : regions <+: regions ++ [(i, region)] := List.prefix_append _ _
  have there {g : FrameId} {x : ModuleId × List Span} (known : regions[(g : Nat)]? = some x) : (g : Nat) < m.heap.size :=
    h.size ▸ (List.getElem?_eq_some_iff.1 known).1
  have opened {f : FrameId} {x : ModuleId × List Span} (known : (regions ++ [(i, region)])[(f : Nat)]? = some x) :
      regions[(f : Nat)]? = some x ∨ f = m.heap.size ∧ x = (i, region) := by
    rw [List.getElem?_append] at known
    split at known
    · exact Or.inl known
    · next outside =>
      obtain ⟨below, same⟩ := List.getElem?_eq_some_iff.1 known
      rw [List.length_singleton, h.size] at below
      refine Or.inr ⟨Nat.le_antisymm (by omega) (Nat.le_of_not_lt (h.size ▸ outside)), ?_⟩
      simpa using same.symm
  refine ⟨by simp [Heap.size_push, h.size], Heap.Linked.push h.linked fun g member => ?_, fun {f g j space} known member => ?_,
    fun {f j space frame} known held => ?_, fun {f frame} found => ?_, fun {f frame} found entry member => ?_,
    fun entry member => (h.items entry member).later grows, fun entry member => (h.assemblies entry member).later grows⟩
  · obtain ⟨region', known, -⟩ := inside g member
    exact there known
  · rcases opened known with old | ⟨rfl, same⟩
    · rw [Heap.chain_push (there old)] at member
      obtain ⟨region', known', sub⟩ := h.around old member
      exact ⟨region', Regions.kept grows known', sub⟩
    · obtain ⟨rfl, rfl⟩ := Prod.mk.inj same
      cases parent with
      | none =>
        have chain : (m.heap.push none).chain m.heap.size = [m.heap.size] := by simp [Heap.push, Heap.chain]
        rw [chain, List.mem_singleton] at member
        exact ⟨space, member ▸ known, List.Subset.refl _⟩
      | some parent =>
        obtain ⟨region', known', sub⟩ := inside parent rfl
        rw [Heap.push_chain (there known')] at member
        rcases List.mem_cons.1 member with rfl | member
        · exact ⟨space, known, List.Subset.refl _⟩
        · obtain ⟨region'', known'', sub'⟩ := h.around known' member
          exact ⟨region'', Regions.kept grows known'', List.Subset.trans sub' sub⟩
  · rcases Heap.push_found held with ⟨-, empty⟩ | old
    · simp [empty]
    · rcases opened known with known | ⟨rfl, -⟩
      · exact h.within known old
      · simp at old
  · rcases Heap.push_found found with ⟨-, empty⟩ | old
    · simp [empty]
    · exact h.once old
  · rcases Heap.push_found found with ⟨-, empty⟩ | old
    · rw [empty] at member
      cases member
    · exact (h.values old entry member).later grows

/-- A value for a binding that has none. -/
lemma define (h : m.Written p regions) (value : v.Written p regions) (new : m.heap.getLocal? f id = none)
    (site : ∀ {i region}, regions[(f : Nat)]? = some (i, region) → p.siteOf i id ∈ region) :
    { m with heap := m.heap.define f id v : Machine }.Written p regions := by
  -- a frame is as it was, or it is the one that is given the value
  have given {g : FrameId} {frame : Frame} (found : (m.heap.define f id v)[(g : Nat)]? = some frame) :
      m.heap[(g : Nat)]? = some frame ∨ ∃ old, m.heap[(f : Nat)]? = some old ∧ g = f ∧ frame.values = (id, v) :: old.values := by
    rw [Heap.getElem?_define] at found
    split at found
    · next same =>
      obtain ⟨old, before, rfl⟩ := Option.map_eq_some_iff.1 found
      exact Or.inr ⟨old, same ▸ before, same.symm, rfl⟩
    · exact Or.inl found
  refine { h with
    size := by simp [Heap.define, h.size]
    linked := Heap.Linked.define h.linked
    around := fun {g x i region} known member => h.around known (Heap.chain_define ▸ member)
    within := fun {g i region frame} known found entry member => ?_
    once := fun {g frame} found => ?_
    values := fun {g frame} found entry member => ?_ }
  · rcases given found with old | ⟨old, before, rfl, values⟩
    · exact h.within known old entry member
    · rcases List.mem_cons.1 (values ▸ member) with rfl | others
      · exact site known
      · exact h.within known before entry others
  · rcases given found with old | ⟨old, before, rfl, values⟩
    · exact h.once old
    · rw [values]
      exact List.nodup_cons.2 ⟨(Heap.getLocal_none before).1 new, h.once before⟩
  · rcases given found with old | ⟨old, before, rfl, values⟩
    · exact h.values old entry member
    · rcases List.mem_cons.1 (values ▸ member) with rfl | others
      · exact value
      · exact h.values before entry others

end Machine.Written

namespace Context.Awaits

lemma frame (h : c.Awaits p regions names m) : (c.frame : Nat) < m.heap.size := by
  obtain ⟨region, known, -⟩ := h.region
  exact h.written.size ▸ (List.getElem?_eq_some_iff.1 known).1

/-- A frame that awaits values for names at some places awaits values for names at some of them. -/
lemma part (h : c.Awaits p regions names m) (sub : (names'.map Ident.span).Subperm (names.map Ident.span)) :
    c.Awaits p regions names' m where
  written := h.written
  region := by
    obtain ⟨region, known, inside⟩ := h.region
    exact ⟨region, known, List.Subset.trans sub.subset inside⟩
  distinct := nodup_of_subperm sub h.distinct
  free g member b site := h.free g member b (sub.subset site)

lemma left (h : c.Awaits p regions (names ++ names') m) : c.Awaits p regions names m :=
  h.part ((List.sublist_append_left _ _).map _).subperm

lemma right (h : c.Awaits p regions (names ++ names') m) : c.Awaits p regions names' m :=
  h.part ((List.sublist_append_right _ _).map _).subperm

/-- When the first names have their values, the others are still to be given theirs. -/
lemma behind (h : c.Awaits p regions (names ++ names') m) (grows : regions <+: regions') (written : m'.Written p regions')
    (writes : m.Writes (c.binds p names) m') : c.Awaits p regions' names' m' where
  written := written
  region := by
    obtain ⟨region, known, inside⟩ := h.region
    rw [List.map_append] at inside
    exact ⟨region, Regions.kept grows known, (List.append_subset.1 inside).2⟩
  distinct := h.distinct.sublist ((List.sublist_append_right _ _).map _)
  free g member b site := by
    have chain := Heap.chain_some (Array.getElem?_eq_getElem h.frame)
    rw [writes.chain chain, ← chain] at member
    obtain ⟨frame, found⟩ := Heap.Linked.mem h.written.linked member
    obtain ⟨new, there, within⟩ := writes g frame found
    have apart := h.distinct
    rw [List.map_append, List.nodup_append] at apart
    rw [Heap.getLocal_none there, List.map_append, List.mem_append, not_or]
    refine ⟨fun added => ?_, (Heap.getLocal_none found).1 (h.free g member b ?_)⟩
    · obtain ⟨entry, among, rfl⟩ := List.mem_map.1 added
      exact apart.2.2 _ (within entry among).1.2 _ site rfl
    · rw [List.map_append]
      exact List.mem_append_right _ site

/-- A frame that hosts syntax awaits no names of its own. -/
lemma nil {pieces : List Piece} (hosts : c.Hosts p regions pieces) (written : m.Written p regions) : c.Awaits p regions [] m where
  written := written
  region := by
    obtain ⟨region, known, -⟩ := hosts.apart
    exact ⟨region, known, List.nil_subset _⟩
  distinct := List.nodup_nil
  free _ _ _ site := nomatch site

/-- A binding at one of the names may be given a value. -/
lemma unseen (h : c.Awaits p regions names m) (site : p.siteOf c.module id ∈ names.map Ident.span) :
    ∀ g ∈ m.heap.chain c.frame, m.heap.getLocal? g id = none := fun g member =>
  h.free g member id site

lemma unknown (h : c.Awaits p regions names m) (site : p.siteOf c.module id ∈ names.map Ident.span) :
    m.heap.getLocal? c.frame id = none :=
  h.unseen site _ (Heap.chain_some (Array.getElem?_eq_getElem h.frame) ▸ List.mem_cons_self)

/-- The machine when a binding at one of the names has been given a value. -/
lemma define (h : c.Awaits p regions names m) (site : p.siteOf c.module id ∈ names.map Ident.span)
    (value : v.Written p regions) : { m with heap := m.heap.define c.frame id v : Machine }.Written p regions := by
  refine h.written.define value (h.unknown site) fun {i region} known => ?_
  obtain ⟨region', known', inside⟩ := h.region
  obtain ⟨rfl, rfl⟩ := Prod.mk.inj (Option.some.inj (known.symm.trans known'))
  exact inside site

/-- A new frame for a piece inside of a frame that hosts it hosts what is in the piece. It awaits values for the names of the piece
and for those that the frame around it awaits. -/
lemma new {q : Piece} {pieces : List Piece} (h : c.Awaits p regions names m) (hosts : c.Hosts p regions (q :: pieces))
    (laid : p.Laid) : ∃ regions', regions <+: regions' ∧
      Context.Hosts p regions' ⟨c.module, m.heap.size⟩ pieces ∧
      Context.Awaits p regions' ⟨c.module, m.heap.size⟩ (q.names ++ names) { m with heap := m.heap.push (some c.frame) } := by
  obtain ⟨region, known, inside⟩ := h.region
  obtain ⟨region', known', apart⟩ := hosts.apart
  obtain ⟨-, rfl⟩ := Prod.mk.inj (Option.some.inj (known'.symm.trans known))
  have distinct := hosts.there.distinct laid
  rw [Piece.allNames_cons, List.map_append, List.nodup_append] at distinct
  rw [Piece.allNames_cons, List.forall_mem_append] at apart
  have opened : (regions ++ [(c.module, q.names.map Ident.span ++ region')])[m.heap.size]? =
      some (c.module, q.names.map Ident.span ++ region') := by simp [← h.written.size]
  refine ⟨regions ++ [(c.module, q.names.map Ident.span ++ region')], List.prefix_append _ _, ⟨hosts.there.part
    (List.sublist_cons_self _ _), _, opened, fun name member => ?_⟩, h.written.push fun g member => ?_, ⟨_, opened, ?_⟩, ?_,
    fun g member b site => ?_⟩
  · -- what is in the piece is for other names
    rw [List.mem_append, not_or]
    refine ⟨fun own => distinct.2.2 _ own _ (List.mem_map_of_mem member) rfl, apart.2 name member⟩
  · obtain rfl := Option.some.inj member
    exact ⟨region', known', List.subset_append_right _ _⟩
  · rw [List.map_append]
    exact List.append_subset.2 ⟨List.subset_append_left _ _, List.Subset.trans inside (List.subset_append_right _ _)⟩
  · rw [List.map_append, List.nodup_append]
    refine ⟨distinct.1, h.distinct, fun place own other shared same => ?_⟩
    obtain ⟨name, member, rfl⟩ := List.mem_map.1 own
    exact apart.1 name member (inside (same ▸ shared))
  · rw [Heap.push_chain h.frame] at member
    rcases List.mem_cons.1 member with rfl | member
    · simp [Heap.getLocal?, Heap.push]
    · obtain ⟨frame, found⟩ := Heap.Linked.mem h.written.linked member
      have same : (m.heap.push (some c.frame)).getLocal? g b = m.heap.getLocal? g b := by
        simp only [Heap.getLocal?, Heap.push_old (Array.getElem?_eq_some_iff.1 found).1]
      rw [same]
      rw [List.map_append, List.mem_append] at site
      rcases site with own | shared
      · obtain ⟨name, among, place⟩ := List.mem_map.1 own
        cases value : m.heap.getLocal? g b with
        | none => rfl
        | some v => exact absurd (place ▸ h.written.site known member value) (apart.1 name among)
      · exact h.free g member b shared

/-- The frame of a module awaits values for the names at its top level. -/
lemma root {i : ModuleId} {pieces : List Piece} (written : m.Written p regions) (there : p.Contains i pieces)
    (distinct : ((names ++ Piece.allNames pieces).map Ident.span).Nodup) : ∃ regions', regions <+: regions' ∧
      Context.Hosts p regions' ⟨i, m.heap.size⟩ pieces ∧
      Context.Awaits p regions' ⟨i, m.heap.size⟩ names { m with heap := m.heap.push none } := by
  rw [List.map_append, List.nodup_append] at distinct
  have opened : (regions ++ [(i, names.map Ident.span)])[m.heap.size]? = some (i, names.map Ident.span) := by
    simp [← written.size]
  refine ⟨regions ++ [(i, names.map Ident.span)], List.prefix_append _ _, ⟨there, _, opened, fun name member own => ?_⟩,
    written.push nofun, ⟨_, opened, List.Subset.refl _⟩, distinct.1, fun g member b site => ?_⟩
  · exact distinct.2.2 _ own _ (List.mem_map_of_mem member) rfl
  · have chain : (m.heap.push none).chain m.heap.size = [m.heap.size] := by simp [Heap.push, Heap.chain]
    obtain rfl := List.mem_singleton.1 (chain ▸ member)
    simp [Heap.getLocal?, Heap.push]

end Context.Awaits

end

end PipeLang
