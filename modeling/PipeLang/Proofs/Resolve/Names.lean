import PipeLang.Proofs.Resolve.Settled
import PipeLang.Proofs.Resolve.Walked

/-!
# Uses and declarations

What a use of a name or path and what a declaration make of a resolution: each either does what it is for or is
refused, and then the resolution is never clean again.
-/

namespace PipeLang

/-- A name that is found has a binding in one of the scopes. -/
lemma Scopes.lookupAlong_found {t : Scopes} {name : String} {offset : Nat} {later : Option BindingId}
    {path : List ScopeId} {id : Nat} (h : t.lookupAlong name offset later path = .found id) :
    ∃ b, t.bindings[id]? = some b ∧ b.scope ∈ path := by
  induction path generalizing later with
  | nil => cases later <;> simp [lookupAlong] at h
  | cons scope outer ih =>
    simp only [lookupAlong] at h
    split at h
    · next first others visible =>
      split at h
      · cases h
        have member : id ∈ (t.named scope name).filter (t.isVisible offset) := by simp [visible]
        have here := (List.mem_filter.1 (List.mem_filter.1 member).1).2
        obtain ⟨b, known, here⟩ := (Option.any_eq_true _ _).1 here
        simp only [Bool.and_eq_true, beq_iff_eq] at here
        exact ⟨b, known, here.1 ▸ List.mem_cons_self⟩
      · cases h
    · obtain ⟨b, known, around⟩ := ih h
      exact ⟨b, known, List.mem_cons_of_mem _ around⟩

/-- What was found for a use is what is recorded of it. -/
def Resolution.Recorded (f : Resolution) (use : Span) (found : Option (Target × Ty)) : Prop :=
  ∃ target ty, found = some (target, ty) ∧ f.references.get? use = some ⟨target, ty⟩

namespace Resolution.Recorded

variable {f : Resolution} {use site : Span} {found : Option (Target × Ty)} {positional : Nat} {keywords : List Ident}

lemma isSome (h : f.Recorded use found) : (f.references.get? use).isSome := by
  obtain ⟨target, ty, -, recorded⟩ := h
  exact Option.isSome_of_eq_some recorded

/-- A call of what was found passes if one of what is recorded does. -/
lemma admits (h : f.Recorded use found)
    (passes : ∀ known, found = some known → known.1.Admits f.program.hosts positional keywords site) :
    f.resolved.Admits f.program.hosts use positional keywords site := by
  obtain ⟨target, ty, rfl, recorded⟩ := h
  intro known same
  cases recorded.symm.trans same
  exact passes _ rfl

end Resolution.Recorded

namespace Resolve

variable {load : Loader} {r r' : Resolution} {lo hi a b : Nat}

lemma report_quiet {faults : List Fault} (own : ∀ f ∈ faults, f.isPassedOn = false) :
    Quiet load r (after (report faults) r) fun f => f.Clean → faults = [] where
  moves _ _ := .single (.report own)
  scopes := rfl
  current := rfl
  references := rfl
  declarations := rfl
  imports := rfl
  loopSites := rfl
  tells later clean := (List.append_eq_nil_iff.1 (later.clean clean).1).2

/-- After a fault has been reported, a resolution is never clean. -/
lemma report_fault {fault : Fault} (own : fault.isPassedOn = false) :
    Quiet load r (after (report [fault]) r) fun f => ¬ f.Clean :=
  (report_quiet (by simpa using own)).imp fun _ none clean => by simpa using none clean

lemma leaveOpen_quiet {ident : Ident} : Quiet load r (after (leaveOpen ident) r) fun f => ¬ f.Clean where
  moves _ _ := .single .leaveOpen
  scopes := rfl
  current := rfl
  references := rfl
  declarations := rfl
  imports := rfl
  loopSites := rfl
  tells later clean := by simpa using (later.clean clean).2

lemma rejectIncoming_quiet {incoming : Option Ty} {e : Expr} :
    Quiet load r (after (rejectIncoming incoming e) r) fun f =>
      f.Clean → incoming.isSome = true → e.rejection? = none := by
  simp only [rejectIncoming]
  cases incoming with
  | none => exact Quiet.skip.imp (by simp)
  | some ty =>
    cases rejection : e.rejection? with
    | none => exact Quiet.skip.imp (by simp)
    | some stage => exact (report_fault rfl).imp fun _ faulty clean => absurd clean faulty

lemma rejectTailless_quiet {incoming : Option Ty} {body : List Statement} {site : Span} :
    Quiet load r (after (rejectTailless incoming body site) r) fun f =>
      f.Clean → incoming.isSome = true → (tailExpr? body).isSome := by
  simp only [rejectTailless]
  split
  · exact (report_fault rfl).imp fun _ faulty clean => absurd clean faulty
  · next fine =>
    refine Quiet.skip.imp fun _ _ _ given => ?_
    simp only [Bool.and_eq_true, not_and, Bool.not_eq_true, Option.isNone_eq_false_iff] at fine
    exact fine given

lemma refuseNested_quiet {exported topLevel : Bool} {site : Span} :
    Quiet load r (after (refuseNested exported topLevel site) r) fun _ => True := by
  simp only [refuseNested]
  split
  · exact (report_fault rfl).imp fun _ _ => trivial
  · exact .skip

lemma checkHostCall_quiet {target : Target} {positional : Nat} {keywords : List Ident} {site : Span} :
    Quiet load r (after (checkHostCall target positional keywords site) r) fun f =>
      f.Clean → target.Admits f.program.hosts positional keywords site := by
  cases target with
  | host name =>
    simp only [checkHostCall, after_bind, answer_get, after_get]
    cases known : r.program.hosts.signature? name with
    | none =>
      refine { Quiet.skip (r := r) with tells := fun later _ name' signature same found => ?_ }
      cases same
      rw [later.program.hosts, after_pure, known] at found
      cases found
    | some signature =>
      have own : ∀ fault ∈ (callFaults (signature.params.map HostParam.slot) positional keywords site).map
          (fun found => Fault.badCall name found.1 found.2), fault.isPassedOn = false := by
        intro fault member
        obtain ⟨⟨cause, place⟩, -, rfl⟩ := List.mem_map.1 member
        rfl
      have reported : Quiet load r _ _ := report_quiet own
      refine { reported with tells := fun later clean name' signature' same found => ?_ }
      cases same
      rw [later.program.hosts, after_report, known] at found
      cases found
      exact List.map_eq_nil_iff.1 (reported.tells later clean)
  | _ => exact Quiet.skip.imp fun _ _ _ _ _ same => Target.noConfusion same

lemma stageType_quiet {incoming : Option Ty} {site : Span} {found : Option (Target × Ty)} :
    Quiet load r (after (stageType incoming site found) r) fun f =>
      f.Clean → incoming.isSome = true → ∀ known, found = some known → known.1.Admits f.program.hosts 1 [] site := by
  cases found with
  | none => exact Quiet.skip.imp (by simp)
  | some known =>
    obtain ⟨target, ty⟩ := known
    simp only [stageType]
    split
    · refine checkHostCall_quiet.imp fun f admits clean _ known same => ?_
      cases same
      exact admits clean
    · next without => exact Quiet.skip.imp fun _ _ _ given => absurd given without

/-- What a use of a name makes of a resolution. -/
inductive NameUse (load : Loader) (r : Resolution) (ident : Ident) : Option (Target × Ty) → Resolution → Prop where
  | bound {id : Nat} {b : Binding} :
    r.scopes.lookup r.current ident.name ident.span.start = .found id →
    r.scopes.bindings[id]? = some b →
    b.target ≠ .invalid →
    NameUse load r ident (some (b.target, r.scopes.typeAt id r.current))
      { r with references := r.references.insert ident.span ⟨b.target, r.scopes.typeAt id r.current⟩ }
  | host {signature ty} :
    r.scopes.lookup r.current ident.name ident.span.start = .notFound →
    r.program.hosts.signature? ident.name = some signature →
    NameUse load r ident (some (.host ident.name, ty))
      { r with references := r.references.insert ident.span ⟨.host ident.name, ty⟩ }
  | refused {next : Resolution} :
    Quiet load r next (fun f => ¬ f.Clean) →
    NameUse load r ident none next

lemma useName_use (ident : Ident) (tidy : r.Tidy) :
    NameUse load r ident (answer (useName ident) r) (after (useName ident) r) := by
  simp only [useName, after_bind, answer_bind, answer_get, after_get]
  cases found : r.scopes.lookup r.current ident.name ident.span.start with
  | found id =>
    obtain ⟨b, known, -⟩ := Scopes.lookupAlong_found found
    have target : r.scopes.target id = b.target := by simp [Scopes.target, known]
    simp only [target]
    split
    · next invalid =>
      refine .refused { Quiet.skip with tells := fun later clean => ?_ }
      exact tidy.invalid known invalid (later.clean clean).1
    · next valid => exact .bound found known valid
  | ambiguous ids => exact .refused (report_fault rfl)
  | notYetDeclared id => exact .refused (report_fault rfl)
  | notFound =>
    simp only [useHost, after_bind, answer_bind, answer_get, after_get]
    cases known : r.program.hosts.signature? ident.name with
    | none => exact .refused leaveOpen_quiet
    | some signature => exact .host found known

/-- What a use of a name may have denoted, it denotes. -/
lemma NameUse.meant {ident : Ident} {target : Target} {ty : Ty}
    (use : NameUse load r ident (some (target, ty)) r') : r'.Meant target ∧ r'.scopes = r.scopes := by
  cases use with
  | bound _ known valid => exact ⟨.bound known valid, rfl⟩
  | host _ known => exact ⟨.host known, rfl⟩

/-- Nothing is recorded yet of a place that a resolution is ready for. -/
lemma references_fresh {site : Span} (ready : r.Ready lo hi) (from_ : lo ≤ site.start) : r.references.get? site = none := by
  by_contra known
  obtain ⟨x, known⟩ := Option.ne_none_iff_exists'.1 known
  exact absurd (Nat.lt_of_lt_of_le (ready.references known) from_) (Nat.lt_irrefl _)

/-- What is recorded of a name at its use is what the finished table says of it, and a clean resolution has
recorded something. -/
lemma NameUse.walked {ident : Ident} {found : Option (Target × Ty)} (use : NameUse load r ident found r')
    (tidy : r.Tidy) (ready : r.Ready lo hi) (proper : ident.span.Proper) (from_ : lo ≤ ident.span.start)
    (upTo : ident.span.stop ≤ hi) :
    Walked load ident.span.start ident.span.stop r r' fun f =>
      (∀ known, f.references.get? ident.span = some known → f.resolved.Answers ident known) ∧
        (f.Clean → f.Recorded ident.span found) := by
  have proper' : ident.span.start < ident.span.stop := proper
  have fresh : r.references.get? ident.span = none := references_fresh ready from_
  have within : ident.span.Within ident.span.start ident.span.stop := ⟨proper, proper, Nat.le_refl _⟩
  have seen {id : Nat} {b : Binding} (known : r.scopes.bindings[id]? = some b) : b.visibleFrom ≤ ident.span.start :=
    Nat.le_of_lt (Nat.lt_of_lt_of_le (ready.bindings known) from_)
  have scopeAt {f : Resolution} (fTidy : f.Tidy) (grows : r.scopes.Grows ident.span.stop f.scopes) :
      f.scopes.scopeAt ident.span.start = r.current :=
    ready.scopeAt tidy fTidy.nested grows from_ (by omega) proper
  have here {f : Resolution} (fTidy : f.Tidy) (grows : r.scopes.Grows ident.span.stop f.scopes) :
      f.scopes.scopeAt ident.span.start = f.scopes.enclosing ident.span :=
    (scopeAt fTidy grows).trans
      (ready.enclosing tidy fTidy.nested (grows.mono (Nat.le_of_lt proper)) proper from_ upTo).symm
  cases use with
  | @bound id b found known valid =>
    refine ⟨.single (.record within fresh (.bound known valid) seen), rfl, fun {f} fTidy later => ?_⟩
    have grows : r.scopes.Grows ident.span.stop f.scopes := later.scopes
    have recorded := later.references (s := ident.span) (by rw [SpanTable.get?_insert, if_pos rfl])
    refine ⟨fun reference same => ?_, fun _ => ⟨_, _, rfl, recorded⟩⟩
    rw [recorded] at same
    cases same
    have inside := (Array.getElem?_eq_some_iff.1 known).1
    refine ⟨fun _ => ?_, here fTidy grows, fun name isHost => ?_⟩
    · refine ⟨id, ?_, ?_, ?_⟩
      · simp only [Resolved.lookupAt, Resolution.resolved, scopeAt fTidy grows]
        exact grows.lookup_found tidy.current proper found
      · simp [Resolution.resolved, Scopes.target, grows.bindings known]
      · simp only [Resolution.resolved, scopeAt fTidy grows]
        exact grows.typeAt_eq inside tidy.current
    · exact absurd isHost ((tidy.bindable known).ne_host name)
  | @host signature ty missing known =>
    refine ⟨.single (.record within fresh (.host known) seen), rfl, fun {f} fTidy later => ?_⟩
    have grows : r.scopes.Grows ident.span.stop f.scopes := later.scopes
    have recorded := later.references (s := ident.span) (by rw [SpanTable.get?_insert, if_pos rfl])
    refine ⟨fun reference same => ?_, fun _ => ⟨_, _, rfl, recorded⟩⟩
    rw [recorded] at same
    cases same
    refine ⟨fun notHost => ?_, here fTidy grows, fun _ _ => ?_⟩
    · exact absurd rfl (notHost ident.name)
    · simp only [Resolved.lookupAt, Resolution.resolved, scopeAt fTidy grows]
      exact grows.lookup_notFound tidy.current proper missing
  | refused quiet =>
    refine ⟨quiet.moves _ _, quiet.current, fun {f} fTidy later => ⟨fun reference same => ?_, fun clean => ?_⟩⟩
    · rcases later.newReference same with old | behind
      · rw [quiet.references, fresh] at old
        cases old
      · exact absurd behind (Nat.lt_irrefl _)
    · exact absurd clean (quiet.tells (later.mono (Nat.zero_le _)))

/-- What following a path from a target makes of a resolution. -/
inductive PathUse (load : Loader) (r : Resolution) (start : Target) (rest : List Ident) (site : Span) :
    Option (Target × Ty) → Resolution → Prop where
  | through {target ty} :
    r.Meant target →
    r.program.follow start rest = some target →
    PathUse load r start rest site (some (target, ty)) { r with references := r.references.insert site ⟨target, ty⟩ }
  | refused {next : Resolution} :
    Quiet load r next (fun f => ¬ f.Clean) →
    PathUse load r start rest site none next

lemma PathUse.walked {start : Target} {rest : List Ident} {site : Span} {found : Option (Target × Ty)}
    (use : PathUse load r start rest site found r') (fresh : r.references.get? site = none) (within : site.Within lo hi)
    (seen : ∀ {id : Nat} {b}, r.scopes.bindings[id]? = some b → b.visibleFrom ≤ site.start) :
    Walked load lo hi r r' fun f => f.Clean → f.Recorded site found ∧
      ∃ ref, f.references.get? site = some ref ∧ f.program.follow start rest = some ref.target := by
  cases use with
  | @through target ty meant follows =>
    refine ⟨.single (.record within fresh meant seen), rfl, fun {f} _ later _ => ?_⟩
    have recorded := later.references (s := site) (by rw [SpanTable.get?_insert, if_pos rfl])
    exact ⟨⟨_, _, rfl, recorded⟩, _, recorded, later.program.follow follows⟩
  | refused quiet => exact quiet.walked.imp fun f faulty clean => absurd clean faulty

/-- Where the paths from two targets lead to the same. -/
lemma PathUse.from_ {start start' : Target} {rest rest' : List Ident} {site : Span} {found : Option (Target × Ty)}
    (use : PathUse load r start rest site found r') (same : r.program.follow start' rest' = r.program.follow start rest) :
    PathUse load r start' rest' site found r' := by
  cases use with
  | through meant follows => exact .through meant (same.trans follows)
  | refused quiet => exact .refused quiet

/-- A module that a name can mean is there. -/
lemma meant_module (tidy : r.Tidy) {id : Nat} (meant : r.Meant (.module id)) :
    ∃ m, r.program.modules[id]? = some m := by
  refine ⟨_, Array.getElem?_eq_getElem ?_⟩
  generalize e : Target.module id = target at meant
  cases meant with
  | bound known _ =>
    have bindable := tidy.bindable known
    rw [← e] at bindable
    exact bindable.module_lt
  | host _ => cases e
  | through _ found member =>
    have := tidy.offers _ _ found _ member
    rw [← e] at this
    cases this with
    | module inside => exact inside

lemma followPath_use (tidy : r.Tidy) {site : Span} {target : Target} {ty : Ty} {before : Ident}
    {rest : List Ident} (meant : r.Meant target) :
    PathUse load r target rest site (answer (followPath site target ty before rest) r)
      (after (followPath site target ty before rest) r) := by
  induction rest generalizing target ty before with
  | nil => exact .through meant rfl
  | cons segment rest ih =>
    cases target with
    | module id =>
      obtain ⟨m, found⟩ := meant_module tidy meant
      simp only [followPath, after_bind, answer_bind, answer_get, after_get, found]
      cases exported : m.exports.get? segment.name with
      | none => exact .refused (report_fault rfl)
      | some e =>
        have next : r.program.follow (.module id) (segment :: rest) = r.program.follow e.target rest := by
          rw [Program.follow, Program.exportsOf, found]
          exact congrArg (Option.bind · _) exported
        exact (ih (.through meant found (List.mem_of_find?_eq_some exported))).from_ next
    | _ => exact .refused (report_fault rfl)

lemma run_get_bind {α : Type} {f : Resolution → Resolve α} : (get >>= f).run r = (f r).run r := rfl

/-- A path whose head is found is followed from there. -/
lemma usePath_headed {head : Ident} {rest : List Ident} {site : Span}
    (known : r.scopes.lookup r.current head.name head.span.start ≠ .notFound) :
    (usePath head rest site).run r =
      (useName head >>= fun
        | some (target, ty) => followPath site target ty head rest
        | none => return none).run r := by
  rw [usePath, run_get_bind]
  cases found : r.scopes.lookup r.current head.name head.span.start with
  | notFound => exact absurd found known
  | _ => rfl

/-- A path whose head is not found must be the name of a host function. -/
lemma usePath_headless {head : Ident} {rest : List Ident} {site : Span}
    (missing : r.scopes.lookup r.current head.name head.span.start = .notFound) :
    (usePath head rest site).run r =
      (useHost (pathName head rest) site >>= fun
        | some found => return some found
        | none => do
          leaveOpen head
          return none).run r := by
  rw [usePath, run_get_bind]
  cases found : r.scopes.lookup r.current head.name head.span.start with
  | notFound => rfl
  | _ => cases missing.symm.trans found

/-- What a later resolution tells of a path that has been read: what is recorded of its head is what the finished table says of
it, and if it is clean, it has recorded what the path denotes, which is what the segments lead to from the head. -/
def ReadsPath (head : Ident) (rest : List Ident) (site : Span) (found : Option (Target × Ty)) (f : Resolution) : Prop :=
  (∀ known, f.references.get? head.span = some known → f.resolved.Answers head known) ∧
    (f.Clean → f.Recorded site found) ∧ (f.Clean → f.resolved.Follows f.program head rest site)

section

variable {head : Ident} {rest : List Ident} {site : Span}

/-- A path whose head is not found is the name of a host function or refused, and nothing is recorded of its head. -/
lemma usePath_headless_walked (ready : r.Ready lo hi) (proper : head.span.Proper) (starts : site.start = head.span.start)
    (stops : head.span.stop < site.stop) (from_ : lo ≤ site.start)
    (missing : r.scopes.lookup r.current head.name head.span.start = .notFound) :
    Walked load site.start site.stop r (after (usePath head rest site) r)
      (ReadsPath head rest site (answer (usePath head rest site) r)) := by
  have proper' : head.span.start < head.span.stop := proper
  have fresh {s : Span} (start : s.start = head.span.start) : r.references.get? s = none :=
    references_fresh ready (by omega)
  have seen {id : Nat} {b : Binding} (known : r.scopes.bindings[id]? = some b) : b.visibleFrom ≤ site.start :=
    Nat.le_of_lt (Nat.lt_of_lt_of_le (ready.bindings known) from_)
  have other : head.span ≠ site := fun e => by
    rw [e] at stops
    exact Nat.lt_irrefl _ stops
  have unnamed {r' f : Resolution} {known : Reference} (later : r'.Later site.stop f)
      (none : r'.references.get? head.span = none) : f.references.get? head.span ≠ some known := by
    intro same
    rcases later.newReference same with old | behind
    · rw [none] at old
      cases old
    · omega
  rw [after, answer, usePath_headless missing, ← after, ← answer]
  simp only [useHost, after_bind, answer_bind, answer_get, after_get]
  cases known : r.program.hosts.signature? (pathName head rest) with
  | none =>
    have quiet : Quiet load r (after (leaveOpen head) r) fun f => ¬ f.Clean := leaveOpen_quiet
    refine ⟨quiet.moves _ _, rfl, fun {f} _ later => ?_⟩
    have faulty : ¬ f.Clean := quiet.tells (later.mono (Nat.zero_le _))
    exact ⟨fun _ same => absurd same (unnamed later (fresh rfl)), fun clean => absurd clean faulty,
      fun clean => absurd clean faulty⟩
  | some signature =>
    have within : site.Within site.start site.stop := ⟨by omega, by omega, Nat.le_refl _⟩
    show Walked load site.start site.stop r
      { r with references := r.references.insert site ⟨.host (pathName head rest), .function signature.returns⟩ } _
    refine ⟨.single (.record within (fresh starts) (.host known) seen), rfl, fun {f} _ later => ?_⟩
    have none (reference : Reference) : f.references.get? head.span ≠ some reference :=
      unnamed later (by rw [SpanTable.get?_insert, if_neg other, fresh rfl])
    refine ⟨fun _ same => absurd same (none _), fun _ => ?_, fun _ _ same => absurd same (none _)⟩
    exact ⟨_, _, rfl, later.references (s := site) (by rw [SpanTable.get?_insert, if_pos rfl])⟩

/-- A path whose head is found is what its segments lead to from there. -/
lemma usePath_headed_walked (tidy : r.Tidy) (ready : r.Ready lo hi) (proper : head.span.Proper)
    (starts : site.start = head.span.start) (stops : head.span.stop < site.stop) (from_ : lo ≤ site.start) (upTo : site.stop ≤ hi)
    (keeps : load.KeepsOffers) (found : r.scopes.lookup r.current head.name head.span.start ≠ .notFound) :
    Walked load site.start site.stop r (after (usePath head rest site) r)
      (ReadsPath head rest site (answer (usePath head rest site) r)) := by
  have proper' : head.span.start < head.span.stop := proper
  have seen {id : Nat} {b : Binding} (known : r.scopes.bindings[id]? = some b) : b.visibleFrom ≤ site.start :=
    Nat.le_of_lt (Nat.lt_of_lt_of_le (ready.bindings known) from_)
  rw [after, answer, usePath_headed found, ← after, ← answer]
  have use : NameUse load r head _ _ := useName_use head tidy
  simp only [after_bind, answer_bind]
  generalize answer (useName head) r = found at use ⊢
  generalize after (useName head) r = r₁ at use ⊢
  have walked := use.walked tidy ready proper (by omega) (by omega)
  cases found with
  | none =>
    cases use with
    | refused quiet =>
      exact (walked.andQuiet { Quiet.skip with tells := fun later => quiet.tells later }).widen
        (Nat.le_of_eq starts) (Nat.le_of_lt stops) |>.imp fun f ⟨⟨answers, _⟩, faulty⟩ =>
          ⟨answers, fun clean => absurd clean faulty, fun clean => absurd clean faulty⟩
  | some known =>
    obtain ⟨target, ty⟩ := known
    have tidy₁ := walked.tidy keeps tidy
    have follow : PathUse load r₁ target rest site (answer (followPath site target ty head rest) r₁)
        (after (followPath site target ty head rest) r₁) := followPath_use tidy₁ use.meant.1
    -- the place of the head is not that of the path, so that nothing is recorded at the path yet
    have fresh₁ : r₁.references.get? site = none := by
      by_contra known
      obtain ⟨x, known⟩ := Option.ne_none_iff_exists'.1 known
      rcases walked.moves.spread.references.placed known with old | ⟨-, -, stop⟩
      · rw [references_fresh ready (by omega)] at old
        cases old
      · omega
    have behind := follow.walked fresh₁ ⟨by omega, stops, Nat.le_refl _⟩ (use.meant.2 ▸ seen)
    exact (walked.seq behind (Nat.le_refl _) (Nat.le_of_lt proper) (Nat.le_of_lt stops)).widen
      (Nat.le_of_eq starts) (Nat.le_refl _) |>.imp fun f ⟨⟨answers, named⟩, recorded⟩ =>
        ⟨answers, fun clean => (recorded clean).1, fun clean known same => by
          obtain ⟨_, _, found, recorded'⟩ := named clean
          cases found
          cases same.symm.trans recorded'
          exact (recorded clean).2⟩

/-- A path is read so. -/
lemma usePath_walked (rest : List Ident) (tidy : r.Tidy) (ready : r.Ready lo hi)
    (proper : head.span.Proper) (starts : site.start = head.span.start) (stops : head.span.stop < site.stop)
    (from_ : lo ≤ site.start) (upTo : site.stop ≤ hi) (keeps : load.KeepsOffers) :
    Walked load site.start site.stop r (after (usePath head rest site) r)
      (ReadsPath head rest site (answer (usePath head rest site) r)) := by
  by_cases missing : r.scopes.lookup r.current head.name head.span.start = .notFound
  · exact usePath_headless_walked ready proper starts stops from_ missing
  · exact usePath_headed_walked tidy ready proper starts stops from_ upTo keeps missing

end

end Resolve

end PipeLang
