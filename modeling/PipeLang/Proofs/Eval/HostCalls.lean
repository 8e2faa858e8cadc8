import PipeLang.Proofs.Eval.Binding
import PipeLang.Proofs.Eval.Requests
import PipeLang.Proofs.Resolve.Uses

/-!
# Calls of host functions

Calls of host functions are checked before a program runs, from names and counts alone. The check says of a call what
the binding of its arguments says when the program runs, `checkHostCall_binding`, and so a call in a usable module that
was found to be one of a host function is never refused for its arguments: `Program.hostCalls_bind`.
-/

namespace PipeLang

/-- The parameters of each host function have different names. -/
def Hosts.Distinct (h : Hosts) : Prop :=
  ∀ name signature, h.signature? name = some signature → (signature.params.map HostParam.name).Nodup

/-- The parameters of the functions of the prelude have different names. -/
lemma Hosts.prelude_distinct : prelude.Distinct := by
  intro name signature known
  have all : ∀ entry ∈ prelude.functions, (entry.2.signature.params.map HostParam.name).Nodup := by decide
  obtain ⟨f, found, rfl⟩ := Option.map_eq_some_iff.1 known
  exact all _ (mem_of_lookup found)

lemma HostParam.slots_distinct {params : List HostParam} (distinct : (params.map HostParam.name).Nodup) :
    ((params.map HostParam.slot).map ParamSlot.name).Nodup := by
  rw [List.map_map]
  exact distinct

/-- The check of a call of a host function reports nothing exactly if the arguments can be bound, whatever they are. If
it reports something, then the first is what goes wrong when they are bound. -/
lemma Resolve.checkHostCall_binding {r : Resolution} {name : String} {signature : Signature}
    (known : r.program.hosts.signature? name = some signature)
    (distinct : (signature.params.map HostParam.name).Nodup) (positional : List Value)
    (keyword : List (String × Value)) (keywords : List Ident)
    (same : keywords.map Ident.name = keyword.map Prod.fst) (site : Span) :
    ∃ faults, (after (checkHostCall (.host name) positional.length keywords site) r).faults = r.faults ++ faults ∧
      (faults = [] ↔
        ∃ given, Eval.bindSlots name (signature.params.map HostParam.slot) positional keyword = .ok given) ∧
      ∀ fault rest, faults = fault :: rest → ∃ cause place cause', fault = .badCall name cause place ∧
        Eval.bindSlots name (signature.params.map HostParam.slot) positional keyword = .error (.badCall name cause') ∧
          cause.Alike cause' := by
  have slots := HostParam.slots_distinct distinct
  refine ⟨(callFaults (signature.params.map HostParam.slot) positional.length keywords site).map
    fun found => .badCall name found.1 found.2, ?_, ?_, ?_⟩
  · simp only [checkHostCall, after_bind, answer_get, after_get, known]
    rfl
  · rw [List.map_eq_nil_iff, callFaults_nil_iff slots positional keyword keywords same, Eval.bindSlots]
    cases bindArguments (signature.params.map HostParam.slot) positional keyword with
    | ok given => exact ⟨fun _ => ⟨given, rfl⟩, fun _ => ⟨given, rfl⟩⟩
    | error fault =>
      constructor
      · rintro ⟨_, bound⟩
        cases bound
      · rintro ⟨_, bound⟩
        cases bound
  · intro fault rest first
    obtain ⟨⟨cause, place⟩, others, faults, rfl, -⟩ := List.map_eq_cons_iff.1 first
    obtain ⟨cause', wrong, alike⟩ := callFaults_cons slots positional keyword keywords same faults
    exact ⟨cause, place, cause', rfl, by rw [Eval.bindSlots, wrong]; rfl, alike⟩

/-- The place of the callee of a call, or of a name or path that a stage calls, if it is a name or path. -/
def Expr.calleeSite? : Expr → Option Span
  | .call callee _ _ => callee.useSite?
  | e => e.useSite?

/-- An expression that has evaluated what it calls and the arguments comes to the call. -/
inductive Expr.Calls (run : Task → Eval Value) (c : Context) (m : Machine) :
    Expr → Option Value → Value → List Value → List (String × Value) → Machine → Prop where
  | call {callee args span incoming f positional keyword m₁ m₂} :
    run (.expr c callee none) m = .ok f m₁ →
    Eval.arguments run c args m₁ = .ok (positional, keyword) m₂ →
    Calls run c m (.call callee args span) incoming f (incoming.toList ++ positional) keyword m₂
  | stage {e site v f m₁} :
    e.useSite? = some site →
    run (.expr c e none) m = .ok f m₁ →
    Calls run c m e (some v) f [v] [] m₁

namespace Eval

variable {p : Program} {run : Task → Eval Value} {c : Context} {m m' : Machine} {name : String}

/-- Evaluated arguments are as many as the positional ones of a call, and are named as its keywords. -/
lemma arguments_named {args : List Argument} {positional : List Value} {keyword : List (String × Value)}
    (h : arguments run c args m = .ok (positional, keyword) m') :
    positional.length = args.countP (fun a => a.name.isNone) ∧
      (Resolve.keywordNames args).map Ident.name = keyword.map Prod.fst := by
  induction args generalizing m m' positional keyword with
  | nil =>
    cases h
    exact ⟨rfl, rfl⟩
  | cons a args ih =>
    obtain ⟨v, m₁, -, h⟩ := bind_ok h
    obtain ⟨⟨positional', keyword'⟩, m₂, others, h⟩ := bind_ok h
    obtain ⟨count, names⟩ := ih others
    obtain ⟨label, value⟩ := a
    cases label with
    | none =>
      cases h
      exact ⟨by simp [count], by simpa [Resolve.keywordNames] using names⟩
    | some label =>
      cases h
      exact ⟨by simp [count], by simpa [Resolve.keywordNames] using names⟩

/-- What the evaluation of an expression that comes to a call gives is what the call gives. -/
lemma expr_calls {e : Expr} {incoming : Option Value} {f : Value} {positional : List Value}
    {keyword : List (String × Value)} (calls : e.Calls run c m incoming f positional keyword m') :
    step p run (.expr c e incoming) m = run (.call f positional keyword) m' := by
  cases calls with
  | @call callee args span incoming f positional keyword m₁ m₂ called given =>
    cases incoming with
    | none => exact (bind_eq called).trans (bind_eq given)
    | some v => exact (bind_eq called).trans (bind_eq given)
  | @stage e site v f m₁ place called =>
    cases e with
    | name ident => exact bind_eq called
    | path head rest span => exact bind_eq called
    | _ => cases place

/-- The host function that a name or path was found to denote is what it evaluates to. -/
lemma step_host {e : Expr} {t : Resolved} {site : Span} {ref : Reference} (resolved : p.resolvedOf c.module = some t)
    (place : e.useSite? = some site) (found : t.references.get? site = some ref) (target : ref.target = .host name) :
    step p run (.expr c e none) m = .ok (.host name) m := by
  have read (shown : String) : reference p run c site shown m = .ok (.host name) m := by
    simp only [reference, resolvedOf_eq resolved, pure_bind, found, target]
    rfl
  cases e with
  | name ident =>
    cases place
    exact read _
  | path head rest span =>
    cases place
    exact read _
  | _ => cases place

/-- What a call goes to is the host function that its callee was found to denote. -/
lemma calls_host {e : Expr} {incoming : Option Value} {t : Resolved} {site : Span} {ref : Reference} {fuel : Nat}
    {f : Value} {positional : List Value} {keyword : List (String × Value)} (resolved : p.resolvedOf c.module = some t)
    (place : e.calleeSite? = some site) (found : t.references.get? site = some ref) (target : ref.target = .host name)
    (calls : e.Calls (Task.run p fuel) c m incoming f positional keyword m') : f = .host name := by
  have evaluated {e : Expr} {m₁ : Machine} (place : e.useSite? = some site)
      (called : Task.run p fuel (.expr c e none) m = .ok f m₁) : f = .host name := by
    cases fuel with
    | zero => cases called
    | succ fuel =>
      have denotes := @step_host p (Task.run p fuel) c m _ e t site ref resolved place found target
      rw [Task.run, denotes] at called
      cases called
      rfl
  cases calls with
  | call called given => exact evaluated place called
  | stage stage called =>
    refine evaluated ?_ called
    cases e with
    | name ident => exact place
    | path head rest span => exact place
    | _ => cases stage

lemma hostArguments_own {callee : String} {places : List (HostParam × Option Value)} {error : RuntimeError}
    (h : places.mapM (hostArgument callee) = .error error) : ∃ cause, error = .mismatch cause := by
  induction places with
  | nil => cases h
  | cons place places ih =>
    rw [List.mapM_cons] at h
    cases first : hostArgument callee place with
    | error error' =>
      rw [first] at h
      cases h
      simp only [hostArgument, checkArgument] at first
      split at first
      · cases first
      · cases first
        exact ⟨_, rfl⟩
    | ok v =>
      rw [first] at h
      cases others : places.mapM (hostArgument callee) with
      | error error' =>
        rw [others] at h
        cases h
        exact ih others
      | ok vs =>
        rw [others] at h
        cases h

/-- A call of a host function whose arguments can be bound is not refused for them. -/
lemma callHost_bound {f : HostFunction} {positional : List Value} {keyword : List (String × Value)}
    {given : List (Option Value)} (known : p.hosts.get? name = some f)
    (bound : bindSlots name (f.signature.params.map HostParam.slot) positional keyword = .ok given) {callee : String}
    {cause : CallFault} : callHost p name positional keyword m ≠ .error (.error (.badCall callee cause)) m' := by
  intro stopped
  simp only [callHost, known, bound, ofOutcome, pure_bind] at stopped
  cases args : (f.signature.params.zip given).mapM (hostArgument name) with
  | error error =>
    obtain ⟨mismatch, rfl⟩ := hostArguments_own args
    rw [args] at stopped
    cases stopped
  | ok args' =>
    rw [args] at stopped
    have drawn : freshIdentity m = .ok m.fresh { m with fresh := m.fresh + 1 } := rfl
    simp only [pure_bind] at stopped
    rw [bind_eq drawn] at stopped
    cases made : f.apply m.fresh args' with
    | ok v =>
      rw [made] at stopped
      cases stopped
    | error message =>
      rw [made] at stopped
      cases stopped

/-- A call that the check has passed is one whose arguments can be bound. -/
lemma slots_bound {signature : Signature} {positional : List Value} {keyword : List (String × Value)}
    {keywords : List Ident} {site : Span} (distinct : (signature.params.map HostParam.name).Nodup)
    (same : keywords.map Ident.name = keyword.map Prod.fst)
    (passed : callFaults (signature.params.map HostParam.slot) positional.length keywords site = []) :
    ∃ given, bindSlots name (signature.params.map HostParam.slot) positional keyword = .ok given := by
  have slots := HostParam.slots_distinct distinct
  obtain ⟨given, bound⟩ := (callFaults_nil_iff slots positional keyword keywords same).1 passed
  exact ⟨given, by rw [bindSlots, bound]; rfl⟩

/-- Where an expression is settled, the arguments of a call of a host function that it comes to can be bound. -/
lemma calls_bound {t : Resolved} {scope : ScopeId} {e : Expr} {incoming : Option Value} {site : Span} {ref : Reference}
    {signature : Signature} {f : Value} {positional : List Value} {keyword : List (String × Value)}
    (settled : e.Settled p t True scope incoming.isSome) (place : e.calleeSite? = some site)
    (found : t.references.get? site = some ref) (target : ref.target = .host name)
    (known : p.hosts.signature? name = some signature) (distinct : (signature.params.map HostParam.name).Nodup)
    (calls : e.Calls run c m incoming f positional keyword m') :
    ∃ given, bindSlots name (signature.params.map HostParam.slot) positional keyword = .ok given := by
  have pieces := settled.pieces
  cases calls with
  | @call callee args span _ _ positional _ _ _ called given =>
    cases pieces with
    | call _ _ admits =>
      obtain ⟨count, names⟩ := arguments_named given
      have passed := admits trivial site place ref found name signature target known
      have total : args.countP (fun a => a.name.isNone) + incoming.isSome.toNat =
          (incoming.toList ++ positional).length := by
        rw [List.length_append, count, Nat.add_comm]
        cases incoming <;> rfl
      exact slots_bound distinct names (total ▸ passed)
  | stage stage called =>
    cases pieces with
    | name _ _ admits =>
      cases place
      exact slots_bound distinct rfl (admits trivial rfl ref found name signature target known)
    | path _ _ _ admits =>
      cases place
      exact slots_bound distinct rfl (admits trivial rfl ref found name signature target known)
    | _ => cases stage

end Eval

namespace Program

/-- The check of calls of host functions and the binding of their arguments accept the same calls, and what the check
reports of another first is what the binding refuses it for.

Host functions are taken to name no parameter twice and to hand on no functions but those that they are given and those that
are registered. Then, behind any loads and behind requests of usable modules with values that are made from answers, a call or
a stage in a usable module whose callee was found to be a host function evaluates to a call of that function, which is never
refused for its arguments. -/
theorem hostCalls_bind (sources : Sources) (policy : GlobPolicy) (hosts : Hosts) (paths : List String) :
    (∀ (r : Resolution) name signature (positional : List Value) (keyword : List (String × Value))
        (keywords : List Ident) site, r.program.hosts.signature? name = some signature →
      (signature.params.map HostParam.name).Nodup → keywords.map Ident.name = keyword.map Prod.fst →
      ∃ faults, (Resolve.after (Resolve.checkHostCall (.host name) positional.length keywords site) r).faults =
          r.faults ++ faults ∧
        (faults = [] ↔
          ∃ given, Eval.bindSlots name (signature.params.map HostParam.slot) positional keyword = .ok given) ∧
        ∀ fault rest, faults = fault :: rest → ∃ cause place cause', fault = .badCall name cause place ∧
          Eval.bindSlots name (signature.params.map HostParam.slot) positional keyword = .error (.badCall name cause') ∧
            cause.Alike cause') ∧
    (hosts.Honest → hosts.Distinct →
      let p := (new sources policy hosts).loadAll paths
      ∀ m known r fuel c e incoming m', History p m known → r.Fair p known →
        Request.Reaches p fuel r m (.expr c e incoming) m' →
        ∀ t site ref name, p.resolvedOf c.module = some t → e.calleeSite? = some site →
          t.references.get? site = some ref → ref.target = .host name →
        ∀ deep f positional keyword m'', e.Calls (Task.run p deep) c m' incoming f positional keyword m'' →
          Task.run p (deep + 1) (.expr c e incoming) m' = Task.run p deep (.call (.host name) positional keyword) m'' ∧
            ∀ deep' callee cause s,
              Task.run p deep' (.call (.host name) positional keyword) m'' ≠ .error (.error (.badCall callee cause)) s) := by
  refine ⟨fun r name signature positional keyword keywords site known different same =>
    Resolve.checkHostCall_binding known different positional keyword keywords same site, ?_⟩
  intro honest distinct p m known r fuel c e incoming m' history fair reaches t site ref name resolved place found target deep f
    positional keyword m'' calls
  have start : (new sources policy hosts).AtRest := atRest_new
  obtain ⟨rest, same⟩ : p.AtRest ∧ p.hosts = hosts := start.loadAll paths
  have honest' : p.hosts.Honest := same ▸ honest
  obtain ⟨labels, sound, fit⟩ := history.sound rest honest'
  obtain ⟨task, between, consults, reaches⟩ := reaches
  have agree : Eval.Agree p labels _ _ := Task.run_keeps rest honest' fuel
  obtain ⟨labels₁, -, sound₁, fits₁⟩ := consults.fits sound agree fun run' agree =>
    Request.answerOver_keeps rest agree fair fit
  obtain ⟨labels₂, -, sound₂, fits₂⟩ := reaches.fits rest honest' sound₁ fits₁
  cases fits₂ with
  | @expr _ t' scope _ _ stands settled _ =>
    obtain rfl : t' = t := Option.some.inj (stands.resolved.symm.trans resolved)
    -- the module knows the host function
    obtain ⟨loaded, t'', ast, loadedAs, resolvedAs, -, module⟩ := rest.ready stands.usable
    rw [resolvedOf_some loadedAs, resolvedAs, Option.some.injEq] at resolved
    subst resolved
    obtain ⟨h, known⟩ := Option.isSome_iff_exists.1 (module.host found target)
    have signed : p.hosts.signature? name = some h.signature := by rw [Hosts.signature?, known]; rfl
    have different : (h.signature.params.map HostParam.name).Nodup := distinct name _ (same ▸ signed)
    obtain ⟨given, bound⟩ := Eval.calls_bound settled place found target signed different calls
    obtain rfl := Eval.calls_host stands.resolved place found target calls
    refine ⟨Eval.expr_calls calls, fun deep' callee cause s stopped => ?_⟩
    cases deep' with
    | zero => cases stopped
    | succ deep' => exact Eval.callHost_bound known bound stopped

/-- A program with a call of a host function. -/
def measuring : Program :=
  (new (.ofTexts (.ofList [("main.kcl", "r = len([true])\n")])) .eager .prelude).loadAll ["main"]

/-- The check passes the call, and when the module runs the call is not refused. -/
theorem hostCalls_bind_measuring :
    (Resolve.after (Resolve.checkHostCall (.host "len") 1 [] ⟨4, 15⟩) (.start measuring 0 ⟨0, 16⟩)).faults = [] ∧
    ∃ e m positional m', Request.Reaches measuring 6 (.query (.module 0)) .new (.expr ⟨0, 0⟩ e none) m ∧
      Task.run measuring 5 (.expr ⟨0, 0⟩ e none) m = Task.run measuring 4 (.call (.host "len") positional []) m' ∧
        ∀ callee cause s,
          Task.run measuring 4 (.call (.host "len") positional []) m' ≠ .error (.error (.badCall callee cause)) s := by
  have bind := hostCalls_bind (.ofTexts (.ofList [("main.kcl", "r = len([true])\n")])) .eager .prelude ["main"]
  have hosts : measuring.hosts = .prelude := (atRest_new.loadAll _).2
  constructor
  · have known : measuring.hosts.signature? "len" = some ⟨[⟨"items", .array .any, none⟩], .number⟩ := by
      rw [hosts]
      rfl
    obtain ⟨faults, reported, accepted, -⟩ := bind.1 (.start measuring 0 ⟨0, 16⟩) "len" _ [.bool true] [] [] ⟨4, 15⟩ known
      (by decide) rfl
    rw [accepted.2 ⟨_, rfl⟩] at reported
    exact reported
  let opened := Eval.begun 0 .new
  have computed : (measuring.modules[0]?.any fun loaded => loaded.isUsable && loaded.ast.any fun ast =>
      ast.definedCall?.any fun call =>
        (loaded.resolved.any fun t => (t.references.get? call.1.span).any fun known => decide (known.target = .host "len")) &&
        Eval.gives (fun given _ => given.2.isEmpty) (Eval.arguments (Task.run measuring 4) ⟨0, 0⟩ call.2.1 opened)) = true ∧
      Eval.gives (fun _ _ => true) ((Request.query (.module 0)).answer measuring 6 .new) = true := by decide +kernel
  simp only [Bool.and_eq_true, Option.any_eq_true, Eval.gives_iff, decide_eq_true_eq, List.isEmpty_iff] at computed
  obtain ⟨⟨loaded, found, fine, ast, parsed, ⟨ident, args, span⟩, defined, ⟨t, resolved, ⟨_, ty⟩, known, rfl⟩, ⟨positional, _⟩, m',
    arguments, rfl⟩, _, _, answered, -⟩ := computed
  obtain ⟨exported, name, place, statements⟩ := Module.definedCall?_eq_some defined
  let call : Expr := .call (.name ident) args span
  have reaches : Request.Reaches measuring 6 (.query (.module 0)) .new (.expr ⟨0, 0⟩ call none) opened := by
    refine Request.reaches_statement found fine parsed statements rfl (by simp [answered]) fun goes => ?_
    refine .of_stop (.expr ⟨0, 0⟩ call none) opened (fun run s stops => ⟨s, ?_⟩) goes fun _ => .here
    change EStateM.bind (run (.expr ⟨0, 0⟩ call none)) _ opened = _
    simp only [EStateM.bind, stops]
  have resolvedOf : measuring.resolvedOf 0 = some t := by rw [resolvedOf_some found, resolved]
  have called : Task.run measuring 4 (.expr ⟨0, 0⟩ (.name ident) none) opened = .ok (.host "len") opened :=
    Eval.step_host resolvedOf rfl known rfl
  have calls : call.Calls (Task.run measuring 4) ⟨0, 0⟩ opened none _ _ _ _ := .call called arguments
  obtain ⟨runs, accepted⟩ := bind.2 Hosts.prelude_honest Hosts.prelude_distinct _ _ _ _ _ _ _ _ .start (.module ⟨loaded, found, fine⟩) reaches t _ _ _ resolvedOf rfl
    known rfl _ _ _ _ _ calls
  exact ⟨call, opened, _, m', reaches, runs, accepted 4⟩

end Program

end PipeLang
