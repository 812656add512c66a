import FeatherScript.Proofs.Eval.Timeline
import FeatherScript.Session

/-!
# The scopes of a session

Whatever the steps of a session are, everything that they do to the state is a run of events, on
which the steps that failed and the one that is under way stand with those that succeeded. So what
runs leave as it was holds between any two moments of a session.

* `Session.events`: the events of a step.
* `Session.Reached`: the sessions that some steps lead to, with the events so far.
* `Session.scopes_grow`: what is true of the scopes at all moments.
-/

namespace FeatherScript.Session

open Eval Eval.Effect

/-! ## The events of a step -/

/-- A value that is passed in refers to existing scopes only. -/
def Source.KnownIn (s : Session) : Source → Prop
  | .value v => s.state.scopes.Knows v
  | .nameIn .. => True

/-- All values that a step passes in refer to existing scopes only. -/
def Step.KnownIn (s : Session) : Step → Prop
  | .apply callee args => callee.KnownIn s ∧ ∀ arg ∈ args, arg.KnownIn s
  | .update _ _ value | .create _ _ value | .captured value => value.KnownIn s
  | _ => True

/-- Who makes a step: new scopes for handles are made by the host, all else may be done by a
program. -/
def Step.actor : Step → Actor
  | .enclose _ | .root => .host
  | _ => .program

/-- What the evaluations of a session refer to. -/
def setting (s : Session) : Setting := s.options.setting s.program.table

/-- The events of a step. -/
def events (s : Session) (fuel : Nat) : Step → List Event
  | .evaluate handle node =>
    Eval.events s.setting fuel (node.getD s.program.root) (s.scopeOf handle) s.state
  | .apply callee args =>
    let (callee, s) := s.valueOf callee
    let (args, s) := s.valuesOf args
    callEvents s.setting fuel callee args s.state
  | .update handle text source =>
    let (name, s) := s.intern text
    let (value, s) := s.valueOf source
    let target := s.state.scopes.updated (s.scopeOf handle) name
    [.written s.state.scopes target name value]
  | .create handle text source =>
    let (name, s) := s.intern text
    let (value, s) := s.valueOf source
    declareLog (s.scopeOf handle) name value s.state
  | .enclose handle => [.enclosed (s.scopeOf handle)]
  | .root => [.rooted]
  | _ => []

/-- Some steps lead from the start to a session, and have some events. -/
inductive Reached (program : Program) (options : Options) : List Event → Session → Prop
  | start : Reached program options [] (start program options)
  | step {es s fuel step answer s'} (h : Reached program options es s) (hKnown : step.KnownIn s)
      (hStep : s.step fuel step = .ok (answer, s')) :
      Reached program options (es ++ s.events fuel step) s'

/-! ## Values -/

variable {s s' : Session} {cfg : Setting} {es : List Event}

/-- Two sessions that differ at most in the names they know. -/
structure SameButNames (s s' : Session) : Prop where
  state : s'.state = s.state
  setting : s'.setting = s.setting
  handles : s'.handles = s.handles

theorem SameButNames.refl (s : Session) : s.SameButNames s := ⟨rfl, rfl, rfl⟩

theorem SameButNames.trans {s'' : Session} (h : s.SameButNames s') (h' : s'.SameButNames s'') :
    s.SameButNames s'' :=
  ⟨h'.state.trans h.state, h'.setting.trans h.setting, h'.handles.trans h.handles⟩

theorem intern_same (s : Session) (text : String) : s.SameButNames (s.intern text).2 :=
  ⟨rfl, rfl, rfl⟩

theorem SameButNames.knownIn {source : Source} (h : s.SameButNames s') (hKnown : source.KnownIn s) :
    source.KnownIn s' := by
  cases source with
  | value v =>
    unfold Source.KnownIn
    rw [h.state]
    exact hKnown
  | nameIn => trivial

theorem valueOf_same (s : Session) (source : Source) : s.SameButNames (s.valueOf source).2 := by
  cases source with
  | value v => exact .refl s
  | nameIn handle text => exact s.intern_same text

theorem knows_valueOf {source : Source} (hClosed : s.state.scopes.Closed)
    (hKnown : source.KnownIn s) : s.state.scopes.Knows (s.valueOf source).1 := by
  cases source with
  | value v => exact hKnown
  | nameIn handle text => exact hClosed.knows_resolve

theorem valuesOf_same (s : Session) (sources : List Source) :
    s.SameButNames (s.valuesOf sources).2 := by
  induction sources generalizing s with
  | nil => exact .refl s
  | cons source sources ih => exact (s.valueOf_same source).trans (ih _)

theorem knows_valuesOf {sources : List Source} (hClosed : s.state.scopes.Closed)
    (hKnown : ∀ source ∈ sources, source.KnownIn s) :
    ∀ v ∈ (s.valuesOf sources).1, s.state.scopes.Knows v := by
  induction sources generalizing s with
  | nil => exact nofun
  | cons source sources ih =>
    have hSame := s.valueOf_same source
    intro v hMem
    rcases List.mem_cons.mp hMem with rfl | hMem
    · exact knows_valueOf hClosed (hKnown source List.mem_cons_self)
    · rw [← hSame.state]
      refine ih (hSame.state ▸ hClosed) (fun other hOther => ?_) v hMem
      exact hSame.knownIn (hKnown other (List.mem_cons_of_mem _ hOther))

/-! ## Steps -/

/-- A session whose handles stand for existing scopes. -/
structure Formed (cfg : Setting) (s : Session) : Prop where
  setting : s.setting = cfg
  closed : s.state.scopes.Closed
  nonempty : 0 < s.state.scopes.all.size
  handles : ∀ scope ∈ s.handles, scope < s.state.scopes.all.size

namespace Formed

theorem scopeOf (h : s.Formed cfg) (handle : Nat) : s.scopeOf handle < s.state.scopes.all.size := by
  unfold Session.scopeOf
  rw [Array.getD_eq_getD_getElem?]
  cases hHandle : s.handles[handle]? with
  | none => exact h.nonempty
  | some scope => exact h.handles scope (Array.mem_of_getElem? hHandle)

/-- After a run, with handles for existing scopes. -/
theorem after {actor : Actor} (h : s.Formed cfg) (hRun : Run cfg actor s.state es s'.state)
    (hSetting : s'.setting = s.setting)
    (hHandles : ∀ scope ∈ s'.handles, scope ∈ s.handles ∨ scope < s'.state.scopes.all.size) :
    s'.Formed cfg := by
  have hSize := hRun.extension.size
  have hNonempty := h.nonempty
  refine ⟨hSetting.trans h.setting, hRun.closed h.closed, by omega, fun scope hMem => ?_⟩
  rcases hHandles scope hMem with hOld | hNew
  · exact Nat.lt_of_lt_of_le (h.handles scope hOld) hSize
  · exact hNew

theorem same (h : s.Formed cfg) (hSame : s.SameButNames s') : s'.Formed cfg := by
  obtain ⟨hState, hSetting, hHandles⟩ := hSame
  refine ⟨hSetting.trans h.setting, ?_, ?_, ?_⟩
  · rw [hState]
    exact h.closed
  · rw [hState]
    exact h.nonempty
  · rw [hState, hHandles]
    exact h.handles

/-- One more handle for an existing scope. -/
theorem addHandle (h : s.Formed cfg) {scope : ScopeId} (hScope : scope < s.state.scopes.all.size) :
    (s.addHandle scope).2.Formed cfg := by
  refine ⟨h.setting, h.closed, h.nonempty, fun other hMem => ?_⟩
  rcases Array.mem_push.mp hMem with hOld | rfl
  · exact h.handles other hOld
  · exact hScope

theorem start (program : Program) (options : Options) :
    (start program options).Formed (options.setting program.table) := by
  have hNonempty : 0 < Scopes.initial.all.size := by decide
  refine ⟨rfl, Scopes.closed_initial, hNonempty, fun scope hMem => ?_⟩
  rw [Array.mem_singleton.mp hMem]
  exact hNonempty

end Formed

/-- The events of a step are a run from where it starts. If the step has an answer, they lead to the
state after it. -/
def Explains (cfg : Setting) (s : Session) (step : Step) (fuel : Nat) : Prop :=
  ∃ t, Run cfg step.actor s.state (s.events fuel step) t ∧
    ∀ answer s', s.step fuel step = .ok (answer, s') → s'.state = t ∧ s'.Formed cfg

variable {fuel handle : Nat} {text : String} {source : Source}

/-- A step that changes nothing but the names. -/
theorem explains_same {step : Step} (hFormed : s.Formed cfg) (hEvents : s.events fuel step = [])
    (hStep : ∀ answer s', s.step fuel step = .ok (answer, s') → s.SameButNames s') :
    Explains cfg s step fuel := by
  refine ⟨s.state, hEvents ▸ .nil, fun answer s' hAnswer => ?_⟩
  have hSame := hStep answer s' hAnswer
  exact ⟨hSame.state, hFormed.same hSame⟩

theorem perform_explains {x : Effect Value} {log : Log} {P : State → Value → Prop}
    (hFormed : s.Formed cfg) (h : Follows cfg x log P s.state) :
    ∃ t, Run cfg .program s.state (log s.state) t ∧
      ∀ answer s', s.perform x = .ok (answer, s') → s'.state = t ∧ s'.Formed cfg := by
  obtain ⟨t, hRun, hEnd⟩ := h.exists_run
  refine ⟨t, hRun, fun answer s' hAnswer => ?_⟩
  unfold perform at hAnswer
  cases hSettled : x.settle s.state with
  | error fault =>
    rw [hSettled] at hAnswer
    cases hAnswer
  | ok settled =>
    obtain ⟨result, u⟩ := settled
    rw [hSettled] at hAnswer
    cases hAnswer
    obtain rfl := hEnd result u hSettled
    exact ⟨rfl, hFormed.after hRun rfl fun scope hMem => .inl hMem⟩

theorem evaluate_explains (hFormed : s.Formed cfg) (node : Option NodeId) :
    Explains cfg s (.evaluate handle node) fuel := by
  have hReady : Ready s.state (s.scopeOf handle) := ⟨hFormed.closed, hFormed.scopeOf handle⟩
  have hSetting := hFormed.setting
  subst hSetting
  exact perform_explains hFormed (eval_follows s.setting fuel _ _ _ hReady)

theorem apply_explains (hFormed : s.Formed cfg) {callee : Source} {args : List Source}
    (hCallee : callee.KnownIn s) (hArgs : ∀ arg ∈ args, arg.KnownIn s) :
    Explains cfg s (.apply callee args) fuel := by
  have hFirst := s.valueOf_same callee
  have hSame := hFirst.trans ((s.valueOf callee).2.valuesOf_same args)
  have hKnown := knows_valueOf hFormed.closed hCallee
  have hKnowns := knows_valuesOf (hFormed.same hFirst).closed fun arg hMem =>
    hFirst.knownIn (hArgs arg hMem)
  have hThere := hFormed.same hSame
  have hSetting := hThere.setting
  subst hSetting
  unfold Explains
  rw [← hSame.state]
  refine perform_explains hThere (call_follows fuel hThere.closed ?_ fun v hMem => ?_)
  · rw [hSame.state]
    exact hKnown
  · rw [hSame.state, ← hFirst.state]
    exact hKnowns v hMem

theorem Formed.withScopes {actor : Actor} (hFormed : s.Formed cfg) {scopes : Scopes}
    (hRun : Run cfg actor s.state es { s.state with scopes }) : (s.withScopes scopes).Formed cfg :=
  hFormed.after hRun rfl fun _ hMem => .inl hMem

theorem update_explains (hFormed : s.Formed cfg) (hKnown : source.KnownIn s) :
    Explains cfg s (.update handle text source) fuel := by
  have hNamed := s.intern_same text
  have hSame := hNamed.trans ((s.intern text).2.valueOf_same source)
  have hThere := hFormed.same hSame
  have hValue := knows_valueOf (hFormed.same hNamed).closed (hNamed.knownIn hKnown)
  have hTarget := Scopes.updated_lt_size hThere.closed (hThere.scopeOf handle) (s.intern text).1
  have hEvent : Happens cfg .program _ _ _ :=
    .written (s.intern text).1 hTarget (hSame.state ▸ hValue)
  unfold Explains
  rw [← hSame.state]
  refine ⟨_, .single hEvent, ?_⟩
  rintro answer s' ⟨⟩
  exact ⟨rfl, hThere.withScopes (.single hEvent)⟩

theorem create_explains (hFormed : s.Formed cfg) (hKnown : source.KnownIn s) :
    Explains cfg s (.create handle text source) fuel := by
  have hNamed := s.intern_same text
  have hSame := hNamed.trans ((s.intern text).2.valueOf_same source)
  have hThere := hFormed.same hSame
  have hValue := knows_valueOf (hFormed.same hNamed).closed (hNamed.knownIn hKnown)
  unfold Explains
  rw [← hSame.state]
  dsimp only [events, step, declareLog]
  generalize ((s.intern text).2.valueOf source).1 = value at hValue ⊢
  generalize ((s.intern text).2.valueOf source).2 = s₂ at hSame hThere ⊢
  cases hBinds : s₂.state.scopes.binds (s₂.scopeOf handle) (s.intern text).1 with
  | true =>
    rw [Scopes.create?, if_pos hBinds]
    refine ⟨s₂.state, .nil, ?_⟩
    rintro answer s' ⟨⟩
    exact ⟨rfl, hThere⟩
  | false =>
    have hKnows : s₂.state.scopes.Knows value := by
      rw [hSame.state]
      exact hValue
    have hEvent : Happens cfg .program s₂.state _ _ := .bound (hThere.scopeOf handle) hBinds hKnows
    rw [Scopes.create?, if_neg (Bool.eq_false_iff.mp hBinds)]
    refine ⟨_, .single hEvent, ?_⟩
    rintro answer s' ⟨⟩
    exact ⟨rfl, hThere.withScopes (.single hEvent)⟩

theorem enclose_explains (hFormed : s.Formed cfg) : Explains cfg s (.enclose handle) fuel := by
  have hEvent : Happens cfg .host s.state (.enclosed (s.scopeOf handle)) _ :=
    .enclosed rfl (hFormed.scopeOf handle)
  refine ⟨_, .single hEvent, ?_⟩
  rintro answer s' ⟨⟩
  refine ⟨rfl, hFormed.after (.single hEvent) rfl fun scope hMem => ?_⟩
  rcases Array.mem_push.mp hMem with hOld | rfl
  · exact .inl hOld
  · exact .inr (Scopes.lt_size_enclose _ _)

theorem outer_explains (hFormed : s.Formed cfg) : Explains cfg s (.outer handle) fuel := by
  refine ⟨s.state, .nil, fun answer s' hAnswer => ?_⟩
  dsimp only [step] at hAnswer
  cases hParent : s.state.scopes.parent? (s.scopeOf handle) with
  | none =>
    rw [hParent] at hAnswer
    cases hAnswer
    exact ⟨rfl, hFormed⟩
  | some outer =>
    rw [hParent] at hAnswer
    cases hAnswer
    have hLess := hFormed.closed.parents _ _ hParent
    exact ⟨rfl, hFormed.addHandle (Nat.lt_trans hLess (hFormed.scopeOf handle))⟩

theorem root_explains (hFormed : s.Formed cfg) : Explains cfg s .root fuel := by
  have hEvent : Happens cfg .host s.state .rooted _ := .rooted rfl
  have hNew : s.state.scopes.all.size < s.state.scopes.addRoot.2.all.size := by
    rw [Scopes.addRoot, Scopes.size_add]
    exact Nat.lt_succ_self _
  refine ⟨_, .single hEvent, ?_⟩
  rintro answer s' ⟨⟩
  refine ⟨rfl, hFormed.after (.single hEvent) rfl fun scope hMem => ?_⟩
  rcases Array.mem_push.mp hMem with hOld | rfl
  · exact .inl hOld
  · exact .inr hNew

theorem captured_explains (hFormed : s.Formed cfg) (hKnown : source.KnownIn s) :
    Explains cfg s (.captured source) fuel := by
  have hSame := s.valueOf_same source
  have hValue := knows_valueOf hFormed.closed hKnown
  have hThere := hFormed.same hSame
  unfold Explains
  rw [← hSame.state] at hValue ⊢
  refine ⟨_, .nil, fun answer s' hAnswer => ?_⟩
  dsimp only [step] at hAnswer
  split at hAnswer
  · next c hClosure =>
    cases hAnswer
    exact ⟨rfl, hThere.addHandle (hValue c hClosure)⟩
  · cases hAnswer
    exact ⟨rfl, hThere⟩

theorem step_explains (hFormed : s.Formed cfg) {step : Step} (hKnown : step.KnownIn s)
    (fuel : Nat) : Explains cfg s step fuel := by
  cases step with
  | evaluate handle node => exact evaluate_explains hFormed node
  | apply callee args => exact apply_explains hFormed hKnown.1 hKnown.2
  | update handle text source => exact update_explains hFormed hKnown
  | create handle text source => exact create_explains hFormed hKnown
  | enclose handle => exact enclose_explains hFormed
  | outer handle => exact outer_explains hFormed
  | captured function => exact captured_explains hFormed hKnown
  | root => exact root_explains hFormed
  | resolve handle text =>
    refine explains_same hFormed rfl ?_
    rintro answer s' ⟨⟩
    exact s.intern_same text
  | binds handle text =>
    refine explains_same hFormed rfl ?_
    rintro answer s' ⟨⟩
    exact s.intern_same text
  | count | isRoot | debug =>
    refine explains_same hFormed rfl ?_
    rintro answer s' ⟨⟩
    exact .refl s
  | equal a b =>
    refine explains_same hFormed rfl ?_
    rintro answer s' ⟨⟩
    exact (s.valueOf_same a).trans ((s.valueOf a).2.valueOf_same b)

/-! ## Sessions -/

theorem reached_run {program : Program} {options : Options} (h : Reached program options es s) :
    s.Formed (options.setting program.table) ∧
      Run (options.setting program.table) .host .initial es s.state := by
  induction h with
  | start => exact ⟨.start program options, .nil⟩
  | step h hKnown hStep ih =>
    obtain ⟨hFormed, hRun⟩ := ih
    obtain ⟨t, hEvents, hAnswer⟩ := step_explains hFormed hKnown _
    obtain ⟨rfl, hAfter⟩ := hAnswer _ _ hStep
    exact ⟨hAfter, hRun.append hEvents.byHost⟩

/-- Every step but those of making a scope for a handle makes scopes by applications only. -/
theorem enclose_of_enclosed (hFormed : s.Formed cfg) {step : Step} (hKnown : step.KnownIn s)
    {outer : ScopeId} (hMem : .enclosed outer ∈ s.events fuel step) :
    ∃ handle, step = .enclose handle := by
  obtain ⟨t, hRun, -⟩ := step_explains hFormed hKnown fuel
  cases step with
  | enclose handle => exact ⟨handle, rfl⟩
  | root => cases List.mem_singleton.mp hMem
  | _ => exact absurd hMem hRun.enclosed_not_mem

theorem root_of_rooted (hFormed : s.Formed cfg) {step : Step} (hKnown : step.KnownIn s)
    (hMem : .rooted ∈ s.events fuel step) : step = .root := by
  obtain ⟨t, hRun, -⟩ := step_explains hFormed hKnown fuel
  cases step with
  | root => rfl
  | enclose handle => cases List.mem_singleton.mp hMem
  | _ => exact absurd hMem hRun.rooted_not_mem

/-- Which scopes evaluation makes: an application that passes its checks makes one, inside that of
the closure, before those that its body makes, and one that does not pass them makes none. A call
that comes to an application makes the scopes of this one after those of its operands, and nodes of
the other kinds make those of their operands only. -/
structure OpensByApplication (cfg : Setting) : Prop where
  application : ∀ fuel c args span s, (applyLog cfg (Eval.events cfg fuel) c args span).outers s =
    match permit cfg c args.length span s with
    | .ok params _ =>
      c.scope :: match bindParams s.scopes.all.size (some span) params args
          { s with scopes := (s.scopes.enclose c.scope).2 } with
        | .ok _ t =>
          (Eval.events cfg fuel c.body s.scopes.all.size).outers { t with depth := t.depth + 1 }
        | .error _ _ => []
    | .error _ _ => []
  elsewhere : ∀ fuel id n env, cfg.table.node? id = some n →
    Gathers (Eval.events cfg fuel) env (n.form.operands cfg.table)
      (OwnScopes cfg (Eval.events cfg fuel) n) (Eval.events cfg (fuel + 1) id env)

theorem opensByApplication (cfg : Setting) : OpensByApplication cfg where
  application _ c args span s := outers_applyLog cfg _ c args span s
  elsewhere fuel _ _ _ hNode := .nodeLog hNode fuel

/-- What the steps of a session do, those that fail included, is one run from the initial state. Its
scopes at any moment lead to roots, and keep their parents and names ever after. Only applications
make scopes, and the host. No name is bound twice in a scope, and declaring a name that is bound
does not succeed. -/
theorem scopes_grow {program : Program} {options : Options}
    (h : Reached program options es s) {step : Step} (hKnown : step.KnownIn s) (fuel : Nat) :
    ∃ t, Run (options.setting program.table) .host .initial es s.state ∧
      Run (options.setting program.table) step.actor s.state (s.events fuel step) t ∧
      (∀ answer s', s.step fuel step = .ok (answer, s') → s'.state = t) ∧
      (∀ before between after, es ++ s.events fuel step = before ++ (between ++ after) → ∃ u v,
        Run (options.setting program.table) .host .initial before u ∧
        Run (options.setting program.table) .host u between v ∧
        Run (options.setting program.table) .host v after t ∧
        Grows u between v ∧ RefusesBound (options.setting program.table) v) ∧
      OpensByApplication (options.setting program.table) ∧
      (∀ outer, .enclosed outer ∈ s.events fuel step → ∃ handle, step = .enclose handle) ∧
      (.rooted ∈ s.events fuel step → step = .root) ∧
      ((es ++ s.events fuel step).filterMap Event.binding?).Nodup := by
  obtain ⟨hFormed, hRun⟩ := reached_run h
  obtain ⟨t, hEvents, hAnswer⟩ := step_explains hFormed hKnown fuel
  have hWhole := hRun.append hEvents.byHost
  refine ⟨t, hRun, hEvents, fun answer s' hStep => (hAnswer answer s' hStep).1, ?_,
    opensByApplication _, fun outer hMem => enclose_of_enclosed hFormed hKnown hMem,
    root_of_rooted hFormed hKnown, hWhole.bindings_fresh.1⟩
  intro before between after hSplit
  rw [hSplit] at hWhole
  obtain ⟨u, hBefore, hRest⟩ := hWhole.exists_of_append
  obtain ⟨v, hBetween, hAfter⟩ := hRest.exists_of_append
  have hClosed := hBefore.closed Scopes.closed_initial
  exact ⟨u, v, hBefore, hBetween, hAfter, hBetween.grows hClosed,
    refusesBound_of_closed (hBetween.closed hClosed)⟩

/-- The program `(function () { while (true) { var x = 1; } })()`. -/
def declaringLoop : Program where
  table := ⟨#[⟨.bool true, ⟨22, 26⟩⟩, ⟨.int 1, ⟨38, 39⟩⟩, ⟨.declare ⟨1⟩ 1, ⟨30, 39⟩⟩,
    ⟨.loop 0 2, ⟨15, 42⟩⟩, ⟨.function ⟨0, 0⟩ 3, ⟨1, 44⟩⟩, ⟨.call 4 ⟨0, 0⟩, ⟨1, 47⟩⟩], #[], #[]⟩
  root := 5
  names := ⟨#["", "x"]⟩

/-- One scope is made, and the name stays bound there, so that the second pass of the loop fails. -/
theorem scopes_grow_declaringLoop : ∃ s',
    (start declaringLoop .default).step 5 (.evaluate 0 none) =
        .ok (.result (.error ⟨.alreadyDeclared ⟨1⟩, some ⟨30, 39⟩⟩), s') ∧
      s'.state.scopes.all.size = 2 ∧ s'.state.scopes.parent? 1 = some 0 ∧
      ∀ value, s'.state.scopes.create? 1 ⟨1⟩ value = none := by
  have hReached : Reached declaringLoop .default [] (start declaringLoop .default) := .start
  have hKnown : (Step.evaluate 0 none).KnownIn (start declaringLoop .default) := trivial
  have hEvents : (start declaringLoop .default).events 5 (.evaluate 0 none) =
      [.made ⟨0, ⟨0, 0⟩, 3, 0⟩, .opened ⟨0, ⟨0, 0⟩, 3, 0⟩ 0, .entered, .bound 1 ⟨1⟩ (.int 1),
        .left] := by decide
  obtain ⟨t, -, hRun, hAnswer, hMoments, -⟩ := scopes_grow hReached hKnown 5
  rw [hEvents] at hRun hMoments
  -- The whole run, and what is left of it at its end.
  obtain ⟨u, v, hStart, hAll, -, hGrows, -⟩ :=
    hMoments [] [_, _, _, _, _] [] (List.append_nil _).symm
  obtain ⟨w, v', hBefore, hNone, -, hLast, -⟩ :=
    hMoments [_, _, _, _, _] [] [] (List.append_nil _).symm
  obtain rfl := Run.nil.unique hStart
  obtain rfl := hRun.byHost.unique hAll
  obtain rfl := hRun.byHost.unique hBefore
  obtain rfl := Run.nil.unique hNone
  have hBinds : t.scopes.binds 1 ⟨1⟩ = true := hRun.binds_iff.mpr (.inr (by decide))
  refine ⟨_, rfl, ?_⟩
  rw [hAnswer _ _ rfl]
  refine ⟨hGrows.size, hGrows.made 0 (some 0) rfl, fun value => ?_⟩
  exact (hLast.noneTwice 1 ⟨1⟩ hBinds value).2.1

end FeatherScript.Session
