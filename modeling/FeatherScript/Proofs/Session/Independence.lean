import FeatherScript.Proofs.Eval.Depth
import FeatherScript.Proofs.Session.Serials
import FeatherScript.Proofs.Token.Interning

/-!
# Steps that depend on the scopes alone

Every step of a session starts and ends at depth zero, whatever has failed before, and in between
the depth is the number of bodies that are under evaluation. What else earlier steps have left
behind are the scopes, and numbers that are used up. So two sessions with the same scopes, up to
numbers, do the same from there on: their steps have the same answers, print the same values and
leave the same scopes. Scopes that nothing refers to any more, like those of calls that have failed,
do not count.

* `Session.UnderBodies`: the moments of a step, with the number of bodies that it is inside of.
* `Session.Keeps`: what no step changes, the depth among it.
* `Correspondence.SameSession`: two sessions with the same scopes, for the same handles.
* `Correspondence.SameOutcome`: what a step does in both of them.
* `SameSession.step`: every step has the same outcome.
* `Session.depth_balanced`: the depth, and what steps depend on.
-/

namespace FeatherScript

open Eval Eval.Effect

namespace Session

/-! ## Depth -/

/-- A step comes to a moment inside of a number of bodies. A step that applies a closure is inside
of the body of that closure from the start. -/
inductive UnderBodies (s : Session) (fuel : Nat) : Step → Nat → Moment → Prop
  | evaluate {handle node k m}
      (h : Under s.setting ⟨fuel, node.getD s.program.root, s.scopeOf handle, s.state⟩ k m) :
      UnderBodies s fuel (.evaluate handle node) k m
  | apply {callee args c first k m} (hCallee : (s.valueOf callee).1 = .closure c)
      (hEnters : Enters s.setting fuel c ((s.valueOf callee).2.valuesOf args).1 .origin s.state
        first)
      (h : Under s.setting first k m) : UnderBodies s fuel (.apply callee args) (k + 1) m

variable {program : Program} {options : Options} {produced : List Value} {s s' t : Session}
  {fuel k : Nat} {step : Step} {answer : Answer} {m first : Moment}

/-- All moments of a step are counted. -/
theorem Begins.exists_underBodies (h : Begins s fuel step first)
    (hVisits : Visits s.setting first m) : ∃ k, UnderBodies s fuel step k m := by
  obtain ⟨k, hUnder⟩ := visits_iff_under.mp hVisits
  cases h with
  | evaluate => exact ⟨k, .evaluate hUnder⟩
  | apply hCallee hEnters => exact ⟨k + 1, .apply hCallee hEnters hUnder⟩

/-- In a step that starts at depth zero, the depth is the number of bodies under evaluation, at the
start of every evaluation and at its end. It is not above the limit. -/
theorem UnderBodies.depth_eq (h : UnderBodies s fuel step k m) (hZero : s.state.depth = 0) :
    m.state.depth = k ∧ (after (m.outcome s.setting)).depth = k ∧ k ≤ s.options.maxDepth := by
  rw [eval_depth]
  cases h with
  | evaluate hUnder =>
    have hDepth := hUnder.depth_eq
    have hLimit := hUnder.depth_le (hZero ▸ Nat.zero_le _)
    dsimp only at hDepth
    rw [hZero, Nat.zero_add] at hDepth
    exact ⟨hDepth, hDepth, hDepth ▸ hLimit⟩
  | apply _ hEnters hUnder =>
    -- The first evaluation is that of the body, which is counted besides those inside of it.
    obtain ⟨hFirst, hBound⟩ := hEnters.depth_eq
    have hDepth := hUnder.depth_eq
    have hLimit := hUnder.depth_le hBound
    rw [hFirst, hZero, Nat.zero_add, Nat.add_comm] at hDepth
    exact ⟨hDepth, hDepth, hDepth ▸ hLimit⟩

/-- What no step changes. -/
structure Keeps (s t : Session) : Prop where
  options : t.options = s.options
  table : t.program.table = s.program.table
  root : t.program.root = s.program.root
  depth : t.state.depth = s.state.depth

namespace Keeps

theorem trans {u : Session} (h : s.Keeps t) (h' : t.Keeps u) : s.Keeps u :=
  ⟨h'.options.trans h.options, h'.table.trans h.table, h'.root.trans h.root,
    h'.depth.trans h.depth⟩

theorem intern (s : Session) (text : String) : s.Keeps (s.intern text).2 := ⟨rfl, rfl, rfl, rfl⟩

theorem valueOf (s : Session) (source : Source) : s.Keeps (s.valueOf source).2 := by
  cases source <;> exact ⟨rfl, rfl, rfl, rfl⟩

theorem valuesOf (s : Session) (sources : List Source) : s.Keeps (s.valuesOf sources).2 := by
  induction sources generalizing s with
  | nil => exact ⟨rfl, rfl, rfl, rfl⟩
  | cons source sources ih => exact (valueOf s source).trans (ih _)

theorem withScopes (h : s.Keeps t) (scopes : Scopes) : s.Keeps (t.withScopes scopes) :=
  ⟨h.options, h.table, h.root, h.depth⟩

theorem perform {x : Effect Value} (hDepth : (after (x s.state)).depth = s.state.depth)
    (hStep : s.perform x = .ok (answer, t)) : s.Keeps t := by
  unfold Session.perform settle at hStep
  split at hStep
  · next hResult =>
    cases hStep
    rw [hResult] at hDepth
    exact ⟨rfl, rfl, rfl, hDepth⟩
  · next hResult =>
    cases hStep
    rw [hResult] at hDepth
    exact ⟨rfl, rfl, rfl, hDepth⟩
  · cases hStep

end Keeps

/-- A step leaves the depth as it was, whatever its answer is. -/
theorem step_keeps (hStep : s.step fuel step = .ok (answer, t)) : s.Keeps t := by
  cases step with
  | evaluate handle node => exact .perform (eval_depth ..) hStep
  | apply callee args =>
    have hValues := (Keeps.valueOf s callee).trans (.valuesOf _ args)
    exact hValues.trans (.perform (call_depth ..) hStep)
  | resolve | binds | count | isRoot | debug | enclose | root =>
    cases hStep
    exact ⟨rfl, rfl, rfl, rfl⟩
  | captured function =>
    have hValue := Keeps.valueOf s function
    dsimp only [Session.step] at hStep
    split at hStep
    · cases hStep
      exact ⟨hValue.options, hValue.table, hValue.root, hValue.depth⟩
    · cases hStep
      exact hValue
  | update handle text source =>
    have hValue := (Keeps.intern s text).trans (.valueOf _ source)
    dsimp only [Session.step] at hStep
    cases hStep
    exact hValue.withScopes _
  | create handle text source =>
    have hValue := (Keeps.intern s text).trans (.valueOf _ source)
    dsimp only [Session.step] at hStep
    split at hStep
    · cases hStep
      exact hValue.withScopes _
    · cases hStep
      exact hValue
  | outer handle =>
    dsimp only [Session.step] at hStep
    split at hStep
    · cases hStep
      exact ⟨rfl, rfl, rfl, rfl⟩
    · cases hStep
      exact ⟨rfl, rfl, rfl, rfl⟩
  | equal a b =>
    cases hStep
    exact (Keeps.valueOf s a).trans (.valueOf _ b)

/-- Whatever steps a session has made, the next one starts at depth zero, like the first one. -/
theorem Answered.keeps (h : Answered program options produced s) :
    (Session.start program options).Keeps s := by
  induction h with
  | start => exact ⟨rfl, rfl, rfl, rfl⟩
  | step _ _ hStep ih => exact ih.trans (step_keeps hStep)

/-! ## What is passed in and answered -/

/-- What is passed in, with other values. -/
def Source.map (f : Value → Value) : Source → Source
  | .value v => .value (f v)
  | .nameIn handle name => .nameIn handle name

def Step.map (f : Value → Value) : Step → Step
  | .apply callee args => .apply (callee.map f) (args.map (·.map f))
  | .update handle name value => .update handle name (value.map f)
  | .create handle name value => .create handle name (value.map f)
  | .captured value => .captured (value.map f)
  | .equal a b => .equal (a.map f) (b.map f)
  | step => step

def Answer.map (f : Value → Value) : Answer → Answer
  | .result r => .result (r.map f)
  | .value v => .value (f v)
  | answer => answer

def Source.texts : Source → List String
  | .value _ => []
  | .nameIn _ name => [name]

/-- The texts whose names a step asks for, in that order. -/
def Step.texts : Step → List String
  | .apply callee args => callee.texts ++ args.flatMap Source.texts
  | .resolve _ name | .binds _ name => [name]
  | .update _ name value | .create _ name value => name :: value.texts
  | .captured value => value.texts
  | .equal a b => a.texts ++ b.texts
  | _ => []

end Session

/-- Two tables give the same names to some texts that they are asked for one after the other. -/
def NameTable.SameNames (t t' : NameTable) : List String → Prop
  | [] => True
  | text :: texts => (t'.intern text).1 = (t.intern text).1 ∧
      (t.intern text).2.SameNames (t'.intern text).2 texts

/-- The text that a binding is to be made for. -/
theorem Session.lookup_created (s : Session) (text : String) (source : Source) :
    ((s.intern text).2.valueOf source).2.program.names.lookup (s.intern text).1 = text := by
  have hHas := s.program.names.has_intern text
  cases source with
  | value v => exact hHas.lookup
  | nameIn handle other => exact (hHas.intern other).lookup

theorem Session.printed_valueOf (s : Session) (source : Source) :
    (s.valueOf source).2.state.printed = s.state.printed :=
  congrArg State.printed (s.valueOf_same source).state

namespace Correspondence

open Session

/-- Two sessions with the same scopes, of one program and with the same options. Their handles are
for the same scopes, and they give the same names to some texts. -/
structure SameSession (C : Correspondence) (texts : List String) (s s' : Session) : Prop where
  options : s'.options = s.options
  table : s'.program.table = s.program.table
  root : s'.program.root = s.program.root
  names : s.program.names.SameNames s'.program.names texts
  handles : s'.handles = s.handles.map C.scopes.number
  known : ∀ scope ∈ s.handles, C.scopes.Known scope
  global : C.scopes.Known Scopes.global ∧ C.scopes.number Scopes.global = Scopes.global
  scopes : C.Same s.state.scopes s'.state.scopes
  closures : ∃ made, s.state.closures = C.here + made ∧ s'.state.closures = C.there + made

/-- A value that is passed in is referred to. -/
def Passes (C : Correspondence) : Source → Prop
  | .value v => C.Holds v
  | .nameIn .. => True

/-- A step of one session and one of another have the same answer, print the same values and lead to
sessions with the same scopes, or end for the same fault. -/
inductive SameOutcome (C : Correspondence) (texts : List String) (printed printed' : List Value) :
    Except Fault (Answer × Session) → Except Fault (Answer × Session) → Prop
  | ended {answer t t'} (new : List Value) (hSame : C.SameSession texts t t')
      (hAnswer : ∀ v ∈ answer.values, C.Holds v)
      (hPrinted : t.state.printed.toList = printed ++ new)
      (hPrinted' : t'.state.printed.toList = printed' ++ new.map C.value) :
      SameOutcome C texts printed printed' (.ok (answer, t)) (.ok (answer.map C.value, t'))
  | stopped {fault} : SameOutcome C texts printed printed' (.error fault) (.error fault)

variable {C : Correspondence} {texts : List String} {text : String} {s s' t t' : Session}
  {source : Source}

namespace SameSession

theorem between (h : C.SameSession texts s s') (hDepth : s.state.depth = 0)
    (hDepth' : s'.state.depth = 0) :
    C.Between s.state.printed.toList s'.state.printed.toList 0 s.state s'.state :=
  ⟨h.scopes, ⟨[], (List.append_nil _).symm, (List.append_nil _).symm⟩, h.closures, hDepth, hDepth'⟩

/-- A step that prints nothing. -/
theorem ended (h : C.SameSession texts t t') {answer : Answer}
    (hAnswer : ∀ v ∈ answer.values, C.Holds v) (hPrinted : t.state.printed = s.state.printed)
    (hPrinted' : t'.state.printed = s'.state.printed) :
    C.SameOutcome texts s.state.printed.toList s'.state.printed.toList (.ok (answer, t))
      (.ok (answer.map C.value, t')) := by
  refine .ended [] h hAnswer ?_ ?_
  · rw [hPrinted, List.append_nil]
  · rw [hPrinted', List.map_nil, List.append_nil]

/-! ### Handles and names -/

/-- A handle stands for the same scope. -/
theorem scopeOf (h : C.SameSession texts s s') (handle : Nat) :
    C.scopes.Known (s.scopeOf handle) ∧ s'.scopeOf handle = C.scopes.number (s.scopeOf handle) := by
  unfold Session.scopeOf
  rw [h.handles, Array.getD_eq_getD_getElem?, Array.getD_eq_getD_getElem?, Array.getElem?_map]
  cases hHandle : s.handles[handle]? with
  | none => exact ⟨h.global.1, h.global.2.symm⟩
  | some scope => exact ⟨h.known scope (Array.mem_of_getElem? hHandle), rfl⟩

/-- The next text has the same name. -/
theorem intern (h : C.SameSession (text :: texts) s s') :
    (s'.intern text).1 = (s.intern text).1 ∧
      C.SameSession texts (s.intern text).2 (s'.intern text).2 :=
  ⟨h.names.1, h.options, h.table, h.root, h.names.2, h.handles, h.known, h.global, h.scopes,
    h.closures⟩

/-- A name has the same value. -/
theorem resolve (h : C.SameSession (text :: texts) s s') (handle : Nat) :
    C.Holds (s.resolve handle text).1 ∧
      (s'.resolve handle text).1 = C.value (s.resolve handle text).1 ∧
      C.SameSession texts (s.resolve handle text).2 (s'.resolve handle text).2 := by
  obtain ⟨hName, hSame⟩ := h.intern
  obtain ⟨hKnown, hScope⟩ := hSame.scopeOf handle
  obtain ⟨hValue, hHolds⟩ := hSame.scopes.resolve_eq hKnown (s.intern text).1
  refine ⟨hHolds, ?_, hSame⟩
  unfold Session.resolve
  dsimp only
  rw [hName, hScope, hValue]

/-- What is passed in has the same value. -/
theorem valueOf (h : C.SameSession (source.texts ++ texts) s s') (hPasses : C.Passes source) :
    C.Holds (s.valueOf source).1 ∧
      (s'.valueOf (source.map C.value)).1 = C.value (s.valueOf source).1 ∧
      C.SameSession texts (s.valueOf source).2 (s'.valueOf (source.map C.value)).2 := by
  cases source with
  | value v => exact ⟨hPasses, rfl, h⟩
  | nameIn handle text => exact h.resolve handle

theorem valuesOf {sources : List Source}
    (h : C.SameSession (sources.flatMap Source.texts ++ texts) s s')
    (hPasses : ∀ source ∈ sources, C.Passes source) :
    (∀ v ∈ (s.valuesOf sources).1, C.Holds v) ∧
      (s'.valuesOf (sources.map (·.map C.value))).1 = (s.valuesOf sources).1.map C.value ∧
      C.SameSession texts (s.valuesOf sources).2
        (s'.valuesOf (sources.map (·.map C.value))).2 := by
  induction sources generalizing s s' with
  | nil => exact ⟨nofun, rfl, h⟩
  | cons source sources ih =>
    obtain ⟨hFirst, hRest⟩ := List.forall_mem_cons.mp hPasses
    rw [List.flatMap_cons, List.append_assoc] at h
    obtain ⟨hHolds, hValue, hThere⟩ := h.valueOf hFirst
    obtain ⟨hAll, hValues, hEnd⟩ := ih hThere hRest
    exact ⟨List.forall_mem_cons.mpr ⟨hHolds, hAll⟩, congrArg₂ List.cons hValue hValues, hEnd⟩

/-! ### Changes -/

theorem withScopes {scopes scopes' : Scopes} (h : C.SameSession texts s s')
    (hScopes : C.Same scopes scopes') :
    C.SameSession texts (s.withScopes scopes) (s'.withScopes scopes') :=
  ⟨h.options, h.table, h.root, h.names, h.handles, h.known, h.global, hScopes, h.closures⟩

/-- One more handle, for the same scope. -/
theorem addHandle {scope : ScopeId} (h : C.SameSession texts s s')
    (hKnown : C.scopes.Known scope) :
    C.SameOutcome texts s.state.printed.toList s'.state.printed.toList (.ok (s.addHandle scope))
      (.ok (s'.addHandle (C.scopes.number scope))) := by
  have hSize : s'.handles.size = s.handles.size := by rw [h.handles, Array.size_map]
  have hHandles : s'.handles.push (C.scopes.number scope)
      = (s.handles.push scope).map C.scopes.number := by rw [h.handles, Array.map_push]
  have hAllKnown : ∀ other ∈ s.handles.push scope, C.scopes.Known other := by
    intro other hMem
    rcases Array.mem_push.mp hMem with hOld | rfl
    · exact h.known other hOld
    · exact hKnown
  have hEnd : C.SameSession texts (s.addHandle scope).2 (s'.addHandle (C.scopes.number scope)).2 :=
    ⟨h.options, h.table, h.root, h.names, hHandles, hAllKnown, h.global, h.scopes, h.closures⟩
  unfold Session.addHandle at hEnd ⊢
  rw [hSize]
  exact hEnd.ended nofun rfl rfl

theorem perform {x y : Effect Value} (h : C.SameSession texts s s')
    (hAlike : C.Alike s.state.printed.toList s'.state.printed.toList 0 (x s.state) (y s'.state)) :
    C.SameOutcome texts s.state.printed.toList s'.state.printed.toList (s.perform x)
      (s'.perform y) := by
  have hAfter : ∀ {u u'},
      C.Between s.state.printed.toList s'.state.printed.toList 0 u u' →
        C.SameSession texts { s with state := u } { s' with state := u' } := fun hBetween =>
    ⟨h.options, h.table, h.root, h.names, h.handles, h.known, h.global, hBetween.scopes,
      hBetween.closures⟩
  unfold Session.perform settle
  generalize x s.state = r at hAlike
  generalize y s'.state = r' at hAlike
  cases hAlike with
  | ok hValue hBetween =>
    obtain ⟨hHolds, rfl⟩ := of_like hValue
    obtain ⟨new, hPrinted, hPrinted'⟩ := hBetween.printed
    exact .ended new (hAfter hBetween) (List.forall_mem_singleton.mpr hHolds) hPrinted hPrinted'
  | @error stop _ _ _ hCause hBetween =>
    subst hCause
    obtain ⟨new, hPrinted, hPrinted'⟩ := hBetween.printed
    cases stop with
    | failed e => exact .ended new (hAfter hBetween) nofun hPrinted hPrinted'
    | fault fault => exact .stopped

/-! ### Steps -/

theorem apply {callee : Source} {args : List Source}
    (h : C.SameSession ((Step.apply callee args).texts ++ texts) s s')
    (hDepth : s.state.depth = 0) (hDepth' : s'.state.depth = 0)
    (hPasses : ∀ source ∈ callee :: args, C.Passes source) (fuel : Nat) :
    C.SameOutcome texts s.state.printed.toList s'.state.printed.toList
      (s.step fuel (.apply callee args))
      (s'.step fuel (.apply (callee.map C.value) (args.map (·.map C.value)))) := by
  obtain ⟨hFunction, hArgs⟩ := List.forall_mem_cons.mp hPasses
  rw [Step.texts, List.append_assoc] at h
  obtain ⟨hCallee, hSame, hThere⟩ := h.valueOf hFunction
  obtain ⟨hHolds, hValues, hEnd⟩ := hThere.valuesOf hArgs
  have hState := ((s.valueOf_same callee).trans ((s.valueOf callee).2.valuesOf_same args)).state
  have hState' := ((s'.valueOf_same (callee.map C.value)).trans
    ((s'.valueOf (callee.map C.value)).2.valuesOf_same (args.map (·.map C.value)))).state
  dsimp only [Session.step]
  rw [hSame, hValues, hEnd.options, hEnd.table, ← hState, ← hState']
  rw [← hState] at hDepth
  rw [← hState'] at hDepth'
  exact hEnd.perform ((hEnd.between hDepth hDepth').call_alike hCallee hHolds _ fuel)

theorem update (h : C.SameSession (text :: (source.texts ++ texts)) s s')
    (hPasses : C.Passes source) (handle fuel : Nat) :
    C.SameOutcome texts s.state.printed.toList s'.state.printed.toList
      (s.step fuel (.update handle text source))
      (s'.step fuel (.update handle text (source.map C.value))) := by
  obtain ⟨hName, hThere⟩ := h.intern
  obtain ⟨hHolds, hValue, hEnd⟩ := hThere.valueOf hPasses
  obtain ⟨hKnown, hScope⟩ := hEnd.scopeOf handle
  have hPrinted := (s.intern text).2.printed_valueOf source
  have hPrinted' := (s'.intern text).2.printed_valueOf (source.map C.value)
  dsimp only [Session.step]
  rw [hName, hValue, hScope]
  exact (hEnd.withScopes (hEnd.scopes.update hKnown hHolds _)).ended nofun hPrinted hPrinted'

theorem create (h : C.SameSession (text :: (source.texts ++ texts)) s s')
    (hPasses : C.Passes source) (handle fuel : Nat) :
    C.SameOutcome texts s.state.printed.toList s'.state.printed.toList
      (s.step fuel (.create handle text source))
      (s'.step fuel (.create handle text (source.map C.value))) := by
  obtain ⟨hName, hThere⟩ := h.intern
  obtain ⟨hHolds, hValue, hEnd⟩ := hThere.valueOf hPasses
  obtain ⟨hKnown, hScope⟩ := hEnd.scopeOf handle
  have hPrinted := (s.intern text).2.printed_valueOf source
  have hPrinted' := (s'.intern text).2.printed_valueOf (source.map C.value)
  -- The text in the answer is the one that was passed in, whatever other names are known.
  dsimp only [Session.step, Scopes.create?]
  rw [lookup_created, lookup_created, hName, hValue, hScope, hEnd.scopes.binds_eq hKnown]
  cases ((s.intern text).2.valueOf source).2.state.scopes.binds
    (((s.intern text).2.valueOf source).2.scopeOf handle) (s.intern text).1 with
  | true => exact hEnd.ended nofun hPrinted hPrinted'
  | false =>
    exact (hEnd.withScopes (hEnd.scopes.write hKnown hHolds _)).ended nofun hPrinted hPrinted'

theorem captured (h : C.SameSession (source.texts ++ texts) s s') (hPasses : C.Passes source)
    (fuel : Nat) :
    C.SameOutcome texts s.state.printed.toList s'.state.printed.toList
      (s.step fuel (.captured source)) (s'.step fuel (.captured (source.map C.value))) := by
  obtain ⟨hHolds, hValue, hEnd⟩ := h.valueOf hPasses
  have hPrinted := s.printed_valueOf source
  have hPrinted' := s'.printed_valueOf (source.map C.value)
  dsimp only [Session.step]
  rw [hValue, ← hPrinted, ← hPrinted']
  cases hClosure : (s.valueOf source).1 with
  | closure c =>
    rw [hClosure] at hHolds
    exact hEnd.addHandle (C.scopes.known_of_valid (hHolds c rfl))
  | _ => exact hEnd.ended nofun rfl rfl

/-- Every step has the same outcome in both sessions. -/
theorem step {step : Step} (h : C.SameSession (step.texts ++ texts) s s')
    (hDepth : s.state.depth = 0) (hDepth' : s'.state.depth = 0)
    (hPasses : ∀ source ∈ step.sources, C.Passes source) (fuel : Nat) :
    C.SameOutcome texts s.state.printed.toList s'.state.printed.toList (s.step fuel step)
      (s'.step fuel (step.map C.value)) := by
  cases step with
  | evaluate handle node =>
    obtain ⟨hKnown, hScope⟩ := h.scopeOf handle
    dsimp only [Session.step, Step.map]
    rw [h.options, h.table, h.root, hScope]
    exact perform h ((h.between hDepth hDepth').eval_alike hKnown _ fuel _)
  | apply callee args => exact h.apply hDepth hDepth' hPasses fuel
  | resolve handle text =>
    obtain ⟨hHolds, hValue, hEnd⟩ := h.resolve handle
    dsimp only [Session.step, Step.map]
    rw [hValue]
    exact hEnd.ended (List.forall_mem_singleton.mpr hHolds) rfl rfl
  | update handle text source =>
    exact h.update (hPasses source List.mem_cons_self) handle fuel
  | create handle text source =>
    exact h.create (hPasses source List.mem_cons_self) handle fuel
  | binds handle text =>
    obtain ⟨hName, hEnd⟩ := h.intern
    obtain ⟨hKnown, hScope⟩ := hEnd.scopeOf handle
    dsimp only [Session.step, Step.map]
    rw [hName, hScope, hEnd.scopes.binds_eq hKnown]
    exact hEnd.ended nofun rfl rfl
  | count handle =>
    obtain ⟨hKnown, hScope⟩ := h.scopeOf handle
    dsimp only [Session.step, Step.map]
    rw [hScope, h.scopes.count_eq hKnown]
    exact ended h nofun rfl rfl
  | isRoot handle =>
    obtain ⟨hKnown, hScope⟩ := h.scopeOf handle
    dsimp only [Session.step, Step.map]
    rw [hScope, h.scopes.isRoot_eq hKnown]
    exact ended h nofun rfl rfl
  | debug handle =>
    obtain ⟨hKnown, hScope⟩ := h.scopeOf handle
    dsimp only [Session.step, Step.map, Scopes.debug]
    rw [hScope, h.scopes.count_eq hKnown, h.scopes.isRoot_eq hKnown]
    exact ended h nofun rfl rfl
  | enclose handle =>
    obtain ⟨hKnown, hScope⟩ := h.scopeOf handle
    obtain ⟨hFresh, hNumber⟩ := h.scopes.fresh
    dsimp only [Session.step, Step.map, Scopes.enclose, Scopes.add]
    rw [hScope, ← hNumber]
    exact (withScopes h (h.scopes.enclose hKnown)).addHandle hFresh
  | outer handle =>
    obtain ⟨hKnown, hScope⟩ := h.scopeOf handle
    obtain ⟨hParent, hOuter⟩ := h.scopes.parent?_eq hKnown
    dsimp only [Session.step, Step.map]
    rw [hScope, hParent]
    cases hFound : s.state.scopes.parent? (s.scopeOf handle) with
    | none => exact ended h nofun rfl rfl
    | some outer => exact addHandle h (hOuter outer hFound)
  | captured function => exact h.captured (hPasses function List.mem_cons_self) fuel
  | root =>
    obtain ⟨hFresh, hNumber⟩ := h.scopes.fresh
    dsimp only [Session.step, Step.map, Scopes.addRoot, Scopes.add]
    rw [← hNumber]
    exact (withScopes h h.scopes.addRoot).addHandle hFresh
  | equal a b =>
    obtain ⟨hLeft, hRight⟩ := List.forall_mem_cons.mp hPasses
    rw [Step.texts, List.append_assoc] at h
    obtain ⟨hHolds, hValue, hThere⟩ := h.valueOf hLeft
    obtain ⟨hHolds', hValue', hEnd⟩ := hThere.valueOf (List.forall_mem_singleton.mp hRight)
    have hPrinted := ((s.valueOf a).2.printed_valueOf b).trans (s.printed_valueOf a)
    have hPrinted' := ((s'.valueOf (a.map C.value)).2.printed_valueOf (b.map C.value)).trans
      (s'.printed_valueOf (a.map C.value))
    dsimp only [Session.step, Step.map]
    simp only [hValue, hValue', value_inj hHolds hHolds']
    exact hEnd.ended nofun hPrinted hPrinted'

end SameSession

end Correspondence

namespace Session

open Correspondence

/-! ## The same scopes -/

theorem Source.map_eq_self {f : Value → Value} {source : Source}
    (h : ∀ v, source = .value v → f v = v) : source.map f = source := by
  cases source with
  | value v => exact congrArg Source.value (h v rfl)
  | nameIn => rfl

theorem Step.map_eq_self {f : Value → Value} {step : Step}
    (h : ∀ v, .value v ∈ step.sources → f v = v) : step.map f = step := by
  have hSource : ∀ source ∈ step.sources, source.map f = source := fun source hMem =>
    Source.map_eq_self fun v hValue => h v (hValue ▸ hMem)
  cases step with
  | apply callee args =>
    obtain ⟨hCallee, hArgs⟩ := List.forall_mem_cons.mp hSource
    exact congrArg₂ Step.apply hCallee ((List.map_congr_left hArgs).trans (List.map_id args))
  | update handle name value =>
    exact congrArg (Step.update handle name) (hSource value List.mem_cons_self)
  | create handle name value =>
    exact congrArg (Step.create handle name) (hSource value List.mem_cons_self)
  | captured value => exact congrArg Step.captured (hSource value List.mem_cons_self)
  | equal a b =>
    exact congrArg₂ Step.equal (hSource a List.mem_cons_self)
      (hSource b (List.mem_cons_of_mem _ List.mem_cons_self))
  | _ => rfl

variable {p : Program} {o : Options} {produced produced' : List Value} {s s' : Session}
  {texts : List String} {step : Step}

/-- Two sessions of a program whose scopes and handles are equal. Only the closures that they make
from now on have other serial numbers. -/
theorem sameSession_of_scopes (h : Answered p o produced s) (h' : Answered p o produced' s')
    (hScopes : s'.state.scopes = s.state.scopes) (hHandles : s'.handles = s.handles)
    (hNames : s.program.names.SameNames s'.program.names texts) :
    (ofClosures s.state.scopes.all.size s.state.closures s'.state.closures).SameSession texts s s'
    where
  options := h'.keeps.options.trans h.keeps.options.symm
  table := h'.keeps.table.trans h.keeps.table.symm
  root := h'.keeps.root.trans h.keeps.root.symm
  names := hNames
  handles := hHandles.trans (Array.map_id _).symm
  known _ _ := trivial
  global := ⟨trivial, rfl⟩
  scopes := by
    -- What is bound was made before in both sessions, so no serial number changes.
    have hThere := h'.numbers.stored
    rw [State.Numbers, hScopes] at hThere
    rw [hScopes]
    exact ofClosures_same (fun id c hStores _ => hThere id c hStores)
      fun id c hStores => shift_of_lt (h.numbers.stored id c hStores)
  closures := ⟨0, rfl, rfl⟩

/-- A value that both sessions may pass in is the same for both. -/
theorem passes_of_from {source : Source} (size : Nat) (h : s.Numbers produced)
    (h' : s'.Numbers produced') (hFrom : source.From produced) (hFrom' : source.From produced') :
    (ofClosures size s.state.closures s'.state.closures).Passes source ∧
      ∀ v, source = .value v →
        (ofClosures size s.state.closures s'.state.closures).value v = v := by
  cases source with
  | value v =>
    refine ⟨fun c hClosure _ => ?_, ?_⟩
    · exact (h'.valueOf hFrom').2 c hClosure
    · rintro _ ⟨⟩
      exact value_ofClosures (h.valueOf hFrom).2
  | nameIn => exact ⟨trivial, nofun⟩

/-- An evaluation or an application by the host ends at the depth at which it starts, whatever its
state is and however it ends. So every step of a session starts at depth zero. At each moment of it
the depth is the number of bodies that are under evaluation, and not above the limit.

A step depends on what was before only through the scopes. It does the same in two sessions of a
program if their scopes correspond to each other, scopes that are not referred to left out; and if
their scopes are equal, so are the outcomes, up to the serial numbers of closures that are made in
the step. -/
theorem depth_balanced :
    (∀ cfg fuel id env s, (after (eval cfg fuel id env s)).depth = s.depth) ∧
    (∀ cfg fuel callee args s, (after (call cfg fuel callee args s)).depth = s.depth) ∧
    ∀ p o produced s, Answered p o produced s → s.state.depth = 0 ∧ ∀ fuel step,
      (∀ first m, Begins s fuel step first → Visits s.setting first m →
        ∃ k, UnderBodies s fuel step k m) ∧
      (∀ k m, UnderBodies s fuel step k m →
        m.state.depth = k ∧ (after (m.outcome s.setting)).depth = k ∧ k ≤ o.maxDepth) ∧
      (∀ (C : Correspondence) texts produced' s', Answered p o produced' s' →
        C.SameSession (step.texts ++ texts) s s' →
        (∀ source ∈ step.sources, C.Passes source) →
        C.SameOutcome texts s.state.printed.toList s'.state.printed.toList (s.step fuel step)
          (s'.step fuel (step.map C.value))) ∧
      ∀ texts produced' s', Answered p o produced' s' →
        s'.state.scopes = s.state.scopes → s'.handles = s.handles →
        s.program.names.SameNames s'.program.names (step.texts ++ texts) →
        step.Proper p.table produced → step.Proper p.table produced' →
        ∃ C : Correspondence, (∀ id, C.scopes.number id = id) ∧
          (∀ c, c.serial < s.state.closures → C.closure c = c) ∧
          C.SameOutcome texts s.state.printed.toList s'.state.printed.toList (s.step fuel step)
            (s'.step fuel step) := by
  refine ⟨eval_depth, call_depth, fun p o produced s h => ?_⟩
  have hDepth := h.keeps.depth
  refine ⟨hDepth, fun fuel step => ⟨fun first m => Begins.exists_underBodies, fun k m hUnder => ?_,
    fun C texts produced' s' h' hSame hPasses => hSame.step hDepth h'.keeps.depth hPasses fuel,
    fun texts produced' s' h' hScopes hHandles hNames hProper hProper' => ?_⟩⟩
  · have hLimit : s.options.maxDepth = o.maxDepth := congrArg Options.maxDepth h.keeps.options
    rw [← hLimit]
    exact hUnder.depth_eq hDepth
  · have hPasses := fun source hMem => passes_of_from s.state.scopes.all.size h.numbers h'.numbers
      (hProper.sources source hMem) (hProper'.sources source hMem)
    have hOutcome := (sameSession_of_scopes h h' hScopes hHandles hNames).step hDepth
      h'.keeps.depth (fun source hMem => (hPasses source hMem).1) fuel
    rw [Step.map_eq_self fun v hMem => (hPasses _ hMem).2 v rfl] at hOutcome
    exact ⟨_, fun _ => rfl, fun c => closure_ofClosures, hOutcome⟩

/-- The numbers of scopes beside one that is not referred to. -/
def besideOne : Correspondence where
  scopes :=
    { Known := fun _ => True
      Valid := fun _ => True
      number := shift 1 2
      here := 1
      there := 2
      known_of_valid := fun _ => trivial
      known_fresh := fun _ => trivial
      number_fresh := shift_add 1 2
      lt_iff := fun _ _ => shift_lt_iff Nat.lt_succ_of_lt Nat.lt_succ_of_lt }
  serial := id
  here := 1
  there := 1
  serial_fresh _ := rfl
  valid_fresh _ _ _ _ _ := trivial
  serial_inj _ _ h := h

/-- The value of `dividingFunction`, and its application to itself. -/
def divider : Closure := ⟨0, ⟨0, 1⟩, 2, Scopes.global⟩

def dividerApplied : Step := .apply (.value (.closure divider)) [.value (.closure divider)]

/-- A session of `dividingFunction` after some evaluations of it, with the scopes besides the global
one. -/
def dividing (scopes : List Scope) (closures : Nat) : Session :=
  ⟨dividingProgram, .default, ⟨⟨(⟨[], none⟩ :: scopes).toArray⟩, #[], closures, 0⟩,
    #[Scopes.global]⟩

/-- An application that has failed has left the scope of its parameter, and nothing else. -/
theorem besideOne_dividing :
    besideOne.SameSession [] (dividing [] 1) (dividing [⟨[(⟨1⟩, .null)], some 0⟩] 1) := by
  have hHandles : #[Scopes.global] = #[Scopes.global].map besideOne.scopes.number :=
    (List.map_toArray (f := besideOne.scopes.number) (l := [Scopes.global])).symm
  have hMaps : besideOne.scopes.Maps (dividing [] 1).state.scopes
      (dividing [⟨[(⟨1⟩, .null)], some 0⟩] 1).state.scopes := by
    refine ⟨⟨0, rfl, rfl⟩, ?_, fun _ _ _ _ => trivial, fun _ _ _ _ => trivial⟩
    rintro (_ | id) -
    · rfl
    · have hThere : besideOne.scopes.number (id + 1) = id + 2 := by
        rw [Nat.add_comm id 1, Nat.add_comm id 2]
        exact shift_add 1 2 id
      rw [hThere]
      rfl
  exact ⟨rfl, rfl, rfl, trivial, hHandles, fun _ _ => trivial, ⟨trivial, rfl⟩,
    ⟨_, hMaps, (Scopes.relabel_eq_self fun _ _ _ => rfl).symm⟩, ⟨0, rfl, rfl⟩⟩

/-- The closure is applied to itself where it has not been applied before, where an application has
failed and left a scope, and where the function was evaluated once more. -/
theorem depth_balanced_dividingFunction :
    ∃ s failed again produced, Answered dividingProgram .default [.closure divider] s ∧
      Answered dividingProgram .default [.closure divider] failed ∧
      Answered dividingProgram .default produced again ∧
      failed.state.scopes ≠ s.state.scopes ∧ again.state.closures ≠ s.state.closures ∧
      failed.state.depth = 0 ∧
      (∃ m, UnderBodies failed 2 dividerApplied 1 m ∧ m.state.depth = 1) ∧
      (∀ fuel, besideOne.SameOutcome [] [] [] (s.step fuel dividerApplied)
        (failed.step fuel dividerApplied)) ∧
      ∀ fuel, ∃ C : Correspondence, C.SameOutcome [] [] [] (s.step fuel dividerApplied)
        (again.step fuel dividerApplied) := by
  have hMade : Answered dividingProgram .default [.closure divider] (dividing [] 1) :=
    .step .start (proper_evaluate _ 0)
      (rfl : (Session.start dividingProgram .default).step 1 _ = .ok (.result (.ok _), _))
  have hAgain : Answered dividingProgram .default
      [.closure { divider with serial := 1 }, .closure divider] (dividing [] 2) :=
    .step hMade (proper_evaluate _ 0) (rfl : (dividing [] 1).step 1 _ = .ok (.result (.ok _), _))
  have hNull : (Source.value .null).From [.closure divider] := .inl fun _ => Value.noConfusion
  have hApply : ∀ {produced source}, .closure divider ∈ produced → source.From produced →
      (Step.apply (.value (.closure divider)) [source]).Proper dividingProgram.table produced :=
    fun hMem hFrom => proper_apply _ (List.forall_mem_cons.mpr
      ⟨.inr hMem, List.forall_mem_singleton.mpr hFrom⟩)
  have hFailed : Answered dividingProgram .default [.closure divider]
      (dividing [⟨[(⟨1⟩, .null)], some 0⟩] 1) :=
    .step hMade (hApply List.mem_cons_self hNull)
      (rfl : (dividing [] 1).step 2 _ = .ok (.result (.error ⟨.divisionByZero, some ⟨14, 17⟩⟩), _))
  obtain ⟨hZero, hSteps⟩ := depth_balanced.2.2 _ _ _ _ hFailed
  have hUnder : UnderBodies (dividing [⟨[(⟨1⟩, .null)], some 0⟩] 1) 2 dividerApplied 1 _ :=
    .apply rfl (.body (by decide) rfl (by decide) rfl) .start
  refine ⟨_, _, _, _, hMade, hFailed, hAgain, by decide, by decide, hZero,
    ⟨_, hUnder, ((hSteps _ _).2.1 1 _ hUnder).1⟩, fun fuel => ?_, fun fuel => ?_⟩
  · exact ((depth_balanced.2.2 _ _ _ _ hMade).2 fuel dividerApplied).2.2.1 besideOne [] _ _ hFailed
      besideOne_dividing (List.forall_mem_cons.mpr
        ⟨fun _ _ => trivial, List.forall_mem_singleton.mpr fun _ _ => trivial⟩)
  · have hHere : Value.closure divider ∈ [Value.closure divider] := List.mem_cons_self
    have hThere : Value.closure divider ∈
        [.closure { divider with serial := 1 }, .closure divider] :=
      List.mem_cons_of_mem _ List.mem_cons_self
    have hSame := ((depth_balanced.2.2 _ _ _ _ hMade).2 fuel dividerApplied).2.2.2 [] _ _ hAgain
    obtain ⟨C, -, -, hOutcome⟩ :=
      hSame rfl rfl trivial (hApply hHere (.inr hHere)) (hApply hThere (.inr hThere))
    exact ⟨C, hOutcome⟩

end Session

end FeatherScript
