import FeatherScript.Proofs.Session.Bounds

/-!
# Serial numbers in a session

Closures are numbered in the order in which they are made. Whatever a session has done, the closures
that are bound in its scopes and those that it has answered were made before, so one that is made
next has a number of its own.

* `Eval.State.Numbers`, `Eval.State.Issues`: closures that were made before.
* `Eval.serials`: evaluation keeps this.
* `Session.Answered.numbers`: so does every step of a session.
-/

namespace FeatherScript

namespace Eval

open Effect

variable {cfg : Setting} {fuel : Nat} {s : State} {v : Value}

/-- A closure was made before. -/
def State.Issues (s : State) (v : Value) : Prop := ∀ c, v = .closure c → c.serial < s.closures

/-- All closures that are bound were made before. -/
def State.Numbers (s : State) : Prop := ∀ id c, s.scopes.Stores id c → c.serial < s.closures

theorem State.issues_plain (h : ∀ c, v ≠ .closure c) : s.Issues v :=
  fun c hClosure => absurd hClosure (h c)

/-- Evaluation binds and yields closures that it has made, or that were made before it. -/
def serials (cfg : Setting) : Invariant cfg where
  Holds := State.Numbers
  Later s t := s.closures ≤ t.closures
  Valid := State.Issues
  Here _ := True
  refl _ := Nat.le_refl _
  trans := Nat.le_trans
  valid_later hLater hValid c hClosure := Nat.lt_of_lt_of_le (hValid c hClosure) hLater
  valid_plain := State.issues_plain
  inside _ _ _ := trivial
  applies _ _ _ _ _ _ := trivial
  resolved _ hHolds := Scopes.stored_resolve hHolds
  printed hHolds := ⟨hHolds, Nat.le_refl _⟩
  deeper hHolds := ⟨hHolds, Nat.le_refl _⟩
  declared _ _ hHolds hValid _ := ⟨Scopes.stored_write hHolds hValid, Nat.le_refl _⟩
  assigned _ _ hHolds hValid := ⟨Scopes.stored_write hHolds hValid, Nat.le_refl _⟩
  made _ hMakes hHolds := by
    cases hMakes with
    | function =>
      refine ⟨fun id c hStores => Nat.lt_succ_of_lt (hHolds id c hStores), Nat.le_succ _, ?_⟩
      rintro c ⟨⟩
      exact Nat.lt_succ_self _
  bound {s} c args params span hHolds _ hArgs _ := by
    have hStart : ∀ id c', (s.scopes.enclose c.scope).2.Stores id c' → c'.serial < s.closures :=
      fun id c' hStores => hHolds id c' (Scopes.stores_enclose hStores)
    have hBound : Ensures (bindParams s.scopes.all.size (some span) params args)
        { s with scopes := (s.scopes.enclose c.scope).2 }
        (fun t => t.Numbers ∧ t.closures = s.closures) fun _ _ => True := by
      refine bindParams_ensures ⟨hStart, rfl⟩ fun t name v hNumbers hValue _ => ⟨?_, hNumbers.2⟩
      refine Scopes.stored_write hNumbers.1 fun c' hClosure => ?_
      rcases hValue with rfl | hMem
      · cases hClosure
      · exact hNumbers.2 ▸ hArgs v hMem c' hClosure
    exact Ensures.imp hBound (fun t h => ⟨h.1, Nat.le_of_eq h.2.symm⟩) fun _ _ _ h => h

/-- However an evaluation ends, all closures were made before. -/
theorem eval_numbers (hNumbers : s.Numbers) (id : NodeId) (env : ScopeId) :
    (serials cfg).Sound s s (eval cfg fuel id env) :=
  (serials cfg).eval_ensures (m := ⟨fuel, id, env, s⟩) trivial hNumbers

theorem call_numbers {callee : Value} {args : List Value} (hNumbers : s.Numbers)
    (hCallee : s.Issues callee) (hArgs : ∀ v ∈ args, s.Issues v) :
    (serials cfg).Sound s s (call cfg fuel callee args) := by
  cases callee with
  | closure c =>
    refine Invariant.applyWith_sound (.start hNumbers) hCallee hArgs fun m _ hReached => ?_
    exact (serials cfg).eval_ensures trivial hReached.1
  | _ => exact Ensures.fail (.start hNumbers)

end Eval

namespace Session

open Eval Eval.Effect

variable {produced : List Value} {s s' : Session} {fuel : Nat} {step : Step} {source : Source}

/-- The closures of a session, and those that it has answered, were made before. -/
structure Numbers (produced : List Value) (s : Session) : Prop where
  stored : s.state.Numbers
  produced : ∀ v ∈ produced, s.state.Issues v

namespace Numbers

theorem same (h : s.Numbers produced) (hSame : s.SameButNames s') : s'.Numbers produced :=
  ⟨hSame.state ▸ h.stored, hSame.state ▸ h.produced⟩

theorem valueOf (h : s.Numbers produced) (hFrom : source.From produced) :
    (s.valueOf source).2.Numbers produced ∧
      (s.valueOf source).2.state.Issues (s.valueOf source).1 := by
  refine ⟨h.same (s.valueOf_same source), ?_⟩
  cases source with
  | value v =>
    rcases hFrom with hPlain | hMem
    · exact State.issues_plain hPlain
    · exact h.produced v hMem
  | nameIn handle text => exact Scopes.stored_resolve h.stored

theorem valuesOf {sources : List Source} (h : s.Numbers produced)
    (hFrom : ∀ source ∈ sources, source.From produced) :
    (s.valuesOf sources).2.Numbers produced ∧
      ∀ v ∈ (s.valuesOf sources).1, (s.valuesOf sources).2.state.Issues v := by
  induction sources generalizing s with
  | nil => exact ⟨h, nofun⟩
  | cons source sources ih =>
    obtain ⟨hFirst, hRest⟩ := List.forall_mem_cons.mp hFrom
    obtain ⟨hThere, hValue⟩ := h.valueOf hFirst
    obtain ⟨hEnd, hValues⟩ := ih hThere hRest
    have hState := ((s.valueOf source).2.valuesOf_same sources).state
    exact ⟨hEnd, List.forall_mem_cons.mpr ⟨hState ▸ hValue, hValues⟩⟩

theorem cons {v : Value} (h : s.Numbers produced) (hValue : s.state.Issues v) :
    s.Numbers (v :: produced) :=
  ⟨h.stored, List.forall_mem_cons.mpr ⟨hValue, h.produced⟩⟩

/-- The session with a value bound. -/
theorem write {v : Value} {target : ScopeId} {name : Name} (h : s.Numbers produced)
    (hValue : s.state.Issues v) :
    (s.withScopes (s.state.scopes.write target name v)).Numbers produced :=
  ⟨Scopes.stored_write h.stored hValue, h.produced⟩

end Numbers

/-- A step ends in such a session, or has no outcome. -/
def EndsNumbered (produced : List Value) : Except Fault (Answer × Session) → Prop
  | .ok (answer, s') => s'.Numbers (answer.values ++ produced)
  | .error _ => True

theorem perform_endsNumbered {x : Effect Value} (h : s.Numbers produced)
    (hSound : (serials s.setting).Sound s.state s.state x) :
    EndsNumbered produced (s.perform x) := by
  unfold Invariant.Sound Ensures at hSound
  unfold perform settle
  cases hResult : x s.state with
  | ok v t =>
    rw [hResult] at hSound
    obtain ⟨⟨hNumbers, hLater⟩, -, hValue⟩ := hSound
    refine ⟨hNumbers, List.forall_mem_cons.mpr ⟨hValue, fun w hMem c hClosure => ?_⟩⟩
    exact Nat.lt_of_lt_of_le (h.produced w hMem c hClosure) hLater
  | error stop t =>
    rw [hResult] at hSound
    obtain ⟨hNumbers, hLater⟩ := hSound
    cases stop with
    | failed e =>
      exact ⟨hNumbers, fun w hMem c hClosure =>
        Nat.lt_of_lt_of_le (h.produced w hMem c hClosure) hLater⟩
    | fault fault => trivial

/-- Every step ends in a session whose closures were made before. -/
theorem step_endsNumbered {t : NodeTable} (h : s.Numbers produced)
    (hProper : step.Proper t produced) (fuel : Nat) : EndsNumbered produced (s.step fuel step) := by
  cases step with
  | evaluate handle node => exact perform_endsNumbered h (eval_numbers h.stored _ _)
  | apply callee args =>
    obtain ⟨hCallee, hArgs⟩ := List.forall_mem_cons.mp hProper.sources
    obtain ⟨hThere, hFunction⟩ := h.valueOf hCallee
    obtain ⟨hEnd, hValues⟩ := hThere.valuesOf hArgs
    have hState := ((s.valueOf callee).2.valuesOf_same args).state
    exact perform_endsNumbered hEnd (call_numbers hEnd.stored (hState ▸ hFunction) hValues)
  | resolve handle text =>
    exact (h.same (s.intern_same text)).cons (Scopes.stored_resolve h.stored)
  | update handle text source =>
    obtain ⟨hThere, hValue⟩ :=
      (h.same (s.intern_same text)).valueOf (hProper.sources source List.mem_cons_self)
    exact hThere.write hValue
  | create handle text source =>
    obtain ⟨hThere, hValue⟩ :=
      (h.same (s.intern_same text)).valueOf (hProper.sources source List.mem_cons_self)
    dsimp only [Session.step, Scopes.create?]
    split
    · next scopes hCreate =>
      obtain ⟨-, hWritten⟩ := Option.ite_none_left_eq_some.mp hCreate
      cases hWritten
      exact hThere.write hValue
    · exact hThere
  | binds handle text => exact h.same (s.intern_same text)
  | count | isRoot | debug => exact h
  | enclose handle =>
    exact ⟨fun id c hStores => h.stored id c (Scopes.stores_enclose hStores), h.produced⟩
  | outer handle =>
    dsimp only [Session.step]
    cases s.state.scopes.parent? (s.scopeOf handle) with
    | none => exact h
    | some scope => exact ⟨h.stored, h.produced⟩
  | captured function =>
    have hThere := h.same (s.valueOf_same function)
    dsimp only [Session.step]
    cases (s.valueOf function).1 with
    | closure c => exact ⟨hThere.stored, hThere.produced⟩
    | _ => exact hThere
  | root => exact ⟨fun id c hStores => h.stored id c (Scopes.stores_add hStores), h.produced⟩
  | equal a b =>
    exact (h.same (s.valueOf_same a)).same ((s.valueOf a).2.valueOf_same b)

theorem Answered.numbers {program : Program} {options : Options}
    (h : Answered program options produced s) : s.Numbers produced := by
  induction h with
  | start => exact ⟨fun _ _ hStores => absurd hStores Scopes.not_stores_initial, nofun⟩
  | @step _ _ fuel _ _ _ _ hProper hStep ih =>
    have hEnd := step_endsNumbered ih hProper fuel
    rw [hStep] at hEnd
    exact hEnd

end Session

end FeatherScript
