import FeatherScript.Proofs.Eval.Bounds
import FeatherScript.Proofs.Grammar.Provenance
import FeatherScript.Proofs.Session.Timeline

/-!
# Sessions that stay inside their table

A host may pass in integers, truth values, null, and what earlier steps have answered. Whatever its
steps are, and whether they succeeded, every closure of the session then comes from a function of
the program, and no evaluation refers to a node, an argument or a parameter that is not there.

* `Session.Answered`: the sessions that some steps lead to, with the values answered so far.
* `Session.Begins`: the evaluations that a step begins with.
* `Session.InBounds`, `Session.step_inBounds`: what each step keeps.
* `Session.never_dangles`: the sessions of programs that were read.
-/

namespace FeatherScript.Session

open Eval Eval.Effect

/-! ## What is passed in and answered -/

/-- The value in an answer. -/
def Answer.values : Answer → List Value
  | .result (.ok v) | .value v => [v]
  | _ => []

/-- What a step passes in. -/
def Step.sources : Step → List Source
  | .apply callee args => callee :: args
  | .update _ _ value | .create _ _ value | .captured value => [value]
  | .equal a b => [a, b]
  | _ => []

/-- A value that is passed in is no closure, or was answered before. -/
def Source.From (produced : List Value) : Source → Prop
  | .value v => (∀ c, v ≠ .closure c) ∨ v ∈ produced
  | .nameIn .. => True

/-- A step passes in values that it may, and evaluates a node of the table. -/
structure Step.Proper (t : NodeTable) (produced : List Value) (step : Step) : Prop where
  sources : ∀ source ∈ step.sources, source.From produced
  node : ∀ handle id, step = .evaluate handle (some id) → id < t.size

/-- Some steps, failed ones among them, lead from the start to a session, and have answered with
some values. -/
inductive Answered (program : Program) (options : Options) : List Value → Session → Prop
  | start : Answered program options [] (start program options)
  | step {produced s fuel step answer s'} (h : Answered program options produced s)
      (hProper : step.Proper program.table produced)
      (hStep : s.step fuel step = .ok (answer, s')) :
      Answered program options (answer.values ++ produced) s'

/-- A step begins with the evaluation of a node, or with that of the body of a closure. -/
inductive Begins (s : Session) (fuel : Nat) : Step → Moment → Prop
  | evaluate {handle node} : Begins s fuel (.evaluate handle node)
      ⟨fuel, node.getD s.program.root, s.scopeOf handle, s.state⟩
  | apply {callee args c m} (hCallee : (s.valueOf callee).1 = .closure c)
      (hEnters : Enters s.setting fuel c ((s.valueOf callee).2.valuesOf args).1 .origin s.state m) :
      Begins s fuel (.apply callee args) m

/-- A session refers to its table only. -/
structure InBounds (cfg : Setting) (produced : List Value) (s : Session) : Prop where
  setting : s.setting = cfg
  formed : cfg.table.WellFormed
  root : s.program.root < cfg.table.size
  stored : cfg.table.Supplies s.state.scopes
  produced : ∀ v ∈ produced, cfg.table.ProvidesValue v

/-! ## Values -/

variable {cfg : Setting} {produced : List Value} {s s' : Session} {fuel : Nat} {step : Step}
  {source : Source}

theorem proper_evaluate (t : NodeTable) (handle : Nat) :
    (Step.evaluate handle none).Proper t produced := by
  refine ⟨List.forall_mem_nil _, fun handle id h => ?_⟩
  cases h

theorem proper_apply (t : NodeTable) {callee : Source} {args : List Source}
    (h : ∀ source ∈ callee :: args, source.From produced) :
    (Step.apply callee args).Proper t produced := by
  refine ⟨h, fun handle id hStep => ?_⟩
  cases hStep

theorem valueOf_root (s : Session) (source : Source) :
    (s.valueOf source).2.program.root = s.program.root := by
  cases source <;> rfl

theorem valuesOf_root (s : Session) (sources : List Source) :
    (s.valuesOf sources).2.program.root = s.program.root := by
  induction sources generalizing s with
  | nil => rfl
  | cons source sources ih => exact (ih _).trans (s.valueOf_root source)

namespace InBounds

theorem same (h : s.InBounds cfg produced) (hSame : s.SameButNames s')
    (hRoot : s'.program.root = s.program.root) : s'.InBounds cfg produced :=
  ⟨hSame.setting.trans h.setting, h.formed, hRoot ▸ h.root, hSame.state ▸ h.stored, h.produced⟩

theorem intern (h : s.InBounds cfg produced) (text : String) :
    (s.intern text).2.InBounds cfg produced :=
  h.same (s.intern_same text) rfl

theorem valueOf (h : s.InBounds cfg produced) (source : Source) :
    (s.valueOf source).2.InBounds cfg produced :=
  h.same (s.valueOf_same source) (s.valueOf_root source)

theorem valuesOf (h : s.InBounds cfg produced) (sources : List Source) :
    (s.valuesOf sources).2.InBounds cfg produced :=
  h.same (s.valuesOf_same sources) (s.valuesOf_root sources)

/-- A closure that is passed in is that of a function of the table. -/
theorem provides (h : s.InBounds cfg produced) (hFrom : source.From produced) :
    cfg.table.ProvidesValue (s.valueOf source).1 := by
  cases source with
  | value v =>
    rcases hFrom with hPlain | hMem
    · exact NodeTable.providesValue_plain hPlain
    · exact h.produced v hMem
  | nameIn handle text => exact h.stored.resolve

theorem provides_all {sources : List Source} (h : s.InBounds cfg produced)
    (hFrom : ∀ source ∈ sources, source.From produced) :
    ∀ v ∈ (s.valuesOf sources).1, cfg.table.ProvidesValue v := by
  induction sources generalizing s with
  | nil => exact nofun
  | cons source sources ih =>
    intro v hMem
    rcases List.mem_cons.mp hMem with rfl | hMem
    · exact h.provides (hFrom source List.mem_cons_self)
    · exact ih (h.valueOf source) (fun other hOther => hFrom other (List.mem_cons_of_mem _ hOther))
        v hMem

/-- The session with other scopes, and with one more value answered. -/
theorem withScopes (h : s.InBounds cfg produced) {scopes : Scopes}
    (hSupplies : cfg.table.Supplies scopes) : (s.withScopes scopes).InBounds cfg produced :=
  ⟨h.setting, h.formed, h.root, hSupplies, h.produced⟩

theorem addHandle (h : s.InBounds cfg produced) (scope : ScopeId) :
    (s.addHandle scope).2.InBounds cfg produced :=
  ⟨h.setting, h.formed, h.root, h.stored, h.produced⟩

theorem cons {v : Value} (h : s.InBounds cfg produced) (hValue : cfg.table.ProvidesValue v) :
    s.InBounds cfg (v :: produced) :=
  ⟨h.setting, h.formed, h.root, h.stored, List.forall_mem_cons.mpr ⟨hValue, h.produced⟩⟩

end InBounds

/-! ## Steps -/

/-- A step ends in a session that refers to its table only, or for lack of fuel. -/
def EndsInBounds (cfg : Setting) (produced : List Value) :
    Except Fault (Answer × Session) → Prop
  | .ok (answer, s') => s'.InBounds cfg (answer.values ++ produced)
  | .error fault => fault = .outOfFuel

theorem perform_endsInBounds {x : Effect Value} (h : s.InBounds cfg produced)
    (hSupplies : Ensures x s.state (fun t => cfg.table.Supplies t.scopes)
      fun _ v => cfg.table.ProvidesValue v)
    (hFound : ∀ t, x s.state ≠ .error (.fault .dangling) t) :
    EndsInBounds cfg produced (s.perform x) := by
  unfold Ensures at hSupplies
  unfold perform settle
  cases hResult : x s.state with
  | ok v t =>
    rw [hResult] at hSupplies
    have hAfter : InBounds cfg produced { s with state := t } :=
      ⟨h.setting, h.formed, h.root, hSupplies.1, h.produced⟩
    exact hAfter.cons hSupplies.2
  | error stop t =>
    rw [hResult] at hSupplies
    cases stop with
    | failed e => exact ⟨h.setting, h.formed, h.root, hSupplies, h.produced⟩
    | fault fault =>
      cases fault with
      | outOfFuel => rfl
      | dangling => exact absurd hResult (hFound t)

/-- The node that a step evaluates. -/
theorem node_lt {handle : Nat} {node : Option NodeId} (h : s.InBounds cfg produced)
    (hProper : (Step.evaluate handle node).Proper cfg.table produced) :
    node.getD s.program.root < cfg.table.size := by
  cases node with
  | none => exact h.root
  | some id => exact hProper.node handle id rfl

/-- The closure and the arguments of an application by the host. -/
theorem provides_applied {callee : Source} {args : List Source} (h : s.InBounds cfg produced)
    (hProper : (Step.apply callee args).Proper cfg.table produced) :
    cfg.table.ProvidesValue (s.valueOf callee).1 ∧
      ∀ v ∈ ((s.valueOf callee).2.valuesOf args).1, cfg.table.ProvidesValue v := by
  refine ⟨h.provides (hProper.sources callee List.mem_cons_self), ?_⟩
  exact (h.valueOf callee).provides_all fun arg hMem =>
    hProper.sources arg (List.mem_cons_of_mem _ hMem)

/-- The evaluation that a step begins with refers to the table only, at all of its moments. -/
theorem Begins.inBounds {m m' : Moment} (h : s.InBounds cfg produced)
    (hProper : step.Proper cfg.table produced) (hBegins : Begins s fuel step m)
    (hVisits : Visits cfg m m') : m'.InBounds cfg := by
  cases hBegins with
  | evaluate =>
    have hHere := node_lt h hProper
    exact inBounds_of_visits h.formed (m := ⟨fuel, _, _, s.state⟩) hHere h.stored hVisits
  | apply hCallee hEnters =>
    obtain ⟨hClosure, hArgs⟩ := provides_applied h hProper
    rw [h.setting] at hEnters
    obtain ⟨hThere, hThen⟩ :=
      supplies_of_enters h.formed h.stored (hClosure _ hCallee) hArgs hEnters
    exact inBounds_of_visits h.formed hThere hThen hVisits

theorem apply_endsInBounds {callee : Source} {args : List Source} (h : s.InBounds cfg produced)
    (hProper : (Step.apply callee args).Proper cfg.table produced) :
    EndsInBounds cfg produced (s.step fuel (.apply callee args)) := by
  obtain ⟨hClosure, hArgs⟩ := provides_applied h hProper
  have hThere := (h.valueOf callee).valuesOf args
  have hSetting := hThere.setting
  subst hSetting
  exact perform_endsInBounds hThere (call_supplies hThere.formed hThere.stored hClosure hArgs)
    fun t => call_not_dangling hThere.formed hThere.stored hClosure hArgs

theorem create_endsInBounds {handle : Nat} {text : String} (h : s.InBounds cfg produced)
    (hFrom : source.From produced) :
    EndsInBounds cfg produced (s.step fuel (.create handle text source)) := by
  have hNamed := h.intern text
  have hThere := hNamed.valueOf source
  have hValue := hNamed.provides hFrom
  dsimp only [step]
  generalize ((s.intern text).2.valueOf source).1 = value at hValue ⊢
  generalize ((s.intern text).2.valueOf source).2 = s₂ at hThere ⊢
  cases hBinds : s₂.state.scopes.binds (s₂.scopeOf handle) (s.intern text).1 with
  | true =>
    rw [Scopes.create?, if_pos hBinds]
    exact hThere
  | false =>
    rw [Scopes.create?, if_neg (Bool.eq_false_iff.mp hBinds)]
    exact hThere.withScopes (hThere.stored.write hValue)

/-- Every step ends in a session that refers to its table only, or for lack of fuel. -/
theorem step_endsInBounds (h : s.InBounds cfg produced)
    (hProper : step.Proper cfg.table produced) (fuel : Nat) :
    EndsInBounds cfg produced (s.step fuel step) := by
  cases step with
  | evaluate handle node =>
    have hHere := node_lt h hProper
    have hSetting := h.setting
    subst hSetting
    exact perform_endsInBounds h (eval_supplies h.formed hHere h.stored) fun t =>
      eval_not_dangling h.formed hHere h.stored
  | apply callee args => exact apply_endsInBounds h hProper
  | resolve handle text => exact (h.intern text).cons (h.intern text).stored.resolve
  | update handle text source =>
    have hNamed := h.intern text
    have hValue := hNamed.provides (hProper.sources source List.mem_cons_self)
    exact (hNamed.valueOf source).withScopes ((hNamed.valueOf source).stored.write hValue)
  | create handle text source =>
    exact create_endsInBounds h (hProper.sources source List.mem_cons_self)
  | binds handle text => exact h.intern text
  | count | isRoot | debug => exact h
  | enclose handle => exact (h.withScopes h.stored.enclose).addHandle _
  | outer handle =>
    dsimp only [step]
    cases s.state.scopes.parent? (s.scopeOf handle) with
    | none => exact h
    | some scope => exact h.addHandle scope
  | captured function =>
    have hThere := h.valueOf function
    dsimp only [step]
    cases (s.valueOf function).1 with
    | closure c => exact hThere.addHandle c.scope
    | _ => exact hThere
  | root => exact (h.withScopes h.stored.add).addHandle _
  | equal a b => exact (h.valueOf a).valueOf b

/-! ## Sessions -/

theorem start_inBounds {source : String} {p : Program} (hRead : readProgram source = .ok p)
    (o : Options) : (start p o).InBounds (o.setting p.table) [] := by
  obtain ⟨hFormed, hRoot⟩ := wellFormed_of_readProgram hRead
  exact ⟨rfl, hFormed, hRoot, NodeTable.supplies_initial, nofun⟩

theorem Answered.inBounds {source : String} {p : Program} {o : Options}
    (hRead : readProgram source = .ok p) (h : Answered p o produced s) :
    s.InBounds (o.setting p.table) produced := by
  induction h with
  | start => exact start_inBounds hRead o
  | @step _ _ fuel _ _ _ _ hProper hStep ih =>
    have hEnd := step_endsInBounds ih hProper fuel
    rw [hStep] at hEnd
    exact hEnd

/-- Whatever steps a session of a program has made, the next one does not end for a reference that
leads nowhere. At all moments of its evaluation, what is referred to is in the table, and so are the
closures that are bound in scopes, that were answered, and that are passed in. -/
theorem never_dangles {source : String} {p : Program} {o : Options}
    (hRead : readProgram source = .ok p) (h : Answered p o produced s)
    (hProper : step.Proper p.table produced) (fuel : Nat) :
    (∀ fault, s.step fuel step = .error fault → fault = .outOfFuel) ∧
      (∀ m m', Begins s fuel step m → Visits (o.setting p.table) m m' →
        m'.InBounds (o.setting p.table)) ∧
      (∀ id c, s.state.scopes.Stores id c → p.table.Covers c) ∧
      (∀ c, .closure c ∈ produced → p.table.Covers c) ∧
      ∀ c, .closure c ∈ (s.valuesOf step.sources).1 → p.table.Covers c := by
  have hBounds := h.inBounds hRead
  have hFormed : p.table.WellFormed := hBounds.formed
  refine ⟨fun fault hStep => ?_, fun m m' hBegins hVisits => ?_, fun id c hStores => ?_,
    fun c hMem => ?_, fun c hMem => ?_⟩
  · have hEnd := step_endsInBounds hBounds hProper fuel
    rw [hStep] at hEnd
    exact hEnd
  · exact hBegins.inBounds hBounds hProper hVisits
  · exact hFormed.covers (hBounds.stored id c hStores)
  · exact hFormed.covers (hBounds.produced _ hMem c rfl)
  · exact hFormed.covers (hBounds.provides_all hProper.sources _ hMem c rfl)

def dividingFunction : String := "(function (x) 1/0;)"

/-- The program of `dividingFunction`, whose value is a closure. -/
def dividingProgram : Program where
  table := ⟨#[⟨.int 1, ⟨14, 15⟩⟩, ⟨.int 0, ⟨16, 17⟩⟩, ⟨.binary .div 0 1, ⟨14, 17⟩⟩,
    ⟨.function ⟨0, 1⟩ 2, ⟨1, 18⟩⟩], #[], #[⟨1⟩]⟩
  root := 3
  names := ⟨#["", "x"]⟩

/-- The closure is applied to itself after an application of it has failed. -/
theorem never_dangles_dividingFunction : readProgram dividingFunction = .ok dividingProgram ∧
    ∃ c s, Answered dividingProgram .default [.closure c] s ∧ dividingProgram.table.Covers c ∧
      ∀ fuel fault, s.step fuel (.apply (.value (.closure c)) [.value (.closure c)])
        = .error fault → fault = .outOfFuel := by
  have hRead : readProgram dividingFunction = .ok dividingProgram := by decide +kernel
  let c : Closure := ⟨0, ⟨0, 1⟩, 2, 0⟩
  have hMade := Answered.step .start (proper_evaluate _ 0)
    (rfl : (start dividingProgram .default).step 1 _ = .ok (.result (.ok (.closure c)), _))
  have hClosure : (Source.value (.closure c)).From [.closure c] := .inr List.mem_cons_self
  have hNull : (Source.value .null).From [.closure c] := by
    refine .inl fun c h => ?_
    cases h
  have hApply : ∀ source, source.From [.closure c] →
      (Step.apply (.value (.closure c)) [source]).Proper dividingProgram.table [.closure c] :=
    fun source hFrom => proper_apply _ (List.forall_mem_cons.mpr
      ⟨hClosure, List.forall_mem_singleton.mpr hFrom⟩)
  have hFailed := Answered.step hMade (hApply _ hNull)
    (rfl : step _ 2 _ = .ok (.result (.error ⟨.divisionByZero, some ⟨14, 17⟩⟩), _))
  have hAll := never_dangles hRead hFailed (hApply _ hClosure)
  exact ⟨hRead, c, _, hFailed, (hAll 0).2.2.2.1 c List.mem_cons_self, fun fuel => (hAll fuel).1⟩

end FeatherScript.Session
