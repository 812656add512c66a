import FeatherScript.Proofs.Eval.Failure
import FeatherScript.Proofs.Eval.LexicalScopes
import FeatherScript.Proofs.Eval.Lockstep

/-!
# The node to blame

An error names the place of the node it is blamed on, which its cause decides: a condition that is
no truth value, an operation, a callee that is no function, a declaration, or a call. So the error
of a program points to the innermost evaluation that failed, whatever is nested around it.

* `Blames`: the node that an error is blamed on.
* `Raises.blames`: the error of a step carries the span of that node.
* `error_blames_innermost`: the errors of programs.
-/

namespace FeatherScript.Eval

open Effect

variable {cfg : Setting} {fuel : Nat} {id : NodeId} {env : ScopeId} {s t : State}

/-! ## What an error is blamed on -/

/-- The node that an error is blamed on when the step of a node fails with it. -/
inductive Blames (t : NodeTable) (id : NodeId) : EvalCause → NodeId → Prop
  | branch {c a b span found} (hNode : t.node? id = some ⟨.branch c a b, span⟩) :
      Blames t id (.conditionNotBoolean found) c
  | loop {c b span found} (hNode : t.node? id = some ⟨.loop c b, span⟩) :
      Blames t id (.conditionNotBoolean found) c
  | operands {op a b span left right} (hNode : t.node? id = some ⟨.binary op a b, span⟩) :
      Blames t id (.operandNotInteger op left right) id
  | division {op a b span} (hNode : t.node? id = some ⟨.binary op a b, span⟩) :
      Blames t id .divisionByZero id
  | modulo {op a b span} (hNode : t.node? id = some ⟨.binary op a b, span⟩) :
      Blames t id .moduloByZero id
  | overflow {op a b span operation} (hNode : t.node? id = some ⟨.binary op a b, span⟩) :
      Blames t id (.integerOverflow operation) id
  | callee {f args span found} (hNode : t.node? id = some ⟨.call f args, span⟩) :
      Blames t id (.notCallable found) f
  | declaration {name a span} (hNode : t.node? id = some ⟨.declare name a, span⟩) :
      Blames t id (.alreadyDeclared name) id
  | parameter {name f args span params slice} (hNode : t.node? id = some ⟨.call f args, span⟩)
      (hParams : t.params? slice = some params) (hTwice : List.Duplicate name params) :
      Blames t id (.alreadyDeclared name) id
  | arity {f args span expected supplied} (hNode : t.node? id = some ⟨.call f args, span⟩) :
      Blames t id (.arityMismatch expected supplied) id
  | depth {f args span limit} (hNode : t.node? id = some ⟨.call f args, span⟩) :
      Blames t id (.stackOverflow limit) id

theorem node?_of_eval {v : Value} (h : eval cfg fuel id env s = .ok v t) :
    ∃ n, cfg.table.node? id = some n := by
  cases fuel with
  | zero => cases h
  | succ fuel =>
    obtain ⟨n, _, hFound, -⟩ := exists_of_bind_ok h
    exact ⟨n, (found_eq_ok hFound).1⟩

theorem spanOf_eq {n : Node} (hNode : cfg.table.node? id = some n) :
    cfg.table.spanOf id = n.span := by
  rw [NodeTable.spanOf, hNode]
  rfl

/-- The error of a step carries the span of the node it is blamed on. -/
theorem Raises.blames {m : Moment} {e : EvalError} (h : Raises cfg m (.failed e)) :
    ∃ blamed n, Blames cfg.table m.node e.cause blamed ∧ cfg.table.node? blamed = some n ∧
      e.span = some n.span := by
  generalize hStop : Stop.failed e = stop at h
  cases h with
  | spent | absent | exhausted | arguments => cases hStop
  | operator hNode _ _ hApply =>
    cases hStop
    refine ⟨_, _, ?_, hNode, rfl⟩
    obtain rfl | rfl | rfl | ⟨operation, rfl⟩ := Operator.apply_error hApply
    · exact .operands hNode
    · exact .division hNode
    · exact .modulo hNode
    · exact .overflow hNode
  | branch hNode hCondition =>
    cases hStop
    obtain ⟨n, hCondition⟩ := node?_of_eval hCondition
    exact ⟨_, n, .branch hNode, hCondition, congrArg some (spanOf_eq hCondition)⟩
  | loop hNode _ hCondition =>
    cases hStop
    obtain ⟨n, hCondition⟩ := node?_of_eval hCondition
    exact ⟨_, n, .loop hNode, hCondition, congrArg some (spanOf_eq hCondition)⟩
  | declared hNode =>
    cases hStop
    exact ⟨_, _, .declaration hNode, hNode, rfl⟩
  | callee hNode hCallee =>
    cases hStop
    obtain ⟨n, hCallee⟩ := node?_of_eval hCallee
    exact ⟨_, n, .callee hNode, hCallee, congrArg some (spanOf_eq hCallee)⟩
  | refused hNode _ _ _ hRefuses =>
    cases hRefuses with
    | overflow =>
      cases hStop
      exact ⟨_, _, .depth hNode, hNode, rfl⟩
    | absent => cases hStop
    | arity =>
      cases hStop
      exact ⟨_, _, .arity hNode, hNode, rfl⟩
    | repeated _ hParams _ hTwice =>
      cases hStop
      exact ⟨_, _, .parameter hNode hParams hTwice, hNode, rfl⟩

/-! ## Errors of programs -/

/-- Whichever part of a program is evaluated, in whichever scope and state, its error is that of a
node whose own step failed after every evaluation that it started had succeeded. The error carries
the span of the node it is blamed on, and all evaluations of the run that stop, stop with it. The
run of a whole program evaluates its root in fresh scopes. -/
theorem error_blames_innermost {p : Program} {o : Options} {fuel : Nat} {id : NodeId}
    {env : ScopeId} {s t : State} {e : EvalError}
    (hRun : (eval (o.setting p.table) fuel id env).settle s = .ok (.error e, t)) :
    (∃ m u, Visits (o.setting p.table) ⟨fuel, id, env, s⟩ m ∧
      m.outcome (o.setting p.table) = .error (.failed e) u ∧
      Raises (o.setting p.table) m (.failed e) ∧
      (∀ m', Starts (o.setting p.table) m m' → ∃ v w, m'.outcome (o.setting p.table) = .ok v w) ∧
      ∃ blamed n, Blames p.table m.node e.cause blamed ∧ p.table.node? blamed = some n ∧
        e.span = some n.span) ∧
    ∀ m stop u, Visits (o.setting p.table) ⟨fuel, id, env, s⟩ m →
      m.outcome (o.setting p.table) = .error stop u → stop = .failed e := by
  have hStop := settle_eq_ok.mp hRun
  constructor
  · obtain ⟨m, u, hVisits, hOutcome, hRaises⟩ := exists_raises (m := ⟨fuel, id, env, s⟩) hStop
    exact ⟨m, u, hVisits, hOutcome, hRaises, fun m' => hRaises.innermost, hRaises.blames⟩
  · intro m stop u hVisits hOutcome
    obtain ⟨w, hSame | hSpent⟩ := stops_of_visits hVisits hOutcome
    · cases hStop.symm.trans hSame
      rfl
    · cases hStop.symm.trans hSpent

/-- The program `(function (x) { while (true) { if (true) { 1 / x; } } })(0)`. -/
def dividingLoop : Program where
  table := ⟨#[⟨.bool true, ⟨23, 27⟩⟩, ⟨.bool true, ⟨35, 39⟩⟩, ⟨.int 1, ⟨43, 44⟩⟩,
    ⟨.ref ⟨1⟩, ⟨47, 48⟩⟩, ⟨.binary .div 2 3, ⟨43, 48⟩⟩, ⟨.branch 1 4 none, ⟨31, 51⟩⟩,
    ⟨.loop 0 5, ⟨16, 53⟩⟩, ⟨.function ⟨0, 1⟩ 6, ⟨1, 55⟩⟩, ⟨.int 0, ⟨57, 58⟩⟩,
    ⟨.call 7 ⟨0, 1⟩, ⟨1, 59⟩⟩], #[8], #[⟨1⟩]⟩
  root := 9
  names := ⟨#["", "x"]⟩

/-- The division is blamed, through the branch, the loop and the call around it. -/
theorem error_blames_division :
    dividingLoop.evaluate .default 6 = .ok (.error ⟨.divisionByZero, some ⟨43, 48⟩⟩,
      ⟨⟨#[⟨[], none⟩, ⟨[(⟨1⟩, .int 0)], some 0⟩]⟩, #[], 1, 0⟩) ∧
    ∃ m blamed n,
      Visits (Options.default.setting dividingLoop.table) (.ofProgram dividingLoop 6) m ∧
      Blames dividingLoop.table m.node .divisionByZero blamed ∧
      dividingLoop.table.node? blamed = some n ∧ n.span = ⟨43, 48⟩ := by
  have hRun : dividingLoop.evaluate .default 6 = .ok (.error ⟨.divisionByZero, some ⟨43, 48⟩⟩,
      ⟨⟨#[⟨[], none⟩, ⟨[(⟨1⟩, .int 0)], some 0⟩]⟩, #[], 1, 0⟩) := by decide +kernel
  obtain ⟨⟨m, u, hVisits, -, -, -, blamed, n, hBlames, hNode, hSpan⟩, -⟩ :=
    error_blames_innermost hRun
  exact ⟨hRun, m, blamed, n, hVisits, hBlames, hNode, (Option.some.inj hSpan).symm⟩

end FeatherScript.Eval
