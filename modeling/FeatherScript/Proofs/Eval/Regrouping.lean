import FeatherScript.Proofs.Eval.Layout
import FeatherScript.Proofs.Eval.Lockstep
import FeatherScript.Proofs.Tree.Regrouping

/-!
# The grouping of sequences cannot be observed

Programs whose trees differ in the grouping of their sequences end both or neither, having printed
the same, with values that are printed alike or with errors for the same cause. The runs do not go
through the same states: closures are made of the bodies of functions, which may be regrouped, and
scopes hold such closures. Nor do they need the same fuel, because a part of a sequence is deeper in
one grouping than in the other. A run of a regrouped tree never needs more than twice as much.

* `Value.Regrouped`, `ScopesRegrouped`, `State.Regrouped`: what two such runs have in common.
* `Approximates`: an effect does what another one does, unless it runs out of fuel.
* `evaluate_approximates`: the evaluations of two trees.
* `regrouped_runs_agree`: the theorem.
-/

namespace FeatherScript.Reference

/-! ## Values and states -/

/-- Values that differ at most in the grouping of sequences in the bodies of closures. -/
inductive Value.Regrouped : Value → Value → Prop
  | int (value) : Value.Regrouped (.int value) (.int value)
  | bool (value) : Value.Regrouped (.bool value) (.bool value)
  | null : Value.Regrouped .null .null
  | closure {params body body' scope} (hBody : body.Regrouped body') :
      Value.Regrouped (.closure params body scope) (.closure params body' scope)

/-- Scopes with the same names and the same parent. -/
structure Scope.Regrouped (a b : Scope) : Prop where
  bindings : ∀ name, Option.Rel Value.Regrouped (a.bindings name) (b.bindings name)
  parent : a.parent = b.parent

/-- The scopes of two runs, by their numbers. -/
structure ScopesRegrouped (scopes scopes' : Array Scope) : Prop where
  size : scopes.size = scopes'.size
  scope : ∀ id : ScopeId, Option.Rel Scope.Regrouped scopes[id]? scopes'[id]?

/-- The states of two runs, which have printed the same. -/
structure State.Regrouped (s t : State) : Prop where
  scopes : ScopesRegrouped s.scopes t.scopes
  printed : s.printed = t.printed

/-- Two runs stop for the same error, maybe at different places: an error names the span of a
condition or of a callee, which may be a sequence. -/
inductive SameCause : Stop → Stop → Prop
  | failed {e e'} (hCause : e.cause = e'.cause) : SameCause (.failed e) (.failed e')

namespace Value.Regrouped

variable {v w : Value}

theorem text_eq (h : Value.Regrouped v w) : v.text = w.text := by
  cases h <;> rfl

theorem ofOperation (v : FeatherScript.Value) :
    Value.Regrouped (.ofOperation v) (.ofOperation v) := by
  cases v with
  | int value => exact .int value
  | bool value => exact .bool value
  | null | closure => exact .null

end Value.Regrouped

theorem regrouped_initial : State.Regrouped .initial .initial := by
  refine ⟨⟨rfl, fun id => ?_⟩, rfl⟩
  cases id with
  | zero => exact .some ⟨fun _ => .none, rfl⟩
  | succ id => exact .none

/-! ## Scopes -/

namespace ScopesRegrouped

variable {scopes scopes' : Array Scope} {v w : Value}

/-- A name is bound in both runs or in neither. -/
theorem lookup? (h : ScopesRegrouped scopes scopes') (env : ScopeId) (name : Name) :
    Option.Rel Value.Regrouped (scopes[env]?.bind (·.bindings name))
      (scopes'[env]?.bind (·.bindings name)) := by
  rcases Eval.rel_cases (h.scope env) with ⟨hOurs, hTheirs⟩ | ⟨a, b, hOurs, hTheirs, hScope⟩
  · rw [hOurs, hTheirs]
    exact .none
  · rw [hOurs, hTheirs]
    exact hScope.bindings name

/-- A name belongs to the same scope in both runs. -/
theorem find? (h : ScopesRegrouped scopes scopes') (env : ScopeId) (name : Name) :
    Option.Rel (fun x y => x.1 = y.1 ∧ Value.Regrouped x.2 y.2) (find? scopes env name)
      (find? scopes' env name) := by
  rw [Reference.find?, Reference.find?]
  rcases Eval.rel_cases (h.scope env) with ⟨hOurs, hTheirs⟩ | ⟨a, b, hOurs, hTheirs, hScope⟩
  · rw [hOurs, hTheirs]
    exact .none
  · simp only [hOurs, hTheirs, hScope.parent]
    rcases Eval.rel_cases (hScope.bindings name) with
      ⟨hFree, hFree'⟩ | ⟨v, w, hBound, hBound', hValue⟩
    · simp only [hFree, hFree']
      cases b.parent with
      | none => exact .none
      | some outer =>
        by_cases hLess : outer < env
        · simpa only [if_pos hLess] using h.find? outer name
        · simpa only [if_neg hLess] using .none
    · simp only [hBound, hBound']
      exact .some ⟨rfl, hValue⟩
termination_by env

theorem resolve (h : ScopesRegrouped scopes scopes') (env : ScopeId) (name : Name) :
    Value.Regrouped (resolve scopes env name) (resolve scopes' env name) := by
  unfold Reference.resolve
  rcases Eval.rel_cases (h.find? env name) with ⟨hOurs, hTheirs⟩ | ⟨a, b, hOurs, hTheirs, -, hValue⟩
  · rw [hOurs, hTheirs]
    exact .null
  · rw [hOurs, hTheirs]
    exact hValue

/-- An assignment writes the same scope in both runs. -/
theorem target_eq (h : ScopesRegrouped scopes scopes') (env : ScopeId) (name : Name) :
    target scopes env name = target scopes' env name := by
  unfold Reference.target
  rcases Eval.rel_cases (h.find? env name) with
    ⟨hOurs, hTheirs⟩ | ⟨⟨owner, v⟩, ⟨owner', w⟩, hOurs, hTheirs, hOwner, hValue⟩
  · rw [hOurs, hTheirs]
  · rw [hOurs, hTheirs]
    cases hValue <;> first | rfl | exact hOwner

theorem write (h : ScopesRegrouped scopes scopes') (hValue : Value.Regrouped v w) (env : ScopeId)
    (name : Name) :
    ScopesRegrouped (scopes.modify env (·.bind name v)) (scopes'.modify env (·.bind name w)) := by
  refine ⟨by simp [h.size], fun id => ?_⟩
  rw [Array.getElem?_modify, Array.getElem?_modify]
  split
  · rcases Eval.rel_cases (h.scope id) with ⟨hOurs, hTheirs⟩ | ⟨a, b, hOurs, hTheirs, hScope⟩
    · rw [hOurs, hTheirs]
      exact .none
    · rw [hOurs, hTheirs]
      refine .some ⟨fun n => ?_, hScope.parent⟩
      simp only [Scope.bind]
      split
      · exact .some hValue
      · exact hScope.bindings n
  · exact h.scope id

theorem enclose (h : ScopesRegrouped scopes scopes') (outer : ScopeId) :
    ScopesRegrouped (scopes.push ⟨fun _ => none, some outer⟩)
      (scopes'.push ⟨fun _ => none, some outer⟩) := by
  refine ⟨by simp [h.size], fun id => ?_⟩
  rw [Array.getElem?_push, Array.getElem?_push, h.size]
  split
  · exact .some ⟨fun _ => .none, rfl⟩
  · exact h.scope id

end ScopesRegrouped

/-! ## Approximation -/

/-- An effect does what another one does in a regrouped state, unless it runs out of fuel. -/
def Approximates {α β : Type} (P : α → β → Prop) (x : Effect α) (y : Effect β) : Prop :=
  ∀ s t, State.Regrouped s t → (∃ u, x s = .error .outOfFuel u) ∨
    Eval.Agree State.Regrouped SameCause P (x s) (y t)

namespace Approximates

variable {α β α' β' : Type} {P : α → β → Prop} {Q : α' → β' → Prop}

theorem pure {a : α} {b : β} (h : P a b) : Approximates P (Pure.pure a) (Pure.pure b) :=
  fun _ _ hState => .inr (.ok h hState)

theorem fail (cause : EvalCause) (span span' : Span) :
    Approximates P (fail cause span) (fail cause span') :=
  fun _ _ hState => .inr (.error (.failed rfl) hState)

/-- Nothing is said of an effect without fuel. -/
theorem spent {y : Effect β} : Approximates P (throw .outOfFuel) y :=
  fun s _ _ => .inl ⟨s, rfl⟩

theorem bind {x : Effect α} {y : Effect β} {f : α → Effect α'} {g : β → Effect β'}
    (h : Approximates P x y) (hNext : ∀ a b, P a b → Approximates Q (f a) (g b)) :
    Approximates Q (x >>= f) (y >>= g) := by
  intro s t hState
  have hFirst := h s t hState
  change (∃ u, EStateM.bind x f s = .error .outOfFuel u) ∨
    Eval.Agree _ _ Q (EStateM.bind x f s) (EStateM.bind y g t)
  unfold EStateM.bind
  generalize x s = r at hFirst ⊢
  generalize y t = r' at hFirst ⊢
  rcases hFirst with ⟨u, rfl⟩ | hAgree
  · exact .inl ⟨u, rfl⟩
  · cases hAgree with
    | ok hValue hState => exact hNext _ _ hValue _ _ hState
    | error hCause hState => exact .inr (.error hCause hState)

end Approximates

/-! ## Effects -/

variable {v w v' w' : Value} {args args' : List Value}

theorem resolve_approximates (env : ScopeId) (name : Name) :
    Approximates Value.Regrouped (do return resolve (← get).scopes env name)
      (do return resolve (← get).scopes env name) :=
  fun _ _ h => .inr (.ok (h.scopes.resolve env name) h)

theorem print_approximates (hValue : Value.Regrouped v w) :
    Approximates (fun _ _ => True) (print v.text) (print w.text) := by
  intro s t h
  refine .inr (.ok trivial ⟨h.scopes, ?_⟩)
  change s.printed ++ [v.text] = t.printed ++ [w.text]
  rw [h.printed, hValue.text_eq]

/-- The same name is bound in the same scope. -/
theorem bind_approximates (hValue : Value.Regrouped v w) (env : ScopeId) (name : Name) :
    Approximates (fun _ _ => True) (bind env name v) (bind env name w) :=
  fun _ _ h => .inr (.ok trivial ⟨h.scopes.write hValue env name, h.printed⟩)

theorem declare_approximates (hValue : Value.Regrouped v w) (env : ScopeId) (name : Name)
    (span : Span) :
    Approximates (fun _ _ => True) (declare env name v span) (declare env name w span) := by
  intro s t h
  rw [declare_eq, declare_eq]
  rcases Eval.rel_cases (h.scopes.lookup? env name) with
    ⟨hOurs, hTheirs⟩ | ⟨a, b, hOurs, hTheirs, -⟩
  · simp only [hOurs, hTheirs, Option.isSome_none, Bool.false_eq_true, if_false]
    exact bind_approximates hValue env name s t h
  · simp only [hOurs, hTheirs, Option.isSome_some, if_true]
    exact Approximates.fail _ span span s t h

theorem assign_approximates (hValue : Value.Regrouped v w) (env : ScopeId) (name : Name) :
    Approximates (fun _ _ => True) (assign env name v) (assign env name w) := by
  intro s t h
  rw [assign_eq, assign_eq, h.scopes.target_eq env name]
  exact bind_approximates hValue _ name s t h

theorem enclose_approximates (outer : ScopeId) :
    Approximates (· = ·) (enclose outer) (enclose outer) :=
  fun _ _ h => .inr (.ok h.scopes.size ⟨h.scopes.enclose outer, h.printed⟩)

theorem bindParams_approximates (hArgs : List.Forall₂ Value.Regrouped args args') (env : ScopeId)
    (span : Span) (names : List Name) :
    Approximates (fun _ _ => True) (bindParams env span names args)
      (bindParams env span names args') := by
  induction names generalizing args args' with
  | nil => exact .pure trivial
  | cons name names ih =>
    obtain ⟨hHead, hTail⟩ := forall₂_head_tail hArgs .null
    exact (declare_approximates hHead env name span).bind fun _ _ _ => ih hTail

/-! ## Constructs -/

theorem truth_approximates (hValue : Value.Regrouped v w) (span span' : Span) :
    Approximates (· = ·) (truth span v) (truth span' w) := by
  cases hValue with
  | bool b => exact .pure rfl
  | _ => exact .fail _ span span'

theorem operate_approximates (hLeft : Value.Regrouped v w) (hRight : Value.Regrouped v' w')
    (op : Operator) (span : Span) :
    Approximates Value.Regrouped (operate op span v v') (operate op span w w') := by
  cases hLeft with
  | int a =>
    cases hRight with
    | int b =>
      simp only [operate]
      cases op.applyInt a b with
      | ok result => exact .pure (.ofOperation result)
      | error cause => exact .fail cause span span
    | _ => exact .fail _ span span
  | _ => cases hRight <;> exact .fail _ span span

theorem branch_approximates
    {condition condition' consequent consequent' other other' : Effect Value}
    (hCondition : Approximates Value.Regrouped condition condition')
    (hConsequent : Approximates Value.Regrouped consequent consequent')
    (hOther : Approximates Value.Regrouped other other') (span span' : Span) :
    Approximates Value.Regrouped
      (do if ← truth span (← condition) then consequent else other)
      (do if ← truth span' (← condition') then consequent' else other') := by
  refine hCondition.bind fun v w hValue => (truth_approximates hValue span span').bind ?_
  rintro b _ rfl
  cases b with
  | true => exact hConsequent
  | false => exact hOther

/-- A loop may be given more fuel than it needs. -/
theorem repeatWhile_approximates {condition condition' : Effect Bool} {body body' : Effect Value}
    (hCondition : Approximates (· = ·) condition condition')
    (hBody : Approximates Value.Regrouped body body') {fuel fuel' : Nat} (hFuel : fuel ≤ fuel')
    (hLast : Value.Regrouped v w) :
    Approximates Value.Regrouped (repeatWhile condition body fuel v)
      (repeatWhile condition' body' fuel' w) := by
  induction fuel generalizing fuel' v w with
  | zero => exact .spent
  | succ fuel ih =>
    obtain ⟨rest, rfl⟩ : ∃ rest, fuel' = rest + 1 := ⟨fuel' - 1, by omega⟩
    refine hCondition.bind ?_
    rintro b _ rfl
    cases b with
    | true => exact hBody.bind fun v w hValue => ih (by omega) hValue
    | false => exact .pure hLast

theorem arguments_approximates {trees trees' : List Tree} {x y : Tree → Effect Value}
    (h : List.Forall₂ (fun a b => Approximates Value.Regrouped (x a) (y b)) trees trees') :
    Approximates (List.Forall₂ Value.Regrouped) (trees.mapM x) (trees'.mapM y) := by
  induction h with
  | nil => exact .pure .nil
  | cons hHead _ ih =>
    rw [List.mapM_cons, List.mapM_cons]
    exact hHead.bind fun v w hValue => ih.bind fun vs ws hRest => .pure (.cons hValue hRest)

theorem apply_approximates {body body' : ScopeId → Effect Value}
    (hArgs : List.Forall₂ Value.Regrouped args args')
    (hBody : ∀ env, Approximates Value.Regrouped (body env) (body' env)) (o : Options)
    (depth : Nat) (params : List Name) (scope : ScopeId) (span : Span) :
    Approximates Value.Regrouped (apply o depth params scope args span body)
      (apply o depth params scope args' span body') := by
  unfold apply
  rw [hArgs.length_eq]
  by_cases hDepth : o.maxDepth ≤ depth
  · rw [if_pos hDepth, if_pos hDepth]
    exact .fail _ span span
  rw [if_neg hDepth, if_neg hDepth]
  by_cases hArity : o.policy = .strict ∧ args'.length < params.length
  · rw [if_pos hArity, if_pos hArity]
    exact .fail _ span span
  rw [if_neg hArity, if_neg hArity]
  refine (enclose_approximates scope).bind ?_
  rintro env _ rfl
  exact (bindParams_approximates hArgs env span params).bind fun _ _ _ => hBody env

/-! ## Trees -/

section

variable {o : Options} {depth : Nat} {env : ScopeId} {a b : Tree}

theorem evaluate_sequence (fuel : Nat) (span : Span) :
    evaluate o (fuel + 1) depth (.sequence span a b) env =
      (evaluate o fuel depth a env >>= fun _ => evaluate o fuel depth b env) :=
  rfl

/-- A sequence is followed part by part, with however little fuel its parts are left. -/
theorem sequence_approximates {x y : Effect Value} {fuel : Nat} (span : Span)
    (hFirst : ∀ n < fuel, Approximates Value.Regrouped (evaluate o n depth a env) x)
    (hSecond : ∀ n < fuel, Approximates Value.Regrouped (evaluate o n depth b env) y) :
    Approximates Value.Regrouped (evaluate o fuel depth (.sequence span a b) env)
      (x >>= fun _ => y) := by
  cases fuel with
  | zero => exact .spent
  | succ n => exact (hFirst n (by omega)).bind fun _ _ _ => hSecond n (by omega)

/-- One level of evaluation, where the parts have enough fuel even if they are one level deeper. -/
theorem level_approximates {fuel more : Nat} (hMore : 2 * fuel < more)
    (hBelow : ∀ {n m depth env a b}, n ≤ fuel → 2 * fuel ≤ m → Tree.Regrouped a b →
      Approximates Value.Regrouped (evaluate o n depth a env) (evaluate o m depth b env))
    (h : a.Regrouped b) :
    Approximates Value.Regrouped (evaluate o (fuel + 1) depth a env)
      (evaluate o (more + 1) depth b env) := by
  have hPart : ∀ {depth env a b}, Tree.Regrouped a b → Approximates Value.Regrouped
      (evaluate o fuel depth a env) (evaluate o more depth b env) :=
    hBelow (by omega) (by omega)
  cases h with
  | int span value => exact .pure (.int value)
  | bool span value => exact .pure (.bool value)
  | null span => exact .pure .null
  | ref span name => exact resolve_approximates env name
  | print hArgument =>
    exact (hPart hArgument).bind fun v w hValue =>
      (print_approximates hValue).bind fun _ _ _ => .pure hValue
  | binary hLeft hRight =>
    exact (hPart hLeft).bind fun v w hValue => (hPart hRight).bind fun v' w' hValue' =>
      operate_approximates hValue hValue' _ _
  | branch hCondition hConsequent =>
    exact branch_approximates (hPart hCondition) (hPart hConsequent) (.pure .null) _ _
  | branchElse hCondition hConsequent hAlternative =>
    exact branch_approximates (hPart hCondition) (hPart hConsequent) (hPart hAlternative) _ _
  | loop hCondition hBody =>
    refine repeatWhile_approximates ?_ (hPart hBody) (by omega) .null
    exact (hPart hCondition).bind fun v w hValue => truth_approximates hValue _ _
  | declare hInit =>
    exact (hPart hInit).bind fun v w hValue =>
      (declare_approximates hValue env _ _).bind fun _ _ _ => .pure hValue
  | assign hSource =>
    exact (hPart hSource).bind fun v w hValue =>
      (assign_approximates hValue env _).bind fun _ _ _ => .pure hValue
  | function hBody => exact .pure (.closure hBody)
  | call hCallee hArgs =>
    refine (hPart hCallee).bind fun v w hValue => ?_
    cases hValue with
    | closure hBody =>
      exact (arguments_approximates (hArgs.imp fun _ _ => hPart)).bind fun vs ws hValues =>
        apply_approximates hValues (fun _ => hPart hBody) o depth _ _ _
    | _ => exact .fail _ _ _
  | sequence hFirst hSecond => exact (hPart hFirst).bind fun _ _ _ => hPart hSecond
  -- Both groupings are the same three effects in a row, but with other depths.
  | toRight hFirst hSecond hThird =>
    obtain ⟨m, rfl⟩ : ∃ m, more = m + 1 := ⟨more - 1, by omega⟩
    rw [evaluate_sequence (m + 1), evaluate_sequence m, ← bind_assoc]
    refine sequence_approximates _ (fun n hLess => ?_) fun n hLess => ?_
    · refine sequence_approximates _ (fun k hInner => ?_) fun k hInner => ?_
      · exact hBelow (by omega) (by omega) hFirst
      · exact hBelow (by omega) (by omega) hSecond
    · exact hBelow (by omega) (by omega) hThird
  | toLeft hFirst hSecond hThird =>
    obtain ⟨m, rfl⟩ : ∃ m, more = m + 1 := ⟨more - 1, by omega⟩
    rw [evaluate_sequence (m + 1), evaluate_sequence m, bind_assoc]
    refine sequence_approximates _ (fun n hLess => ?_) fun n hLess => ?_
    · exact hBelow (by omega) (by omega) hFirst
    · refine sequence_approximates _ (fun k hInner => ?_) fun k hInner => ?_
      · exact hBelow (by omega) (by omega) hSecond
      · exact hBelow (by omega) (by omega) hThird

/-- The evaluation of a tree does what that of a regrouped one does with twice the fuel. -/
theorem evaluate_approximates {fuel fuel' : Nat} (hFuel : 2 * fuel ≤ fuel') (h : a.Regrouped b) :
    Approximates Value.Regrouped (evaluate o fuel depth a env) (evaluate o fuel' depth b env) := by
  induction fuel using Nat.strongRecOn generalizing fuel' depth env a b with
  | ind fuel ih =>
  cases fuel with
  | zero => exact .spent
  | succ fuel =>
  obtain ⟨more, rfl⟩ : ∃ more, fuel' = more + 1 := ⟨fuel' - 1, by omega⟩
  refine level_approximates (by omega) (fun hLess hEnough => ?_) h
  exact ih _ (by omega) (by omega)

end

/-! ## Outcomes -/

/-- What a run shows when it ends: the text of its value or the cause of its error, which has the
kind of the error and all that its message tells, and the lines printed. -/
structure Shown where
  result : Except EvalCause String
  printed : List String
  deriving DecidableEq

def Outcome.shown (w : Outcome) : Shown where
  result := match w.result with
    | .ok value => .ok value.text
    | .error e => .error e.cause
  printed := w.printed

variable {o : Options} {a b : Tree} {w : Outcome}

/-- A tree that is regrouped shows the same, with twice the fuel. -/
theorem outcome?_regrouped {fuel : Nat} (h : a.Regrouped b) (hRun : outcome? o fuel a = some w) :
    ∃ w', outcome? o (2 * fuel) b = some w' ∧ w'.shown = w.shown := by
  have hTrees : Approximates Value.Regrouped (evaluate o fuel 0 a Scopes.global)
      (evaluate o (2 * fuel) 0 b Scopes.global) := evaluate_approximates (Nat.le_refl _) h
  have hResults := hTrees _ _ regrouped_initial
  unfold outcome? at hRun ⊢
  generalize evaluate o fuel 0 a Scopes.global .initial = r at hRun hResults
  generalize evaluate o (2 * fuel) 0 b Scopes.global .initial = r' at hResults ⊢
  rcases hResults with ⟨u, rfl⟩ | hAgree
  · cases hRun
  · cases hAgree with
    | ok hValue hState =>
      cases hRun
      refine ⟨_, rfl, ?_⟩
      simp only [Outcome.shown, hValue.text_eq, hState.printed]
    | error hStop hState =>
      cases hStop with
      | failed hCause =>
        cases hRun
        refine ⟨_, rfl, ?_⟩
        simp only [Outcome.shown, hCause, hState.printed]

/-- A tree shows the same after any number of changes to the grouping of its sequences. -/
theorem ends_regrouped (h : Relation.ReflTransGen Tree.Regrouped a b) (hEnds : Ends o a w) :
    ∃ w', Ends o b w' ∧ w'.shown = w.shown := by
  induction h with
  | refl => exact ⟨w, hEnds, rfl⟩
  | tail _ hLast ih =>
    obtain ⟨w₁, ⟨fuel, hRun⟩, hShown⟩ := ih
    obtain ⟨w₂, hRun', hShown'⟩ := outcome?_regrouped hLast hRun
    exact ⟨w₂, ⟨2 * fuel, hRun'⟩, hShown'.trans hShown⟩

end FeatherScript.Reference

namespace FeatherScript.Eval

/-- What a run shows when it ends. -/
def shown (result : Except EvalError Value) (s : State) : Reference.Shown where
  result := match result with
    | .ok value => .ok value.text
    | .error e => .error e.cause
  printed := s.printed.toList.map Value.text

theorem Leaves.shown_eq {t : NodeTable} {result : Except EvalError Value} {s : State}
    {w : Reference.Outcome} (h : Leaves t result s w) : shown result s = w.shown := by
  obtain ⟨outcome, printed, scopes⟩ := w
  obtain ⟨hResult, hPrinted, -⟩ := h
  cases hResult with
  | ok hMeans => simp only [shown, Reference.Outcome.shown, hMeans.text_eq, hPrinted]
  | error e => simp only [shown, Reference.Outcome.shown, hPrinted]

variable {p q : Program} {a b : Tree} {o : Options} {result result' : Except EvalError Value}
  {s s' : State}

/-- The program of a regrouped tree ends if the other one does, and shows the same. -/
theorem exists_regrouped_run (hTree : p.table.tree? p.root = some a)
    (hTree' : q.table.tree? q.root = some b) (h : Relation.ReflTransGen Tree.Regrouped a b)
    {fuel : Nat} (hRun : p.evaluate o fuel = .ok (result, s)) :
    ∃ fuel' result' s', q.evaluate o fuel' = .ok (result', s') ∧
      shown result' s' = shown result s := by
  rcases evaluate_refines hTree o fuel with ⟨_, _, w, hOurs, hOutcome, hLeaves⟩ | ⟨hNone, -⟩
  · cases hRun.symm.trans hOurs
    obtain ⟨w', hEnds, hShown⟩ := Reference.ends_regrouped h ⟨fuel, hOutcome⟩
    obtain ⟨fuel', result', s', hRun', hLeaves'⟩ := (ends_iff hTree' o w').mpr hEnds
    refine ⟨fuel', result', s', hRun', ?_⟩
    rw [hLeaves'.shown_eq, hShown, hLeaves.shown_eq]
  · cases hRun.symm.trans hNone

/-- Regrouping the sequences of a program, in any number of places and of times, changes neither
whether it ends nor what it shows. -/
theorem regrouped_runs_agree (hTree : p.table.tree? p.root = some a)
    (hTree' : q.table.tree? q.root = some b) (h : Relation.ReflTransGen Tree.Regrouped a b)
    (o : Options) :
    ((∃ fuel result s, p.evaluate o fuel = .ok (result, s)) ↔
      ∃ fuel result s, q.evaluate o fuel = .ok (result, s)) ∧
    ∀ {fuel fuel' result result' s s'}, p.evaluate o fuel = .ok (result, s) →
      q.evaluate o fuel' = .ok (result', s') → shown result s = shown result' s' := by
  have hBack : Relation.ReflTransGen Tree.Regrouped b a := Std.Symm.symm _ _ h
  refine ⟨⟨?_, ?_⟩, ?_⟩
  · rintro ⟨fuel, result, s, hRun⟩
    obtain ⟨fuel', result', s', hRun', -⟩ := exists_regrouped_run hTree hTree' h hRun
    exact ⟨fuel', result', s', hRun'⟩
  · rintro ⟨fuel, result, s, hRun⟩
    obtain ⟨fuel', result', s', hRun', -⟩ := exists_regrouped_run hTree' hTree hBack hRun
    exact ⟨fuel', result', s', hRun'⟩
  · intro fuel fuel' result result' s s' hRun hRun'
    obtain ⟨fuel₁, result₁, s₁, hRun₁, hShown⟩ := exists_regrouped_run hTree hTree' h hRun
    -- Whatever the fuel, a program ends in one way.
    obtain ⟨rfl, rfl⟩ := Settles.unique ⟨fuel₁, hRun₁⟩ ⟨fuel', hRun'⟩
    exact hShown.symm

/-- `f = function() { print(1); 2; 3; }; f();` with two nodes left open, of which the second is the
body of the function. -/
def printingFunction (inner outer : Node) : Program where
  table := ⟨#[⟨.int 1, ⟨23, 24⟩⟩, ⟨.print 0, ⟨17, 25⟩⟩, ⟨.int 2, ⟨27, 28⟩⟩, ⟨.int 3, ⟨30, 31⟩⟩,
    inner, outer, ⟨.function ⟨0, 0⟩ 5, ⟨4, 34⟩⟩, ⟨.assign ⟨1⟩ 6, ⟨0, 34⟩⟩, ⟨.ref ⟨1⟩, ⟨36, 37⟩⟩,
    ⟨.call 8 ⟨0, 0⟩, ⟨36, 39⟩⟩, ⟨.sequence 7 9, ⟨0, 39⟩⟩], #[], #[]⟩
  root := 10
  names := .initial

/-- The program as it is read, with the first two statements of the body in a sequence. -/
def groupedLeft : Program := printingFunction ⟨.sequence 1 2, ⟨17, 28⟩⟩ ⟨.sequence 4 3, ⟨17, 31⟩⟩

/-- The program with the last two statements of the body in a sequence. -/
def groupedRight : Program := printingFunction ⟨.sequence 2 3, ⟨27, 31⟩⟩ ⟨.sequence 1 4, ⟨17, 31⟩⟩

/-- The tree of either program, around the body of the function. -/
def printingFunctionTree (body : Tree) : Tree :=
  .sequence ⟨0, 39⟩ (.assign ⟨0, 34⟩ ⟨1⟩ (.function ⟨4, 34⟩ [] body))
    (.call ⟨36, 39⟩ (.ref ⟨36, 37⟩ ⟨1⟩) [])

/-- The state in which both end, with the function under the same number. -/
def afterPrinting : State :=
  ⟨⟨#[⟨[(⟨1⟩, .closure ⟨0, ⟨0, 0⟩, 5, Scopes.global⟩)], none⟩, ⟨[], some 0⟩]⟩, #[.int 1], 1, 0⟩

theorem regrouped_runs_agree_printingFunction :
    groupedLeft.evaluate .default 7 = .ok (.ok (.int 3), afterPrinting) ∧
    groupedRight.evaluate .default 7 = .ok (.ok (.int 3), afterPrinting) ∧
    ∀ {fuel result s}, groupedRight.evaluate .default fuel = .ok (result, s) →
      shown result s = ⟨.ok "3", ["1"]⟩ := by
  have hLeft : groupedLeft.table.tree? groupedLeft.root = some (printingFunctionTree
      (.sequence ⟨17, 31⟩ (.sequence ⟨17, 28⟩ (.print ⟨17, 25⟩ (.int ⟨23, 24⟩ 1)) (.int ⟨27, 28⟩ 2))
        (.int ⟨30, 31⟩ 3))) := by cbv
  have hRight : groupedRight.table.tree? groupedRight.root = some (printingFunctionTree
      (.sequence ⟨17, 31⟩ (.print ⟨17, 25⟩ (.int ⟨23, 24⟩ 1))
        (.sequence ⟨27, 31⟩ (.int ⟨27, 28⟩ 2) (.int ⟨30, 31⟩ 3)))) := by cbv
  have hRun : groupedLeft.evaluate .default 7 = .ok (.ok (.int 3), afterPrinting) := by
    decide +kernel
  have hRun' : groupedRight.evaluate .default 7 = .ok (.ok (.int 3), afterPrinting) := by
    decide +kernel
  have hShown : shown (.ok (.int 3)) afterPrinting = ⟨.ok "3", ["1"]⟩ := by decide +kernel
  obtain ⟨-, hAgree⟩ := regrouped_runs_agree hLeft hRight (.single (.sequence (.assign (.function
    (.toRight (.refl _) (.refl _) (.refl _)))) (.refl _))) .default
  exact ⟨hRun, hRun', fun hEnds => (hAgree hRun hEnds).symm.trans hShown⟩

end FeatherScript.Eval
