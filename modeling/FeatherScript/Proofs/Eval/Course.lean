import FeatherScript.Proofs.Eval.Failure
import FeatherScript.Proofs.Eval.Coupling

/-!
# The course of an evaluation

The evaluation of a node starts others one after the other, each from the state in which the one
before it has ended. Which they are depends on the values that come up on the way, and an error
breaks the course off. An evaluation whose fuel is not spent has on its course all moments that it
starts, and no others.

* `Course`, `Moment.course`: the moments that one evaluation starts, in their order.
* `starts_of_mem_course`, `mem_course_of_starts`: what is on a course.
-/

namespace FeatherScript.Eval

open Effect

/-! ## Courses -/

/-- The moments that are started one after the other, from a state on. -/
abbrev Course : Type := State → List Moment

/-- No moments. -/
def Course.done : Course := fun _ => []

/-- Checks the application of a closure and binds its parameters, in a scope for its body. -/
def enter (cfg : Setting) (c : Closure) (args : List Value) (span : Span) : Effect ScopeId := do
  let params ← permit cfg c args.length span
  let env ← onScopes (·.enclose c.scope)
  bindParams env (some span) params args
  return env

section

variable (cfg : Setting) (fuel : Nat) (env : ScopeId)

/-- Starts a node, and goes on from its value if it has one. -/
def operandCourse (id : NodeId) (next : Value → Course) : Course := fun s =>
  ⟨fuel, id, env, s⟩ :: match eval cfg fuel id env s with
    | .ok v t => next v t
    | .error _ _ => []

def conditionCourse (id : NodeId) (next : Bool → Course) : Course :=
  operandCourse cfg fuel env id fun
    | .bool truth => next truth
    | _ => .done

def loopCourse (condition body : NodeId) : Nat → Course
  | 0 => .done
  | n + 1 => conditionCourse cfg fuel env condition fun more =>
    if more then operandCourse cfg fuel env body fun _ => loopCourse condition body n else .done

def argumentsCourse (next : List Value → Course) : List NodeId → Course
  | [] => next []
  | id :: ids => operandCourse cfg fuel env id fun v =>
    argumentsCourse (fun vs => next (v :: vs)) ids

/-- Starts the body of a closure, if it can be entered. -/
def bodyCourse (c : Closure) (args : List Value) (span : Span) : Course := fun s =>
  match enter cfg c args span s with
  | .ok env t => [⟨fuel, c.body, env, { t with depth := t.depth + 1 }⟩]
  | .error _ _ => []

def nodeCourse (n : Node) : Course :=
  match n.form with
  | .int _ | .bool _ | .null | .ref _ | .function .. => .done
  | .print a | .declare _ a | .assign _ a => operandCourse cfg fuel env a fun _ => .done
  | .binary _ a b | .sequence a b =>
    operandCourse cfg fuel env a fun _ => operandCourse cfg fuel env b fun _ => .done
  | .branch c a b => conditionCourse cfg fuel env c fun holds =>
    if holds then operandCourse cfg fuel env a fun _ => .done
    else b.elim .done fun other => operandCourse cfg fuel env other fun _ => .done
  | .loop c b => loopCourse cfg fuel env c b fuel
  | .call f args => operandCourse cfg fuel env f fun
    | .closure c =>
      (cfg.table.args? args).elim .done <|
        argumentsCourse cfg fuel env fun values => bodyCourse cfg fuel c values n.span
    | _ => .done

end

/-- The moments that an evaluation starts, in their order. -/
def Moment.course (cfg : Setting) (m : Moment) : List Moment :=
  match m.fuel with
  | 0 => []
  | fuel + 1 => (cfg.table.node? m.node).elim [] fun n => nodeCourse cfg fuel m.env n m.state

variable {cfg : Setting} {fuel : Nat} {env : ScopeId} {id : NodeId} {s t u : State} {m m' : Moment}
  {next : Value → Course} {c : Closure} {args : List Value} {span : Span}

theorem course_of_node {n : Node} (hNode : cfg.table.node? id = some n) :
    Moment.course cfg ⟨fuel + 1, id, env, s⟩ = nodeCourse cfg fuel env n s := by
  unfold Moment.course
  rw [hNode]
  rfl

theorem mem_operandCourse : m ∈ operandCourse cfg fuel env id next s ↔
    m = ⟨fuel, id, env, s⟩ ∨ ∃ v t, eval cfg fuel id env s = .ok v t ∧ m ∈ next v t := by
  unfold operandCourse
  rw [List.mem_cons]
  cases eval cfg fuel id env s <;> simp

theorem mem_lastOperand :
    m ∈ operandCourse cfg fuel env id (fun _ => .done) s ↔ m = ⟨fuel, id, env, s⟩ := by
  rw [mem_operandCourse]
  exact or_iff_left fun ⟨_, _, _, hMem⟩ => List.not_mem_nil hMem

theorem mem_conditionCourse {next : Bool → Course} : m ∈ conditionCourse cfg fuel env id next s ↔
    m = ⟨fuel, id, env, s⟩ ∨
      ∃ truth t, eval cfg fuel id env s = .ok (.bool truth) t ∧ m ∈ next truth t := by
  refine mem_operandCourse.trans (or_congr_right ⟨?_, ?_⟩)
  · rintro ⟨v, t, hValue, hMem⟩
    cases v with
    | bool truth => exact ⟨truth, t, hValue, hMem⟩
    | _ => cases hMem
  · rintro ⟨truth, t, hValue, hMem⟩
    exact ⟨.bool truth, t, hValue, hMem⟩

theorem operandCourse_of_ok {v : Value} (h : eval cfg fuel id env s = .ok v t) :
    operandCourse cfg fuel env id next s = ⟨fuel, id, env, s⟩ :: next v t := by
  unfold operandCourse
  rw [h]

theorem applyWith_eq_enter (cfg : Setting) (ev : Evaluator) (c : Closure) (args : List Value)
    (span : Span) :
    applyWith cfg ev c args span
      = enter cfg c args span >>= fun env => entered (ev c.body env) := by
  rw [applyWith_eq_permit]
  simp only [enter, bind_assoc, pure_bind]

/-- A body is entered if its closure passes the checks of an application and its parameters are
bound. -/
theorem mem_bodyCourse :
    m ∈ bodyCourse cfg fuel c args span s ↔ Enters cfg fuel c args span s m := by
  constructor
  · intro hMem
    unfold bodyCourse at hMem
    split at hMem
    · next env t hEnter =>
      obtain rfl := List.mem_singleton.mp hMem
      obtain ⟨params, u, hPassed, hEnter⟩ := exists_of_bind_ok hEnter
      rw [permit_eq] at hPassed
      split at hPassed
      · cases hPassed
      split at hPassed
      · cases hPassed
      split at hPassed
      · cases hPassed
      cases hPassed
      obtain ⟨_, v, hMade, hEnter⟩ := exists_of_bind_ok hEnter
      cases hMade
      obtain ⟨_, w, hBind, hEnter⟩ := exists_of_bind_ok hEnter
      cases hEnter
      exact .body (Nat.lt_of_not_le ‹_›) ‹_› ‹_› hBind
    · cases hMem
  · rintro (@⟨params, t, hDepth, hParams, hArity, hBind⟩)
    have hPassed : permit cfg c args.length span s = .ok params s := by
      rw [permit_eq, if_neg (Nat.not_le_of_lt hDepth), hParams]
      exact if_neg hArity
    have hEnter : enter cfg c args span s = .ok s.scopes.all.size t :=
      (bind_of_ok hPassed).trans (bind_of_ok hBind)
    unfold bodyCourse
    rw [hEnter]
    exact List.mem_singleton_self _

theorem mem_loopCourse {condition body : NodeId} {r : State} {n : Nat}
    (hTurns : Turns (eval cfg fuel) condition body env r s)
    (hMem : m ∈ loopCourse cfg fuel env condition body n s) :
    ∃ t, Turns (eval cfg fuel) condition body env r t ∧ (m = ⟨fuel, condition, env, t⟩ ∨
      ∃ u, eval cfg fuel condition env t = .ok (.bool true) u ∧ m = ⟨fuel, body, env, u⟩) := by
  induction n generalizing s with
  | zero => cases hMem
  | succ n ih =>
    rcases mem_conditionCourse.mp hMem with rfl | ⟨more, u, hTest, hMem⟩
    · exact ⟨s, hTurns, .inl rfl⟩
    · cases more with
      | false => cases hMem
      | true =>
        rcases mem_operandCourse.mp hMem with rfl | ⟨v, w, hBody, hMem⟩
        · exact ⟨s, hTurns, .inr ⟨u, hTest, rfl⟩⟩
        · exact ih (hTurns.next hTest hBody) hMem

theorem mem_argumentsCourse {next : List Value → Course} {ids : List NodeId}
    (hMem : m ∈ argumentsCourse cfg fuel env next ids s) :
    (∃ before arg rest values u, ids = before ++ arg :: rest ∧
      argumentsWith (eval cfg fuel) env before s = .ok values u ∧ m = ⟨fuel, arg, env, u⟩) ∨
    ∃ values u, argumentsWith (eval cfg fuel) env ids s = .ok values u ∧ m ∈ next values u := by
  induction ids generalizing s next with
  | nil => exact .inr ⟨[], s, rfl, hMem⟩
  | cons id ids ih =>
    rcases mem_operandCourse.mp hMem with rfl | ⟨v, u, hValue, hMem⟩
    · exact .inl ⟨[], id, ids, [], s, rfl, rfl, rfl⟩
    · rcases ih hMem with
        ⟨before, arg, rest, values, w, rfl, hBefore, rfl⟩ | ⟨values, w, hAll, hMem⟩
      · refine .inl ⟨id :: before, arg, rest, v :: values, w, rfl, ?_, rfl⟩
        exact (bind_of_ok hValue).trans (bind_of_ok hBefore)
      · exact .inr ⟨v :: values, w, (bind_of_ok hValue).trans (bind_of_ok hAll), hMem⟩

/-- What is on the course of an evaluation is started by it. -/
theorem starts_of_mem_course (hMem : m' ∈ m.course cfg) : Starts cfg m m' := by
  obtain ⟨fuel, id, env, s⟩ := m
  cases fuel with
  | zero => cases hMem
  | succ fuel =>
    cases hNode : cfg.table.node? id with
    | none =>
      rw [Moment.course, hNode] at hMem
      cases hMem
    | some n =>
      rw [course_of_node hNode] at hMem
      obtain ⟨form, span⟩ := n
      cases form with
      | int | bool | null | ref | function => cases hMem
      | print a =>
        obtain rfl := mem_lastOperand.mp hMem
        exact .inside (.printed hNode)
      | declare name a =>
        obtain rfl := mem_lastOperand.mp hMem
        exact .inside (.declared hNode)
      | assign name a =>
        obtain rfl := mem_lastOperand.mp hMem
        exact .inside (.assigned hNode)
      | binary op a b =>
        rcases mem_operandCourse.mp hMem with rfl | ⟨v, t, hLeft, hMem⟩
        · exact .inside (.left hNode)
        obtain rfl := mem_lastOperand.mp hMem
        exact .inside (.right hNode hLeft)
      | sequence a b =>
        rcases mem_operandCourse.mp hMem with rfl | ⟨v, t, hFirst, hMem⟩
        · exact .inside (.first hNode)
        obtain rfl := mem_lastOperand.mp hMem
        exact .inside (.second hNode hFirst)
      | branch c a b =>
        rcases mem_conditionCourse.mp hMem with rfl | ⟨holds, t, hTest, hMem⟩
        · exact .inside (.condition hNode)
        cases holds with
        | true =>
          obtain rfl := mem_lastOperand.mp hMem
          exact .inside (.consequent hNode hTest)
        | false =>
          cases b with
          | none => cases hMem
          | some b =>
            obtain rfl := mem_lastOperand.mp hMem
            exact .inside (.alternative hNode hTest)
      | loop c b =>
        obtain ⟨t, hTurns, rfl | ⟨u, hTest, rfl⟩⟩ := mem_loopCourse .start hMem
        · exact .inside (.test hNode hTurns)
        · exact .inside (.body hNode hTurns hTest)
      | call f args =>
        rcases mem_operandCourse.mp hMem with rfl | ⟨v, t, hCallee, hMem⟩
        · exact .inside (.callee hNode)
        cases v with
        | closure c =>
          dsimp only at hMem
          cases hArgs : cfg.table.args? args with
          | none =>
            rw [hArgs] at hMem
            cases hMem
          | some ids =>
            rw [hArgs] at hMem
            rcases mem_argumentsCourse hMem with
              ⟨before, arg, rest, values, u, rfl, hBefore, rfl⟩ | ⟨values, u, hValues, hMem⟩
            · exact .inside (.argument hNode hCallee hArgs hBefore)
            · exact .applies (.call hNode hCallee hArgs hValues (mem_bodyCourse.mp hMem))
        | _ => cases hMem

/-! ## Nothing is left out -/

/-- The evaluation from a moment runs out of fuel. -/
def Moment.Spent (cfg : Setting) (m : Moment) : Prop :=
  ∃ t, m.outcome cfg = .error (.fault .outOfFuel) t

/-- What follows the first arguments on a course. -/
theorem suffix_argumentsCourse (next : List Value → Course) {before : List NodeId}
    {values : List Value} (h : argumentsWith (eval cfg fuel) env before s = .ok values t)
    (rest : List NodeId) :
    argumentsCourse cfg fuel env (fun vs => next (values ++ vs)) rest t <:+
      argumentsCourse cfg fuel env next (before ++ rest) s := by
  induction before generalizing s values next with
  | nil =>
    cases h
    exact List.suffix_rfl
  | cons id before ih =>
    obtain ⟨v, u, hFirst, h⟩ := exists_of_bind_ok h
    obtain ⟨vs, w, hMore, h⟩ := exists_of_bind_ok h
    cases h
    rw [List.cons_append, argumentsCourse, operandCourse_of_ok hFirst]
    exact (ih (fun vs => next (v :: vs)) hMore).trans (List.suffix_cons _ _)

theorem argument_mem_course (next : List Value → Course) {before : List NodeId}
    {values : List Value} (h : argumentsWith (eval cfg fuel) env before s = .ok values t)
    (arg : NodeId) (rest : List NodeId) :
    ⟨fuel, arg, env, t⟩ ∈ argumentsCourse cfg fuel env next (before ++ arg :: rest) s :=
  (suffix_argumentsCourse next h (arg :: rest)).mem List.mem_cons_self

theorem body_mem_course {ids : List NodeId} {values : List Value}
    (h : argumentsWith (eval cfg fuel) env ids s = .ok values t)
    (hEnters : Enters cfg fuel c values span t m) :
    m ∈ argumentsCourse cfg fuel env (fun vs => bodyCourse cfg fuel c vs span) ids s := by
  have hSuffix := suffix_argumentsCourse (fun vs => bodyCourse cfg fuel c vs span) h []
  rw [List.append_nil, argumentsCourse, List.append_nil] at hSuffix
  exact hSuffix.mem (mem_bodyCourse.mpr hEnters)

/-- A loop comes to every test that is on its way, if its fuel is not spent before. -/
theorem suffix_loopCourse {condition body : NodeId}
    (hTurns : Turns (eval cfg fuel) condition body env s t) (n : Nat) (last : Value) :
    (∃ k v, loopWith (conditionWith cfg (eval cfg fuel) condition env) (eval cfg fuel body env) n
          last s
        = loopWith (conditionWith cfg (eval cfg fuel) condition env) (eval cfg fuel body env)
          (k + 1) v t ∧
      loopCourse cfg fuel env condition body (k + 1) t <:+
        loopCourse cfg fuel env condition body n s) ∨
    ∃ u, loopWith (conditionWith cfg (eval cfg fuel) condition env) (eval cfg fuel body env) n
        last s
      = .error (.fault .outOfFuel) u := by
  induction hTurns with
  | start =>
    cases n with
    | zero => exact .inr ⟨s, rfl⟩
    | succ n => exact .inl ⟨n, last, rfl, List.suffix_rfl⟩
  | @next t u v value _ hTest hBody ih =>
    rcases ih with ⟨k, w, hRest, hSuffix⟩ | hSpent
    · have hStep : loopWith (conditionWith cfg (eval cfg fuel) condition env)
            (eval cfg fuel body env) (k + 1) w t
          = loopWith (conditionWith cfg (eval cfg fuel) condition env) (eval cfg fuel body env) k
            value v :=
        (bind_of_ok (conditionWith_of_bool hTest)).trans (bind_of_ok hBody)
      have hCourse : loopCourse cfg fuel env condition body k v <:+
          loopCourse cfg fuel env condition body (k + 1) t := by
        rw [loopCourse, conditionCourse, operandCourse_of_ok hTest]
        dsimp only
        rw [if_pos rfl, operandCourse_of_ok hBody]
        exact (List.suffix_cons _ _).trans (List.suffix_cons _ _)
      cases k with
      | zero => exact .inr ⟨v, hRest.trans hStep⟩
      | succ k => exact .inl ⟨k, value, hRest.trans hStep, hCourse.trans hSuffix⟩
    · exact .inr hSpent

/-- An evaluation whose fuel is not spent has on its course what it starts. -/
theorem mem_course_of_starts (h : Starts cfg m m') (hNotSpent : ¬ m.Spent cfg) :
    m' ∈ m.course cfg := by
  have hTests : ∀ {fuel id env s condition body span t},
      cfg.table.node? id = some ⟨.loop condition body, span⟩ →
      m = ⟨fuel + 1, id, env, s⟩ → Turns (eval cfg fuel) condition body env s t →
      ∃ k, loopCourse cfg fuel env condition body (k + 1) t <:+ m.course cfg := by
    rintro fuel id env s condition body span t hNode rfl hTurns
    rw [course_of_node hNode]
    rcases suffix_loopCourse hTurns fuel .null with ⟨k, -, -, hSuffix⟩ | ⟨u, hOut⟩
    · exact ⟨k, hSuffix⟩
    · exact absurd ⟨u, (bind_of_ok (found_of_some hNode)).trans hOut⟩ hNotSpent
  cases h with
  | inside hInside =>
    cases hInside with
    | printed hNode | declared hNode | assigned hNode | left hNode | first hNode | condition hNode
    | callee hNode =>
      rw [course_of_node hNode]
      exact List.mem_cons_self
    | right hNode hFirst | second hNode hFirst | consequent hNode hFirst
    | alternative hNode hFirst =>
      rw [course_of_node hNode]
      exact mem_operandCourse.mpr (.inr ⟨_, _, hFirst, List.mem_cons_self⟩)
    | test hNode hTurns =>
      obtain ⟨k, hSuffix⟩ := hTests hNode rfl hTurns
      exact hSuffix.mem List.mem_cons_self
    | body hNode hTurns hTest =>
      obtain ⟨k, hSuffix⟩ := hTests hNode rfl hTurns
      exact hSuffix.mem (mem_operandCourse.mpr (.inr ⟨_, _, hTest, List.mem_cons_self⟩))
    | argument hNode hCallee hArgs hBefore =>
      rw [course_of_node hNode]
      refine mem_operandCourse.mpr (.inr ⟨_, _, hCallee, ?_⟩)
      dsimp only
      rw [hArgs, Option.elim_some]
      exact argument_mem_course _ hBefore _ _
  | applies hApplies =>
    cases hApplies with
    | call hNode hCallee hArgs hValues hEnters =>
      rw [course_of_node hNode]
      refine mem_operandCourse.mpr (.inr ⟨_, _, hCallee, ?_⟩)
      dsimp only
      rw [hArgs, Option.elim_some]
      exact body_mem_course hValues hEnters

end FeatherScript.Eval
