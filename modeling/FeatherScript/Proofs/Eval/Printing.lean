import FeatherScript.Proofs.Eval.Course
import FeatherScript.Proofs.Eval.Lockstep

/-!
# The values that a run prints

A print prints the value of its operand when that has been evaluated, after all that the operand has
printed itself. So the executions of prints in a run stand in an order, that of the moments which
the run visits. What a run leaves printed are their values, one for each execution, also if the run
ends with an error.

* `Printing`, `Moment.printings`: the executions of prints in a run, in their order.
* `Moment.mem_printings_iff`: they are at the moments that the run visits.
* `Moment.records`: each of them finds printed what those before it print, and nothing else is
  printed.
-/

namespace FeatherScript.Eval

open Effect

variable {cfg : Setting} {fuel : Nat} {env : ScopeId} {id : NodeId} {s t u : State} {m m' : Moment}
  {next : Value → Course} {c : Closure} {args : List Value} {span : Span}

/-! ## Executions of prints -/

/-- An execution of a print: the moment at which the evaluation of its node starts, the value of its
operand, and the state in which that value is printed. -/
structure Printing where
  moment : Moment
  value : Value
  state : State

/-- The node of the moment is a print, whose operand evaluates to the value. -/
inductive Printing.Occurs (cfg : Setting) : Printing → Prop
  | print {fuel id env s span a v t} (hNode : cfg.table.node? id = some ⟨.print a, span⟩)
      (hOperand : eval cfg fuel a env s = .ok v t) : Occurs cfg ⟨⟨fuel + 1, id, env, s⟩, v, t⟩

/-- The execution of a print that an evaluation is itself, if it is one and its operand has a
value. -/
def Moment.own (cfg : Setting) (m : Moment) : List Printing :=
  match m.fuel, cfg.table.node? m.node with
  | fuel + 1, some ⟨.print a, _⟩ =>
    match eval cfg fuel a m.env m.state with
    | .ok v t => [⟨m, v, t⟩]
    | .error _ _ => []
  | _, _ => []

/-- The executions of prints in an evaluation and those that it starts, down to some level. -/
def printingsWithin (cfg : Setting) : Nat → Moment → List Printing
  | 0, _ => []
  | level + 1, m => (m.course cfg).flatMap (printingsWithin cfg level) ++ m.own cfg

/-- The executions of prints in a run, in their order: a print prints after all that its operand
prints. -/
def Moment.printings (cfg : Setting) (m : Moment) : List Printing := printingsWithin cfg m.fuel m

theorem own_of_ok {a : NodeId} {v : Value} (hNode : cfg.table.node? id = some ⟨.print a, span⟩)
    (hOperand : eval cfg fuel a env s = .ok v t) :
    Moment.own cfg ⟨fuel + 1, id, env, s⟩ = [⟨⟨fuel + 1, id, env, s⟩, v, t⟩] := by
  unfold Moment.own
  dsimp only
  rw [hNode]
  dsimp only
  rw [hOperand]

theorem own_of_not_print {n : Node} (hNode : cfg.table.node? m.node = some n)
    (hOther : ∀ a, n.form ≠ .print a) : m.own cfg = [] := by
  unfold Moment.own
  split
  · next hPrint =>
    cases hNode.symm.trans hPrint
    exact absurd rfl (hOther _)
  · rfl

theorem mem_own {e : Printing} : e ∈ m.own cfg ↔ e.moment = m ∧ e.Occurs cfg := by
  constructor
  · intro hMem
    obtain ⟨fuel, id, env, s⟩ := m
    unfold Moment.own at hMem
    split at hMem
    · next fuel' a span hFuel hNode =>
      obtain rfl : fuel = fuel' + 1 := hFuel
      split at hMem
      · next v t hOperand =>
        obtain rfl := List.mem_singleton.mp hMem
        exact ⟨rfl, .print hNode hOperand⟩
      · cases hMem
    · cases hMem
  · rintro ⟨rfl, hNode, hOperand⟩
    rw [own_of_ok hNode hOperand]
    exact List.mem_singleton_self _

theorem fuel_of_mem_course (h : m' ∈ m.course cfg) : m.fuel = m'.fuel + 1 := by
  cases starts_of_mem_course h with
  | inside hInside => exact hInside.fuel_eq
  | applies hApplies =>
    cases hApplies with
    | call _ _ _ _ hEnters => exact congrArg (· + 1) hEnters.fuel_eq.symm

/-- The executions in a run are those in the evaluations that it starts, one after the other, and
then its own. -/
theorem Moment.printings_eq (m : Moment) :
    m.printings cfg = (m.course cfg).flatMap (Moment.printings cfg) ++ m.own cfg := by
  obtain ⟨fuel, id, env, s⟩ := m
  unfold Moment.printings
  cases fuel with
  | zero => rfl
  | succ fuel =>
    rw [printingsWithin]
    congr 1
    refine List.flatMap_congr fun m' hMem => ?_
    rw [Nat.succ.inj (fuel_of_mem_course hMem)]

/-- The executions in a run are at moments that it visits. -/
theorem visits_of_mem_printings {e : Printing} (hMem : e ∈ m.printings cfg) :
    Visits cfg m e.moment ∧ e.Occurs cfg := by
  induction hFuel : m.fuel generalizing m with
  | zero =>
    rw [Moment.printings, hFuel] at hMem
    cases hMem
  | succ n ih =>
    rw [m.printings_eq] at hMem
    rcases List.mem_append.mp hMem with hInside | hOwn
    · obtain ⟨m', hCourse, hMem⟩ := List.mem_flatMap.mp hInside
      have hLess : m'.fuel = n := Nat.succ.inj ((fuel_of_mem_course hCourse).symm.trans hFuel)
      obtain ⟨hVisits, hOccurs⟩ := ih hMem hLess
      exact ⟨(Visits.start.next (starts_of_mem_course hCourse)).trans hVisits, hOccurs⟩
    · obtain ⟨rfl, hOccurs⟩ := mem_own.mp hOwn
      exact ⟨.start, hOccurs⟩

theorem not_spent_of_starts (h : Starts cfg m m') (hNotSpent : ¬ m.Spent cfg) :
    ¬ m'.Spent cfg := by
  rintro ⟨t, hSpent⟩
  obtain ⟨u, hStop | hStop⟩ := stops_of_starts h hSpent
  all_goals exact hNotSpent ⟨u, hStop⟩

/-- A run whose fuel is not spent has all executions of the evaluations that it visits. -/
theorem printings_of_visits (hVisits : Visits cfg m m') (hNotSpent : ¬ m.Spent cfg) :
    ¬ m'.Spent cfg ∧ m'.printings cfg ⊆ m.printings cfg := by
  induction hVisits with
  | start => exact ⟨hNotSpent, List.Subset.refl _⟩
  | @next m' m'' _ hStarts ih =>
    obtain ⟨hThere, hSubset⟩ := ih
    refine ⟨not_spent_of_starts hStarts hThere, fun e hMem => hSubset ?_⟩
    rw [m'.printings_eq]
    have hCourse := mem_course_of_starts hStarts hThere
    exact List.mem_append_left _ (List.mem_flatMap.mpr ⟨m'', hCourse, hMem⟩)

/-- The executions in a run are those at the moments that it visits. -/
theorem Moment.mem_printings_iff (hNotSpent : ¬ m.Spent cfg) {e : Printing} :
    e ∈ m.printings cfg ↔ Visits cfg m e.moment ∧ e.Occurs cfg := by
  refine ⟨visits_of_mem_printings, fun ⟨hVisits, hOccurs⟩ => ?_⟩
  refine (printings_of_visits hVisits hNotSpent).2 ?_
  rw [e.moment.printings_eq]
  exact List.mem_append_right _ (mem_own.mpr ⟨rfl, hOccurs⟩)

/-! ## What has been printed -/

/-- Executions happen one after the other, each when exactly the values before it have been
printed: those in the first list, and those of the earlier executions. The last list is what has
been printed in the end. -/
inductive Recorded : List Value → List Printing → List Value → Prop
  | nil {before} : Recorded before [] before
  | cons {e es final} (h : Recorded (e.state.printed.toList ++ [e.value]) es final) :
      Recorded e.state.printed.toList (e :: es) final

namespace Recorded

variable {before middle final : List Value} {es fs : List Printing}

theorem append (h : Recorded before es middle) (hMore : Recorded middle fs final) :
    Recorded before (es ++ fs) final := by
  induction h with
  | nil => exact hMore
  | cons _ ih => exact .cons (ih hMore)

theorem final_eq (h : Recorded before es final) : final = before ++ es.map Printing.value := by
  induction h with
  | nil => exact (List.append_nil _).symm
  | cons _ ih => rw [ih, List.map_cons, List.append_assoc, List.singleton_append]

/-- An execution finds printed what the earlier ones print. -/
theorem printed_eq (h : Recorded before es final) {k : Nat} {e : Printing}
    (hAt : es[k]? = some e) :
    e.state.printed.toList = before ++ (es.take k).map Printing.value := by
  induction h generalizing k with
  | nil => cases hAt
  | cons _ ih =>
    cases k with
    | zero =>
      cases hAt
      exact (List.append_nil _).symm
    | succ k =>
      rw [ih hAt, List.take_succ_cons, List.map_cons, List.append_assoc, List.singleton_append]

/-- No execution happens twice. -/
theorem nodup (h : Recorded before es final) : es.Nodup := by
  refine List.nodup_iff_getElem?_ne_getElem?.mpr fun i j hLess hEnd hSame => ?_
  have hAt : es[j]? = some es[j] := List.getElem?_eq_getElem hEnd
  -- The same execution would find two different numbers of values printed.
  have hStates := (h.printed_eq (hSame.trans hAt)).symm.trans (h.printed_eq hAt)
  have hLengths := congrArg List.length hStates
  simp only [List.length_append, List.length_map, List.length_take] at hLengths
  omega

end Recorded

/-- Moments follow one another, each in a state in which what is printed is what the one before it
has left. -/
inductive Chained (cfg : Setting) : List Value → List Moment → List Value → Prop
  | nil {before} : Chained cfg before [] before
  | cons {m : Moment} {ms final}
      (h : Chained cfg (after (m.outcome cfg)).printed.toList ms final) :
      Chained cfg m.state.printed.toList (m :: ms) final

/-- Where moments follow one another, so do the executions of their runs. -/
theorem Chained.recorded {before final : List Value} {ms : List Moment}
    (h : Chained cfg before ms final)
    (hParts : ∀ m ∈ ms, Recorded m.state.printed.toList (m.printings cfg)
      (after (m.outcome cfg)).printed.toList) :
    Recorded before (ms.flatMap (Moment.printings cfg)) final := by
  induction h with
  | nil => exact .nil
  | cons _ ih =>
    rw [List.flatMap_cons]
    obtain ⟨hFirst, hRest⟩ := List.forall_mem_cons.mp hParts
    exact hFirst.append (ih hRest)

variable {α β : Type} {x : Effect α} {f : α → Effect β} {course : Course}

/-- The effect prints nothing. -/
def Silent (x : Effect α) : Prop := ∀ s, (after (x s)).printed = s.printed

/-- All that an effect prints is printed in the evaluations on a course. -/
def Tracks (cfg : Setting) (x : Effect α) (course : Course) : Prop :=
  ∀ s, Chained cfg s.printed.toList (course s) (after (x s)).printed.toList

theorem Silent.tracks (h : Silent x) : Tracks cfg x .done := by
  intro s
  rw [h s]
  exact .nil

theorem silent_bind (h : Silent x) (hNext : ∀ a, Silent (f a)) : Silent (x >>= f) := by
  intro s
  have hFirst := h s
  cases hResult : x s with
  | ok a t =>
    rw [hResult] at hFirst
    rw [bind_of_ok hResult, hNext a t]
    exact hFirst
  | error stop t =>
    rw [hResult] at hFirst
    rw [bind_of_error hResult]
    exact hFirst

theorem tracks_operand {f : Value → Effect β} (h : ∀ v, Tracks cfg (f v) (next v)) :
    Tracks cfg (eval cfg fuel id env >>= f) (operandCourse cfg fuel env id next) := by
  intro s
  have hOutcome : Moment.outcome cfg ⟨fuel, id, env, s⟩ = eval cfg fuel id env s := rfl
  refine Chained.cons (m := ⟨fuel, id, env, s⟩) ?_
  rw [hOutcome]
  cases hResult : eval cfg fuel id env s with
  | ok v t =>
    rw [bind_of_ok hResult]
    exact h v t
  | error stop t =>
    rw [bind_of_error hResult]
    exact .nil

theorem tracks_lastOperand :
    Tracks cfg (eval cfg fuel id env) (operandCourse cfg fuel env id fun _ => .done) := by
  rw [← bind_pure (eval cfg fuel id env)]
  exact tracks_operand fun _ => Silent.tracks fun _ => rfl

theorem tracks_condition {f : Bool → Effect β} {next : Bool → Course}
    (h : ∀ truth, Tracks cfg (f truth) (next truth)) :
    Tracks cfg (conditionWith cfg (eval cfg fuel) id env >>= f)
      (conditionCourse cfg fuel env id next) := by
  unfold conditionWith
  rw [bind_assoc]
  refine tracks_operand fun v => ?_
  cases v with
  | bool truth =>
    rw [pure_bind]
    exact h truth
  | _ => exact Silent.tracks fun _ => rfl

theorem tracks_loop {condition body : NodeId} (n : Nat) (last : Value) :
    Tracks cfg
      (loopWith (conditionWith cfg (eval cfg fuel) condition env) (eval cfg fuel body env) n last)
      (loopCourse cfg fuel env condition body n) := by
  induction n generalizing last with
  | zero => exact Silent.tracks fun _ => rfl
  | succ n ih =>
    refine tracks_condition fun more => ?_
    cases more with
    | false => exact Silent.tracks fun _ => rfl
    | true => exact tracks_operand fun v => ih v

theorem tracks_arguments {f : List Value → Effect β} {next : List Value → Course}
    (h : ∀ values, Tracks cfg (f values) (next values)) (ids : List NodeId) :
    Tracks cfg (argumentsWith (eval cfg fuel) env ids >>= f)
      (argumentsCourse cfg fuel env next ids) := by
  induction ids generalizing f next with
  | nil =>
    rw [argumentsWith, pure_bind]
    exact h []
  | cons id ids ih =>
    rw [argumentsWith, bind_assoc]
    refine tracks_operand fun v => ?_
    rw [bind_assoc]
    simp only [pure_bind]
    exact ih fun vs => h (v :: vs)

theorem silent_declare (env : ScopeId) (name : Name) (value : Value) (site : Option Span) :
    Silent (declare env name value site) := by
  intro s
  rw [declare_eq]
  split <;> rfl

theorem silent_bindParams (env : ScopeId) (site : Option Span) (names : List Name)
    (values : List Value) : Silent (bindParams env site names values) := by
  induction names generalizing values with
  | nil => exact fun _ => rfl
  | cons name names ih => exact silent_bind (silent_declare _ _ _ _) fun _ => ih _

theorem silent_enter (c : Closure) (args : List Value) (span : Span) :
    Silent (enter cfg c args span) := by
  refine silent_bind (fun s => ?_) fun params => silent_bind (fun _ => rfl) fun env =>
    silent_bind (silent_bindParams _ _ _ _) fun _ _ => rfl
  rw [permit_eq]
  split
  · rfl
  · split
    · rfl
    · split <;> rfl

theorem tracks_apply (c : Closure) (args : List Value) (span : Span) :
    Tracks cfg (applyWith cfg (eval cfg fuel) c args span) (bodyCourse cfg fuel c args span) := by
  intro s
  have hSilent : (after (enter cfg c args span s)).printed = s.printed := silent_enter c args span s
  rw [applyWith_eq_enter]
  unfold bodyCourse
  cases hEnter : enter cfg c args span s with
  | error stop t =>
    rw [hEnter] at hSilent
    rw [bind_of_error hEnter, ← hSilent]
    exact .nil
  | ok env t =>
    rw [hEnter] at hSilent
    rw [bind_of_ok hEnter, ← hSilent]
    refine Chained.cons (m := ⟨fuel, c.body, env, { t with depth := t.depth + 1 }⟩) ?_
    have hAfter : (after (entered (eval cfg fuel c.body env) t)).printed
        = (after (eval cfg fuel c.body env { t with depth := t.depth + 1 })).printed := by
      unfold entered
      cases eval cfg fuel c.body env { t with depth := t.depth + 1 } <;> rfl
    rw [hAfter]
    exact .nil

/-- All that the evaluation of a node prints, unless it is a print, is printed in what it starts. -/
theorem tracks_node {n : Node} (hNode : cfg.table.node? id = some n)
    (hOther : ∀ a, n.form ≠ .print a) :
    Tracks cfg (eval cfg (fuel + 1) id env) (nodeCourse cfg fuel env n) := by
  have hLevel : eval cfg (fuel + 1) id env = nodeWith cfg fuel (eval cfg fuel) id env := rfl
  rw [hLevel]
  unfold nodeWith
  rw [hNode]
  obtain ⟨form, span⟩ := n
  cases form with
  | print a => exact absurd rfl (hOther a)
  | int | bool | null | ref | function => exact Silent.tracks fun _ => rfl
  | binary op a b =>
    refine tracks_operand fun v => tracks_operand fun w => ?_
    cases op.apply v w <;> exact Silent.tracks fun _ => rfl
  | branch c a b =>
    refine tracks_condition fun holds => ?_
    cases holds with
    | true => exact tracks_lastOperand
    | false =>
      cases b with
      | none => exact Silent.tracks fun _ => rfl
      | some b => exact tracks_lastOperand
  | loop c b => exact tracks_loop fuel .null
  | sequence a b => exact tracks_operand fun _ => tracks_lastOperand
  | declare name a =>
    refine tracks_operand fun v => Silent.tracks ?_
    exact silent_bind (silent_declare _ _ _ _) fun _ _ => rfl
  | assign name a =>
    refine tracks_operand fun v => Silent.tracks (silent_bind (fun s => ?_) fun _ _ => rfl)
    rw [assign_eq]
    rfl
  | call f args =>
    refine tracks_operand fun v => ?_
    cases v with
    | closure c =>
      dsimp only
      cases cfg.table.args? args with
      | none => exact Silent.tracks fun _ => rfl
      | some ids => exact tracks_arguments (fun values => tracks_apply c values span) ids
    | _ => exact Silent.tracks fun _ => rfl

/-- In the evaluation of a print, its operand is evaluated, and then its value is printed. -/
theorem eval_print {a : NodeId} (hNode : cfg.table.node? id = some ⟨.print a, span⟩) :
    eval cfg (fuel + 1) id env s = match eval cfg fuel a env s with
      | .ok v t => .ok v { t with printed := t.printed.push v }
      | .error stop t => .error stop t := by
  have hLevel : eval cfg (fuel + 1) id env s = (eval cfg fuel a env >>= fun v =>
      print v >>= fun _ => Pure.pure v) s := by
    change nodeWith cfg fuel (eval cfg fuel) id env s = _
    unfold nodeWith
    rw [hNode]
    rfl
  rw [hLevel]
  cases hResult : eval cfg fuel a env s with
  | ok v t =>
    rw [bind_of_ok hResult]
    rfl
  | error stop t => rw [bind_of_error hResult]

/-- A print prints its value after what its operand prints. -/
theorem recorded_print {a : NodeId} (hNode : cfg.table.node? id = some ⟨.print a, span⟩)
    (hOperand : Recorded s.printed.toList (Moment.printings cfg ⟨fuel, a, env, s⟩)
      (after (eval cfg fuel a env s)).printed.toList) :
    Recorded s.printed.toList (Moment.printings cfg ⟨fuel + 1, id, env, s⟩)
      (after (eval cfg (fuel + 1) id env s)).printed.toList := by
  have hCourse : Moment.course cfg ⟨fuel + 1, id, env, s⟩ = [⟨fuel, a, env, s⟩] := by
    rw [course_of_node hNode]
    change operandCourse cfg fuel env a (fun _ => .done) s = _
    unfold operandCourse
    cases eval cfg fuel a env s <;> rfl
  rw [Moment.printings_eq, hCourse, List.flatMap_singleton, eval_print hNode]
  cases hResult : eval cfg fuel a env s with
  | ok v t =>
    rw [hResult] at hOperand
    rw [own_of_ok hNode hResult]
    refine hOperand.append ?_
    dsimp only [after]
    rw [Array.toList_push]
    exact Recorded.cons (e := ⟨⟨fuel + 1, id, env, s⟩, v, t⟩) .nil
  | error stop t =>
    have hOwn : Moment.own cfg ⟨fuel + 1, id, env, s⟩ = [] := by
      unfold Moment.own
      dsimp only
      rw [hNode]
      dsimp only
      rw [hResult]
    rw [hResult] at hOperand
    rw [hOwn, List.append_nil]
    exact hOperand

/-- In a run, each execution of a print finds printed what was printed at the start and what the
earlier executions print, and all of them together print what is printed besides in the end. -/
theorem Moment.records (cfg : Setting) (m : Moment) :
    Recorded m.state.printed.toList (m.printings cfg) (after (m.outcome cfg)).printed.toList := by
  obtain ⟨fuel, id, env, s⟩ := m
  induction fuel generalizing id env s with
  | zero => exact .nil
  | succ fuel ih =>
    have hParts : ∀ m ∈ Moment.course cfg ⟨fuel + 1, id, env, s⟩,
        Recorded m.state.printed.toList (m.printings cfg)
          (after (m.outcome cfg)).printed.toList := by
      rintro ⟨fuel', id', env', s'⟩ hMem
      obtain rfl : fuel = fuel' := Nat.succ.inj (fuel_of_mem_course hMem)
      exact ih id' env' s'
    cases hNode : cfg.table.node? id with
    | none =>
      have hNone : Moment.printings cfg ⟨fuel + 1, id, env, s⟩ = [] := by
        simp [Moment.printings_eq, Moment.course, Moment.own, hNode]
      have hAbsent : eval cfg (fuel + 1) id env s = .error (.fault .dangling) s := by
        change nodeWith cfg fuel (eval cfg fuel) id env s = _
        unfold nodeWith
        rw [hNode]
        rfl
      rw [hNone, Moment.outcome, hAbsent]
      exact .nil
    | some n =>
      by_cases hPrint : ∃ a, n.form = .print a
      · obtain ⟨form, span⟩ := n
        obtain ⟨a, rfl⟩ := hPrint
        exact recorded_print hNode (ih a env s)
      · have hOther : ∀ a, n.form ≠ .print a := fun a hForm => hPrint ⟨a, hForm⟩
        rw [Moment.printings_eq, own_of_not_print hNode hOther, List.append_nil]
        refine Chained.recorded ?_ hParts
        rw [course_of_node hNode]
        exact tracks_node hNode hOther s

end FeatherScript.Eval
