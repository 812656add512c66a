import FeatherScript.Proofs.Eval.Lockstep
import FeatherScript.Proofs.Eval.Moment

/-!
# Loops and branches in a row

A loop that ends has made a number of full rounds, in each of which its condition held and its body
had a value, and then was left at a test or failed. Branches in a row, all with the condition and
the body of the loop, make one round each. So one branch more than there are full rounds ends in the
state in which the loop ends, with the same error if there is one. The value of the loop is that of
as many branches as there are full rounds, while the last branch, at which the loop is left, is
null.

* `NodeTable.Unrolled`: branches in a row.
* `Concludes`: an effect ends, with enough fuel; `Steady`: more fuel changes nothing.
* `Rounds`, `LastRound`: the full rounds of a loop, and how it ends after them.
* `loop_unrolls`: a loop and its unrolling.
-/

namespace FeatherScript

/-- A node joins a number of branches by sequences, all with the given condition and body. -/
inductive NodeTable.Unrolled (t : NodeTable) (condition body : NodeId) : Nat → NodeId → Prop
  | once {id span} (hNode : t.node? id = some ⟨.branch condition body none, span⟩) :
      t.Unrolled condition body 1 id
  | joined {m n first second id span} (hNode : t.node? id = some ⟨.sequence first second, span⟩)
      (hFirst : t.Unrolled condition body m first)
      (hSecond : t.Unrolled condition body n second) : t.Unrolled condition body (m + n) id

theorem NodeTable.Unrolled.pos {t : NodeTable} {condition body id : NodeId} {n : Nat}
    (h : t.Unrolled condition body n id) : 0 < n := by
  induction h with
  | once => exact Nat.one_pos
  | joined _ _ _ ihFirst _ => exact Nat.add_pos_left ihFirst _

namespace Eval

open Effect

variable {α β : Type} {cfg : Setting} {c b id : NodeId} {env : ScopeId} {s t u : State} {n : Nat}
  {v w : Value}

/-! ## Enough fuel -/

/-- With enough fuel an effect ends, with a value or an error of the program. -/
def Concludes (x : Nat → Effect α) (s : State) (result : Except EvalError α) (t : State) : Prop :=
  ∃ fuel, (x fuel).settle s = .ok (result, t)

/-- More fuel changes nothing but that the fuel may suffice. -/
def Steady (x : Nat → Effect α) : Prop :=
  ∀ n m, n ≤ m → Approximates (· = ·) (x n) (x m)

theorem settle_congr {x y : Effect α} (h : x s = y t) : x.settle s = y.settle t := by
  unfold settle
  rw [h]

theorem settle_of_approximates {x y : Effect α} (h : Approximates (· = ·) x y)
    {result : Except EvalError α} (hEnd : x.settle s = .ok (result, t)) :
    y.settle s = .ok (result, t) := by
  rw [settle_eq_ok] at hEnd
  rcases h s with ⟨u, hOut⟩ | hAgree
  · rw [hOut] at hEnd
    cases result <;> cases hEnd
  · rw [settle_eq_ok, ← hAgree.eq fun _ _ hStop => hStop, hEnd]

theorem settle_bind_cases {x : Effect α} {f : α → Effect β} {result : Except EvalError β}
    (h : (x >>= f).settle s = .ok (result, t)) :
    (∃ a u, x.settle s = .ok (.ok a, u) ∧ (f a).settle u = .ok (result, t)) ∨
      ∃ e, result = .error e ∧ x.settle s = .ok (.error e, t) := by
  cases hFirst : x s with
  | ok a u =>
    have hNext := (settle_congr (bind_of_ok (f := f) hFirst)).symm.trans h
    exact .inl ⟨a, u, settle_eq_ok.mpr hFirst, hNext⟩
  | error stop u =>
    have hStop := (bind_of_error hFirst f).symm.trans (settle_eq_ok.mp h)
    cases result with
    | ok a => cases hStop
    | error e =>
      cases hStop
      exact .inr ⟨e, rfl, settle_eq_ok.mpr hFirst⟩

namespace Concludes

variable {x y : Nat → Effect α} {f : α → Nat → Effect β} {a : α} {result : Except EvalError β}

/-- What concludes, concludes where each amount of fuel is made up for by another one. -/
theorem of_approximates {result : Except EvalError α} (h : Concludes x s result t)
    (hMore : ∀ n, ∃ m, Approximates (· = ·) (x n) (y m)) : Concludes y s result t := by
  obtain ⟨n, hEnd⟩ := h
  obtain ⟨m, hApproximates⟩ := hMore n
  exact ⟨m, settle_of_approximates hApproximates hEnd⟩

theorem bind (hSteady : Steady x) (hSteadyNext : Steady (f a)) (hFirst : Concludes x s (.ok a) u)
    (hNext : Concludes (f a) u result t) :
    Concludes (fun n => x n >>= fun a => f a n) s result t := by
  obtain ⟨n, hFirst⟩ := hFirst
  obtain ⟨m, hNext⟩ := hNext
  have hFirst := settle_of_approximates (hSteady n (max n m) (Nat.le_max_left n m)) hFirst
  have hNext := settle_of_approximates (hSteadyNext m (max n m) (Nat.le_max_right n m)) hNext
  exact ⟨max n m, (settle_congr (bind_of_ok (settle_eq_ok.mp hFirst))).trans hNext⟩

theorem bind_error {e : EvalError} (h : Concludes x s (.error e) t) :
    Concludes (fun n => x n >>= fun a => f a n) s (.error e) t := by
  obtain ⟨n, hFirst⟩ := h
  exact ⟨n, settle_eq_ok.mpr (bind_of_error (settle_eq_ok.mp hFirst) _)⟩

end Concludes

theorem approximates_refl (x : Effect α) : Approximates (· = ·) x x :=
  fun s => .inr (agree_refl (fun _ => rfl) (fun _ => rfl) (fun _ => rfl) (x s))

theorem steady_eval (cfg : Setting) (id : NodeId) (env : ScopeId) :
    Steady fun n => eval cfg n id env :=
  fun _ _ hLess => eval_approximates cfg hLess id env

theorem steady_condition (cfg : Setting) (c : NodeId) (env : ScopeId) :
    Steady fun n => conditionWith cfg (eval cfg n) c env :=
  fun _ _ hLess => (moreFuel cfg).coupling.conditionWith_rel (d := 0)
    ((moreFuel cfg).coupling.eval_rel hLess trivial rfl)

/-! ## Rounds -/

/-- The test of a condition ends with a truth value, or fails. -/
def Tests (cfg : Setting) (c : NodeId) (env : ScopeId) (s : State) (result : Except EvalError Bool)
    (t : State) : Prop :=
  Concludes (fun n => conditionWith cfg (eval cfg n) c env) s result t

/-- A number of full rounds of a loop, in each of which the condition holds and then the body has a
value. They lead from one last value of the body and state to another. -/
inductive Rounds (cfg : Setting) (c b : NodeId) (env : ScopeId) :
    Nat → Value → State → Value → State → Prop
  | none {last : Value} {start : State} : Rounds cfg c b env 0 last start last start
  | next {k : Nat} {last value final : Value} {start tested done finish : State}
      (hTest : Tests cfg c env start (.ok true) tested)
      (hBody : Settles cfg b env tested (.ok value) done)
      (hRest : Rounds cfg c b env k value done final finish) :
      Rounds cfg c b env (k + 1) last start final finish

/-- A loop comes to its end in a round that is not a full one. -/
inductive LastRound (cfg : Setting) (c b : NodeId) (env : ScopeId) (last : Value) (s : State) :
    Except EvalError Value → State → Prop
  | left {finish : State} (hTest : Tests cfg c env s (.ok false) finish) :
      LastRound cfg c b env last s (.ok last) finish
  | test {e : EvalError} {finish : State} (hTest : Tests cfg c env s (.error e) finish) :
      LastRound cfg c b env last s (.error e) finish
  | body {e : EvalError} {tested finish : State} (hTest : Tests cfg c env s (.ok true) tested)
      (hBody : Settles cfg b env tested (.error e) finish) :
      LastRound cfg c b env last s (.error e) finish

/-- Rounds in a row are rounds before and rounds after. -/
theorem Rounds.exists_between {m : Nat} (h : Rounds cfg c b env (m + n) v s w t) :
    ∃ value u, Rounds cfg c b env m v s value u ∧ Rounds cfg c b env n value u w t := by
  induction m generalizing v s with
  | zero => exact ⟨v, s, .none, (Nat.zero_add n) ▸ h⟩
  | succ m ih =>
    rw [Nat.succ_add] at h
    cases h with
    | next hTest hBody hRest =>
      obtain ⟨value, u, hBefore, hAfter⟩ := ih hRest
      exact ⟨value, u, .next hTest hBody hBefore, hAfter⟩

/-! ## Loops -/

/-- The rounds of a loop whose last value so far is given. -/
def loopFrom (cfg : Setting) (c b : NodeId) (env : ScopeId) (last : Value) (n : Nat) :
    Effect Value :=
  loopWith (conditionWith cfg (eval cfg n) c env) (eval cfg n b env) n last

theorem loopWith_approximates {n m k l : Nat} (hFuel : n ≤ m) (hRuns : k ≤ l) (last : Value) :
    Approximates (· = ·)
      (loopWith (conditionWith cfg (eval cfg n) c env) (eval cfg n b env) k last)
      (loopWith (conditionWith cfg (eval cfg m) c env) (eval cfg m b env) l last) := by
  have hCondition := steady_condition cfg c env n m hFuel
  exact (moreFuel cfg).imp ((moreFuel cfg).coupling.loopWith_rel (d := 0) hRuns hCondition
    ((moreFuel cfg).coupling.eval_rel hFuel trivial rfl) (.of_eq (fun _ => rfl) last))
    fun _ _ => Value.Like.eq

theorem steady_loopFrom (cfg : Setting) (c b : NodeId) (env : ScopeId) (last : Value) :
    Steady (loopFrom cfg c b env last) :=
  fun _ _ hLess => loopWith_approximates hLess hLess last

/-- A loop makes a test, and then either runs its body and goes on or is left. -/
def oneRound (cfg : Setting) (c b : NodeId) (env : ScopeId) (last : Value) (more : Bool) (n : Nat) :
    Effect Value :=
  if more then eval cfg n b env >>= fun value => loopFrom cfg c b env value n else pure last

theorem steady_oneRound (cfg : Setting) (c b : NodeId) (env : ScopeId) (last : Value)
    (more : Bool) : Steady (oneRound cfg c b env last more) := by
  intro n m hLess
  cases more with
  | false => exact approximates_refl (pure last)
  | true =>
    refine approximates_bind (steady_eval cfg b env n m hLess) ?_
    rintro value _ rfl
    exact steady_loopFrom cfg c b env value n m hLess

theorem concludes_loopFrom {last : Value} {result : Except EvalError Value}
    (h : Concludes (fun n => conditionWith cfg (eval cfg n) c env >>= fun more =>
      oneRound cfg c b env last more n) s result t) :
    Concludes (loopFrom cfg c b env last) s result t := by
  refine h.of_approximates fun n => ⟨n + 1, ?_⟩
  refine approximates_bind (steady_condition cfg c env n (n + 1) n.le_succ) ?_
  rintro more _ rfl
  cases more with
  | false => exact approximates_refl (pure last)
  | true =>
    refine approximates_bind (steady_eval cfg b env n (n + 1) n.le_succ) ?_
    rintro value _ rfl
    exact loopWith_approximates n.le_succ (Nat.le_refl n) value

theorem Rounds.concludes {result : Except EvalError Value} (h : Rounds cfg c b env n v s w u)
    (hLast : LastRound cfg c b env w u result t) :
    Concludes (loopFrom cfg c b env v) s result t := by
  induction h with
  | none =>
    apply concludes_loopFrom
    cases hLast with
    | left hTest =>
      exact hTest.bind (steady_condition cfg c env) (steady_oneRound cfg c b env _ false) ⟨0, rfl⟩
    | test hTest => exact hTest.bind_error
    | body hTest hBody =>
      refine hTest.bind (steady_condition cfg c env) (steady_oneRound cfg c b env _ true) ?_
      exact Concludes.bind_error hBody
  | next hTest hBody _ ih =>
    apply concludes_loopFrom
    refine hTest.bind (steady_condition cfg c env) (steady_oneRound cfg c b env _ true) ?_
    exact Concludes.bind (steady_eval cfg b env) (steady_loopFrom cfg c b env _) hBody (ih hLast)

/-- The rounds that a loop has made when it ends. -/
theorem exists_rounds {fuel k : Nat} {result : Except EvalError Value}
    (h : (loopWith (conditionWith cfg (eval cfg fuel) c env) (eval cfg fuel b env) k v).settle s
      = .ok (result, t)) :
    ∃ n w u, Rounds cfg c b env n v s w u ∧ LastRound cfg c b env w u result t := by
  induction k generalizing v s with
  | zero => cases h
  | succ k ih =>
    rcases settle_bind_cases h with ⟨more, u, hTest, h⟩ | ⟨e, rfl, hTest⟩
    · cases more with
      | false =>
        cases h
        exact ⟨0, v, s, .none, .left ⟨fuel, hTest⟩⟩
      | true =>
        rcases settle_bind_cases h with ⟨value, r, hBody, h⟩ | ⟨e, rfl, hBody⟩
        · obtain ⟨n, w, r', hRounds, hLast⟩ := ih h
          exact ⟨n + 1, w, r', .next ⟨fuel, hTest⟩ ⟨fuel, hBody⟩ hRounds, hLast⟩
        · exact ⟨0, v, s, .none, .body ⟨fuel, hTest⟩ ⟨fuel, hBody⟩⟩
    · exact ⟨0, v, s, .none, .test ⟨fuel, hTest⟩⟩

/-! ## Nodes -/

theorem eval_loop {span : Span} (hNode : cfg.table.node? id = some ⟨.loop c b, span⟩) (n : Nat)
    (env : ScopeId) : eval cfg (n + 1) id env = loopFrom cfg c b env .null n := by
  rw [eval, nodeWith, hNode]
  rfl

/-- A loop ends as it comes to its end after full rounds. -/
theorem settles_loop_iff {span : Span} (hNode : cfg.table.node? id = some ⟨.loop c b, span⟩)
    {result : Except EvalError Value} :
    Settles cfg id env s result t ↔ Concludes (loopFrom cfg c b env .null) s result t := by
  constructor
  · rintro ⟨fuel, hEnd⟩
    cases fuel with
    | zero => cases hEnd
    | succ n => exact ⟨n, eval_loop hNode n env ▸ hEnd⟩
  · rintro ⟨n, hEnd⟩
    exact ⟨n + 1, (eval_loop hNode n env).symm ▸ hEnd⟩

/-- What a branch without alternative does after its test. -/
def oneBranch (cfg : Setting) (b : NodeId) (env : ScopeId) (holds : Bool) (n : Nat) :
    Effect Value :=
  if holds then eval cfg n b env else pure .null

theorem steady_oneBranch (cfg : Setting) (b : NodeId) (env : ScopeId) (holds : Bool) :
    Steady (oneBranch cfg b env holds) := by
  cases holds with
  | false => exact fun _ _ _ => approximates_refl (pure Value.null)
  | true => exact steady_eval cfg b env

theorem settles_branch {span : Span}
    (hNode : cfg.table.node? id = some ⟨.branch c b none, span⟩) {result : Except EvalError Value}
    (h : Concludes (fun n => conditionWith cfg (eval cfg n) c env >>= fun holds =>
      oneBranch cfg b env holds n) s result t) :
    Settles cfg id env s result t := by
  obtain ⟨n, hEnd⟩ := h
  refine ⟨n + 1, ?_⟩
  rw [eval, nodeWith, hNode]
  exact hEnd

theorem settles_sequence {first second : NodeId} {span : Span}
    (hNode : cfg.table.node? id = some ⟨.sequence first second, span⟩)
    {result : Except EvalError Value}
    (h : Concludes (fun n => eval cfg n first env >>= fun _ => eval cfg n second env) s result t) :
    Settles cfg id env s result t := by
  obtain ⟨n, hEnd⟩ := h
  refine ⟨n + 1, ?_⟩
  rw [eval, nodeWith, hNode]
  exact hEnd

/-! ## Branches in a row -/

/-- As many branches as there are full rounds have the value of the last one. -/
theorem settles_of_rounds (hUnrolled : cfg.table.Unrolled c b n id)
    (h : Rounds cfg c b env n v s w t) : Settles cfg id env s (.ok w) t := by
  induction hUnrolled generalizing v s w t with
  | once hNode =>
    cases h with
    | next hTest hBody hRest =>
      cases hRest with
      | none =>
        exact settles_branch hNode (hTest.bind (steady_condition cfg c env)
          (steady_oneBranch cfg b env true) hBody)
  | joined hNode _ _ ihFirst ihSecond =>
    obtain ⟨value, u, hBefore, hAfter⟩ := h.exists_between
    exact settles_sequence hNode (Concludes.bind (steady_eval cfg _ env) (steady_eval cfg _ env)
      (ihFirst hBefore) (ihSecond hAfter))

/-- A branch more makes the last round too. Where the loop is left, this branch is null. -/
theorem settles_of_lastRound {m : Nat} (hUnrolled : cfg.table.Unrolled c b m id)
    (hCount : m = n + 1) {result : Except EvalError Value} (h : Rounds cfg c b env n v s w u)
    (hLast : LastRound cfg c b env w u result t) :
    Settles cfg id env s (result.map fun _ => .null) t := by
  induction hUnrolled generalizing n v s with
  | once hNode =>
    obtain rfl : n = 0 := by omega
    cases h
    apply settles_branch hNode
    cases hLast with
    | left hTest =>
      exact hTest.bind (steady_condition cfg c env) (steady_oneBranch cfg b env false) ⟨0, rfl⟩
    | test hTest => exact hTest.bind_error
    | body hTest hBody =>
      exact hTest.bind (steady_condition cfg c env) (steady_oneBranch cfg b env true) hBody
  | @joined first more _ _ _ _ hNode hFirst hSecond _ ihSecond =>
    have hPos := hSecond.pos
    obtain ⟨rest, rfl⟩ : ∃ rest, more = rest + 1 := ⟨more - 1, by omega⟩
    obtain rfl : n = first + rest := by omega
    obtain ⟨value, r, hBefore, hAfter⟩ := h.exists_between
    exact settles_sequence hNode (Concludes.bind (steady_eval cfg _ env) (steady_eval cfg _ env)
      (settles_of_rounds hFirst hBefore) (ihSecond rfl hAfter))

/-! ## Loops -/

/-- A loop ends when it has made some full rounds and comes to its end in the round after them. Then
one branch more than that ends in the same state, with the same error or, where the loop is left,
with null. The value of the loop is null without full rounds, and else that of as many branches. -/
theorem loop_unrolls {span : Span} (hLoop : cfg.table.node? id = some ⟨.loop c b, span⟩)
    (env : ScopeId) (s : State) :
    (∀ result t, Settles cfg id env s result t ↔ ∃ n last u,
      Rounds cfg c b env n .null s last u ∧ LastRound cfg c b env last u result t) ∧
    ∀ {n last u result t}, Rounds cfg c b env n .null s last u →
      LastRound cfg c b env last u result t →
      (∀ chain, cfg.table.Unrolled c b (n + 1) chain →
        Settles cfg chain env s (result.map fun _ => .null) t) ∧
      ∀ value, result = .ok value → (n = 0 → value = .null) ∧
        ∀ chain, cfg.table.Unrolled c b n chain → Settles cfg chain env s (.ok value) u := by
  refine ⟨fun result t => ?_, fun {n last u result t} hRounds hLast => ⟨?_, ?_⟩⟩
  · rw [settles_loop_iff hLoop]
    constructor
    · rintro ⟨fuel, hEnd⟩
      exact exists_rounds hEnd
    · rintro ⟨n, last, u, hRounds, hLast⟩
      exact hRounds.concludes hLast
  · exact fun chain hUnrolled => settles_of_lastRound hUnrolled rfl hRounds hLast
  · rintro value rfl
    cases hLast with
    | left _ =>
      refine ⟨fun hNone => ?_, fun chain hUnrolled => settles_of_rounds hUnrolled hRounds⟩
      subst hNone
      cases hRounds
      rfl

/-- The table of `while (i < 1) print(i = i + 1);`, with the loop at 8, and at 11 two branches in a
row that share its condition and its body. -/
def countingLoop : NodeTable :=
  ⟨#[⟨.ref ⟨1⟩, ⟨7, 8⟩⟩, ⟨.int 1, ⟨11, 12⟩⟩, ⟨.binary .less 0 1, ⟨7, 12⟩⟩, ⟨.ref ⟨1⟩, ⟨24, 25⟩⟩,
    ⟨.int 1, ⟨28, 29⟩⟩, ⟨.binary .add 3 4, ⟨24, 29⟩⟩, ⟨.assign ⟨1⟩ 5, ⟨20, 29⟩⟩,
    ⟨.print 6, ⟨14, 30⟩⟩, ⟨.loop 2 7, ⟨0, 31⟩⟩, ⟨.branch 2 7 none, ⟨0, 31⟩⟩,
    ⟨.branch 2 7 none, ⟨0, 31⟩⟩, ⟨.sequence 9 10, ⟨0, 31⟩⟩], #[], #[]⟩

/-- A state in which `i` has a value, after some values were printed. -/
def counted (i : Int64) (printed : Array Value) : State :=
  ⟨⟨#[⟨[(⟨1⟩, .int i)], none⟩]⟩, printed, 0, 0⟩

/-- The loop makes one full round. The two branches end as it does, and the first of them has its
value. -/
theorem loop_unrolls_counting :
    countingLoop.node? 8 = some ⟨.loop 2 7, ⟨0, 31⟩⟩ ∧
    Settles ⟨countingLoop, .strict, 1⟩ 8 0 (counted 0 #[]) (.ok (.int 1)) (counted 1 #[.int 1]) ∧
    Settles ⟨countingLoop, .strict, 1⟩ 11 0 (counted 0 #[]) (.ok .null) (counted 1 #[.int 1]) ∧
    Settles ⟨countingLoop, .strict, 1⟩ 9 0 (counted 0 #[]) (.ok (.int 1))
      (counted 1 #[.int 1]) := by
  have hLoop : (Setting.mk countingLoop .strict 1).table.node? 8 = some ⟨.loop 2 7, ⟨0, 31⟩⟩ := rfl
  obtain ⟨hEnds, hUnrolls⟩ := loop_unrolls hLoop 0 (counted 0 #[])
  have hHolds : Tests ⟨countingLoop, .strict, 1⟩ 2 0 (counted 0 #[]) (.ok true) (counted 0 #[]) :=
    ⟨3, by with_unfolding_all rfl⟩
  have hBody : Settles ⟨countingLoop, .strict, 1⟩ 7 0 (counted 0 #[]) (.ok (.int 1))
      (counted 1 #[.int 1]) := ⟨4, by with_unfolding_all rfl⟩
  have hLeft : Tests ⟨countingLoop, .strict, 1⟩ 2 0 (counted 1 #[.int 1]) (.ok false)
      (counted 1 #[.int 1]) := ⟨3, by with_unfolding_all rfl⟩
  have hRounds : Rounds ⟨countingLoop, .strict, 1⟩ 2 7 0 1 .null (counted 0 #[]) (.int 1)
      (counted 1 #[.int 1]) := .next hHolds hBody .none
  have hLast : LastRound ⟨countingLoop, .strict, 1⟩ 2 7 0 (.int 1) (counted 1 #[.int 1])
      (.ok (.int 1)) (counted 1 #[.int 1]) := .left hLeft
  obtain ⟨hChain, hValue⟩ := hUnrolls hRounds hLast
  refine ⟨hLoop, (hEnds _ _).mpr ⟨1, _, _, hRounds, hLast⟩, ?_, ?_⟩
  · exact hChain 11 (.joined rfl (.once rfl) (.once rfl))
  · exact (hValue _ rfl).2 9 (.once rfl)

end Eval

end FeatherScript
