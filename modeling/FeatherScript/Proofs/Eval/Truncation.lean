import FeatherScript.Proofs.Eval.Lockstep

/-!
# Runs that are cut off

A lower limit on the depth of calls, or a stricter policy for missing arguments, refuses some
applications that are made otherwise. It changes nothing before the first of them. So a run under it
either goes like the other one to its end or is cut off, by an error that says what was refused, and
has printed the beginning of what the other one prints.

* `Truncates`: an effect follows another one until it is cut off.
* `truncation`: it is enough to look at the checks of applications.
* `limit_truncates`: lower limits on the depth of calls.
* `strict_truncates`: the strict policy.
-/

namespace FeatherScript

/-- An application was refused because too many calls are nested. -/
def EvalCause.IsOverflow (cause : EvalCause) : Prop := ∃ limit, cause = .stackOverflow limit

/-- An application was refused because arguments are missing. -/
def EvalCause.IsArityMismatch (cause : EvalCause) : Prop :=
  ∃ expected supplied, cause = .arityMismatch expected supplied

namespace Eval

open Effect

variable {α β α' β' : Type} {refused cut : EvalCause → Prop} {cfg cfg' : Setting} {s t u : State}

/-- A result is an error with a cause of some kind. -/
def Fails (kind : EvalCause → Prop) (result : Except EvalError Value) : Prop :=
  ∃ e, result = .error e ∧ kind e.cause

/-! ## Cutting off -/

/-- The same cause, which refuses no application. -/
def SameUnrefused (refused : EvalCause → Prop) (stop stop' : Stop) : Prop :=
  stop = stop' ∧ ∀ e, stop = .failed e → ¬ refused e.cause

/-- An effect was cut off by an error, and printed the beginning of what another one printed. -/
def CutOff (cut : EvalCause → Prop) (r : EStateM.Result Stop State α)
    (r' : EStateM.Result Stop State β) : Prop :=
  ∃ e t, r' = .error (.failed e) t ∧ cut e.cause ∧ t.Prints (after r)

/-- The second effect follows the first one, and neither refuses an application, until the second
one is cut off. -/
structure Truncates (refused cut : EvalCause → Prop) (P : α → β → Prop) (x : Effect α)
    (y : Effect β) : Prop where
  prints : ∀ s : State, s.Prints (after (x s))
  total : ∀ {s a t}, x s = .ok a t → ∃ b, P a b
  follows : ∀ s, Agree (· = ·) (SameUnrefused refused) P (x s) (y s) ∨ CutOff cut (x s) (y s)

/-- What an effect printed is not taken back by the rest. -/
theorem prints_bind {x : Effect α} {f : α → Effect α'}
    (hNext : ∀ {s a t}, x s = .ok a t → t.Prints (after (f a t))) (s : State) :
    (after (x s)).Prints (after ((x >>= f) s)) := by
  cases hResult : x s with
  | ok a t =>
    rw [bind_of_ok hResult]
    exact hNext hResult
  | error stop t =>
    rw [bind_of_error hResult]
    exact .refl t

namespace Truncates

variable {P : α → β → Prop} {Q : α' → β' → Prop} {x : Effect α} {y : Effect β}
  {f : α → Effect α'} {g : β → Effect β'}

theorem pure {a : α} {b : β} (h : P a b) : Truncates refused cut P (Pure.pure a) (Pure.pure b) := by
  refine ⟨.refl, fun {s c t} hResult => ?_, fun s => .inl (.ok h rfl)⟩
  cases hResult
  exact ⟨b, h⟩

theorem bind (h : Truncates refused cut P x y)
    (hNext : ∀ a b, P a b → Truncates refused cut Q (f a) (g b)) :
    Truncates refused cut Q (x >>= f) (y >>= g) := by
  -- Where the second effect is cut off in its first step, the first one goes on and prints more.
  have hRest : ∀ s : State, (after (x s)).Prints (after ((x >>= f) s)) := by
    refine prints_bind fun {s a t} hResult => ?_
    obtain ⟨b, hSame⟩ := h.total hResult
    exact (hNext a b hSame).prints t
  refine ⟨fun s => (h.prints s).trans (hRest s), fun {s c u} hResult => ?_, fun s => ?_⟩
  · obtain ⟨a, t, hFirst, hSecond⟩ := exists_of_bind_ok hResult
    obtain ⟨b, hSame⟩ := h.total hFirst
    exact (hNext a b hSame).total hSecond
  · rcases h.follows s with hAgree | ⟨e, t, hStop, hCut, hPrints⟩
    · exact agree_bind (R := fun r r' => Agree _ _ Q r r' ∨ CutOff cut r r') hAgree
        (fun a b t hSame => (hNext a b hSame).follows t)
        fun _ _ _ hCause => .inl (.error hCause rfl)
    · exact .inr ⟨e, t, bind_of_error hStop g, hCut, hPrints.trans (hRest s)⟩

theorem of_plain {x : Effect α} (hRefused : ∀ cause, refused cause → cause.Refusal)
    (h : Plain x) : Truncates refused cut (· = ·) x x := by
  refine ⟨h.prints, fun {s a t} _ => ⟨a, rfl⟩, fun s => .inl ?_⟩
  cases hResult : x s with
  | ok a t => exact .ok rfl rfl
  | error stop t =>
    refine .error ⟨rfl, fun e hFailed hRefusal => ?_⟩ rfl
    rw [hFailed] at hResult
    exact h.error hResult (hRefused _ hRefusal)

theorem entered (h : Truncates refused cut P x y) :
    Truncates refused cut P (Effect.entered x) (Effect.entered y) := by
  have hAfter : ∀ s : State, (after (Effect.entered x s)).printed
      = (after (x { s with depth := s.depth + 1 })).printed := by
    intro s
    unfold Effect.entered
    cases x { s with depth := s.depth + 1 } <;> rfl
  refine ⟨fun s => ?_, fun {s a t} hResult => ?_, fun s => ?_⟩
  · unfold State.Prints
    rw [hAfter]
    exact h.prints { s with depth := s.depth + 1 }
  · unfold Effect.entered at hResult
    split at hResult
    · next hInner =>
      cases hResult
      exact h.total hInner
    · cases hResult
  · rcases h.follows { s with depth := s.depth + 1 } with hAgree | ⟨e, t, hStop, hCut, hPrints⟩
    · exact .inl (agree_entered hAgree)
    · right
      refine ⟨e, { t with depth := t.depth - 1 }, ?_, hCut, ?_⟩
      · rw [Effect.entered, hStop]
      · unfold State.Prints
        rw [hAfter]
        exact hPrints

end Truncates

/-- One run follows another one until it is cut off, if this is so for the checks of every
application. -/
def truncation (cfg cfg' : Setting) (hTable : cfg.SameTable cfg')
    (hRefused : ∀ cause, refused cause → cause.Refusal)
    (hPermit : ∀ c supplied span, Truncates refused cut (· = ·) (permit cfg c supplied span)
      (permit cfg' c supplied span)) : Lockstep cfg cfg' where
  Rel := Truncates refused cut
  Fuel := (· = ·)
  sameTable := hTable
  pure := .pure
  bind := .bind
  plain := .of_plain hRefused
  spent {α β n P y} hFuel hSpent := by
    have hPlain : Plain (throw (.fault .outOfFuel) : Effect Empty) := .fault .outOfFuel
    rw [hSpent hFuel.symm]
    exact Truncates.bind (f := fun a => a.elim) (g := fun a => a.elim)
      (.of_plain hRefused hPlain) fun a _ _ => a.elim
  burn {n n'} h := ⟨n, h.symm, rfl⟩
  permit := hPermit
  entered := .entered

section Ends

variable {id : NodeId} {env : ScopeId} {result : Except EvalError Value}
  (h : ∀ fuel, Truncates refused cut (· = ·) (eval cfg fuel id env) (eval cfg' fuel id env))

include h

/-- Where the one run ends, the other one ends in the same way or is cut off. -/
theorem settles_or_cut (hEnds : Settles cfg id env s result t) :
    (Settles cfg' id env s result t ∧ ¬ Fails refused result) ∨
      ∃ e u, Settles cfg' id env s (.error e) u ∧ cut e.cause ∧ u.Prints t := by
  obtain ⟨fuel, hRun⟩ := hEnds
  rw [settle_eq_ok] at hRun
  have hFollows := (h fuel).follows s
  rw [hRun] at hFollows
  rcases hFollows with hAgree | ⟨e, u, hStop, hCut, hPrints⟩
  · refine .inl ⟨⟨fuel, settle_eq_ok.mpr (hAgree.eq fun _ _ => And.left).symm⟩, ?_⟩
    rintro ⟨e, rfl, hRefused⟩
    generalize eval cfg' fuel id env s = r at hAgree
    cases hAgree with
    | error hCause hState => exact hCause.2 e rfl hRefused
  · refine .inr ⟨e, u, ⟨fuel, settle_eq_ok.mpr hStop⟩, hCut, ?_⟩
    cases result with
    | ok a => exact hPrints
    | error e => exact hPrints

/-- Where the other run ends without being cut off, the one run ends in the same way. -/
theorem settles_of_not_cut (hEnds : Settles cfg' id env s result t) (hCut : ¬ Fails cut result) :
    Settles cfg id env s result t := by
  obtain ⟨fuel, hRun⟩ := hEnds
  rw [settle_eq_ok] at hRun
  have hFollows := (h fuel).follows s
  rw [hRun] at hFollows
  refine ⟨fuel, settle_eq_ok.mpr ?_⟩
  rcases hFollows with hAgree | ⟨e, u, hStop, hCause, -⟩
  · exact hAgree.eq fun _ _ => And.left
  · cases result with
    | ok a => cases hStop
    | error _ =>
      cases hStop
      exact absurd ⟨e, rfl, hCause⟩ hCut

end Ends

/-! ## Checks -/

theorem truncates_of_checks {x y : Effect (List Name)} (hState : ∀ s, after (x s) = s)
    (hSame : ∀ s, (y s = x s ∧ ∀ e, x s = .error (.failed e) s → ¬ refused e.cause) ∨
      ∃ e, y s = .error (.failed e) s ∧ cut e.cause) :
    Truncates refused cut (· = ·) x y := by
  refine ⟨fun s => ?_, fun {s a t} _ => ⟨a, rfl⟩, fun s => ?_⟩
  · rw [hState s]
    exact .refl s
  · rcases hSame s with ⟨hSame, hUnrefused⟩ | ⟨e, hStop, hCut⟩
    · left
      have hAfter := hState s
      rw [hSame]
      cases hResult : x s with
      | ok a t => exact .ok rfl rfl
      | error stop t =>
        rw [hResult] at hAfter
        refine .error ⟨rfl, fun e hFailed => hUnrefused e ?_⟩ rfl
        rw [hResult, hFailed, ← hAfter]
        rfl
    · right
      refine ⟨e, s, hStop, hCut, ?_⟩
      rw [hState s]
      exact .refl s

theorem after_permit (cfg : Setting) (c : Closure) (supplied : Nat) (span : Span) (s : State) :
    after (permit cfg c supplied span s) = s := by
  rw [permit_eq]
  split
  · rfl
  · split
    · rfl
    · split <;> rfl

/-! ## Limits on the depth of calls -/

/-- A lower limit refuses an application where a higher one may not. -/
theorem permit_lower (table : NodeTable) (policy : ArityPolicy) {low high : Nat}
    (hLimits : low ≤ high) (c : Closure) (supplied : Nat) (span : Span) :
    Truncates EvalCause.IsOverflow (· = .stackOverflow low) (· = ·)
      (permit ⟨table, policy, high⟩ c supplied span)
      (permit ⟨table, policy, low⟩ c supplied span) := by
  refine truncates_of_checks (after_permit _ c supplied span) fun s => ?_
  rw [permit_eq, permit_eq]
  by_cases hLow : low ≤ s.depth
  · right
    exact ⟨⟨.stackOverflow low, some span⟩, if_pos hLow, rfl⟩
  · have hHigh : ¬ high ≤ s.depth := by omega
    left
    rw [if_neg hLow, if_neg hHigh]
    refine ⟨rfl, fun e hError => ?_⟩
    rintro ⟨limit, hCause⟩
    split at hError
    · cases hError
    · split at hError
      · cases hError
        cases hCause
      · cases hError

/-- A lower limit on the depth of calls changes a run in nothing but that it may cut it off, with an
overflow of that limit. -/
theorem limit_truncates (table : NodeTable) (policy : ArityPolicy) {low high : Nat}
    (hLimits : low ≤ high) (id : NodeId) (env : ScopeId) (s : State) :
    (∀ result t, Settles ⟨table, policy, high⟩ id env s result t →
      (Settles ⟨table, policy, low⟩ id env s result t ∧ ¬ Fails EvalCause.IsOverflow result) ∨
      ∃ e u, Settles ⟨table, policy, low⟩ id env s (.error e) u ∧ e.cause = .stackOverflow low ∧
        u.printed.toList <+: t.printed.toList) ∧
    ∀ result t, Settles ⟨table, policy, low⟩ id env s result t →
      ¬ Fails EvalCause.IsOverflow result → Settles ⟨table, policy, high⟩ id env s result t := by
  have hRefusal : ∀ cause : EvalCause, cause.IsOverflow → cause.Refusal :=
    fun cause ⟨_, hCause⟩ => hCause ▸ trivial
  have hRuns := fun fuel => (truncation ⟨table, policy, high⟩ ⟨table, policy, low⟩ rfl hRefusal
    (permit_lower table policy hLimits)).eval_rel (Eq.refl fuel) id env
  refine ⟨fun result t hEnds => settles_or_cut hRuns hEnds, fun result t hEnds hOther => ?_⟩
  refine settles_of_not_cut hRuns hEnds fun ⟨e, hError, hCause⟩ => ?_
  exact hOther ⟨e, hError, low, hCause⟩

/-- The table of `(function () { print(1); (function () print(2);)(); })();`, with root 8. -/
def nestedCalls : NodeTable :=
  ⟨#[⟨.int 1, ⟨21, 22⟩⟩, ⟨.print 0, ⟨15, 23⟩⟩, ⟨.int 2, ⟨44, 45⟩⟩, ⟨.print 2, ⟨38, 46⟩⟩,
    ⟨.function ⟨0, 0⟩ 3, ⟨26, 47⟩⟩, ⟨.call 4 ⟨0, 0⟩, ⟨26, 50⟩⟩, ⟨.sequence 1 5, ⟨15, 50⟩⟩,
    ⟨.function ⟨0, 0⟩ 6, ⟨1, 53⟩⟩, ⟨.call 7 ⟨0, 0⟩, ⟨1, 56⟩⟩], #[], #[]⟩

/-- With a limit of one the inner call is cut off, after what the outer one printed. -/
theorem limit_truncates_nestedCalls : 1 ≤ 2 ∧ ∃ t e u,
    Settles ⟨nestedCalls, .bindNull, 2⟩ 8 Scopes.global .initial (.ok (.int 2)) t ∧
    Settles ⟨nestedCalls, .bindNull, 1⟩ 8 Scopes.global .initial (.error e) u ∧
    e.cause = .stackOverflow 1 ∧ u.printed.toList <+: t.printed.toList := by
  have hLimits : 1 ≤ 2 := by decide
  have hHigh : Settles ⟨nestedCalls, .bindNull, 2⟩ 8 Scopes.global .initial (.ok (.int 2)) _ :=
    ⟨6, rfl⟩
  have hLow : Settles ⟨nestedCalls, .bindNull, 1⟩ 8 Scopes.global .initial
      (.error ⟨.stackOverflow 1, some ⟨26, 50⟩⟩) _ := ⟨6, rfl⟩
  obtain ⟨hBelow, -⟩ := limit_truncates nestedCalls .bindNull hLimits 8 Scopes.global .initial
  rcases hBelow _ _ hHigh with ⟨hSame, -⟩ | ⟨e, u, hEnds, hCause, hPrinted⟩
  · cases (hSame.unique hLow).1
  · exact ⟨hLimits, _, e, u, hHigh, hEnds, hCause, hPrinted⟩

/-! ## Missing arguments -/

/-- The strict policy refuses an application where the other one does not. -/
theorem permit_strict (table : NodeTable) (limit : Nat) (c : Closure) (supplied : Nat)
    (span : Span) :
    Truncates EvalCause.IsArityMismatch EvalCause.IsArityMismatch (· = ·)
      (permit ⟨table, .bindNull, limit⟩ c supplied span)
      (permit ⟨table, .strict, limit⟩ c supplied span) := by
  refine truncates_of_checks (after_permit _ c supplied span) fun s => ?_
  rw [permit_eq, permit_eq]
  by_cases hDepth : limit ≤ s.depth
  · rw [if_pos hDepth, if_pos hDepth]
    refine .inl ⟨rfl, fun e hError => ?_⟩
    cases hError
    nofun
  · rw [if_neg hDepth, if_neg hDepth]
    cases table.params? c.params with
    | none => exact .inl ⟨rfl, nofun⟩
    | some params =>
      by_cases hArity : supplied < params.length
      · exact .inr ⟨_, if_pos ⟨rfl, hArity⟩, _, _, rfl⟩
      · exact .inl ⟨if_neg fun h => hArity h.2, nofun⟩

/-- Without the strict policy no application is refused for missing arguments. -/
theorem permit_bindNull (table : NodeTable) (limit : Nat) (c : Closure) (supplied : Nat)
    (span : Span) :
    Truncates EvalCause.IsArityMismatch (fun _ => False) (· = ·)
      (permit ⟨table, .bindNull, limit⟩ c supplied span)
      (permit ⟨table, .bindNull, limit⟩ c supplied span) := by
  refine truncates_of_checks (after_permit _ c supplied span) fun s => .inl ⟨rfl, ?_⟩
  intro e hError
  rw [permit_eq] at hError
  rintro ⟨expected, supplied, hCause⟩
  split at hError
  · cases hError
    cases hCause
  · split at hError
    · cases hError
    · cases hError

/-- The strict policy changes a run in nothing but that it may cut it off, for missing arguments;
otherwise they are null and no cause for an error. -/
theorem strict_truncates (table : NodeTable) (limit : Nat) (id : NodeId) (env : ScopeId)
    (s : State) :
    (∀ result t, Settles ⟨table, .bindNull, limit⟩ id env s result t →
      ¬ Fails EvalCause.IsArityMismatch result) ∧
    (∀ result t, Settles ⟨table, .strict, limit⟩ id env s result t →
      ¬ Fails EvalCause.IsArityMismatch result →
      Settles ⟨table, .bindNull, limit⟩ id env s result t) ∧
    ∀ result t, Settles ⟨table, .bindNull, limit⟩ id env s result t →
      Settles ⟨table, .strict, limit⟩ id env s result t ∨
      ∃ e u, Settles ⟨table, .strict, limit⟩ id env s (.error e) u ∧ e.cause.IsArityMismatch ∧
        u.printed.toList <+: t.printed.toList := by
  have hRefusal : ∀ cause : EvalCause, cause.IsArityMismatch → cause.Refusal :=
    fun cause ⟨_, _, hCause⟩ => hCause ▸ trivial
  have hRuns := fun fuel => (truncation ⟨table, .bindNull, limit⟩ ⟨table, .strict, limit⟩ rfl
    hRefusal (permit_strict table limit)).eval_rel (Eq.refl fuel) id env
  have hNever := fun fuel => (truncation ⟨table, .bindNull, limit⟩ ⟨table, .bindNull, limit⟩ rfl
    hRefusal (permit_bindNull table limit)).eval_rel (Eq.refl fuel) id env
  refine ⟨fun result t hEnds => ?_, fun result t hEnds hOther => ?_, fun result t hEnds => ?_⟩
  · rcases settles_or_cut hNever hEnds with ⟨-, hOther⟩ | ⟨e, u, -, hCut, -⟩
    · exact hOther
    · exact hCut.elim
  · exact settles_of_not_cut hRuns hEnds hOther
  · exact (settles_or_cut hRuns hEnds).imp_left And.left

/-- The table of `print(1); (function (x) print(2);)();`, with root 6. -/
def missingArgument : NodeTable :=
  ⟨#[⟨.int 1, ⟨6, 7⟩⟩, ⟨.print 0, ⟨0, 8⟩⟩, ⟨.int 2, ⟨30, 31⟩⟩, ⟨.print 2, ⟨24, 32⟩⟩,
    ⟨.function ⟨0, 1⟩ 3, ⟨11, 33⟩⟩, ⟨.call 4 ⟨0, 0⟩, ⟨11, 36⟩⟩, ⟨.sequence 1 5, ⟨0, 36⟩⟩],
    #[], #[⟨1⟩]⟩

/-- The strict policy cuts the call off, after what was printed before it. -/
theorem strict_truncates_missingArgument : ∃ t e u,
    Settles ⟨missingArgument, .bindNull, 1⟩ 6 Scopes.global .initial (.ok (.int 2)) t ∧
    Settles ⟨missingArgument, .strict, 1⟩ 6 Scopes.global .initial (.error e) u ∧
    e.cause.IsArityMismatch ∧ u.printed.toList <+: t.printed.toList := by
  have hLenient : Settles ⟨missingArgument, .bindNull, 1⟩ 6 Scopes.global .initial
      (.ok (.int 2)) _ := ⟨4, rfl⟩
  have hStrict : Settles ⟨missingArgument, .strict, 1⟩ 6 Scopes.global .initial
      (.error ⟨.arityMismatch 1 0, some ⟨11, 36⟩⟩) _ := ⟨4, rfl⟩
  obtain ⟨-, -, hEither⟩ := strict_truncates missingArgument 1 6 Scopes.global .initial
  rcases hEither _ _ hLenient with hSame | ⟨e, u, hEnds, hCause, hPrinted⟩
  · cases (hSame.unique hStrict).1
  · exact ⟨_, e, u, hLenient, hEnds, hCause, hPrinted⟩

end Eval

end FeatherScript
