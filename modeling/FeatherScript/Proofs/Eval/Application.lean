import FeatherScript.Proofs.Eval.Moment
import FeatherScript.Proofs.Scope.Rooted
import Mathlib.Data.List.Induction
import Mathlib.Data.List.Nodup
import Mathlib.Tactic.ByContra

/-!
# Applications as far as the body

An application passes three checks in turn: the depth, the number of the arguments, and for each
parameter that no earlier one has its name. The last check comes while the parameters are bound, but
what is bound then lies in a scope of its own, which nothing refers to when the check fails. So an
application that is refused leaves everything as it was, and one that is not reaches the body in a
new scope that binds the parameters and nothing else.

* `Reaches`, `FailsWith`: how an application goes on, whatever the body would do.
* `Rejects`: the first check that is not passed.
* `Scopes.bindAll`: scopes with parameters bound in one of them.
* `Admits.reaches`, `Rejects.fails`: an application that passes all checks, and one that does not.
* `applyWith_binds`: when it does which, and what it leaves.
-/

namespace FeatherScript

namespace Scopes

/-! ## Bound parameters -/

/-- The scopes with names bound in one of them, to values in order and to null where there is none
left. -/
def bindAll (g : Scopes) (env : ScopeId) : List Name → List Value → Scopes
  | [], _ => g
  | name :: names, args => bindAll (g.write env name (args.head?.getD .null)) env names args.tail

variable {g : Scopes} {id env : ScopeId} {names : List Name} {name : Name} {v : Value}

theorem parent?_bindAll (names : List Name) (args : List Value) :
    (g.bindAll env names args).parent? id = g.parent? id := by
  induction names generalizing g args with
  | nil => rfl
  | cons name names ih => rw [bindAll, ih, parent?_write]

theorem scope?_bindAll_of_ne (hOther : id ≠ env) (names : List Name) (args : List Value) :
    (g.bindAll env names args).scope? id = g.scope? id := by
  induction names generalizing g args with
  | nil => rfl
  | cons name names ih => rw [bindAll, ih, scope?_write, if_neg (Ne.symm hOther)]

theorem lookup?_bindAll_of_not_mem (hOther : name ∉ names) (args : List Value) :
    (g.bindAll env names args).lookup? env name = g.lookup? env name := by
  induction names generalizing g args with
  | nil => rfl
  | cons first names ih =>
    obtain ⟨hFirst, hRest⟩ := not_or.mp (mt List.mem_cons.mpr hOther)
    rw [bindAll, ih hRest, lookup?_write_of_ne (.inr hFirst)]

theorem binds_bindAll_iff (hEnv : env < g.all.size) (args : List Value) :
    (g.bindAll env names args).binds env name = true ↔ g.binds env name = true ∨ name ∈ names := by
  induction names generalizing g args with
  | nil => simp [bindAll]
  | cons first names ih =>
    rw [bindAll, ih (size_write.symm ▸ hEnv), binds_write_iff hEnv, List.mem_cons, or_assoc,
      and_iff_right rfl, eq_comm (a := first)]

/-- Of names that differ, each is bound to the value at its place. -/
theorem lookup?_bindAll (hEnv : env < g.all.size) (hNames : names.Nodup) {i : Nat}
    (hName : names[i]? = some name) (args : List Value) :
    (g.bindAll env names args).lookup? env name = some (args[i]?.getD .null) := by
  induction names generalizing g args i with
  | nil => cases hName
  | cons first names ih =>
    obtain ⟨hFirst, hRest⟩ := List.nodup_cons.mp hNames
    rw [bindAll]
    cases i with
    | zero =>
      -- Later parameters have other names, so the first binding stays as it is.
      cases hName
      rw [lookup?_bindAll_of_not_mem hFirst, lookup?_write_self hEnv, List.head?_eq_getElem?]
    | succ i =>
      rw [ih (size_write.symm ▸ hEnv) hRest hName, List.getElem?_tail]

end Scopes

/-- Where names are not all different, one of them is the first to repeat another. -/
theorem exists_first_repeat {names : List Name} (h : ¬ names.Nodup) :
    ∃ before name after, names = before ++ name :: after ∧ before.Nodup ∧ name ∈ before := by
  induction names using List.reverseRecOn with
  | nil => exact absurd List.nodup_nil h
  | append_singleton names last ih =>
    by_cases hNames : names.Nodup
    · refine ⟨names, last, [], rfl, hNames, ?_⟩
      by_contra hLast
      exact h (List.nodup_append.mpr ⟨hNames, List.nodup_singleton last, by
        rintro a hMem b hOnly rfl
        exact hLast (List.mem_singleton.mp hOnly ▸ hMem)⟩)
    · obtain ⟨before, name, after, rfl, hBefore, hTwice⟩ := ih hNames
      exact ⟨before, name, after ++ [last], by simp, hBefore, hTwice⟩

namespace Eval

open Effect

variable {cfg : Setting} {c : Closure} {args : List Value} {span : Span} {s t t' : State}
  {env env' : ScopeId} {params names : List Name} {name : Name} {e e' : EvalError}

/-! ## How an application goes on -/

/-- An application comes to the body of the closure in a scope, whatever the body then does. -/
def Reaches (cfg : Setting) (c : Closure) (args : List Value) (span : Span) (s : State)
    (env : ScopeId) (t : State) : Prop :=
  ∀ ev : Evaluator, applyWith cfg ev c args span s = entered (ev c.body env) t

/-- An application fails, whatever the body would do. -/
def FailsWith (cfg : Setting) (c : Closure) (args : List Value) (span : Span) (s : State)
    (e : EvalError) (t : State) : Prop :=
  ∀ ev : Evaluator, applyWith cfg ev c args span s = .error (.failed e) t

/-- The first check that an application does not pass, and the error that it fails with. -/
inductive Rejects (cfg : Setting) (params : List Name) (args : List Value) (span : Span)
    (s : State) : EvalError → Prop
  | overflow (hDepth : cfg.maxDepth ≤ s.depth) :
      Rejects cfg params args span s ⟨.stackOverflow cfg.maxDepth, some span⟩
  | arity (hDepth : s.depth < cfg.maxDepth) (hStrict : cfg.policy = .strict)
      (hFewer : args.length < params.length) :
      Rejects cfg params args span s ⟨.arityMismatch params.length args.length, some span⟩
  | repeated {before name after} (hDepth : s.depth < cfg.maxDepth)
      (hArity : cfg.policy = .bindNull ∨ params.length ≤ args.length)
      (hParams : params = before ++ name :: after) (hBefore : before.Nodup)
      (hTwice : name ∈ before) :
      Rejects cfg params args span s ⟨.alreadyDeclared name, some span⟩

/-- An application passes all checks. -/
structure Admits (cfg : Setting) (params : List Name) (args : List Value) (s : State) : Prop where
  depth : s.depth < cfg.maxDepth
  arity : cfg.policy = .bindNull ∨ params.length ≤ args.length
  distinct : params.Nodup

/-- What was there in a state is in another one, as it was. Scopes may have been made. -/
structure State.Retains (s t : State) : Prop where
  scopes : ∀ id < s.scopes.all.size, t.scopes.scope? id = s.scopes.scope? id
  printed : t.printed = s.printed
  closures : t.closures = s.closures
  depth : t.depth = s.depth

/-- A scope is new, lies inside the scope of a closure, and binds the parameters to the arguments,
those without an argument to null. It binds nothing else. -/
structure BindsExactly (c : Closure) (params : List Name) (args : List Value) (s : State)
    (env : ScopeId) (t : State) : Prop where
  fresh : s.scopes.scope? env = none
  parent : t.scopes.parent? env = some c.scope
  bindings : ∀ name v, t.scopes.lookup? env name = some v ↔
    ∃ i : Nat, params[i]? = some name ∧ v = args[i]?.getD .null

/-! ## Binding parameters -/

theorem bindParams_append (before after : List Name) (args : List Value) (span : Option Span) :
    bindParams env span (before ++ after) args = (do
      bindParams env span before args
      bindParams env span after (args.drop before.length)) := by
  induction before generalizing args with
  | nil => simp [bindParams]
  | cons name before ih => simp [bindParams, ih]

/-- Names that differ and are not bound yet are all bound. -/
theorem bindParams_of_free (hEnv : env < s.scopes.all.size) (hNames : names.Nodup)
    (hFree : ∀ name ∈ names, s.scopes.binds env name = false) (args : List Value)
    (span : Option Span) :
    bindParams env span names args s
      = .ok () { s with scopes := s.scopes.bindAll env names args } := by
  induction names generalizing s args with
  | nil => rfl
  | cons name names ih =>
    obtain ⟨hName, hRest⟩ := List.nodup_cons.mp hNames
    have hDeclare : declare env name (args.head?.getD .null) span s
        = .ok () { s with scopes := s.scopes.write env name (args.head?.getD .null) } := by
      rw [declare_eq, hFree name List.mem_cons_self, if_neg Bool.false_ne_true]
    refine (bind_of_ok hDeclare).trans (ih (Scopes.size_write.symm ▸ hEnv) hRest ?_ args.tail)
    intro other hMem
    have hOther : ¬ s.scopes.binds env other = true := by
      rw [hFree other (List.mem_cons_of_mem _ hMem)]
      exact Bool.false_ne_true
    refine Bool.eq_false_iff.mpr fun hBinds => ?_
    rcases (Scopes.binds_write_iff hEnv).mp hBinds with hBefore | ⟨-, rfl⟩
    · exact hOther hBefore
    · exact hName hMem

/-- The first name that repeats another one stops the binding, with those before it bound. -/
theorem bindParams_of_repeat {before after : List Name} (hEnv : env < s.scopes.all.size)
    (hBefore : before.Nodup) (hFree : ∀ name ∈ before, s.scopes.binds env name = false)
    (hTwice : name ∈ before) (args : List Value) (span : Option Span) :
    bindParams env span (before ++ name :: after) args s
      = .error (.failed ⟨.alreadyDeclared name, span⟩)
          { s with scopes := s.scopes.bindAll env before args } := by
  have hBound := (Scopes.binds_bindAll_iff hEnv args).mpr (.inr hTwice)
  rw [bindParams_append, bind_of_ok (bindParams_of_free hEnv hBefore hFree args span)]
  refine bind_of_error ?_ _
  rw [declare_eq, if_pos hBound]

/-! ## Applications -/

theorem admits_or_rejects (cfg : Setting) (params : List Name) (args : List Value) (span : Span)
    (s : State) : Admits cfg params args s ∨ ∃ e, Rejects cfg params args span s e := by
  rcases Nat.lt_or_ge s.depth cfg.maxDepth with hDepth | hDepth
  · by_cases hArity : cfg.policy = .bindNull ∨ params.length ≤ args.length
    · by_cases hNames : params.Nodup
      · exact .inl ⟨hDepth, hArity, hNames⟩
      · obtain ⟨before, name, after, hSplit, hBefore, hTwice⟩ := exists_first_repeat hNames
        exact .inr ⟨_, .repeated hDepth hArity hSplit hBefore hTwice⟩
    · obtain ⟨hPolicy, hFewer⟩ := not_or.mp hArity
      have hStrict : cfg.policy = .strict := by
        cases hCase : cfg.policy with
        | bindNull => exact absurd hCase hPolicy
        | strict => rfl
      exact .inr ⟨_, .arity hDepth hStrict (Nat.lt_of_not_le hFewer)⟩
  · exact .inr ⟨_, .overflow hDepth⟩

/-- The state in which the parameters of an application are bound. -/
abbrev opened (c : Closure) (s : State) : State :=
  { s with scopes := (s.scopes.enclose c.scope).2 }

/-- An application that passes the checks of depth and arity comes to the binding. -/
theorem applyWith_of_arity (hParams : cfg.table.params? c.params = some params)
    (hDepth : s.depth < cfg.maxDepth)
    (hArity : cfg.policy = .bindNull ∨ params.length ≤ args.length) (ev : Evaluator) :
    applyWith cfg ev c args span s =
      (bindParams s.scopes.all.size (some span) params args >>= fun _ =>
        entered (ev c.body s.scopes.all.size)) (opened c s) := by
  have hNotFewer : ¬ (cfg.policy = .strict ∧ args.length < params.length) := by
    rintro ⟨hStrict, hFewer⟩
    rcases hArity with hPolicy | hEnough
    · cases hStrict.symm.trans hPolicy
    · exact absurd hEnough (Nat.not_le_of_lt hFewer)
  rw [applyWith_eq, if_neg (Nat.not_le_of_lt hDepth), hParams]
  exact if_neg hNotFewer

theorem opened_free (name : Name) :
    (opened c s).scopes.binds s.scopes.all.size name = false := by
  refine Bool.eq_false_iff.mpr fun hBinds => ?_
  rw [Scopes.binds_enclose] at hBinds
  exact Nat.lt_irrefl _ (Scopes.lt_size_of_binds hBinds)

/-- Parameters bound in a scope of their own leave the other scopes as they were. -/
theorem retains_bindAll (names : List Name) (args : List Value) :
    s.Retains { s with
      scopes := (opened c s).scopes.bindAll s.scopes.all.size names args } where
  scopes _ hOld := by
    rw [Scopes.scope?_bindAll_of_ne (Nat.ne_of_lt hOld), Scopes.scope?_enclose_of_lt hOld]
  printed := rfl
  closures := rfl
  depth := rfl

theorem bindsExactly_bindAll (hNames : params.Nodup) (args : List Value) :
    BindsExactly c params args s s.scopes.all.size { s with
      scopes := (opened c s).scopes.bindAll s.scopes.all.size params args } := by
  have hEnv : s.scopes.all.size < (opened c s).scopes.all.size := Scopes.lt_size_enclose _ _
  refine ⟨Array.getElem?_eq_none (Nat.le_refl _), ?_, fun name v => ⟨fun hLookup => ?_, ?_⟩⟩
  · rw [Scopes.parent?_bindAll, Scopes.parent?, Scopes.scope?_enclose, if_pos rfl,
      Option.bind_some]
  · have hBinds := Scopes.binds_eq_isSome.trans (congrArg Option.isSome hLookup)
    have hMem : name ∈ params := by
      rcases (Scopes.binds_bindAll_iff hEnv args).mp hBinds with hBefore | hMem
      · rw [opened_free] at hBefore
        cases hBefore
      · exact hMem
    obtain ⟨i, hPlace⟩ := List.mem_iff_getElem?.mp hMem
    have hValue := Scopes.lookup?_bindAll hEnv hNames hPlace args
    exact ⟨i, hPlace, Option.some.inj (hLookup.symm.trans hValue)⟩
  · rintro ⟨i, hPlace, rfl⟩
    exact Scopes.lookup?_bindAll hEnv hNames hPlace args

/-- An application that passes all checks reaches the body. -/
theorem Admits.reaches (h : Admits cfg params args s)
    (hParams : cfg.table.params? c.params = some params) (span : Span) :
    ∃ t, Reaches cfg c args span s s.scopes.all.size t ∧ s.Retains t ∧
      BindsExactly c params args s s.scopes.all.size t := by
  refine ⟨_, fun ev => ?_, retains_bindAll params args, bindsExactly_bindAll h.distinct args⟩
  rw [applyWith_of_arity hParams h.depth h.arity]
  exact bind_of_ok (bindParams_of_free (Scopes.lt_size_enclose _ _) h.distinct
    (fun name _ => opened_free name) args (some span))

/-- An application fails with the error of the first check that it does not pass. -/
theorem Rejects.fails (h : Rejects cfg params args span s e)
    (hParams : cfg.table.params? c.params = some params) :
    ∃ t, FailsWith cfg c args span s e t ∧ s.Retains t := by
  cases h with
  | overflow hDepth =>
    refine ⟨s, fun ev => ?_, fun _ _ => rfl, rfl, rfl, rfl⟩
    rw [applyWith_eq, if_pos hDepth]
  | arity hDepth hStrict hFewer =>
    refine ⟨s, fun ev => ?_, fun _ _ => rfl, rfl, rfl, rfl⟩
    rw [applyWith_eq, if_neg (Nat.not_le_of_lt hDepth), hParams]
    exact if_pos ⟨hStrict, hFewer⟩
  | @repeated before name after hDepth hArity hSplit hBefore hTwice =>
    -- The scope that was made for the parameters stays, with those before the repeated one.
    refine ⟨_, fun ev => ?_, retains_bindAll (c := c) before args⟩
    rw [applyWith_of_arity hParams hDepth hArity, hSplit]
    exact bind_of_error (bindParams_of_repeat (Scopes.lt_size_enclose _ _) hBefore
      (fun name _ => opened_free name) hTwice args (some span)) _

/-- An application reaches the body in one way: a body that fails may tell its scope. -/
theorem Reaches.unique (h : Reaches cfg c args span s env t)
    (h' : Reaches cfg c args span s env' t') : env = env' ∧ t = t' := by
  have hSame := (h fun _ id => Effect.fail (.stackOverflow id) none).symm.trans (h' _)
  obtain ⟨scopes, printed, closures, depth⟩ := t
  obtain ⟨scopes', printed', closures', depth'⟩ := t'
  cases hSame
  exact ⟨rfl, rfl⟩

theorem Reaches.not_failsWith (h : Reaches cfg c args span s env t) :
    ¬ FailsWith cfg c args span s e t' := by
  intro hFails
  cases (h fun _ _ => pure .null).symm.trans (hFails _)

theorem FailsWith.unique (h : FailsWith cfg c args span s e t)
    (h' : FailsWith cfg c args span s e' t') : e = e' ∧ t = t' := by
  cases (h fun _ _ => pure .null).symm.trans (h' _)
  exact ⟨rfl, rfl⟩

theorem Reaches.admits (h : Reaches cfg c args span s env t)
    (hParams : cfg.table.params? c.params = some params) : Admits cfg params args s := by
  rcases admits_or_rejects cfg params args span s with hAdmits | ⟨e, hRejects⟩
  · exact hAdmits
  · obtain ⟨t', hFails, -⟩ := hRejects.fails (c := c) hParams
    exact absurd hFails h.not_failsWith

theorem FailsWith.rejects (h : FailsWith cfg c args span s e t)
    (hParams : cfg.table.params? c.params = some params) : Rejects cfg params args span s e := by
  rcases admits_or_rejects cfg params args span s with hAdmits | ⟨e', hRejects⟩
  · obtain ⟨t', hReaches, -⟩ := hAdmits.reaches hParams span
    exact absurd h hReaches.not_failsWith
  · obtain ⟨t', hFails, -⟩ := hRejects.fails (c := c) hParams
    rwa [(h.unique hFails).1]

/-- An application reaches the body of its closure exactly when the depth is below its limit, every
parameter has an argument or may be null without one, and the parameters differ. Otherwise it fails
with the error of the first of these that does not hold, for repeated parameters that of the first
one, and leaves all scopes, the output, the number of closures and the depth as they were. The body
is reached in a new scope inside that of the closure, which binds the parameters to the arguments
and nothing else; all the rest is as it was. -/
theorem applyWith_binds (cfg : Setting) (c : Closure) (params : List Name) (args : List Value)
    (span : Span) (s : State) (hParams : cfg.table.params? c.params = some params) :
    ((∃ env t, Reaches cfg c args span s env t) ↔ Admits cfg params args s) ∧
    (∀ e, (∃ t, FailsWith cfg c args span s e t) ↔ Rejects cfg params args span s e) ∧
    (∀ e t, FailsWith cfg c args span s e t → s.Retains t) ∧
    ∀ env t, Reaches cfg c args span s env t →
      s.Retains t ∧ BindsExactly c params args s env t := by
  refine ⟨⟨?_, fun hAdmits => ?_⟩, fun e => ⟨?_, fun hRejects => ?_⟩, fun e t hFails => ?_,
    fun env t hReaches => ?_⟩
  · rintro ⟨env, t, hReaches⟩
    exact hReaches.admits hParams
  · obtain ⟨t, hReaches, -⟩ := hAdmits.reaches hParams span
    exact ⟨_, t, hReaches⟩
  · rintro ⟨t, hFails⟩
    exact hFails.rejects hParams
  · obtain ⟨t, hFails, -⟩ := hRejects.fails hParams
    exact ⟨t, hFails⟩
  · obtain ⟨t', hFails', hRetains⟩ := (hFails.rejects hParams).fails hParams
    rwa [(hFails.unique hFails').2]
  · obtain ⟨t', hReaches', hRetains, hBinds⟩ := (hReaches.admits hParams).reaches hParams span
    obtain ⟨rfl, rfl⟩ := hReaches.unique hReaches'
    exact ⟨hRetains, hBinds⟩

/-- The parameters of `function (x, y) { x; }` and of `function (x, y, y, x) { x; }`. -/
def fewAndRepeated : Setting where
  table := ⟨#[⟨.ref ⟨1⟩, ⟨0, 1⟩⟩], #[], #[⟨1⟩, ⟨2⟩, ⟨1⟩, ⟨2⟩, ⟨2⟩, ⟨1⟩]⟩
  policy := .bindNull
  maxDepth := 3

/-- A closure of two parameters applied to one argument binds the other one to null. Of the four
parameters of another one, `y` is the first to repeat. -/
theorem applyWith_binds_few :
    (∃ env t, Reaches fewAndRepeated ⟨0, ⟨0, 2⟩, 0, 0⟩ [.int 5] .origin .initial env t ∧
      t.scopes.lookup? env ⟨1⟩ = some (.int 5) ∧ t.scopes.lookup? env ⟨2⟩ = some .null ∧
      State.initial.Retains t) ∧
    ∃ t, FailsWith fewAndRepeated ⟨1, ⟨2, 4⟩, 0, 0⟩ [.int 5] .origin .initial
      ⟨.alreadyDeclared ⟨2⟩, some .origin⟩ t := by
  constructor
  · obtain ⟨hReaches, -, -, hBinds⟩ := applyWith_binds fewAndRepeated ⟨0, ⟨0, 2⟩, 0, 0⟩
      [⟨1⟩, ⟨2⟩] [.int 5] .origin .initial rfl
    obtain ⟨env, t, hBody⟩ := hReaches.mpr ⟨by decide, .inl rfl, by decide⟩
    obtain ⟨hRetains, hExactly⟩ := hBinds env t hBody
    exact ⟨env, t, hBody, (hExactly.bindings _ _).mpr ⟨0, rfl, rfl⟩,
      (hExactly.bindings _ _).mpr ⟨1, rfl, rfl⟩, hRetains⟩
  · obtain ⟨-, hFails, -⟩ := applyWith_binds fewAndRepeated ⟨1, ⟨2, 4⟩, 0, 0⟩
      [⟨1⟩, ⟨2⟩, ⟨2⟩, ⟨1⟩] [.int 5] .origin .initial rfl
    have hSplit : [⟨1⟩, ⟨2⟩, ⟨2⟩, ⟨1⟩] = [⟨1⟩, ⟨2⟩] ++ (⟨2⟩ : Name) :: [⟨1⟩] := rfl
    exact (hFails _).mpr (.repeated (by decide) (.inl rfl) hSplit (by decide) (by decide))

end Eval

end FeatherScript
